import ThresholdKms.BitwisePoly
import ThresholdKms.GaoDecoding
import ThresholdKms.Share

/-!
# Error correction of ring sharings

A sharing over the ring is decoded one digit at a time. Each round decodes the current digits of
the shares that are still valid, subtracts the lifted digit polynomial from them, and evicts the
shares that are not divisible by the next power of two. The hinted variant reuses the data that
depends only on the set of parties.
-/

namespace ThresholdKms

open GaloisRing

variable {w : ℕ} {e : ExtensionDegree} {F : Type} [Field F] [DecidableEq F] [G2p e F]

structure FieldHints (F : Type) where
  embeddedPoints : List F
  lagrangePolys : List (Poly F)
  vanishingPoly : Poly F

def computeVanishingPoly (points : List F) : Outcome (Poly F) :=
  points.foldlM (fun g xi => Poly.mul g (Poly.fromCoefs [-xi, 1])) Poly.one

def FieldHints.new (e : ExtensionDegree) [G2p e F] (store : LagrangeStore F)
    (parties : List Role) : Outcome (FieldHints F) := do
  let embeddedPoints ← parties.mapM (fieldFromExceptionalSequence e)
  let lagrangePolys ← match store.cached embeddedPoints with
    | some cached => .ok cached
    | none => lagrangePolynomials embeddedPoints
  let vanishingPoly ← computeVanishingPoly embeddedPoints
  return ⟨embeddedPoints, lagrangePolys, vanishingPoly⟩

structure ReconstructionHints (R F : Type) where
  parties : List Role
  degree : ℕ
  embeddedPoints : List R
  exceptionalPowers : List (List R)
  fieldHints : FieldHints F

variable (store : LagrangeStore F)

def ReconstructionHints.fromPartiesSorted (parties : List Role)
    (degree : ℕ) : Outcome (ReconstructionHints (GaloisRing w e) F) := do
  let embeddedPoints ← parties.mapM embedRole
  let exceptionalPowers := embeddedPoints.map (fun p => computePowers p degree)
  let fieldHints ← FieldHints.new e store parties
  return ⟨parties, degree, embeddedPoints, exceptionalPowers, fieldHints⟩

variable (sharing : ShamirSharings (GaloisRing w e))

def ReconstructionHints.new
    (degree : ℕ) : Outcome (ReconstructionHints (GaloisRing w e) F) :=
  ReconstructionHints.fromPartiesSorted store sharing.owners degree

def errorCorrection (e : ExtensionDegree) [G2p e F] (store : LagrangeStore F)
    (shares : List (Share F)) (degree maxErrors : ℕ) : Outcome (Poly F) := do
  let xs ← (shares.map Share.owner).mapM (fieldFromExceptionalSequence e)
  gaoDecoding store xs (shares.map Share.value) (degree + 1) maxErrors

def errorCorrectionWithFieldHints (shares : List (Share F)) (degree maxErrors : ℕ)
    (hints : FieldHints F) : Outcome (Poly F) :=
  gaoDecodingWithFieldHints hints.embeddedPoints (shares.map Share.value) (degree + 1) maxErrors
    hints.lagrangePolys hints.vanishingPoly

/-- A share with its validity flag. -/
abbrev FlaggedShare (w : ℕ) (e : ExtensionDegree) := Share (GaloisRing w e) × Bool

def validParties (shares : List (FlaggedShare w e)) : List Role :=
  (shares.filter Prod.snd).map (fun s => s.1.owner)

def computeBinaryShares (F : Type) [Field F] [G2p e F] (shares : List (FlaggedShare w e))
    (bitIdx : ℕ) : List (Share F) :=
  (shares.filter Prod.snd).map (fun s => ⟨s.1.owner, bitCompose F s.1.value bitIdx⟩)

def correctShare (bitwise : List ℕ) (bitIdx : ℕ) (s : FlaggedShare w e × List (GaloisRing w e)) :
    Outcome (FlaggedShare w e) :=
  if s.1.2 then do
    let value ← lazyEval bitwise s.2
    let share : Share (GaloisRing w e) := ⟨s.1.1.owner, s.1.1.value - shl value bitIdx⟩
    let isValid ← multiplePow2 share.value (bitIdx + 1)
    return (share, isValid)
  else
    return s.1

/-- The state of the digit loop. -/
structure LiftState (w : ℕ) (e : ExtensionDegree) where
  shares : List (FlaggedShare w e)
  res : Poly (GaloisRing w e)

def applyBitCorrection (s : LiftState w e) (orderedPowers : List (List (GaloisRing w e)))
    (fiMod2 : Poly F) (bitIdx : ℕ) : Outcome (LiftState w e × List Role) := do
  let shares ← (s.shares.zip orderedPowers).mapM
    (correctShare (fiMod2.coefs.map (G2p.toU8 e)) bitIdx)
  let evicted := ((s.shares.zip shares).filter (fun p => p.1.2 && !p.2.2)).map (fun p => p.2.1.owner)
  return (⟨shares, accumulateAndLiftBitwisePoly s.res fiMod2 bitIdx⟩, evicted)

def LiftState.init : LiftState w e :=
  ⟨sharing.shares.map (fun s => (s, true)), Poly.zero⟩

/-- The error budget of a round: the shares evicted so far are errors already found. -/
def roundBudget (initialLength maxErrors : ℕ) (binaryShares : List (Share F)) : Outcome ℕ := do
  let numNewBot ← Outcome.usizeSub initialLength binaryShares.length
  Outcome.usizeSub maxErrors numNewBot

def shamirErrorCorrectStep
    (orderedPowers : List (List (GaloisRing w e))) (degree maxErrors initialLength : ℕ)
    (s : LiftState w e) (bitIdx : ℕ) : Outcome (LiftState w e) := do
  let binaryShares := computeBinaryShares F s.shares bitIdx
  let budget ← roundBudget initialLength maxErrors binaryShares
  let fiMod2 ← errorCorrection e store binaryShares degree budget
  let (s', _) ← applyBitCorrection s orderedPowers fiMod2 bitIdx
  return s'

/-- The powers of a party's point; the store that memoizes them is transparent. -/
def exceptionalSet (degree : ℕ) (role : Role) : Outcome (List (GaloisRing w e)) := do
  let point ← embedRole role
  return computePowers point degree

def shamirErrorCorrect
    (degree maxErrors : ℕ) : Outcome (Poly (GaloisRing w e)) := do
  let orderedPowers ← sharing.owners.mapM (exceptionalSet degree)
  let s ← (List.range w).foldlM
    (shamirErrorCorrectStep store orderedPowers degree maxErrors sharing.shares.length)
    (LiftState.init sharing)
  return s.res

/-- The state of the hinted loop: the hints for the reduced set of parties are computed lazily. -/
structure HintedState (w : ℕ) (e : ExtensionDegree) (F : Type) where
  lift : LiftState w e
  validityChanged : Bool
  fallback : Option (FieldHints F)

def currentHints (hints : FieldHints F) (s : HintedState w e F) :
    Outcome (FieldHints F) :=
  if s.validityChanged then
    match s.fallback with
    | some fallback => .ok fallback
    | none => FieldHints.new e store (validParties s.lift.shares)
  else
    .ok hints

def shamirErrorCorrectWithHintsStep
    (hints : ReconstructionHints (GaloisRing w e) F) (degree maxErrors initialLength : ℕ)
    (s : HintedState w e F) (bitIdx : ℕ) : Outcome (HintedState w e F) := do
  let binaryShares := computeBinaryShares F s.lift.shares bitIdx
  let numNewBot ← Outcome.usizeSub initialLength binaryShares.length
  let current ← currentHints store hints.fieldHints s
  let budget ← Outcome.usizeSub maxErrors numNewBot
  let fiMod2 ← errorCorrectionWithFieldHints binaryShares degree budget current
  let (lift, evicted) ← applyBitCorrection s.lift hints.exceptionalPowers fiMod2 bitIdx
  if evicted = [] then
    return ⟨lift, s.validityChanged, if s.validityChanged then some current else s.fallback⟩
  else
    return ⟨lift, true, none⟩

def debugRoles (roles : List Role) : String :=
  "[" ++ ", ".intercalate (roles.map (fun r => s!"Role({r})")) ++ "]"

def shamirErrorCorrectWithHints
    (degree maxErrors : ℕ)
    (hints : ReconstructionHints (GaloisRing w e) F) : Outcome (Poly (GaloisRing w e)) :=
  let hintsDegree := hints.degree
  let expected := debugRoles hints.parties
  let found := debugRoles sharing.owners
  if hints.degree ≠ degree then
    Outcome.err s!"ReconstructionHints degree {hintsDegree} does not match the provided degree {degree}"
  else if hints.parties ≠ sharing.owners then
    Outcome.err s!"ReconstructionHints parties {expected} do not match the sharing's owner set {found}"
  else do
    let s ← (List.range w).foldlM
      (shamirErrorCorrectWithHintsStep store hints degree maxErrors sharing.shares.length)
      ⟨LiftState.init sharing, false, none⟩
    return s.lift.res

end ThresholdKms
