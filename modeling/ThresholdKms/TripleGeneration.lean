import ThresholdKms.PrssCheck
import ThresholdKms.Reconstruction

/-!
# Generation of triples in small sessions

For each triple the parties hold shares of two random factors and of a mask, and broadcast their
shares of the masked product, which has twice the degree. A masked product that is reconstructed
gives a triple; for one that is not, the parties check all broadcast shares against recomputed
ones. The loop asks for the triples that are still missing.
-/

namespace ThresholdKms

open Lockstep

structure Triple (Z : Type) where
  a : Share Z
  b : Share Z
  c : Share Z
  deriving DecidableEq

structure SmallSession (z : BaseRing) (e : ExtensionDegree) where
  baseSession : BaseSession
  prss : PRSSState z.bits e

section Reconstruct

variable {w : ℕ} {e : ExtensionDegree} {F : Type} [Field F] [DecidableEq F] [G2p e F] {S : Type}
  [BaseSessionHandles S] (store : LagrangeStore F) (session : S) (amount : ℕ)
  (dRecons : Role → BroadcastValue (SmallValue (GaloisRing w e)))

def ReconstructionHints.fromParties (parties : List Role) (degree : ℕ) :
    Outcome (ReconstructionHints (GaloisRing w e) F) :=
  ReconstructionHints.fromPartiesSorted store (parties.mergeSort (fun r r' => decide (r ≤ r'))) degree

/-- The parties that broadcast a vector of the expected length, with their vectors. -/
def keepVectors (state : S × List (Role × List (GaloisRing w e))) (curRole : Role) :
    S × List (Role × List (GaloisRing w e)) :=
  match dRecons curRole with
  | .payload (.ringVector curValues) =>
    if curValues.length ≠ amount then
      ((addCorrupt state.1 curRole).1, state.2)
    else
      (state.1, state.2 ++ [(curRole, curValues)])
  | _ => ((addCorrupt state.1 curRole).1, state.2)

def reconstructDValues : Outcome (S × List (Option (GaloisRing w e))) := do
  let (session, partyVectors) := (sessionRoles session).foldl (keepVectors amount dRecons)
    (session, [])
  let honest ← Outcome.usizeSub (numParties session) (corruptRoles session).card
  let t := threshold session
  if honest < 2 * t + 1 then
    Outcome.err (s!"BUG: Not enough honest parties to correct the errors: {honest} honest " ++
      s!"parties, threshold={t}")
  else
    let degree := 2 * t
    let maxErrors := (honest - (degree + 1)) / 2
    let hints ← ReconstructionHints.fromParties store (partyVectors.map Prod.fst) degree
    let values ← (List.range amount).mapM (fun i => do
      let shares ← partyVectors.mapM (fun (curRole, curValues) => do
        let value ← indexVec curValues i
        return (⟨curRole, value⟩ : Share (GaloisRing w e)))
      Outcome.toOk (errorReconstructWithHints store (.create shares) degree maxErrors hints))
    return (session, values)

/-- The share of a party for the masked product `i`, if it broadcast one. -/
def parseDShare (i : ℕ) (curRole : Role) : Option (GaloisRing w e) :=
  match dRecons curRole with
  | .payload (.ringVector curValues) => curValues[i]?
  | _ => none

end Reconstruct

section Check

variable {z : BaseRing} {e : ExtensionDegree} (F : Type) [Field F] [DecidableEq F] [G2p e F]
  {S : Type} [BaseSessionHandles S]

def expectedCheckValue (values : HashMap Role (GaloisRing z.bits e)) (name : String)
    (curRole : Role) : Outcome (GaloisRing z.bits e) :=
  match values.lookup curRole with
  | some value => .ok value
  | none => Outcome.err s!"Not all expected {name} check values exist"

/-- A party whose share is not the recomputed one is corrupt. -/
def compareDShare (vecX vecY vecV vecZ : HashMap Role (GaloisRing z.bits e))
    (sharedDDouble : Role → Option (GaloisRing z.bits e)) (session : S) (curRole : Role) :
    Outcome S := do
  let vSingle ← expectedCheckValue vecV "v" curRole
  let zDouble ← expectedCheckValue vecZ "z" curRole
  let vDouble := vSingle + zDouble
  let x ← expectedCheckValue vecX "x" curRole
  let y ← expectedCheckValue vecY "y" curRole
  let dPrimeDouble := x * y + vDouble
  return if sharedDDouble curRole ≠ some dPrimeDouble then (addCorrupt session curRole).1
    else session

def checkD (prss : PRSSState z.bits e) (session : S) (prssCtr przsCtr amount : ℕ)
    (sharedDDouble : Role → Option (GaloisRing z.bits e)) : SmallProg (GaloisRing z.bits e) S := do
  let (session, vecX) ← prssCheck F prss session prssCtr
  let (session, vecY) ← prssCheck F prss session (prssCtr + amount)
  let (session, vecV) ← prssCheck F prss session (prssCtr + 2 * amount)
  let (session, vecZ) ← przsCheck F prss session przsCtr
  Prog.ofExcept ((sessionRoles session).foldlM (compareDShare vecX vecY vecV vecZ sharedDDouble)
    session)

end Check

section Generate

variable {z : BaseRing} {e : ExtensionDegree} {F : Type} [Field F] [DecidableEq F] [G2p e F]

/-- The shares of a batch: the two factors, the mask, and the masked products. -/
structure BatchShares (Z : Type) where
  x : List Z
  y : List Z
  v : List Z
  d : List Z

def batchShares (amount : ℕ) (allPrss zDouble : List (GaloisRing z.bits e)) :
    Outcome (BatchShares (GaloisRing z.bits e)) :=
  let x := allPrss.take amount
  let y := (allPrss.drop amount).take amount
  let v := (allPrss.drop (2 * amount)).take amount
  if x.length ≠ amount ∨ y.length ≠ amount ∨ v.length ≠ amount ∨ zDouble.length ≠ amount then
    Outcome.err (s!"BUG: Not all expected values were generated, x={x.length}, y={y.length}, " ++
      s!"v={v.length}, z={zDouble.length}. Expected {amount}.")
  else
    .ok ⟨x, y, v, (((x.zip y).zip v).zip zDouble).map
      (fun (((x, y), v), z) => x * y + (z + v))⟩

/-- The triples of the reconstructed products, and the indices of the others. -/
def assembleTriples (myRole : Role) (reconsVecD : List (Option (GaloisRing z.bits e)))
    (shares : BatchShares (GaloisRing z.bits e)) :
    Outcome (List (Triple (GaloisRing z.bits e)) × List ℕ) :=
  (shares.x.zip (shares.y.zip shares.v)).zipIdx.foldlM (fun (triples, bad) ((x, y, v), i) =>
    match reconsVecD[i]? with
    | none => Outcome.err "Not all expected d values exist"
    | some (some d) => .ok (triples ++ [⟨⟨myRole, x⟩, ⟨myRole, y⟩, ⟨myRole, d - v⟩⟩], bad)
    | some none => .ok (triples, bad ++ [i])) ([], [])

def nextTripleBatch (store : LagrangeStore F) (session : SmallSession z e) (amount : ℕ) :
    SmallProg (GaloisRing z.bits e) (SmallSession z e × List (Triple (GaloisRing z.bits e))) := do
  let counters := session.prss.counters
  let base := session.baseSession
  let (allPrss, prss) ← Prog.ofExcept (prssNextVec session.prss base.myRole (3 * amount))
  let (zDouble, prss) ← Prog.ofExcept (przsNextVec prss base.myRole base.threshold amount)
  let shares ← Prog.ofExcept (batchShares amount allPrss zDouble)
  let (base, broadcastRes) ← broadcastFromAllWithCorruptSetUpdate base
    (SmallValue.ringVector shares.d)
  let (base, reconsVecD) ← Prog.ofExcept (reconstructDValues store base amount broadcastRes)
  let (triples, badTriplesIdx) ← Prog.ofExcept (assembleTriples base.myRole reconsVecD shares)
  let base ← badTriplesIdx.foldlM (fun base i =>
    checkD F prss base (counters.prssCtr + i) (counters.przsCtr + i) amount
      (parseDShare broadcastRes i)) base
  return (⟨base, prss⟩, triples)

/-- The loop over the batches, with a bound on the number of calls that is not in the source. -/
def generateTriples (store : LagrangeStore F) (batchSize : ℕ) :
    ℕ → SmallSession z e × List (Triple (GaloisRing z.bits e)) →
      SmallProg (GaloisRing z.bits e) (SmallSession z e × List (Triple (GaloisRing z.bits e)))
  | calls, (session, triples) =>
    if triples.length < batchSize then
      match calls with
      | 0 => .fail .diverge
      | calls + 1 => do
          let (session, batch) ← nextTripleBatch store session (batchSize - triples.length)
          generateTriples store batchSize calls (session, triples ++ batch)
    else
      .done (session, triples)

end Generate

end ThresholdKms
