import ThresholdKms.LargeSession
import ThresholdKms.Prss
import ThresholdKms.Reconstruction
import Mathlib.Data.Finmap

/-!
# Verification of local sharings

Every party has shared a vector of secrets and one of pads, with the degree of the threshold, and in
double sharings also with twice that degree. In each repetition the parties broadcast their shares of
a random combination for every dealer, and the dealers broadcast all shares of their own combination.
Dealers that broadcast no sharing of the right degree are corrupt, and a dealer and a receiver that
contradict each other are in dispute. The order in which the parties' values are compared is that of
a hash map.
-/

namespace ThresholdKms

open GaloisRing Lockstep

/-- A map whose keys are iterated in increasing order. -/
abbrev BTreeMap (ν : Type) := Finmap (fun _ : Role => ν)

structure ShareDisputeOutput (Z : Type) where
  allShares : HashMap Role (List Z)
  sharesOwnSecret : HashMap Role (List Z)

structure MapsSharesChallenges (Z : Type) where
  checksForAll : BTreeMap Z
  checksForMine : BTreeMap Z
  deriving DecidableEq

/-- The values that are broadcast; `other` is a value of another type. The maps of a double share are
grouped by the degree. -/
inductive LargeValue (Z : Type) where
  | localSingleShare (maps : MapsSharesChallenges Z)
  | localDoubleShare (mapsT maps2T : MapsSharesChallenges Z)
  | other
  deriving DecidableEq

abbrev LargeProg (Z α : Type) := Prog Role (BroadcastValue (LargeValue Z)) Fault α

/-- The secrets and pads of all parties, shared with one degree. -/
structure Layer (Z : Type) where
  secrets : ShareDisputeOutput Z
  pads : ShareDisputeOutput Z

inductive LocalShare where
  | single
  | double
  deriving DecidableEq

namespace LocalShare

def degrees : LocalShare → ℕ → List ℕ
  | single, threshold => [threshold]
  | double, threshold => [threshold, 2 * threshold]

def message {Z : Type} : LocalShare → List (MapsSharesChallenges Z) → LargeValue Z
  | single, [maps] => .localSingleShare maps
  | double, [mapsT, maps2T] => .localDoubleShare mapsT maps2T
  | _, _ => .other

/-- The maps of a value of the expected type, one for each degree. -/
def parse {Z : Type} : LocalShare → BroadcastValue (LargeValue Z) →
    Option (List (MapsSharesChallenges Z))
  | single, .payload (.localSingleShare maps) => some [maps]
  | double, .payload (.localDoubleShare mapsT maps2T) => some [mapsT, maps2T]
  | _, _ => none

end LocalShare

section Checks

variable {Z : Type} [CommRing Z]

def checkValue (pad : Z) (challenges secretShares : List Z) : Z :=
  pad + (challenges.zip secretShares).foldl (fun acc (x, s) => acc + x * s) 0

variable (challenges : Role → Option (List Z))

/-- The check value of one role; for the own sharing the challenges are those of the own role. -/
def checkValueOf (secretShares : HashMap Role (List Z)) (g : ℕ)
    (myRole : Option Role) (role : Role) (padsShares : List Z) : Outcome Z :=
  match challenges (myRole.getD role), secretShares.lookup role with
  | none, _ => Outcome.err "Can not retrieve challenges"
  | some _, none => Outcome.err "Can not retrieve secret shares"
  | some vecChallenges, some vecSecretShares =>
    if vecChallenges.length ≠ vecSecretShares.length then
      Outcome.err "Inconsistent vector lengths"
    else do
      let pad ← indexVec padsShares g
      return checkValue pad vecChallenges vecSecretShares

def computeCheckValues (padsShares : HashMap Role (List Z)) (challenges : Role → Option (List Z))
    (secretShares : HashMap Role (List Z)) (g : ℕ) (myRole : Option Role) : Outcome (BTreeMap Z) := do
  let values ← padsShares.entries.mapM (fun entry => do
    let value ← checkValueOf challenges secretShares g myRole entry.1 entry.2
    return (⟨entry.1, value⟩ : (_ : Role) × Z))
  return values.toFinmap

def computeMaps (g : ℕ) (myRole : Role) (layer : Layer Z) :
    Outcome (MapsSharesChallenges Z) := do
  let checksForAll ← computeCheckValues layer.pads.allShares challenges layer.secrets.allShares g none
  let checksForMine ← computeCheckValues layer.pads.sharesOwnSecret challenges
    layer.secrets.sharesOwnSecret g (some myRole)
  return ⟨checksForAll, checksForMine⟩

end Checks

section Senders

variable {w : ℕ} {e : ExtensionDegree} {F : Type} [Field F] [DecidableEq F] [G2p e F]

def sharingOfMap (m : BTreeMap (GaloisRing w e)) : ShamirSharings (GaloisRing w e) :=
  .create ((m.keys.sort).map (fun role => ⟨role, (m.lookup role).getD 0⟩))

/-- Whether a share of one of the parties is not zero, up to the first such share. -/
def hasShareForDisputed (session : LargeSession) (sharingFromSender : BTreeMap (GaloisRing w e)) :
    List Role → Outcome Bool
  | [] => .ok false
  | pj :: disputes =>
    match sharingFromSender.lookup pj with
    | none => Outcome.err s!"[{myRole session}] Can not find the share for {pj}"
    | some share =>
      if share ≠ 0 then .ok true else hasShareForDisputed session sharingFromSender disputes

variable (store : LagrangeStore F) (session : LargeSession)

/-- The value that a sender's broadcast shares reconstruct to, or `none` if it is corrupt: if shares
are missing, if a party in dispute has a share other than zero, or if the degree is too high. -/
def verifySenderChallenge (degree : ℕ) (rolePi : Role)
    (sharingFromSender : BTreeMap (GaloisRing w e)) : Outcome (Option (GaloisRing w e)) :=
  if sharingFromSender.keys ≠ (sessionRoles session).toFinset then
    .ok none
  else do
    let nonzero ← hasShareForDisputed session sharingFromSender
      (session.disputedRoles.get rolePi).sort
    if nonzero then
      return none
    else
      Outcome.toOk (errorReconstruct store (sharingOfMap sharingFromSender) degree 0)

/-- A sender is corrupt if its value has the wrong type, if it fails the check for one of the degrees,
or if the values for the degrees differ. The own broadcast is not checked. -/
def senderIsCorrupt (degrees : List ℕ) (role : Role)
    (value : Option (List (MapsSharesChallenges (GaloisRing w e)))) : Outcome Bool :=
  match value with
  | none => .ok true
  | some maps =>
    if role = myRole session then
      .ok false
    else do
      let values ← (maps.zip degrees).mapM (fun (m, degree) =>
        verifySenderChallenge store session degree role m.checksForMine)
      return !decide ((∀ v ∈ values, v ≠ none) ∧ ∀ v ∈ values, ∀ v' ∈ values, v = v')

end Senders

section Disputes

variable {Z : Type} [DecidableEq Z] (bcastData : Role → Option (MapsSharesChallenges Z))

/-- A sender and a receiver that disagree are in dispute. -/
def compareChecks (roleSender : Role)
    (senderVote : BTreeMap Z) (senderDisputeSet : Finset Role) (state : LargeSession × Bool)
    (roleReceiver : Role) : Outcome (LargeSession × Bool) :=
  if roleReceiver ∉ corruptRoles state.1 ∧ roleReceiver ∉ senderDisputeSet then
    match bcastData roleReceiver with
    | none => Outcome.err "Can not find receiver \x7brole_receiver\x7d in broadcast data"
    | some receiverValue =>
      if receiverValue.checksForAll.lookup roleSender = senderVote.lookup roleReceiver then
        .ok state
      else
        .ok (state.1.addDispute roleReceiver roleSender, false)
  else
    .ok state

/-- The disputes of the sender are read before its shares are compared. -/
def compareSender (state : LargeSession × Bool)
    (roleSender : Role) : Outcome (LargeSession × Bool) :=
  match bcastData roleSender with
  | none => .ok state
  | some bcastValue =>
    if roleSender ∈ corruptRoles state.1 then
      .ok state
    else
      (bcastValue.checksForMine.keys.sort).foldlM (compareChecks bcastData roleSender
        bcastValue.checksForMine (state.1.disputedRoles.get roleSender)) state

/-- `order` is the order in which the hash map is iterated. The flag tells whether no new dispute
appeared. -/
def lookForDisputes (order : List Role) (bcastData : Role → Option (MapsSharesChallenges Z))
    (session : LargeSession) : Outcome (LargeSession × Bool) :=
  order.foldlM (compareSender bcastData) (session, true)

/-- The degrees are looked at one after the other, as long as no new dispute appeared. -/
def lookInLayers (order : ℕ → List Role) (count : ℕ)
    (bcastOutput : Role → Option (List (MapsSharesChallenges Z))) (session : LargeSession) :
    Outcome (LargeSession × Bool) :=
  (List.range count).foldlM (fun state i =>
    if state.2 then
      lookForDisputes (order i) (fun role => (bcastOutput role).bind (·[i]?)) state.1
    else
      .ok state) (session, true)

end Disputes

section Verify

variable {w : ℕ} {e : ExtensionDegree} {F : Type} [Field F] [DecidableEq F] [G2p e F]

def disputeStatSec : ℕ := 80

/-- The number of repetitions; the exceptional set has `2 ^ e.deg` elements. -/
def repetitions (e : ExtensionDegree) : ℕ := (disputeStatSec + e.deg - 1) / e.deg

/-- The own map of challenges has an entry for each role of the session. -/
def challengeMap (session : LargeSession) (challenges : Role → List (GaloisRing w e)) (role : Role) :
    Option (List (GaloisRing w e)) :=
  if role ∈ sessionRoles session then some (challenges role) else none

/-- The roles are added in the given order; the flag tells whether one was not known before. -/
def addCorrupts (session : LargeSession) (roles : List Role) : LargeSession × Bool :=
  roles.foldl (fun (session, shouldReturn) role =>
    let (session, added) := addCorrupt session role
    (session, shouldReturn || added)) (session, false)

/-- The shares of corrupt dealers are replaced by zeros. -/
def zeroShares (l : ℕ) (roles : List Role) (layer : Layer (GaloisRing w e)) :
    Layer (GaloisRing w e) :=
  { layer with secrets := { layer.secrets with
      allShares := roles.foldl (fun shares role => shares.insert role (List.replicate l 0))
        layer.secrets.allShares } }

structure VerifyState (w : ℕ) (e : ExtensionDegree) where
  session : LargeSession
  layers : List (Layer (GaloisRing w e))
  ok : Bool

variable (store : LagrangeStore F) (kind : LocalShare) (l : ℕ)

/-- What a party does with the broadcast values of a repetition. -/
def verifyBroadcast (order : ℕ → List Role) (session : LargeSession)
    (layers : List (Layer (GaloisRing w e)))
    (bcastData : Role → BroadcastValue (LargeValue (GaloisRing w e))) :
    Outcome (VerifyState w e) := do
  let degrees := kind.degrees (threshold session)
  let bcastOutput := fun role => kind.parse (bcastData role)
  let bcastCorrupts ← (sessionRoles session).filterM (fun role =>
    senderIsCorrupt store session degrees role (bcastOutput role))
  let layers := layers.map (zeroShares l bcastCorrupts)
  let (session, shouldReturn) := addCorrupts session bcastCorrupts
  if shouldReturn then
    return ⟨session, layers, false⟩
  else
    let (session, ok) ← lookInLayers order degrees.length bcastOutput session
    return ⟨session, layers, ok⟩

variable (challenges : ℕ → Role → List (GaloisRing w e)) (order : ℕ → ℕ → List Role)

def verifyRepetition (state : VerifyState w e) (g : ℕ) :
    LargeProg (GaloisRing w e) (VerifyState w e) := do
  let maps ← Prog.ofExcept (state.layers.mapM (computeMaps (challengeMap state.session (challenges g))
    g (myRole state.session)))
  let (session, bcastData) ← broadcastFromAllWithCorruptSetUpdate state.session (kind.message maps)
  if corruptRoles session ≠ corruptRoles state.session then
    return ⟨session, state.layers, false⟩
  else
    Prog.ofExcept (verifyBroadcast store kind l (order g) session state.layers bcastData)

/-- `challenges g` are the challenges derived from the coin for repetition `g`, and `l` is the number
of secrets. A failed repetition ends the loop. -/
def verifySharing (session : LargeSession) (layers : List (Layer (GaloisRing w e))) :
    LargeProg (GaloisRing w e) (VerifyState w e) :=
  (List.range (repetitions e)).foldlM (fun state g =>
    if state.ok then verifyRepetition store kind l challenges order state g else pure state)
    ⟨session, layers, true⟩

end Verify

end ThresholdKms
