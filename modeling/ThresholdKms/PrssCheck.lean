import ThresholdKms.Prss
import ThresholdKms.Session

/-!
# Checks of pseudorandom sharings

To find out who used wrong shares, the parties broadcast the pseudorandom values of their sets at a
counter. The value of a set with the most votes counts; from these values everybody computes the
shares of all parties. Whoever votes twice, votes for a set that is none, or does not vote for the
value that counts, is corrupt.
-/

namespace ThresholdKms

open Lockstep

/-- The values that are broadcast while preprocessing; `other` is a value of another type. -/
inductive SmallValue (Z : Type) where
  | ringVector (values : List Z)
  | prssVotes (votes : List (List Role × List Z))
  | other
  deriving DecidableEq

abbrev ValueVotes (Z : Type) := HashMap (List Z) (Finset Role)

abbrev SmallProg (Z α : Type) := Prog Role (BroadcastValue (SmallValue Z)) Fault α

section Votes

variable {Z : Type} [DecidableEq Z] {S : Type} [BaseSessionHandles S] (valueVotes : ValueVotes Z)

def addVote (curPrfVal : List Z) (curRole : Role) (session : S) :
    ValueVotes Z × S :=
  match valueVotes.lookup curPrfVal with
  | some existingRoles =>
    if curRole ∈ existingRoles then
      (valueVotes, (addCorrupt session curRole).1)
    else
      (valueVotes.insert curPrfVal (insert curRole existingRoles), session)
  | none => (valueVotes.insert curPrfVal {curRole}, session)

def sortVote (role : Role) (state : HashMap (List Role) (ValueVotes Z) × S)
    (pair : List Role × List Z) : HashMap (List Role) (ValueVotes Z) × S :=
  match state.1.lookup pair.1 with
  | some valueVotes =>
    let (valueVotes, session) := addVote valueVotes pair.2 role state.2
    (state.1.insert pair.1 valueVotes, session)
  | none => (state.1.insert pair.1 (AList.singleton pair.2 {role}), state.2)

variable (broadcastResult : Role → BroadcastValue (SmallValue Z))

def sortVotesOf
    (state : HashMap (List Role) (ValueVotes Z) × S) (role : Role) :
    HashMap (List Role) (ValueVotes Z) × S :=
  match broadcastResult role with
  | .payload (.prssVotes pairs) => pairs.foldl (sortVote role) state
  | _ => (state.1, (addCorrupt state.2 role).1)

def sortVotes (session : S) :
    HashMap (List Role) (ValueVotes Z) × S :=
  (sessionRoles session).foldl (sortVotesOf broadcastResult) (∅, session)

/-- The comparison of an entry with the best one so far. -/
def betterVotes (best : Option (List Z × Finset Role)) (entry : (_ : List Z) × Finset Role) :
    Option (List Z × Finset Role) :=
  match best with
  | none => some (entry.1, entry.2)
  | some (value, votes) =>
    if votes.card ≤ entry.2.card then some (entry.1, entry.2) else some (value, votes)

/-- The value with the most votes, and of several the last one. -/
def maxByVotes : Option (List Z × Finset Role) :=
  valueVotes.entries.foldl betterVotes none

def winningValue (state : HashMap (List Role) (List Z) × S)
    (entry : (_ : List Role) × ValueVotes Z) : Outcome (HashMap (List Role) (List Z) × S) :=
  match maxByVotes entry.2 with
  | none => Outcome.err "No votes found!"
  | some (valueMax, votes) =>
    if votes.card ≤ threshold state.2 then do
      let sets ← createSets (sessionRoles state.2) (threshold state.2)
      if entry.1 ∈ sets then
        Outcome.err "PR*S-Check went wrong, did not find enough votes for a valid subset"
      else
        return (state.1, entry.2.entries.foldl
          (fun session voters => markCorrupt session (voters.2.sort (· ≤ ·))) state.2)
    else
      .ok (state.1.insert entry.1 valueMax, state.2)

variable (count : HashMap (List Role) (ValueVotes Z))

def findWinningPrfValues (session : S) :
    Outcome (HashMap (List Role) (List Z) × S) :=
  count.entries.foldlM winningValue (∅, session)

def nonVotingParties (session : S)
    (entry : (_ : List Role) × List Z) : S :=
  match (count.lookup entry.1).bind (AList.lookup entry.2) with
  | some rolesVotes =>
    if rolesVotes.card < entry.1.length then
      markCorrupt session (entry.1.filter (fun role => decide (role ∉ rolesVotes)))
    else
      session
  | none => session

def handleNonVotingParties (truePrfVals : HashMap (List Role) (List Z))
    (count : HashMap (List Role) (ValueVotes Z)) (session : S) : S :=
  truePrfVals.entries.foldl (nonVotingParties count) session

end Votes

inductive ComputeShareMode where
  | prss
  | przs
  deriving DecidableEq

section Shares

variable {w : ℕ} {e : ExtensionDegree} (F : Type) [Field F] [DecidableEq F] [G2p e F]

/-- What the values of one set add to the share of a party. -/
def addSetShare (mode : ComputeShareMode) (t : ℕ) (alphas : List (List (GaloisRing w e)))
    (curRole : Role) (fA curS : GaloisRing w e) (curPrfVal : List (GaloisRing w e)) :
    Outcome (GaloisRing w e) :=
  match mode with
  | .prss =>
    if curPrfVal.length ≠ 1 then
      Outcome.err "Did not receive a single PRSS psi value"
    else do
      let value ← indexVec curPrfVal 0
      return curS + fA * value
  | .przs =>
    if curPrfVal.length ≠ t then
      Outcome.err "Did not receive t PRZS chi values"
    else
      curPrfVal.zipIdx.foldlM (fun curS (cv, valIdx) => do
        let powers ← indexByRole alphas curRole
        let alpha ← indexVec powers (valIdx + 1)
        return curS + fA * alpha * cv) curS

def partyShare (mode : ComputeShareMode) (t : ℕ) (sets : List (List Role))
    (points alphas : List (List (GaloisRing w e)))
    (truePrfVals : HashMap (List Role) (List (GaloisRing w e))) (curRole : Role) :
    Outcome (GaloisRing w e) :=
  sets.zipIdx.foldlM (fun curS (set, setIdx) =>
    if curRole ∈ set then do
      let setPoints ← indexVec points setIdx
      let fA ← indexByRole setPoints curRole
      match truePrfVals.lookup set with
      | some curPrfVal => addSetShare mode t alphas curRole fA curS curPrfVal
      | none => Outcome.err "A prf value which should exist does no longer exist"
    else
      .ok curS) 0

def computePartyShares (truePrfVals : HashMap (List Role) (List (GaloisRing w e)))
    (roles : List Role) (t : ℕ) (mode : ComputeShareMode) :
    Outcome (HashMap Role (GaloisRing w e)) := do
  let sets ← createSets roles t
  let points ← partyComputeFAPoints F roles sets
  let alphas ← match mode with
    | .przs => embedPartiesAndComputeAlphaPowers roles.length t
    | .prss => .ok []
  let shares ← roles.mapM (fun curRole => do
    let share ← partyShare mode t sets points alphas truePrfVals curRole
    return (curRole, share))
  return Tally.collect shares

end Shares

section Check

variable {z : BaseRing} {e : ExtensionDegree} (F : Type) [Field F] [DecidableEq F] [G2p e F]
  {S : Type} [BaseSessionHandles S] (prss : PRSSState z.bits e)

/-- The values that a party votes for, one list for each of its sets. -/
def prfVotes (value : PrfAes → Outcome (List (GaloisRing z.bits e))) :
    Outcome (List (List Role × List (GaloisRing z.bits e))) :=
  prss.prssSetup.sets.zipIdx.mapM (fun (curSet, i) =>
    match prss.prfs[i]? with
    | some aesPrf => do
        let values ← value aesPrf
        return (curSet.parties, values)
    | none => Outcome.err "PRFs not properly initialized!")

/-- The part that the two checks share: vote, count the votes, and compute all shares. -/
def checkVotes (mode : ComputeShareMode) (session : S)
    (votes : Outcome (List (List Role × List (GaloisRing z.bits e)))) :
    SmallProg (GaloisRing z.bits e) (S × HashMap Role (GaloisRing z.bits e)) := do
  let values ← Prog.ofExcept votes
  let (session, broadcastResult) ← broadcastFromAllWithCorruptSetUpdate session
    (SmallValue.prssVotes values)
  let (count, session) := sortVotes broadcastResult session
  let (truePrfVals, session) ← Prog.ofExcept (findWinningPrfValues count session)
  let session := handleNonVotingParties truePrfVals count session
  let shares ← Prog.ofExcept
    (computePartyShares F truePrfVals (sessionRoles session) (threshold session) mode)
  return (session, shares)

def prssCheck (session : S) (ctr : ℕ) :
    SmallProg (GaloisRing z.bits e) (S × HashMap Role (GaloisRing z.bits e)) :=
  checkVotes F .prss session (prfVotes prss (fun aesPrf => do
    let psiVal ← psi aesPrf.psiAes ctr
    return [psiVal]))

def przsCheck (session : S) (ctr : ℕ) :
    SmallProg (GaloisRing z.bits e) (S × HashMap Role (GaloisRing z.bits e)) :=
  checkVotes F .przs session (prfVotes prss (fun aesPrf =>
    (List.range' 1 (threshold session)).mapM (fun j => chi aesPrf.chiAes ctr j)))

end Check

end ThresholdKms
