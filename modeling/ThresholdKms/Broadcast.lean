import ThresholdKms.Share
import ThresholdKms.Tally

/-!
# Reliable broadcast

The steps of one party between two communication rounds. The senders send their values, all parties
echo what they received, and then vote in `threshold + 1` rounds for the hashes of values. A message
that does not arrive in its round is `none`; a party that misses a round is not listened to again.
Hash maps may be iterated in any order.
-/

namespace ThresholdKms

open Tally

inductive BroadcastValue (P : Type) where
  | bot
  | payload (p : P)
  deriving DecidableEq, Repr

abbrev RoleValueMap (P : Type) := HashMap Role (BroadcastValue P)

/-- The messages of the broadcast; `other` stands for what it refuses in every round. -/
inductive NetworkValue (P H : Type) where
  | send (v : BroadcastValue P)
  | echoBatch (m : RoleValueMap P)
  | voteBatch (m : HashMap Role H)
  | empty
  | other

structure IterOrder (κ ν : Type) where
  apply : List ((_ : κ) × ν) → List ((_ : κ) × ν)
  perm : ∀ l, (apply l).Perm l

def IterOrder.iter {κ ν : Type} (order : IterOrder κ ν) (m : HashMap κ ν) : List ((_ : κ) × ν) :=
  order.apply m.entries

/-- What is known of a broadcast before it starts. -/
structure BroadcastSession (P H : Type) where
  numParties : ℕ
  threshold : ℕ
  senders : List Role
  toBcastHash : BroadcastValue P → H

variable {P H : Type} [DecidableEq P] [DecidableEq H]

/-- A party's own value, if it is a sender, and the message that it sends to all others. -/
structure Contribution (P H : Type) where
  bcastData : RoleValueMap P
  round1Contributions : RoleValueMap P
  sent : Option (NetworkValue P H)

variable (s : BroadcastSession P H)

def startBroadcast (myRole : Role)
    (myMessage : Option (BroadcastValue P)) : Outcome (Contribution P H) :=
  if s.senders = [] then
    Outcome.err "We expect at least one party as sender in reliable broadcast"
  else if s.numParties ≤ s.threshold then
    Outcome.err (s!"The number of parties {s.numParties} is less or equal to the threshold " ++
      s!"{s.threshold}")
  else
    let bcastData := collect (s.senders.map (fun role => (role, .bot)))
    match myMessage, decide (myRole ∈ s.senders) with
    | some msg, true =>
      .ok ⟨bcastData.insert myRole msg, collect [(myRole, msg)], some (.send msg)⟩
    | none, false => .ok ⟨bcastData, ∅, none⟩
    | _, _ => Outcome.err "A sender must have a value in reliable broadcast"

section Receive

def matchSend : NetworkValue P H → Option (BroadcastValue P)
  | .send v => some v
  | _ => none

def matchEcho : NetworkValue P H → Option (RoleValueMap P)
  | .echoBatch m => some m
  | .empty => some ∅
  | _ => none

def matchVote : NetworkValue P H → Option (HashMap Role H)
  | .voteBatch m => some m
  | .empty => some ∅
  | _ => none

/-- The answers of the parties that are still listened to; an unexpected message has no content. -/
def genericReceiveFromAllSenders {α : Type} (inbox : Role → Option (NetworkValue P H))
    (receiver : Role) (senders nonAnsweringParties : List Role)
    (matchNetworkValue : NetworkValue P H → Option α) : List (Role × Option α) :=
  (senders.filter (fun s => decide (s ∉ nonAnsweringParties ∧ s ≠ receiver))).filterMap
    (fun s => (inbox s).map (fun msg => (s, matchNetworkValue msg)))

def logTimeouts (parties : List Role) (receiver : Role) (answeringParties nonAnsweringParties :
    List Role) : List Role :=
  nonAnsweringParties ∪
    parties.filter (fun p => decide (p ∉ answeringParties ∧ p ≠ receiver))

def receiveContributionFromAllSenders (inbox : Role → Option (NetworkValue P H)) (receiver : Role)
    (senders : List Role) (round1Data : RoleValueMap P) (nonAnsweringParties : List Role) :
    RoleValueMap P × List Role :=
  let jobs := genericReceiveFromAllSenders inbox receiver senders nonAnsweringParties matchSend
  (insertAll round1Data (jobs.filterMap (fun job => job.2.map (fun v => (job.1, v)))),
    logTimeouts senders receiver (jobs.map Prod.fst) nonAnsweringParties)

def internalProcessEchosOrVotes {T : Type} [DecidableEq T] (receiver : Role)
    (jobs : List (Role × Option (HashMap Role T))) (mapData : HashMap (Role × T) ℕ)
    (numParties : ℕ) (nonAnsweringParties : List Role) : HashMap (Role × T) ℕ × List Role :=
  (addBallots mapData (jobs.map Prod.snd),
    logTimeouts (List.range' 1 numParties) receiver (jobs.map Prod.fst) nonAnsweringParties)

end Receive

section Echo

/-- The keys with enough echoes, and the values of all echoed hashes. -/
def processEchos (echoedData : HashMap (Role × BroadcastValue P) ℕ) :
    HashMap (Role × H) ℕ × HashMap (Role × H) (BroadcastValue P) :=
  (collect ((echoedData.entries.filter (fun e => decide (s.numParties - s.threshold ≤ e.2))).map
      (fun e => ((e.1.1, s.toBcastHash e.1.2), 1))),
    collect (echoedData.entries.map (fun e => ((e.1.1, s.toBcastHash e.1.2), e.1.2))))

/-- A party's own contributions count as its echoes. -/
def receiveEchosFromAllBatched
    (inbox : Role → Option (NetworkValue P H)) (receiver : Role) (contributions : RoleValueMap P)
    (nonAnsweringParties : List Role) :
    (HashMap (Role × H) ℕ × HashMap (Role × H) (BroadcastValue P)) × List Role :=
  let echosCount := collect (contributions.entries.map (fun e => ((e.1, e.2), 1)))
  let jobs := genericReceiveFromAllSenders inbox receiver (List.range' 1 s.numParties)
    nonAnsweringParties matchEcho
  let (echoedData, nonAnsweringParties) :=
    internalProcessEchosOrVotes receiver jobs echosCount s.numParties nonAnsweringParties
  (processEchos s echoedData, nonAnsweringParties)

end Echo

section Vote

variable (order : IterOrder (Role × H) ℕ)

def castThresholdVote (registeredVotes : HashMap (Role × H) ℕ)
    (threshold : ℕ) : NetworkValue P H :=
  let voteData := collect (((order.iter registeredVotes).filter
    (fun e => decide (threshold ≤ e.2))).map (fun e => e.1))
  if voteData.entries = [] then .empty else .voteBatch voteData

/-- A party remembers the senders for which it voted. -/
def markCasted (casted : HashMap Role Bool) (vote : (_ : Role × H) × ℕ) :
    Outcome (HashMap Role Bool) :=
  match casted.lookup vote.1.1 with
  | none => Outcome.err s!"Can't retrieve whether I ({vote.1.1}) casted a vote"
  | some true => Outcome.err "Trying to cast two votes for the same sender!"
  | some false => .ok (casted.insert vote.1.1 true)

structure VotingState (P H : Type) where
  registeredVotes : HashMap (Role × H) ℕ
  casted : HashMap Role Bool
  nonAnsweringParties : List Role
  mapHashToValue : HashMap (Role × H) (BroadcastValue P)
  bcastData : RoleValueMap P

/-- The votes of a round, with the counters and the record of casted votes. -/
structure RoundVotes (H : Type) where
  registeredVotes : HashMap (Role × H) ℕ
  casted : HashMap Role Bool
  roundRegisteredVotes : HashMap (Role × H) ℕ

def gatherVote (needed : ℕ) (s : RoundVotes H) (vote : (_ : Role × H) × ℕ) :
    Outcome (RoundVotes H) :=
  if needed ≤ vote.2 then
    match s.casted.lookup vote.1.1 with
    | none => Outcome.err "Cant retrieve whether I casted a vote"
    | some true => .ok s
    | some false => .ok ⟨s.registeredVotes.insert vote.1 (vote.2 + 1), s.casted.insert vote.1.1 true,
        s.roundRegisteredVotes.insert vote.1 vote.2⟩
  else
    .ok s

/-- One round of `gather_votes`; no vote is cast in the last one. -/
def gatherVotesRound (myRole : Role)
    (round : ℕ) (inbox : Role → Option (NetworkValue P H)) (st : VotingState P H) :
    Outcome (VotingState P H × Option (NetworkValue P H)) :=
  let jobs := genericReceiveFromAllSenders inbox myRole (List.range' 1 s.numParties)
    st.nonAnsweringParties matchVote
  let (registeredVotes, nonAnsweringParties) := internalProcessEchosOrVotes myRole jobs
    st.registeredVotes s.numParties st.nonAnsweringParties
  if round = s.threshold + 1 then
    .ok ({ st with
      registeredVotes := registeredVotes, nonAnsweringParties := nonAnsweringParties }, none)
  else do
    let votes ← (order.iter registeredVotes).foldlM (gatherVote (s.threshold + round))
      ⟨registeredVotes, st.casted, ∅⟩
    return ({ st with
        registeredVotes := votes.registeredVotes, casted := votes.casted,
        nonAnsweringParties := nonAnsweringParties },
      some (castThresholdVote order votes.roundRegisteredVotes (s.threshold + round)))

/-- The values whose hashes have enough votes. -/
def collectVote (minHonestNodes : ℕ)
    (s : HashMap (Role × H) (BroadcastValue P) × RoleValueMap P) (vote : (_ : Role × H) × ℕ) :
    Outcome (HashMap (Role × H) (BroadcastValue P) × RoleValueMap P) :=
  if minHonestNodes ≤ vote.2 then
    match s.1.lookup vote.1 with
    | none => Outcome.err
        s!"Can't retrieve the value from the hash in broadcast. Role {vote.1.1}."
    | some value => .ok (s.1.erase vote.1, s.2.insert vote.1.1 value)
  else
    .ok s

end Vote

/-!
## Broadcasts among the parties not known to be corrupt

The broadcast runs in a session whose roles lack the known corrupt parties, and the roles are put
back when it has returned a result. When it returns an error the function returns with it, and the
reduced roles stay. The role set therefore survives the call unless the inner broadcast fails in a
session that knows one of its own roles to be corrupt.
-/

structure RoleSession where
  myRole : Role
  threshold : ℕ
  roles : Finset Role
  corruptRoles : Finset Role

namespace RoleSession

def addCorrupt (s : RoleSession) (role : Role) : RoleSession :=
  if role ≠ s.myRole then { s with corruptRoles := insert role s.corruptRoles } else s

@[simp] theorem roles_addCorrupt (s : RoleSession) (role : Role) :
    (s.addCorrupt role).roles = s.roles := by
  rw [addCorrupt]
  split_ifs <;> rfl

theorem corruptRoles_subset_addCorrupt (s : RoleSession) (role : Role) :
    s.corruptRoles ⊆ (s.addCorrupt role).corruptRoles := by
  rw [addCorrupt]
  split_ifs
  · exact Finset.subset_insert role s.corruptRoles
  · exact Finset.Subset.refl _

end RoleSession

variable {P H : Type}

/-- The checks that end the broadcast before its first message, and then its rounds. -/
def executeBroadcast (toBcastHash : BroadcastValue P → H)
    (rounds : RoleSession → List Role → Contribution P H → Outcome (RoleValueMap P))
    (s : RoleSession) (senders : List Role) (myMessage : Option (BroadcastValue P)) :
    Outcome (RoleValueMap P) :=
  startBroadcast ⟨s.roles.card, s.threshold, senders, toBcastHash⟩ s.myRole myMessage >>=
    rounds s senders

/-- The senders are a set, in the order in which it is iterated. -/
def markSilentSenders (broadcastRes : RoleValueMap P) :
    List Role → RoleSession → RoleSession × Outcome (RoleValueMap P)
  | [], s => (s, .ok broadcastRes)
  | role :: rest, s =>
    if role ∈ s.corruptRoles then markSilentSenders broadcastRes rest s
    else
      match broadcastRes.lookup role with
      | none => (s, Outcome.err s!"Cannot find {role} in broadcast's result.")
      | some .bot => markSilentSenders broadcastRes rest (s.addCorrupt role)
      | some (.payload _) => markSilentSenders broadcastRes rest s

variable (execute : RoleSession → List Role → Option (BroadcastValue P) → Outcome (RoleValueMap P))

/-- The session after the call, and what the call returns. -/
def broadcastWithCorruptSetUpdate
    (s : RoleSession) (senders : List Role) (myMessage : Option (BroadcastValue P)) :
    RoleSession × Outcome (RoleValueMap P) :=
  let sendersWithoutCorrupt := senders.filter (fun role => decide (role ∉ s.corruptRoles))
  let reduced := { s with roles := s.roles \ s.corruptRoles }
  match execute reduced sendersWithoutCorrupt myMessage with
  | .error fault => (reduced, .error fault)
  | .ok broadcastRes =>
    markSilentSenders
      ((s.corruptRoles.sort (· ≤ ·)).foldl (fun res role => res.insert role .bot) broadcastRes)
      sendersWithoutCorrupt s

theorem markSilentSenders_keeps (broadcastRes : RoleValueMap P) (senders : List Role)
    (s : RoleSession) :
    (markSilentSenders broadcastRes senders s).1.roles = s.roles ∧
      s.corruptRoles ⊆ (markSilentSenders broadcastRes senders s).1.corruptRoles := by
  induction senders generalizing s with
  | nil => exact ⟨rfl, Finset.Subset.refl _⟩
  | cons role rest ih =>
    rw [markSilentSenders]
    by_cases hcorrupt : role ∈ s.corruptRoles
    · rw [if_pos hcorrupt]
      exact ih s
    · rw [if_neg hcorrupt]
      rcases broadcastRes.lookup role with _ | _ | value
      · exact ⟨rfl, Finset.Subset.refl _⟩
      · obtain ⟨hroles, hgrows⟩ := ih (s.addCorrupt role)
        exact ⟨hroles.trans (s.roles_addCorrupt role),
          (s.corruptRoles_subset_addCorrupt role).trans hgrows⟩
      · exact ih s

/-- On return the roles are those before the call, and a result has only added corrupt parties. -/
def LeavesRoles (s : RoleSession) (after : RoleSession × Outcome (RoleValueMap P)) : Prop :=
  after.2.Returns → after.1.roles = s.roles ∧
    (after.2.isOk = true → s.corruptRoles ⊆ after.1.corruptRoles)

theorem broadcastWithCorruptSetUpdate_leavesRoles_iff
    (s : RoleSession) (senders : List Role) (myMessage : Option (BroadcastValue P)) :
    LeavesRoles s (broadcastWithCorruptSetUpdate execute s senders myMessage) ↔
      Disjoint s.roles s.corruptRoles ∨ ∀ msg, execute { s with roles := s.roles \ s.corruptRoles }
          (senders.filter (fun role => decide (role ∉ s.corruptRoles))) myMessage ≠
            Outcome.err msg := by
  rw [broadcastWithCorruptSetUpdate]
  rcases execute { s with roles := s.roles \ s.corruptRoles }
    (senders.filter (fun role => decide (role ∉ s.corruptRoles))) myMessage with fault | data
  · cases fault with
    | err msg =>
      constructor
      · intro hleaves
        have hroles := (hleaves (Outcome.returns_err msg)).1
        exact Or.inl (Finset.sdiff_eq_self_iff_disjoint.mp hroles)
      · rintro (hdisjoint | hne)
        · exact fun _ => ⟨Finset.sdiff_eq_self_iff_disjoint.mpr hdisjoint, nofun⟩
        · exact absurd rfl (hne msg)
    | panic msg | diverge =>
      exact ⟨fun _ => Or.inr nofun, fun _ => by rintro (⟨_, h⟩ | ⟨_, h⟩) <;> cases h⟩
  · have hkeeps := markSilentSenders_keeps
      ((s.corruptRoles.sort (· ≤ ·)).foldl (fun res role => res.insert role .bot) data)
      (senders.filter (fun role => decide (role ∉ s.corruptRoles))) s
    exact ⟨fun _ => Or.inr nofun, fun _ _ => ⟨hkeeps.1, fun _ => hkeeps.2⟩⟩

/-- The only sender is known to be corrupt, so the broadcast is refused for want of a sender, and
the session goes on without that party's role. -/
theorem not_leavesRoles_corrupt_sender :
    ¬ LeavesRoles ⟨1, 1, {1, 2, 3, 4}, {2}⟩
      (broadcastWithCorruptSetUpdate
        (executeBroadcast (id : BroadcastValue ℕ → BroadcastValue ℕ) (fun _ _ _ => .ok ∅))
        ⟨1, 1, {1, 2, 3, 4}, {2}⟩ [2] none) := by
  intro hleaves
  have hroles := (hleaves (Outcome.returns_err
    "We expect at least one party as sender in reliable broadcast")).1
  exact absurd hroles (by decide)

end ThresholdKms
