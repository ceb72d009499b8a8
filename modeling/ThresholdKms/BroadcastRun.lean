import ThresholdKms.Broadcast

/-!
# Synchronous runs of the broadcast

All parties proceed in lockstep. A message of an honest party reaches everyone in its round; a corrupt
party sends to each recipient what the adversary likes, or nothing. An honest party that fails is
silent from then on. Since every schedule of the adversary is a run, an adversary that adapts to what
it sees is covered.
-/

namespace ThresholdKms

open Tally

/-- The honest inputs, the iteration orders, and all messages of the corrupt parties: in round zero
in place of values, in round one in place of echoes, and then in place of votes. -/
structure BroadcastRun (P H : Type) extends BroadcastSession P H where
  corrupt : List Role
  message : Role → BroadcastValue P
  adversary : ℕ → Role → Role → Option (NetworkValue P H)
  order : Role → ℕ → IterOrder (Role × H) ℕ

namespace BroadcastRun

variable {P H : Type} [DecidableEq P] [DecidableEq H] (R : BroadcastRun P H)

def honest : List Role := (List.range' 1 R.numParties).filter (fun p => decide (p ∉ R.corrupt))

def corrupted : List Role := (List.range' 1 R.numParties).filter (fun p => decide (p ∈ R.corrupt))

def inbox (round : ℕ) (sent : Role → Option (NetworkValue P H)) (receiver sender : Role) :
    Option (NetworkValue P H) :=
  if sender ∈ R.corrupt then R.adversary round sender receiver else sent sender

def started (p : Role) : Outcome (Contribution P H) :=
  startBroadcast R.toBroadcastSession p (if p ∈ R.senders then some (R.message p) else none)

def sentContribution (p : Role) : Option (NetworkValue P H) :=
  match R.started p with
  | .ok c => c.sent
  | .error _ => none

/-- A party that has received the contributions of the senders. -/
structure Echoing (P : Type) where
  bcastData : RoleValueMap P
  contributions : RoleValueMap P
  nonAnsweringParties : List Role

def echoing (p : Role) : Outcome (Echoing P) := do
  let c ← R.started p
  let (contributions, nonAnsweringParties) := receiveContributionFromAllSenders
    (R.inbox 0 R.sentContribution p) p R.senders c.round1Contributions []
  return ⟨c.bcastData, contributions, nonAnsweringParties⟩

def sentEcho (p : Role) : Option (NetworkValue P H) :=
  match R.echoing p with
  | .ok s => some (.echoBatch s.contributions)
  | .error _ => none

/-- The first vote is sent before it is recorded. -/
def firstVote (p : Role) : Outcome (VotingState P H) × Option (NetworkValue P H) :=
  match R.echoing p with
  | .error fault => (.error fault, none)
  | .ok s =>
    let ((registeredVotes, mapHashToValue), nonAnsweringParties) :=
      receiveEchosFromAllBatched R.toBroadcastSession (R.inbox 1 R.sentEcho p) p s.contributions
        s.nonAnsweringParties
    (do
      let casted ← ((R.order p 0).iter registeredVotes).foldlM markCasted
        (collect (R.senders.map (fun role => (role, false))))
      return ⟨registeredVotes, casted, nonAnsweringParties, mapHashToValue, s.bcastData⟩,
    some (castThresholdVote (R.order p 0) registeredVotes 1))

/-- The state of a party after a number of voting rounds, and the vote that it sends next. -/
def voting : ℕ → Role → Outcome (VotingState P H) × Option (NetworkValue P H)
  | 0, p => R.firstVote p
  | round + 1, p =>
    match (voting round p).1 with
    | .error fault => (.error fault, none)
    | .ok st =>
      match gatherVotesRound R.toBroadcastSession (R.order p (round + 1)) p (round + 1)
        (R.inbox (round + 2) (fun q => (voting round q).2) p) st with
      | .error fault => (.error fault, none)
      | .ok (st, msg) => (.ok st, msg)

/-- The result of the broadcast at a party. -/
def execute (p : Role) : Outcome (RoleValueMap P) := do
  let st ← (R.voting (R.threshold + 1) p).1
  let result ← ((R.order p (R.threshold + 1)).iter st.registeredVotes).foldlM
    (collectVote (R.numParties - R.threshold)) (st.mapHashToValue, st.bcastData)
  return result.2

/-- The setting of the protocol: fewer than a third of the parties are corrupt, and hashes do not
collide. -/
structure Admissible : Prop where
  senders_ne_nil : R.senders ≠ []
  senders_sub : ∀ s ∈ R.senders, s ∈ List.range' 1 R.numParties
  threshold_lt : 3 * R.threshold < R.numParties
  corrupted_le : R.corrupted.length ≤ R.threshold
  hash_injective : Function.Injective R.toBcastHash

section Counting

/-- A corrupt party that has answered a party in all rounds so far. -/
def heard (p : Role) : ℕ → Role → Bool
  | 0, c => decide (c ∉ R.senders) || (R.adversary 0 c p).isSome
  | round + 1, c => heard p round c && (R.adversary (round + 1) c p).isSome

def votes (round : ℕ) (k : Role × H) (p : Role) : Bool :=
  supports ((R.voting round p).2.bind matchVote) k

/-- The number of a party's own votes for a key up to a round. -/
def votesCast (k : Role × H) (p : Role) : ℕ → ℕ
  | 0 => (R.votes 0 k p).toNat
  | round + 1 => votesCast k p round + (R.votes (round + 1) k p).toNat

/-- The votes that honest parties sent before a round. -/
def honestVotes (k : Role × H) : ℕ → ℕ
  | 0 => 0
  | round + 1 => honestVotes k round + R.honest.countP (R.votes round k)

/-- The votes for a key that a party counts from corrupt parties in the first voting rounds. -/
def corruptVotes (p : Role) (k : Role × H) : ℕ → ℕ
  | 0 => 0
  | round + 1 => corruptVotes p k round + R.corrupted.countP (fun c =>
    R.heard p (round + 1) c && supports ((R.adversary (round + 2) c p).bind matchVote) k)

end Counting

section Parties

variable {P H : Type} {R : BroadcastRun P H} {p : Role}

theorem mem_honest : p ∈ R.honest ↔ p ∈ List.range' 1 R.numParties ∧ p ∉ R.corrupt := by
  rw [honest, List.mem_filter, decide_eq_true_iff]

theorem mem_corrupted :
    p ∈ R.corrupted ↔ p ∈ List.range' 1 R.numParties ∧ p ∈ R.corrupt := by
  rw [corrupted, List.mem_filter, decide_eq_true_iff]

theorem nodup_honest : R.honest.Nodup := (List.nodup_range' (h := by omega)).filter _

theorem countP_parties (q : Role → Bool) :
    (List.range' 1 R.numParties).countP q = R.honest.countP q + R.corrupted.countP q := by
  rw [List.countP_eq_countP_filter_add _ q (fun p => decide (p ∉ R.corrupt))]
  simp only [decide_not, Bool.not_not, honest, corrupted]

theorem length_honest_add : R.honest.length + R.corrupted.length = R.numParties := by
  have hall := countP_parties (R := R) (fun _ => true)
  simpa using hall.symm

theorem inbox_of_mem_honest (hp : p ∈ R.honest) (round : ℕ)
    (sent : Role → Option (NetworkValue P H)) (receiver : Role) :
    R.inbox round sent receiver p = sent p := if_neg (mem_honest.mp hp).2

theorem inbox_of_mem_corrupted (hp : p ∈ R.corrupted) (round : ℕ)
    (sent : Role → Option (NetworkValue P H)) (receiver : Role) :
    R.inbox round sent receiver p = R.adversary round p receiver := if_pos (mem_corrupted.mp hp).2

end Parties

end BroadcastRun

/-!
## The loops of the broadcast

What each loop of a party computes: who is listened to after a round, which keys gain how many votes,
for which keys a vote is cast, and which values are returned at the end.
-/

variable {P H : Type}

section Receive

variable {α : Type} {inbox : Role → Option (NetworkValue P H)} {receiver : Role}
  {senders nonAnsweringParties : List Role} {matchValue : NetworkValue P H → Option α}

theorem mem_answering {p : Role} :
    p ∈ (genericReceiveFromAllSenders inbox receiver senders nonAnsweringParties matchValue).map
        Prod.fst ↔
      p ∈ senders ∧ (p ∉ nonAnsweringParties ∧ p ≠ receiver) ∧ inbox p ≠ none := by
  rw [List.mem_map]
  constructor
  · rintro ⟨job, hjob, rfl⟩
    obtain ⟨s, hs, hjob⟩ := List.mem_filterMap.mp hjob
    obtain ⟨msg, hmsg, rfl⟩ := Option.map_eq_some_iff.mp hjob
    obtain ⟨hmem, hcond⟩ := List.mem_filter.mp hs
    exact ⟨hmem, of_decide_eq_true hcond, by simp [hmsg]⟩
  · rintro ⟨hmem, hcond, hmsg⟩
    obtain ⟨msg, hmsg⟩ := Option.ne_none_iff_exists'.mp hmsg
    refine ⟨(p, matchValue msg), List.mem_filterMap.mpr ⟨p, ?_, ?_⟩, rfl⟩
    · exact List.mem_filter.mpr ⟨hmem, decide_eq_true hcond⟩
    · rw [hmsg]
      rfl

/-- A party that misses a round is not listened to again. -/
theorem mem_logTimeouts {p : Role} :
    p ∈ logTimeouts senders receiver ((genericReceiveFromAllSenders inbox receiver senders
        nonAnsweringParties matchValue).map Prod.fst) nonAnsweringParties ↔
      p ∈ nonAnsweringParties ∨ p ∈ senders ∧ p ≠ receiver ∧ inbox p = none := by
  rw [logTimeouts, List.mem_union_iff, List.mem_filter, decide_eq_true_iff, mem_answering]
  constructor
  · rintro (hnon | ⟨hmem, hans, hne⟩)
    · exact Or.inl hnon
    · by_cases hnon : p ∈ nonAnsweringParties
      · exact Or.inl hnon
      · refine Or.inr ⟨hmem, hne, ?_⟩
        by_contra hmsg
        exact hans ⟨hmem, ⟨hnon, hne⟩, hmsg⟩
  · rintro (hnon | ⟨hmem, hne, hmsg⟩)
    · exact Or.inl hnon
    · exact Or.inr ⟨hmem, fun hans => hans.2.2 hmsg, hne⟩

theorem countP_answers {T : Type} [DecidableEq T]
    {matchBallot : NetworkValue P H → Option (HashMap Role T)} (k : Role × T) :
    ((genericReceiveFromAllSenders inbox receiver senders nonAnsweringParties matchBallot).map
        Prod.snd).countP (fun m => supports m k) =
      senders.countP (fun p => decide (p ∉ nonAnsweringParties ∧ p ≠ receiver) &&
        supports ((inbox p).bind matchBallot) k) := by
  rw [genericReceiveFromAllSenders]
  induction senders with
  | nil => rfl
  | cons s senders ih =>
    rw [List.countP_cons, ← ih, List.filter_cons]
    cases hcond : decide (s ∉ nonAnsweringParties ∧ s ≠ receiver) with
    | false => simp
    | true =>
      rw [if_pos rfl, List.filterMap_cons]
      cases hmsg : inbox s with
      | none => simp [supports]
      | some msg => simp [List.countP_cons]

end Receive

section Vote

variable [DecidableEq H]

/-- A vote is sent for the keys with enough votes, if each sender has at most one of them. -/
theorem supports_castThresholdVote (order : IterOrder (Role × H) ℕ)
    (registeredVotes : HashMap (Role × H) ℕ) (threshold : ℕ)
    (hunique : ∀ e ∈ registeredVotes.entries, ∀ e' ∈ registeredVotes.entries, threshold ≤ e.2 →
      threshold ≤ e'.2 → e.1.1 = e'.1.1 → e.1 = e'.1) (k : Role × H) :
    supports (matchVote (castThresholdVote order registeredVotes threshold : NetworkValue P H)) k ↔
      ∃ e ∈ registeredVotes.entries, e.1 = k ∧ threshold ≤ e.2 := by
  have hmem : ∀ e, e ∈ (order.iter registeredVotes).filter (fun e => decide (threshold ≤ e.2)) ↔
      e ∈ registeredVotes.entries ∧ threshold ≤ e.2 := by
    intro e
    rw [List.mem_filter, decide_eq_true_iff, IterOrder.iter, (order.perm _).mem_iff]
  have hsupports : supports (matchVote (castThresholdVote order registeredVotes threshold :
      NetworkValue P H)) k ↔ (collect (((order.iter registeredVotes).filter
        (fun e => decide (threshold ≤ e.2))).map (fun e => e.1))).lookup k.1 = some k.2 := by
    rw [castThresholdVote]
    split_ifs with hempty
    · rw [AList.ext (s := collect _) (t := ∅) hempty]
      simp [matchVote, supports]
    · simp [matchVote, supports]
  rw [hsupports]
  constructor
  · intro hlookup
    obtain ⟨e, he, hek⟩ := List.mem_map.mp (mem_of_lookup_collect hlookup)
    obtain ⟨hent, hthr⟩ := (hmem e).mp he
    exact ⟨e, hent, hek, hthr⟩
  · rintro ⟨e, hent, rfl, hthr⟩
    refine lookup_insertAll_of_mem ?_ ?_
    · exact List.mem_map.mpr ⟨e.1, List.mem_map.mpr ⟨e, (hmem e).mpr ⟨hent, hthr⟩, rfl⟩, rfl⟩
    · intro k' hk' hrole'
      obtain ⟨e', he', rfl⟩ := List.mem_map.mp hk'
      obtain ⟨hent', hthr'⟩ := (hmem e').mp he'
      rw [hunique e' hent' e hent hthr' hthr hrole']

variable {l : List ((_ : Role × H) × ℕ)}

theorem lookup_insert_true (casted : HashMap Role Bool) (role' : Role) (roles : List Role)
    (role : Role) :
    (if role ∈ roles then some true else (casted.insert role' true).lookup role) =
      if role ∈ role' :: roles then some true else casted.lookup role := by
  rw [lookup_insert_eq]
  by_cases hmem : role ∈ roles
  · simp [hmem]
  · by_cases hrole : role = role'
    · simp [hrole]
    · simp [hmem, hrole]

omit [DecidableEq H] in
theorem foldlM_markCasted {casted : HashMap Role Bool} (hnodup : (l.map (fun e => e.1.1)).Nodup)
    (hfalse : ∀ e ∈ l, casted.lookup e.1.1 = some false) :
    ∃ casted', l.foldlM markCasted casted = .ok casted' ∧ ∀ role, casted'.lookup role =
      if role ∈ l.map (fun e => e.1.1) then some true else casted.lookup role := by
  induction l generalizing casted with
  | nil => exact ⟨casted, rfl, fun role => by simp⟩
  | cons e l ih =>
    rw [List.map_cons, List.nodup_cons] at hnodup
    have hstep : markCasted casted e = .ok (casted.insert e.1.1 true) := by
      rw [markCasted, hfalse e List.mem_cons_self]
    have hrest : ∀ e' ∈ l, (casted.insert e.1.1 true).lookup e'.1.1 = some false := by
      intro e' he'
      rw [lookup_insert_eq, if_neg]
      · exact hfalse e' (List.mem_cons_of_mem _ he')
      · intro hrole
        exact hnodup.1 (List.mem_map.mpr ⟨e', he', hrole⟩)
    obtain ⟨casted', hrun, hlookup⟩ := ih hnodup.2 hrest
    refine ⟨casted', by rw [List.foldlM_cons, hstep, Outcome.ok_bind, hrun], fun role => ?_⟩
    rw [hlookup, lookup_insert_true, List.map_cons]

/-- The votes `W` that a party casts in a round: each key has enough votes, and the party had not
voted for its sender. -/
structure CastsVotes (needed : ℕ) (s s' : RoundVotes H) (W : List ((_ : Role × H) × ℕ)) : Prop where
  needed_le : ∀ e ∈ W, needed ≤ e.2
  tally_eq : ∀ e ∈ W, tally s.registeredVotes e.1 = e.2
  not_casted : ∀ e ∈ W, s.casted.lookup e.1.1 = some false
  nodup : (W.map (fun e => e.1.1)).Nodup
  registeredVotes : ∀ k, tally s'.registeredVotes k =
    tally s.registeredVotes k + if k ∈ W.map (fun e => e.1) then 1 else 0
  casted : ∀ role, s'.casted.lookup role =
    if role ∈ W.map (fun e => e.1.1) then some true else s.casted.lookup role
  roundRegisteredVotes : s'.roundRegisteredVotes =
    insertAll s.roundRegisteredVotes (W.map (fun e => (e.1, e.2)))

theorem CastsVotes.cons {needed : ℕ} {s s' : RoundVotes H} {W : List ((_ : Role × H) × ℕ)}
    {e : (_ : Role × H) × ℕ} (hneeded : needed ≤ e.2) (htally : tally s.registeredVotes e.1 = e.2)
    (hcasted : s.casted.lookup e.1.1 = some false)
    (h : CastsVotes needed ⟨s.registeredVotes.insert e.1 (e.2 + 1), s.casted.insert e.1.1 true,
      s.roundRegisteredVotes.insert e.1 e.2⟩ s' W) : CastsVotes needed s s' (e :: W) := by
  have hrole : ∀ e' ∈ W, e'.1.1 ≠ e.1.1 := by
    intro e' he' hrole
    have hnot := h.not_casted e' he'
    rw [hrole, lookup_insert_eq, if_pos rfl] at hnot
    cases hnot
  have hkey : ∀ e' ∈ W, e'.1 ≠ e.1 := fun e' he' hkey => hrole e' he' (congrArg Prod.fst hkey)
  have hnotMem : e.1 ∉ W.map (fun e => e.1) := by
    intro hmem
    obtain ⟨e', he', hkey'⟩ := List.mem_map.mp hmem
    exact hkey e' he' hkey'
  refine ⟨?_, ?_, ?_, ?_, ?_, ?_, h.roundRegisteredVotes⟩
  · exact List.forall_mem_cons.mpr ⟨hneeded, h.needed_le⟩
  · refine List.forall_mem_cons.mpr ⟨htally, fun e' he' => ?_⟩
    rw [← h.tally_eq e' he', tally_insert, if_neg (hkey e' he')]
  · refine List.forall_mem_cons.mpr ⟨hcasted, fun e' he' => ?_⟩
    rw [← h.not_casted e' he', lookup_insert_eq, if_neg (hrole e' he')]
  · rw [List.map_cons, List.nodup_cons]
    refine ⟨fun hmem => ?_, h.nodup⟩
    obtain ⟨e', he', hrole'⟩ := List.mem_map.mp hmem
    exact hrole e' he' hrole'
  · intro k
    rw [h.registeredVotes, tally_insert, List.map_cons]
    by_cases hk : k = e.1
    · subst hk
      simp [hnotMem, htally]
    · have hiff : k ∈ e.1 :: W.map (fun e => e.1) ↔ k ∈ W.map (fun e => e.1) := by
        rw [List.mem_cons, or_iff_right hk]
      simp only [hk, if_false, hiff]
  · intro role
    rw [h.casted, lookup_insert_true, List.map_cons]

theorem foldlM_gatherVote {needed : ℕ} {s : RoundVotes H}
    (hnodup : (l.map (fun e => e.1)).Nodup) (htally : ∀ e ∈ l, tally s.registeredVotes e.1 = e.2)
    (hsome : ∀ e ∈ l, needed ≤ e.2 → s.casted.lookup e.1.1 ≠ none) :
    ∃ s' W, l.foldlM (gatherVote needed) s = .ok s' ∧ CastsVotes needed s s' W := by
  induction l generalizing s with
  | nil => exact ⟨s, [], rfl, by simp, by simp, by simp, by simp, by simp, by simp, rfl⟩
  | cons e l ih =>
    rw [List.map_cons, List.nodup_cons] at hnodup
    obtain ⟨htallyHead, htally'⟩ := List.forall_mem_cons.mp htally
    obtain ⟨hsomeHead, hsome'⟩ := List.forall_mem_cons.mp hsome
    rw [List.foldlM_cons]
    by_cases hneeded : needed ≤ e.2
    · cases hcasted : s.casted.lookup e.1.1 with
      | none => exact absurd hcasted (hsomeHead hneeded)
      | some b =>
        cases b with
        | true =>
          rw [gatherVote, if_pos hneeded, hcasted]
          exact ih hnodup.2 htally' hsome'
        | false =>
          rw [gatherVote, if_pos hneeded, hcasted]
          obtain ⟨s', W, hrun, hW⟩ := ih (s := ⟨s.registeredVotes.insert e.1 (e.2 + 1),
            s.casted.insert e.1.1 true, s.roundRegisteredVotes.insert e.1 e.2⟩) hnodup.2
            (by
              intro e' he'
              rw [tally_insert, if_neg, htally' e' he']
              intro hkey
              exact hnodup.1 (List.mem_map.mpr ⟨e', he', hkey⟩))
            (by
              intro e' he' hneeded'
              rw [lookup_insert_eq]
              split_ifs
              · simp
              · exact hsome' e' he' hneeded')
          exact ⟨s', e :: W, hrun, CastsVotes.cons hneeded htallyHead hcasted hW⟩
    · rw [gatherVote, if_neg hneeded]
      exact ih hnodup.2 htally' hsome'

/-- Every value with enough votes is known, so the loop ends; a sender with one such value gets it. -/
theorem foldlM_collectVote {minHonestNodes : ℕ} {values : HashMap (Role × H) (BroadcastValue P)}
    (bcastData : RoleValueMap P) (hnodup : (l.map (fun e => e.1)).Nodup)
    (hsome : ∀ e ∈ l, minHonestNodes ≤ e.2 → values.lookup e.1 ≠ none) :
    ∃ result, l.foldlM (collectVote minHonestNodes) (values, bcastData) = .ok result ∧
      (∀ e ∈ l, minHonestNodes ≤ e.2 →
        (∀ e' ∈ l, minHonestNodes ≤ e'.2 → e'.1.1 = e.1.1 → e'.1 = e.1) →
        result.2.lookup e.1.1 = values.lookup e.1) ∧
      ∀ role, (∀ e ∈ l, minHonestNodes ≤ e.2 → e.1.1 ≠ role) →
        result.2.lookup role = bcastData.lookup role := by
  induction l generalizing values bcastData with
  | nil => exact ⟨(values, bcastData), rfl, by simp, by simp⟩
  | cons e l ih =>
    rw [List.map_cons, List.nodup_cons] at hnodup
    have hkey : ∀ e' ∈ l, e'.1 ≠ e.1 :=
      fun e' he' hkey => hnodup.1 (List.mem_map.mpr ⟨e', he', hkey⟩)
    rw [List.forall_mem_cons] at hsome
    simp only [List.forall_mem_cons]
    rw [List.foldlM_cons]
    by_cases hmin : minHonestNodes ≤ e.2
    · obtain ⟨value, hvalue⟩ := Option.ne_none_iff_exists'.mp (hsome.1 hmin)
      have hlookup : ∀ e' ∈ l, (values.erase e.1).lookup e'.1 = values.lookup e'.1 :=
        fun e' he' => AList.lookup_erase_ne (hkey e' he')
      have hsome' : ∀ e' ∈ l, minHonestNodes ≤ e'.2 → (values.erase e.1).lookup e'.1 ≠ none := by
        intro e' he' hmin'
        rw [hlookup e' he']
        exact hsome.2 e' he' hmin'
      have hstep : collectVote minHonestNodes (values, bcastData) e =
          .ok (values.erase e.1, bcastData.insert e.1.1 value) := by
        rw [collectVote, if_pos hmin, hvalue]
      obtain ⟨result, hrun, hresult, hrest⟩ := ih (bcastData.insert e.1.1 value) hnodup.2 hsome'
      refine ⟨result, ?_, ⟨fun _ hunique => ?_, fun e' he' hmin' hunique => ?_⟩,
        fun role hrole => ?_⟩
      · rw [hstep]
        exact hrun
      · rw [hrest e.1.1, AList.lookup_insert, hvalue]
        exact fun e' he' hmin' hrole => hkey e' he' (hunique.2 e' he' hmin' hrole)
      · rw [hresult e' he' hmin' hunique.2, hlookup e' he']
      · rw [hrest role hrole.2, AList.lookup_insert_ne (hrole.1 hmin).symm]
    · rw [collectVote, if_neg hmin]
      obtain ⟨result, hrun, hresult, hrest⟩ := ih bcastData hnodup.2 hsome.2
      refine ⟨result, hrun, ⟨fun hmin' => absurd hmin' hmin, ?_⟩, ?_⟩
      · exact fun e' he' hmin' hunique => hresult e' he' hmin' hunique.2
      · exact fun role hrole => hrest role hrole.2

end Vote

end ThresholdKms
