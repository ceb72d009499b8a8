import ThresholdKms.BroadcastRun

/-!
# Sending and echoing

What honest parties hold after the first two rounds. All of them have the values of the honest
senders, and a value echoed by enough parties at one of them was echoed to all of them.
-/

namespace ThresholdKms

open Tally

namespace BroadcastRun

section Listening

variable {P H : Type} {R : BroadcastRun P H}

theorem ne_of_mem {p c : Role} (hp : p ∈ R.honest) (hc : c ∈ R.corrupted) : c ≠ p := by
  rintro rfl
  exact (mem_honest.mp hp).2 (mem_corrupted.mp hc).2

/-- A party has stopped listening to the corrupt parties that were silent in a round, and to no
others. -/
structure Listens (R : BroadcastRun P H) (p : Role) (round : ℕ) (nonAnsweringParties : List Role) :
    Prop where
  honest : ∀ q ∈ R.honest, q ∉ nonAnsweringParties
  corrupted : ∀ c ∈ R.corrupted, c ∈ nonAnsweringParties ↔ R.heard p round c = false

variable {p : Role} {round : ℕ} {nonAnsweringParties : List Role}
  {sent : Role → Option (NetworkValue P H)}

theorem Listens.succ {α : Type} {matchValue : NetworkValue P H → Option α}
    (h : R.Listens p round nonAnsweringParties) (hp : p ∈ R.honest)
    (hsent : ∀ q ∈ R.honest, sent q ≠ none) :
    R.Listens p (round + 1) (logTimeouts (List.range' 1 R.numParties) p
      ((genericReceiveFromAllSenders (R.inbox (round + 1) sent p) p (List.range' 1 R.numParties)
        nonAnsweringParties matchValue).map Prod.fst) nonAnsweringParties) := by
  constructor
  · intro q hq hmem
    rcases mem_logTimeouts.mp hmem with hmem | ⟨-, -, hnone⟩
    · exact h.honest q hq hmem
    · rw [inbox_of_mem_honest hq] at hnone
      exact hsent q hq hnone
  · intro c hc
    rw [mem_logTimeouts, h.corrupted c hc, inbox_of_mem_corrupted hc, heard,
      Bool.and_eq_false_iff, Option.isSome_eq_false_iff, Option.isNone_iff_eq_none]
    constructor
    · rintro (hheard | ⟨-, -, hnone⟩)
      · exact Or.inl hheard
      · exact Or.inr hnone
    · rintro (hheard | hnone)
      · exact Or.inl hheard
      · exact Or.inr ⟨(mem_corrupted.mp hc).1, ne_of_mem hp hc, hnone⟩

/-- A round adds the ballots of the other honest parties and of the corrupt parties that are heard. -/
theorem Listens.tally {T : Type} [DecidableEq T]
    {matchBallot : NetworkValue P H → Option (HashMap Role T)}
    (h : R.Listens p round nonAnsweringParties) (hp : p ∈ R.honest)
    (mapData : HashMap (Role × T) ℕ) (k : Role × T) :
    tally (internalProcessEchosOrVotes p (genericReceiveFromAllSenders (R.inbox (round + 1) sent p) p
        (List.range' 1 R.numParties) nonAnsweringParties matchBallot) mapData R.numParties
        nonAnsweringParties).1 k =
      tally mapData k +
        R.honest.countP (fun q => supports ((sent q).bind matchBallot) k && decide (q ≠ p)) +
        R.corrupted.countP (fun c =>
          R.heard p round c && supports ((R.adversary (round + 1) c p).bind matchBallot) k) := by
  have hhonest : R.honest.countP (fun q => decide (q ∉ nonAnsweringParties ∧ q ≠ p) &&
      supports ((R.inbox (round + 1) sent p q).bind matchBallot) k) =
      R.honest.countP (fun q => supports ((sent q).bind matchBallot) k && decide (q ≠ p)) := by
    apply List.countP_congr
    intro q hq
    rw [inbox_of_mem_honest hq, Bool.and_comm]
    simp [h.honest q hq]
  have hcorrupted : R.corrupted.countP (fun c => decide (c ∉ nonAnsweringParties ∧ c ≠ p) &&
      supports ((R.inbox (round + 1) sent p c).bind matchBallot) k) =
      R.corrupted.countP (fun c =>
        R.heard p round c && supports ((R.adversary (round + 1) c p).bind matchBallot) k) := by
    apply List.countP_congr
    intro c hc
    rw [inbox_of_mem_corrupted hc]
    simp [h.corrupted c hc, ne_of_mem hp hc]
  rw [internalProcessEchosOrVotes, tally_addBallots, countP_answers, countP_parties, hhonest,
    hcorrupted, add_assoc]

end Listening

variable {p : Role}

section Sending

variable {P H : Type} (R : BroadcastRun P H)

def initialData (p : Role) : RoleValueMap P :=
  if p ∈ R.senders then
    (collect (R.senders.map (fun role => (role, .bot)))).insert p (R.message p)
  else
    collect (R.senders.map (fun role => (role, .bot)))

def ownContribution (p : Role) : RoleValueMap P :=
  if p ∈ R.senders then collect [(p, R.message p)] else ∅

def contributions (p : Role) : RoleValueMap P :=
  (receiveContributionFromAllSenders (R.inbox 0 R.sentContribution p) p R.senders
    (R.ownContribution p) []).1

def silentSenders (p : Role) : List Role :=
  (receiveContributionFromAllSenders (R.inbox 0 R.sentContribution p) p R.senders
    (R.ownContribution p) []).2

variable {R}

theorem started_eq (hR : R.Admissible) (p : Role) :
    R.started p = .ok ⟨R.initialData p, R.ownContribution p,
      if p ∈ R.senders then some (.send (R.message p)) else none⟩ := by
  have hlt : ¬ R.numParties ≤ R.threshold := by
    have := hR.threshold_lt
    omega
  rw [started, startBroadcast, if_neg hR.senders_ne_nil, if_neg hlt, initialData, ownContribution]
  by_cases hp : p ∈ R.senders
  · simp only [hp, if_true, decide_true]
  · simp only [hp, if_false, decide_false]

theorem sentContribution_eq (hR : R.Admissible) (hp : p ∈ R.senders) :
    R.sentContribution p = some (.send (R.message p)) := by
  rw [sentContribution, started_eq hR]
  exact if_pos hp

theorem echoing_eq (hR : R.Admissible) (p : Role) :
    R.echoing p = .ok ⟨R.initialData p, R.contributions p, R.silentSenders p⟩ := by
  rw [echoing, started_eq hR]
  rfl

theorem lookup_initialData (p role : Role) : (R.initialData p).lookup role =
    if role ∈ R.senders then some (if role = p then R.message p else .bot) else none := by
  have hbot := lookup_collect_map R.senders (fun _ => (.bot : BroadcastValue P)) role
  rw [initialData]
  by_cases hp : p ∈ R.senders
  · rw [if_pos hp, lookup_insert_eq, hbot]
    by_cases hrole : role = p
    · subst hrole
      simp [hp]
    · simp [hrole]
  · rw [if_neg hp, hbot]
    by_cases hrole : role ∈ R.senders
    · rw [if_pos hrole, if_pos hrole, if_neg]
      rintro rfl
      exact hp hrole
    · rw [if_neg hrole, if_neg hrole]

theorem mem_silentSenders {p q : Role} : q ∈ R.silentSenders p ↔
    q ∈ R.senders ∧ q ≠ p ∧ R.inbox 0 R.sentContribution p q = none := by
  refine mem_logTimeouts.trans ?_
  simp

theorem listens_silentSenders (hR : R.Admissible) (hp : p ∈ R.honest) :
    R.Listens p 0 (R.silentSenders p) := by
  constructor
  · intro q hq hmem
    obtain ⟨hsender, -, hnone⟩ := mem_silentSenders.mp hmem
    rw [inbox_of_mem_honest hq, sentContribution_eq hR hsender] at hnone
    cases hnone
  · intro c hc
    rw [mem_silentSenders, inbox_of_mem_corrupted hc, heard]
    by_cases hs : c ∈ R.senders
    · simp [hs, ne_of_mem hp hc]
    · simp [hs]

theorem lookup_contributions_of_notMem {p role : Role} (hrole : role ∉ R.senders) :
    (R.contributions p).lookup role = none := by
  refine (lookup_insertAll_of_notMem ?_).trans ?_
  · intro hmem
    obtain ⟨e, he, rfl⟩ := List.mem_map.mp hmem
    obtain ⟨job, hjob, hv⟩ := List.mem_filterMap.mp he
    obtain ⟨v, -, rfl⟩ := Option.map_eq_some_iff.mp hv
    exact hrole (mem_answering.mp (List.mem_map.mpr ⟨job, hjob, rfl⟩)).1
  · rw [ownContribution]
    split_ifs with hp
    · refine lookup_insertAll_of_notMem ?_
      rintro hmem
      rw [List.map_singleton, List.mem_singleton] at hmem
      exact hrole (hmem ▸ hp)
    · exact AList.lookup_empty _

theorem lookup_contributions_of_honest (hR : R.Admissible) {p s : Role} (hs : s ∈ R.senders)
    (hhonest : s ∈ R.honest) : (R.contributions p).lookup s = some (R.message s) := by
  have hsent : R.inbox 0 R.sentContribution p s = some (.send (R.message s)) := by
    rw [inbox_of_mem_honest hhonest, sentContribution_eq hR hs]
  have hvalue : ∀ e ∈ (genericReceiveFromAllSenders (R.inbox 0 R.sentContribution p) p R.senders []
      matchSend).filterMap (fun job => job.2.map (fun v => (job.1, v))), e.1 = s →
        e.2 = R.message s := by
    intro e he hes
    obtain ⟨job, hjob, hv⟩ := List.mem_filterMap.mp he
    obtain ⟨v, hv, rfl⟩ := Option.map_eq_some_iff.mp hv
    obtain ⟨q, -, hq⟩ := List.mem_filterMap.mp hjob
    obtain ⟨msg, hmsg, rfl⟩ := Option.map_eq_some_iff.mp hq
    obtain rfl : q = s := hes
    rw [hsent, Option.some_inj] at hmsg
    subst hmsg
    exact (congrArg Prod.snd (Option.some_inj.mp hv)).symm
  by_cases hsp : s = p
  · subst hsp
    refine (lookup_insertAll_of_notMem ?_).trans ?_
    · intro hmem
      obtain ⟨e, he, hes⟩ := List.mem_map.mp hmem
      obtain ⟨job, hjob, hv⟩ := List.mem_filterMap.mp he
      obtain ⟨v, -, rfl⟩ := Option.map_eq_some_iff.mp hv
      exact (mem_answering.mp (List.mem_map.mpr ⟨job, hjob, rfl⟩)).2.1.2 hes
    · rw [ownContribution, if_pos hs]
      exact AList.lookup_insert _
  · refine lookup_insertAll_of_mem ?_ hvalue
    refine List.mem_map.mpr ⟨(s, R.message s), List.mem_filterMap.mpr ⟨(s, some (R.message s)), ?_,
      rfl⟩, rfl⟩
    refine List.mem_filterMap.mpr ⟨s, List.mem_filter.mpr ⟨hs, decide_eq_true ⟨by simp, hsp⟩⟩, ?_⟩
    rw [hsent]
    rfl

end Sending

section Echoing

variable {P H : Type} [DecidableEq P] [DecidableEq H] (R : BroadcastRun P H)

/-- All echoes that a party has counted, with its own. -/
def echoed (p : Role) : HashMap (Role × BroadcastValue P) ℕ :=
  (internalProcessEchosOrVotes p (genericReceiveFromAllSenders (R.inbox 1 R.sentEcho p) p
    (List.range' 1 R.numParties) (R.silentSenders p) matchEcho)
    (collect ((R.contributions p).entries.map (fun e => ((e.1, e.2), 1)))) R.numParties
    (R.silentSenders p)).1

/-- The votes that a party starts with and the values that it knows. -/
abbrev registered (p : Role) : HashMap (Role × H) ℕ × HashMap (Role × H) (BroadcastValue P) :=
  processEchos R.toBroadcastSession (R.echoed p)

/-- The parties that were silent in one of the first two rounds. -/
def silentParties (p : Role) : List Role :=
  (internalProcessEchosOrVotes p (genericReceiveFromAllSenders (R.inbox 1 R.sentEcho p) p
    (List.range' 1 R.numParties) (R.silentSenders p) matchEcho)
    (collect ((R.contributions p).entries.map (fun e => ((e.1, e.2), 1)))) R.numParties
    (R.silentSenders p)).2

/-- A key that a party votes for because of the echoes. -/
def Registers (p : Role) (k : Role × H) : Prop :=
  ∃ v, R.toBcastHash v = k.2 ∧ R.numParties - R.threshold ≤ tally (R.echoed p) (k.1, v)

variable {R}

omit [DecidableEq H] in
theorem supports_sentEcho (hR : R.Admissible) (p : Role) (k : Role × BroadcastValue P) :
    supports ((R.sentEcho p).bind matchEcho) k =
      decide ((R.contributions p).lookup k.1 = some k.2) := by
  rw [sentEcho, echoing_eq hR]
  rfl

omit [DecidableEq H] in
/-- A party counts its own echo, those of the other honest parties, and those of the corrupt parties
that it has heard. -/
theorem tally_echoed (hR : R.Admissible) (hp : p ∈ R.honest)
    (k : Role × BroadcastValue P) : tally (R.echoed p) k =
      R.honest.countP (fun q => decide ((R.contributions q).lookup k.1 = some k.2)) +
        R.corrupted.countP (fun c =>
          R.heard p 0 c && supports ((R.adversary 1 c p).bind matchEcho) k) := by
  have hown : tally (collect ((R.contributions p).entries.map (fun e => ((e.1, e.2), 1)))) k =
      (decide ((R.contributions p).lookup k.1 = some k.2)).toNat := tally_collect_ballot _ k
  have hself := countP_eq_add_of_mem nodup_honest hp
    (fun q => decide ((R.contributions q).lookup k.1 = some k.2))
  have htally : tally (R.echoed p) k =
      tally (collect ((R.contributions p).entries.map (fun e => ((e.1, e.2), 1)))) k +
        R.honest.countP (fun q => supports ((R.sentEcho q).bind matchEcho) k && decide (q ≠ p)) +
        R.corrupted.countP (fun c =>
          R.heard p 0 c && supports ((R.adversary 1 c p).bind matchEcho) k) :=
    (listens_silentSenders hR hp).tally hp _ k
  simp only [supports_sentEcho hR, hown] at htally
  rw [htally]
  omega

omit [DecidableEq H] in
theorem listens_silentParties (hR : R.Admissible) (hp : p ∈ R.honest) :
    R.Listens p 1 (R.silentParties p) := by
  refine (listens_silentSenders hR hp).succ hp ?_
  intro q _
  rw [sentEcho, echoing_eq hR]
  simp

theorem mem_entries_processEchos (hpos : R.threshold < R.numParties) (p : Role)
    (e : (_ : Role × H) × ℕ) :
    e ∈ (R.registered p).1.entries ↔ e.2 = 1 ∧ R.Registers p e.1 := by
  rw [← AList.mem_lookup_iff]
  constructor
  · intro h
    obtain ⟨e', he', hek⟩ := List.mem_map.mp (mem_of_lookup_collect h)
    obtain ⟨hent, hcount⟩ := List.mem_filter.mp he'
    refine ⟨(congrArg Prod.snd hek).symm, e'.1.2, congrArg (fun k => k.1.2) hek, ?_⟩
    rw [← congrArg (fun k => k.1.1) hek, tally_of_mem_entries hent]
    exact of_decide_eq_true hcount
  · rintro ⟨hone, v, hv, hcount⟩
    have hent := mem_entries_of_tally_pos (show 0 < tally (R.echoed p) (e.1.1, v) by omega)
    rw [hone]
    refine lookup_insertAll_of_mem ?_ ?_
    · refine List.mem_map.mpr ⟨(e.1, 1), List.mem_map.mpr ⟨_, List.mem_filter.mpr
        ⟨hent, decide_eq_true hcount⟩, ?_⟩, rfl⟩
      rw [hv]
    · intro e' he' _
      obtain ⟨e'', -, rfl⟩ := List.mem_map.mp he'
      rfl

variable {v : BroadcastValue P}

theorem hash_of_lookup_processEchos {k : Role × H}
    (h : (R.registered p).2.lookup k = some v) :
    R.toBcastHash v = k.2 := by
  obtain ⟨e, -, hek⟩ := List.mem_map.mp (mem_of_lookup_collect h)
  have hv : e.1.2 = v := congrArg Prod.snd hek
  rw [← hv]
  exact congrArg (fun k => k.1.2) hek

theorem lookup_processEchos_of_pos (hinj : Function.Injective R.toBcastHash) {p role : Role}
    (h : 0 < tally (R.echoed p) (role, v)) :
    (R.registered p).2.lookup (role, R.toBcastHash v) = some v := by
  refine lookup_insertAll_of_mem ?_ ?_
  · exact List.mem_map.mpr ⟨((role, R.toBcastHash v), v),
      List.mem_map.mpr ⟨_, mem_entries_of_tally_pos h, rfl⟩, rfl⟩
  · intro e he hkey
    obtain ⟨e', -, rfl⟩ := List.mem_map.mp he
    exact hinj (congrArg Prod.snd hkey)

end Echoing

end BroadcastRun

end ThresholdKms
