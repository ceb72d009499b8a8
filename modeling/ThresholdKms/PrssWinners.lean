import ThresholdKms.PrssVotes

/-!
# Winning values

Every set of `n - t` parties has more honest members than there can be corrupt parties. So if the
honest parties vote for the true values of their sets, these win, the votes for any other set come
from corrupt parties only, and only corrupt parties are missing among the votes for a true value.
-/

namespace ThresholdKms

section Max

variable {Z : Type}

theorem foldl_betterVotes (entries : List ((_ : List Z) × Finset Role)) (value : List Z)
    (votes : Finset Role) :
    ∃ best : (_ : List Z) × Finset Role, best ∈ ⟨value, votes⟩ :: entries ∧
      entries.foldl betterVotes (some (value, votes)) = some (best.1, best.2) ∧
      ∀ entry ∈ ⟨value, votes⟩ :: entries, entry.2.card ≤ best.2.card := by
  induction entries generalizing value votes with
  | nil => exact ⟨⟨value, votes⟩, by simp, rfl, by simp⟩
  | cons entry entries ih =>
    rw [List.foldl_cons, betterVotes]
    split_ifs with hle
    · obtain ⟨best, hbest, hfold, hmax⟩ := ih entry.1 entry.2
      refine ⟨best, List.mem_cons_of_mem _ hbest, hfold, ?_⟩
      rw [List.forall_mem_cons] at hmax ⊢
      exact ⟨hle.trans hmax.1, List.forall_mem_cons.mpr hmax⟩
    · obtain ⟨best, hbest, hfold, hmax⟩ := ih value votes
      refine ⟨best, List.cons_subset_cons _ (List.subset_cons_self _ _) hbest, hfold, ?_⟩
      rw [List.forall_mem_cons] at hmax
      rw [List.forall_mem_cons, List.forall_mem_cons]
      exact ⟨hmax.1, (not_le.mp hle).le.trans hmax.1, hmax.2⟩

theorem maxByVotes_eq {valueVotes : ValueVotes Z} (h : valueVotes.entries ≠ []) :
    ∃ best ∈ valueVotes.entries, maxByVotes valueVotes = some (best.1, best.2) ∧
      ∀ entry ∈ valueVotes.entries, entry.2.card ≤ best.2.card := by
  unfold maxByVotes
  cases hentries : valueVotes.entries with
  | nil => exact absurd hentries h
  | cons entry entries => exact foldl_betterVotes entries entry.1 entry.2

end Max

section Winners

variable {Z : Type} [DecidableEq Z] {honest : Finset Role} {n t : ℕ}

/-- The honest parties have voted, and only they vote as they should: each for the true values of the
valid sets that it belongs to. -/
structure TrueVotes (honest : Finset Role) (n t : ℕ) (truth : List Role → List Z)
    (count : HashMap (List Role) (ValueVotes Z)) : Prop where
  voted : Voted count
  mem_roles : ∀ set value, ∀ r ∈ votesFor count set value, r ∈ partyRoles n
  of_honest : ∀ set value, ∀ r ∈ votesFor count set value, r ∈ honest →
    set ∈ combinations (n - t) (partyRoles n) ∧ value = truth set
  honest_mem : ∀ set ∈ combinations (n - t) (partyRoles n), ∀ r ∈ set, r ∈ honest →
    r ∈ votesFor count set (truth set)

variable {set : List Role}

theorem HonestMajority.lt_card_inter (hhonest : HonestMajority honest n t)
    (hset : set ∈ allSets n t) : t < (set.toFinset ∩ honest).card := by
  obtain ⟨hsub, hlen⟩ := mem_combinations.mp hset
  have hnodup : set.Nodup := (nodup_partyRoles n).sublist hsub
  have hdiff : (set.toFinset \ honest) ⊆ otherRoles honest n := by
    intro r hr
    rw [Finset.mem_sdiff, List.mem_toFinset] at hr
    exact mem_otherRoles.mpr ⟨hsub.subset hr.1, hr.2⟩
  have hle := (Finset.card_le_card hdiff).trans hhonest.card_otherRoles_le
  have hsplit := Finset.card_inter_add_card_sdiff set.toFinset honest
  rw [List.toFinset_card_of_nodup hnodup] at hsplit
  have := hhonest.lt
  omega

variable {truth : List Role → List Z} {count : HashMap (List Role) (ValueVotes Z)} {value : List Z}
  {entry : (_ : List Role) × ValueVotes Z} {r : Role}

theorem exists_entry_of_votesFor
    (hvoted : r ∈ votesFor count set value) : ∃ valueVotes, ⟨set, valueVotes⟩ ∈ count.entries := by
  rcases Option.eq_none_or_eq_some (count.lookup set) with hnone | ⟨valueVotes, hsome⟩
  · rw [votesFor, hnone] at hvoted
    cases hvoted
  · exact ⟨valueVotes, AList.mem_lookup_iff.mp hsome⟩

section Entries

variable (hentry : entry ∈ count.entries)
include hentry

theorem votesFor_of_mem {voters : (_ : List Z) × Finset Role} (hvoters : voters ∈ entry.2.entries) :
    votesFor count entry.1 voters.1 = voters.2 := by
  rw [votesFor, AList.mem_lookup_iff.mpr hentry, Option.bind_some, AList.mem_lookup_iff.mpr hvoters]
  rfl

theorem exists_voters_of_votesFor
    (hvoted : r ∈ votesFor count entry.1 value) : ∃ voters, ⟨value, voters⟩ ∈ entry.2.entries := by
  rw [votesFor, AList.mem_lookup_iff.mpr hentry, Option.bind_some] at hvoted
  rcases Option.eq_none_or_eq_some (entry.2.lookup value) with hnone | ⟨voters, hsome⟩
  · rw [hnone] at hvoted
    cases hvoted
  · exact ⟨voters, AList.mem_lookup_iff.mp hsome⟩

theorem mem_flatMap_voters : r ∈ entry.2.entries.flatMap (fun voters => voters.2.sort (· ≤ ·)) ↔
      ∃ value, r ∈ votesFor count entry.1 value := by
  rw [List.mem_flatMap]
  constructor
  · rintro ⟨voters, hvoters, hr⟩
    rw [Finset.mem_sort, ← votesFor_of_mem hentry hvoters] at hr
    exact ⟨voters.1, hr⟩
  · rintro ⟨value, hr⟩
    obtain ⟨voters, hvoters⟩ := exists_voters_of_votesFor hentry hr
    rw [votesFor_of_mem hentry hvoters] at hr
    exact ⟨_, hvoters, (Finset.mem_sort _).mpr hr⟩

end Entries

variable (hhonest : HonestMajority honest n t) (h : TrueVotes honest n t truth count)
include hhonest h

theorem TrueVotes.lt_card (hset : set ∈ allSets n t) :
    t < (votesFor count set (truth set)).card := by
  refine (hhonest.lt_card_inter hset).trans_le (Finset.card_le_card ?_)
  intro r hr
  rw [Finset.mem_inter, List.mem_toFinset] at hr
  exact h.honest_mem set hset r hr.1 hr.2

theorem TrueVotes.exists_voter (hset : set ∈ allSets n t) :
    ∃ r, r ∈ votesFor count set (truth set) :=
  Finset.card_pos.mp ((Nat.zero_le t).trans_lt (h.lt_card hhonest hset))

omit hhonest in
theorem TrueVotes.subset_otherRoles (hwrong : set ∈ allSets n t → value ≠ truth set) :
    votesFor count set value ⊆ otherRoles honest n := by
  intro r hr
  refine mem_otherRoles.mpr ⟨h.mem_roles set value r hr, fun hr' => ?_⟩
  obtain ⟨hset, hvalue⟩ := h.of_honest set value r hr hr'
  exact hwrong hset hvalue

theorem TrueVotes.card_le (hwrong : set ∈ allSets n t → value ≠ truth set) :
    (votesFor count set value).card ≤ t :=
  (Finset.card_le_card (h.subset_otherRoles hwrong)).trans hhonest.card_otherRoles_le

theorem TrueVotes.maxByVotes_valid (hentry : entry ∈ count.entries) (hset : entry.1 ∈ allSets n t) :
    ∃ votes : Finset Role, maxByVotes entry.2 = some (truth entry.1, votes) ∧ t < votes.card := by
  obtain ⟨best, hbest, hmax, hle⟩ :=
    maxByVotes_eq (h.voted _ _ (AList.mem_lookup_iff.mpr hentry))
  have hlt := h.lt_card hhonest hset
  obtain ⟨r, hvoted⟩ := h.exists_voter hhonest hset
  obtain ⟨voters, htrue⟩ := exists_voters_of_votesFor hentry hvoted
  have hcard : t < best.2.card := by
    rw [votesFor_of_mem hentry htrue] at hlt
    exact hlt.trans_le (hle _ htrue)
  have hvalue : best.1 = truth entry.1 := by
    by_contra hne
    have hle : (votesFor count entry.1 best.1).card ≤ t := h.card_le hhonest (fun _ => hne)
    rw [votesFor_of_mem hentry hbest] at hle
    omega
  exact ⟨best.2, by rw [hmax, hvalue], hcard⟩

variable {S : Type} [BaseSessionHandles S] [LawfulSession S]

omit [DecidableEq Z] hhonest h [LawfulSession S] in
theorem foldl_markVoters (entries : List ((_ : List Z) × Finset Role)) (s : S) :
    entries.foldl (fun session voters => markCorrupt session (voters.2.sort (· ≤ ·))) s =
      markCorrupt s (entries.flatMap (fun voters => voters.2.sort (· ≤ ·))) := by
  induction entries generalizing s with
  | nil => rfl
  | cons voters entries ih => rw [List.foldl_cons, ih, List.flatMap_cons, markCorrupt_append]

omit [LawfulSession S] in
/-- A valid set wins with its true value; the voters of another set are corrupt. -/
theorem TrueVotes.winningValue_eq
    (hentry : entry ∈ count.entries) (vals : HashMap (List Role) (List Z)) :
    ∃ marked : List Role, (∀ r, r ∈ marked ↔ entry.1 ∉ allSets n t ∧
        ∃ value, r ∈ votesFor count entry.1 value) ∧
      ∀ s : S, numParties s = n → threshold s = t → winningValue (vals, s) entry =
        .ok (if entry.1 ∈ allSets n t then
            vals.insert entry.1 (truth entry.1) else vals, markCorrupt s marked) := by
  by_cases hset : entry.1 ∈ allSets n t
  · obtain ⟨votes, hmax, hlt⟩ := h.maxByVotes_valid hhonest hentry hset
    refine ⟨[], by simp [hset], fun s _ ht => ?_⟩
    unfold winningValue
    rw [hmax, if_pos hset]
    simp only [ht, if_neg (not_le.mpr hlt)]
    rfl
  · obtain ⟨best, hbest, hmax, -⟩ :=
      maxByVotes_eq (h.voted _ _ (AList.mem_lookup_iff.mpr hentry))
    have hle : best.2.card ≤ t := by
      rw [← votesFor_of_mem hentry hbest]
      exact h.card_le hhonest (fun hvalid => absurd hvalid hset)
    refine ⟨entry.2.entries.flatMap (fun voters => voters.2.sort (· ≤ ·)), fun r => ?_,
      fun s hn ht => ?_⟩
    · rw [mem_flatMap_voters hentry, and_iff_right hset]
    · have htn : t ≤ n := by have := hhonest.lt; omega
      unfold winningValue
      rw [hmax, if_neg hset]
      simp only [sessionRoles, hn, ht, if_pos hle]
      rw [createSets_eq htn, Outcome.ok_bind, if_neg hset, foldl_markVoters]
      rfl

theorem TrueVotes.foldlM_winningValue (entries : List ((_ : List Role) × ValueVotes Z))
    (hentries : ∀ entry ∈ entries, entry ∈ count.entries) (vals : HashMap (List Role) (List Z)) :
    ∃ (vals' : HashMap (List Role) (List Z)) (marked : List Role),
      (∀ r, r ∈ marked ↔ ∃ entry ∈ entries, entry.1 ∉ allSets n t ∧
        ∃ value, r ∈ votesFor count entry.1 value) ∧
      (∀ set, vals'.lookup set = if set ∈ allSets n t ∧
          set ∈ entries.map Sigma.fst then some (truth set) else vals.lookup set) ∧
      ∀ s : S, numParties s = n → threshold s = t →
        entries.foldlM winningValue (vals, s) = .ok (vals', markCorrupt s marked) := by
  induction entries generalizing vals with
  | nil => exact ⟨vals, [], by simp, by simp, fun s _ _ => rfl⟩
  | cons entry entries ih =>
    obtain ⟨hentry, hentries⟩ := List.forall_mem_cons.mp hentries
    obtain ⟨marked₁, hmarked₁, hstep⟩ := h.winningValue_eq hhonest (S := S) hentry vals
    obtain ⟨vals', marked₂, hmarked₂, hlookup, hfold⟩ :=
      ih hentries (if entry.1 ∈ allSets n t then vals.insert entry.1 (truth entry.1) else vals)
    refine ⟨vals', marked₁ ++ marked₂, fun r => ?_, ?_, fun s hn ht => ?_⟩
    · rw [List.mem_append, hmarked₁, hmarked₂, List.exists_mem_cons_iff]
    · intro set
      rw [hlookup, List.map_cons]
      by_cases heq : set = entry.1
      · subst heq
        by_cases hset : entry.1 ∈ allSets n t
        · simp [hset]
        · simp [hset]
      · have hkept : (if entry.1 ∈ allSets n t then
            vals.insert entry.1 (truth entry.1) else vals).lookup set = vals.lookup set := by
          split_ifs
          · exact AList.lookup_insert_ne heq
          · rfl
        simp only [hkept, List.mem_cons, heq, false_or]
    · rw [List.foldlM_cons, hstep s hn ht, Outcome.ok_bind,
        hfold _ (by rw [numParties_markCorrupt, hn]) (by rw [threshold_markCorrupt, ht]),
        markCorrupt_append]

/-- The winning values are the true values of the valid sets, and the voters of other sets are
corrupt. -/
theorem TrueVotes.findWinningPrfValues_eq :
    ∃ (vals : HashMap (List Role) (List Z)) (marked : List Role),
      (∀ r, r ∈ marked ↔ ∃ set ∉ allSets n t, ∃ value, r ∈ votesFor count set value) ∧
      (∀ set, vals.lookup set = if set ∈ allSets n t then some (truth set) else none) ∧
      ∀ s : S, numParties s = n → threshold s = t →
        findWinningPrfValues count s = .ok (vals, markCorrupt s marked) := by
  obtain ⟨vals, marked, hmarked, hlookup, hfold⟩ :=
    h.foldlM_winningValue hhonest (S := S) count.entries (fun _ hentry => hentry) ∅
  refine ⟨vals, marked, fun r => ?_, fun set => ?_, hfold⟩
  · rw [hmarked]
    constructor
    · rintro ⟨entry, -, hset, hvoted⟩
      exact ⟨entry.1, hset, hvoted⟩
    · rintro ⟨set, hset, value, hvoted⟩
      obtain ⟨valueVotes, hentry⟩ := exists_entry_of_votesFor hvoted
      exact ⟨⟨set, valueVotes⟩, hentry, hset, value, hvoted⟩
  · rw [hlookup]
    by_cases hset : set ∈ allSets n t
    · obtain ⟨r, hvoted⟩ := h.exists_voter hhonest hset
      obtain ⟨valueVotes, hentry⟩ := exists_entry_of_votesFor hvoted
      rw [if_pos ⟨hset, List.mem_map.mpr ⟨_, hentry, rfl⟩⟩, if_pos hset]
    · rw [if_neg (fun hboth => hset hboth.1), if_neg hset]
      rfl

omit [LawfulSession S] in
theorem TrueVotes.nonVotingParties_eq {entry : (_ : List Role) × List Z}
    (hset : entry.1 ∈ allSets n t) (hvalue : entry.2 = truth entry.1)
    (s : S) : nonVotingParties count s entry = markCorrupt s
      (if (votesFor count entry.1 (truth entry.1)).card < n - t then
        entry.1.filter (fun r => decide (r ∉ votesFor count entry.1 (truth entry.1))) else []) := by
  obtain ⟨r, hvoted⟩ := h.exists_voter hhonest hset
  obtain ⟨valueVotes, hentry⟩ := exists_entry_of_votesFor hvoted
  obtain ⟨voters, hvoters⟩ := exists_voters_of_votesFor hentry hvoted
  rw [nonVotingParties, hvalue, (mem_combinations.mp hset).2, votesFor_of_mem hentry hvoters,
    AList.mem_lookup_iff.mpr hentry, Option.bind_some, AList.mem_lookup_iff.mpr hvoters]
  change (if voters.card < n - t then _ else s) = _
  split_ifs <;> rfl

omit [LawfulSession S] in
/-- The members of a set that did not vote for its true value are corrupt, if the value has fewer
votes than the set has members. -/
theorem TrueVotes.handleNonVotingParties_eq {vals : HashMap (List Role) (List Z)}
    (hvals : ∀ set, vals.lookup set = if set ∈ allSets n t then some (truth set) else none) :
    ∃ marked : List Role, (∀ r, r ∈ marked ↔ ∃ set ∈ allSets n t, r ∈ set ∧
        r ∉ votesFor count set (truth set) ∧ (votesFor count set (truth set)).card < n - t) ∧
      ∀ s : S, handleNonVotingParties vals count s = markCorrupt s marked := by
  have hentries : ∀ set value, ⟨set, value⟩ ∈ vals.entries ↔
      set ∈ allSets n t ∧ value = truth set := by
    intro set value
    rw [← AList.mem_lookup_iff, Option.mem_def, hvals]
    split_ifs with hset
    · simp [hset, eq_comm]
    · simp [hset]
  refine ⟨vals.entries.flatMap (fun entry =>
    if (votesFor count entry.1 (truth entry.1)).card < n - t then
      entry.1.filter (fun r => decide (r ∉ votesFor count entry.1 (truth entry.1))) else []),
    fun r => ?_, fun s => ?_⟩
  · rw [List.mem_flatMap]
    constructor
    · rintro ⟨⟨set, value⟩, hentry, hr⟩
      split_ifs at hr with hcard
      · rw [List.mem_filter, decide_eq_true_eq] at hr
        exact ⟨set, ((hentries set value).mp hentry).1, hr.1, hr.2, hcard⟩
      · cases hr
    · rintro ⟨set, hset, hr, hmissing, hcard⟩
      refine ⟨⟨set, truth set⟩, (hentries set _).mpr ⟨hset, rfl⟩, ?_⟩
      rw [if_pos hcard, List.mem_filter, decide_eq_true_eq]
      exact ⟨hr, hmissing⟩
  · have hvalid : ∀ entry ∈ vals.entries, entry.1 ∈ allSets n t ∧
        entry.2 = truth entry.1 := fun entry hentry => (hentries entry.1 entry.2).mp hentry
    rw [handleNonVotingParties]
    clear hvals hentries
    generalize vals.entries = entries at hvalid ⊢
    induction entries generalizing s with
    | nil => rfl
    | cons entry entries ih =>
      obtain ⟨⟨hset, hvalue⟩, hvalid⟩ := List.forall_mem_cons.mp hvalid
      rw [List.foldl_cons, h.nonVotingParties_eq hhonest hset hvalue, List.flatMap_cons,
        markCorrupt_append, ih _ hvalid]

end Winners

end ThresholdKms
