import ThresholdKms.PrssWinners

/-!
# Who is caught by the votes of a check

The parties that a check finds corrupt are those that sent no votes, voted twice for a value of a
set, voted for a set that is none, or did not vote for the true value of a set of theirs that has
fewer votes than members. The last condition compares numbers only: a vote from outside the set
makes up for the missing vote of a member, who is then not found.
-/

namespace ThresholdKms

section Tally

variable {Z : Type} (honest : Finset Role) (n t : ℕ) (truth : List Role → List Z)
  (broadcastResult : Role → BroadcastValue (SmallValue Z))

/-- What the honest parties vote for. -/
def votesWith (p : Role) : List (List Role × List Z) :=
  (partySets n t p).map (fun set => (set, truth set))

/-- Every honest party votes for the true values of the sets that it belongs to. -/
def HonestVotes : Prop :=
  ∀ p ∈ honest, broadcastResult p = .payload (.prssVotes (votesWith n t truth p))

def CastsVote (role : Role) (set : List Role) (value : List Z) : Prop :=
  (set, value) ∈ (votesOf (broadcastResult role)).getD []

variable {honest n t truth broadcastResult} {p : Role}

theorem nodup_votesWith : (votesWith n t truth p).Nodup :=
  ((nodup_combinations (nodup_partyRoles n)).filter _).map (fun _ _ h => congrArg Prod.fst h)

theorem mem_votesWith {set : List Role} {value : List Z} :
    (set, value) ∈ votesWith n t truth p ↔ set ∈ allSets n t ∧ p ∈ set ∧ value = truth set := by
  rw [votesWith, List.mem_map]
  constructor
  · rintro ⟨set', hset', heq⟩
    cases heq
    obtain ⟨hset, hp⟩ := List.mem_filter.mp hset'
    exact ⟨hset, of_decide_eq_true hp, rfl⟩
  · rintro ⟨hset, hp, rfl⟩
    exact ⟨set, List.mem_filter.mpr ⟨hset, decide_eq_true hp⟩, rfl⟩

theorem HonestVotes.votesOf_eq (h : HonestVotes honest n t truth broadcastResult)
    (hp : p ∈ honest) : votesOf (broadcastResult p) = some (votesWith n t truth p) := by
  rw [h p hp]
  rfl

variable [DecidableEq Z] (n t truth broadcastResult)

instance (role : Role) (set : List Role) (value : List Z) :
    Decidable (CastsVote broadcastResult role set value) :=
  inferInstanceAs (Decidable (_ ∈ _))

def voters (set : List Role) (value : List Z) : Finset Role :=
  (partyRoles n).toFinset.filter (fun role => CastsVote broadcastResult role set value)

/-- The ways of voting that a check notices. -/
def Deviates (role : Role) : Prop :=
  (∀ pairs, votesOf (broadcastResult role) = some pairs → ¬ pairs.Nodup) ∨
  (∃ set ∉ combinations (n - t) (partyRoles n), ∃ value, CastsVote broadcastResult role set value) ∨
  ∃ set ∈ combinations (n - t) (partyRoles n), role ∈ set ∧
    ¬ CastsVote broadcastResult role set (truth set) ∧
    (voters n broadcastResult set (truth set)).card < n - t

variable {S : Type} [BaseSessionHandles S]

/-- The winning values, and the session after the votes have been looked at. -/
def tallyVotes (session : S) :
    Outcome (HashMap (List Role) (List Z) × S) := do
  let sorted := sortVotes broadcastResult session
  let winning ← findWinningPrfValues sorted.1 sorted.2
  return (winning.1, handleNonVotingParties winning.1 sorted.1 winning.2)

/-- Every member of a set that did not vote for the winning value of the set is found corrupt. -/
def CatchesMissingVotes (session : S) : Prop :=
  ∃ vals session', tallyVotes broadcastResult session = .ok (vals, session') ∧
    ∀ set ∈ combinations (n - t) (partyRoles n), ∃ value, vals.lookup set = some value ∧
      ∀ role ∈ set, ¬ CastsVote broadcastResult role set value → role ∈ corruptRoles session'

variable {n t truth broadcastResult}

theorem mem_voters {role : Role} {set : List Role} {value : List Z} :
    role ∈ voters n broadcastResult set value ↔
      role ∈ partyRoles n ∧ CastsVote broadcastResult role set value := by
  rw [voters, Finset.mem_filter, List.mem_toFinset]

theorem votesFor_foldl_countVotesOf (set : List Role) (value : List Z) :
    votesFor ((partyRoles n).foldl (countVotesOf broadcastResult) ∅) set value =
      voters n broadcastResult set value := by
  ext role
  rw [mem_votesFor_foldl, mem_voters, CastsVote]
  have hempty : role ∉ votesFor (∅ : HashMap (List Role) (ValueVotes Z)) set value :=
    Finset.notMem_empty role
  cases votesOf (broadcastResult role) with
  | none => simp [hempty]
  | some pairs => simp [hempty]

theorem HonestVotes.trueVotes (h : HonestVotes honest n t truth broadcastResult) :
    TrueVotes honest n t truth ((partyRoles n).foldl (countVotesOf broadcastResult) ∅) := by
  have hcasts : ∀ r ∈ honest, ∀ set value, CastsVote broadcastResult r set value ↔
      set ∈ allSets n t ∧ r ∈ set ∧ value = truth set := by
    intro r hr set value
    rw [CastsVote, h.votesOf_eq hr, Option.getD_some, mem_votesWith]
  constructor
  · apply Voted.foldl
    intro set valueVotes h
    simp at h
  · intro set value r hr
    rw [votesFor_foldl_countVotesOf, mem_voters] at hr
    exact hr.1
  · intro set value r hr hhonest
    rw [votesFor_foldl_countVotesOf, mem_voters, hcasts r hhonest] at hr
    exact ⟨hr.2.1, hr.2.2.2⟩
  · intro set hset r hr hhonest
    rw [votesFor_foldl_countVotesOf, mem_voters, hcasts r hhonest]
    exact ⟨(mem_combinations.mp hset).1.subset hr, hset, hr, rfl⟩

theorem HonestVotes.not_deviates (h : HonestVotes honest n t truth broadcastResult)
    (hp : p ∈ honest) : ¬ Deviates n t truth broadcastResult p := by
  have hvotes := h.votesOf_eq hp
  rintro (hdup | ⟨set, hset, value, hcast⟩ | ⟨set, hset, hmem, hmissing, -⟩)
  · exact hdup _ hvotes nodup_votesWith
  · rw [CastsVote, hvotes, Option.getD_some, mem_votesWith] at hcast
    exact hset hcast.1
  · rw [CastsVote, hvotes, Option.getD_some, mem_votesWith] at hmissing
    exact hmissing ⟨hset, hmem, rfl⟩

variable [LawfulSession S]

theorem HonestVotes.tallyVotes_eq (h : HonestVotes honest n t truth broadcastResult)
    (hhonest : HonestMajority honest n t) :
    ∃ (vals : HashMap (List Role) (List Z)) (marked : List Role), (∀ set, vals.lookup set =
        if set ∈ allSets n t then some (truth set) else none) ∧
      (∀ r, r ∈ marked ↔ r ∈ partyRoles n ∧ Deviates n t truth broadcastResult r) ∧
      ∀ s : S, numParties s = n → threshold s = t →
        tallyVotes broadcastResult s = .ok (vals, markCorrupt s marked) := by
  obtain ⟨marked₁, hsort, hmarked₁⟩ := foldl_sortVotesOf (S := S) ∅ broadcastResult
    (nodup_partyRoles n) (fun _ _ _ _ => Finset.notMem_empty _)
  obtain ⟨vals, marked₂, hmarked₂, hvals, hwinning⟩ :=
    h.trueVotes.findWinningPrfValues_eq hhonest (S := S)
  obtain ⟨marked₃, hmarked₃, hnonVoting⟩ :=
    h.trueVotes.handleNonVotingParties_eq hhonest (S := S) hvals
  refine ⟨vals, marked₁ ++ (marked₂ ++ marked₃), hvals, fun r => ?_, fun s hn ht => ?_⟩
  · simp only [List.mem_append, hmarked₁, hmarked₂, hmarked₃, votesFor_foldl_countVotesOf,
      mem_voters, Deviates]
    by_cases hr : r ∈ partyRoles n
    · simp only [hr, true_and]
    · have hnone : ∀ set ∈ allSets n t, r ∉ set :=
        fun set hset hmem => hr ((mem_combinations.mp hset).1.subset hmem)
      simp only [hr, false_and, exists_false, and_false, false_or, iff_false]
      rintro ⟨set, hset, hmem, -⟩
      exact hnone set hset hmem
  · have hsorted : sortVotes broadcastResult s =
        ((partyRoles n).foldl (countVotesOf broadcastResult) ∅, markCorrupt s marked₁) := by
      rw [sortVotes, sessionRoles, hn]
      exact hsort s
    rw [tallyVotes, hsorted]
    simp only [hwinning (markCorrupt s marked₁) (by rw [numParties_markCorrupt, hn])
      (by rw [threshold_markCorrupt, ht]), Outcome.ok_bind, hnonVoting, markCorrupt_append]
    rfl

theorem catchesMissingVotes_iff (honest : Finset Role) (n t : ℕ) (hhonest : HonestMajority honest n t)
    (truth : List Role → List Z) (broadcastResult : Role → BroadcastValue (SmallValue Z))
    (hvotes : HonestVotes honest n t truth broadcastResult) (session : S)
    (hmine : myRole session ∈ honest) (hn : numParties session = n) (ht : threshold session = t) :
    CatchesMissingVotes n t broadcastResult session ↔
      ∀ set ∈ combinations (n - t) (partyRoles n), ∀ role ∈ set,
        ¬ CastsVote broadcastResult role set (truth set) →
          role ∈ corruptRoles session ∨ Deviates n t truth broadcastResult role := by
  obtain ⟨vals, marked, hvals, hmarked, htally⟩ := hvotes.tallyVotes_eq hhonest (S := S)
  have hcorrupt : ∀ set ∈ allSets n t, ∀ role ∈ set,
      (role ∈ corruptRoles (markCorrupt session marked) ↔
        role ∈ corruptRoles session ∨ Deviates n t truth broadcastResult role) := by
    intro set hset role hrole
    have hmem : role ∈ partyRoles n := (mem_combinations.mp hset).1.subset hrole
    rw [corruptRoles_markCorrupt, Finset.mem_union, Finset.mem_erase, List.mem_toFinset, hmarked,
      and_iff_right hmem]
    refine or_congr_right (and_iff_right_of_imp ?_)
    rintro hdeviates rfl
    exact hvotes.not_deviates hmine hdeviates
  constructor
  · rintro ⟨vals', session', hrun, hcatch⟩ set hset role hrole hmissing
    rw [htally session hn ht] at hrun
    cases hrun
    obtain ⟨value, hvalue, hfound⟩ := hcatch set hset
    rw [hvals, if_pos hset] at hvalue
    cases hvalue
    exact (hcorrupt set hset role hrole).mp (hfound role hrole hmissing)
  · intro hnoticed
    refine ⟨vals, markCorrupt session marked, htally session hn ht, fun set hset => ?_⟩
    refine ⟨truth set, (hvals set).trans (if_pos hset), fun role hrole hmissing => ?_⟩
    exact (hcorrupt set hset role hrole).mpr (hnoticed set hset role hrole hmissing)

section Example

/-- Party 6 votes for a wrong value of a set of its own, and party 7, which is not in the set, for
the true one. -/
def coveredVotes (role : Role) : BroadcastValue (SmallValue ℕ) :=
  .payload (.prssVotes (
    if role = 6 then votesWith 7 2 (fun set => if set = [1, 2, 3, 4, 6] then [1] else [0]) 6
    else if role = 7 then ([1, 2, 3, 4, 6], [0]) :: votesWith 7 2 (fun _ => [0]) 7
    else votesWith 7 2 (fun _ => [0]) role))

theorem not_catchesMissingVotes_covered :
    ¬ CatchesMissingVotes 7 2 coveredVotes (⟨1, 7, 2, ∅⟩ : BaseSession) := by
  rintro ⟨vals, session', hrun, hcatch⟩
  have hend : (tallyVotes coveredVotes (⟨1, 7, 2, ∅⟩ : BaseSession)).toOption.map (fun out =>
      (out.1.lookup [1, 2, 3, 4, 6], decide (6 ∈ corruptRoles out.2))) = some (some [0], false) := by
    decide +kernel
  rw [hrun] at hend
  obtain ⟨hwinner, hhidden⟩ := Prod.mk.inj (Option.some.inj hend)
  obtain ⟨value, hvalue, hfound⟩ := hcatch [1, 2, 3, 4, 6] (by decide +kernel)
  rw [hwinner] at hvalue
  cases hvalue
  exact of_decide_eq_false hhidden (hfound 6 (by decide) (by decide +kernel))

/-- Party 4 votes for wrong values. -/
def oneWrongVoter (role : Role) : BroadcastValue (SmallValue ℕ) :=
  .payload (.prssVotes (votesWith 4 1 (fun _ => if role = 4 then [1] else [0]) role))

theorem catchesMissingVotes_iff_four_parties :
    CatchesMissingVotes 4 1 oneWrongVoter (⟨1, 4, 1, ∅⟩ : BaseSession) ↔
      ∀ set ∈ combinations 3 (partyRoles 4), ∀ role ∈ set, ¬ CastsVote oneWrongVoter role set [0] →
          role ∈ (∅ : Finset Role) ∨ Deviates 4 1 (fun _ => [0]) oneWrongVoter role := by
  refine catchesMissingVotes_iff {1, 2, 3} 4 1 ⟨by decide, by decide, by decide⟩ (fun _ => [0])
    oneWrongVoter (fun p hp => ?_) _ (by decide) rfl rfl
  rw [oneWrongVoter, if_neg]
  rintro rfl
  exact absurd hp (by decide)

end Example

end Tally

end ThresholdKms
