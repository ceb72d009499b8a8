import ThresholdKms.Session
import ThresholdKms.PrssCheck
import ThresholdKms.PrssSetup

/-!
# Counting votes

The votes for a value of a set are the parties that broadcast it. The count depends on the broadcast
values only; the session enters as the one to which corrupt parties are added.
-/

namespace ThresholdKms

section Count

variable {Z : Type} [DecidableEq Z]

/-- The parties that have voted for a value of a set. -/
def votesFor (count : HashMap (List Role) (ValueVotes Z)) (set : List Role) (value : List Z) :
    Finset Role :=
  ((count.lookup set).bind (AList.lookup value)).getD ∅

/-- The votes that the broadcast value of a party contains. -/
def votesOf : BroadcastValue (SmallValue Z) → Option (List (List Role × List Z))
  | .payload (.prssVotes pairs) => some pairs
  | _ => none

def countVote (role : Role) (count : HashMap (List Role) (ValueVotes Z))
    (pair : List Role × List Z) : HashMap (List Role) (ValueVotes Z) :=
  match count.lookup pair.1 with
  | some valueVotes => count.insert pair.1
      (if role ∈ (valueVotes.lookup pair.2).getD ∅ then valueVotes
        else valueVotes.insert pair.2 (insert role ((valueVotes.lookup pair.2).getD ∅)))
  | none => count.insert pair.1 (AList.singleton pair.2 {role})

def countVotesOf (broadcastResult : Role → BroadcastValue (SmallValue Z))
    (count : HashMap (List Role) (ValueVotes Z)) (role : Role) :
    HashMap (List Role) (ValueVotes Z) :=
  ((votesOf (broadcastResult role)).getD []).foldl (countVote role) count

variable {count : HashMap (List Role) (ValueVotes Z)} {role : Role}
  {broadcastResult : Role → BroadcastValue (SmallValue Z)}

theorem lookup_singleton_eq (value value' : List Z) (roles : Finset Role) :
    (AList.singleton value roles : ValueVotes Z).lookup value' =
      if value' = value then some roles else none := by
  have := Tally.lookup_insert_eq (∅ : ValueVotes Z) value value' roles
  rwa [AList.insert_empty] at this

theorem votesFor_countVote (pair : List Role × List Z) (set : List Role) (value : List Z) :
    votesFor (countVote role count pair) set value =
      if (set, value) = pair then insert role (votesFor count set value)
      else votesFor count set value := by
  obtain ⟨set', value'⟩ := pair
  by_cases hset : set = set'
  · subst hset
    cases hlookup : count.lookup set with
    | none =>
      by_cases hvalue : value = value'
      · simp [votesFor, countVote, hlookup, lookup_singleton_eq, hvalue]
      · simp [votesFor, countVote, hlookup, lookup_singleton_eq, hvalue]
    | some valueVotes =>
      simp only [votesFor, countVote, hlookup, AList.lookup_insert, Option.bind_some]
      by_cases hvalue : value = value'
      · subst hvalue
        rw [if_pos rfl]
        split_ifs with hmem
        · exact (Finset.insert_eq_of_mem hmem).symm
        · rw [AList.lookup_insert]
          rfl
      · rw [if_neg (fun hpair => hvalue (congrArg Prod.snd hpair))]
        split_ifs with hmem
        · rfl
        · rw [AList.lookup_insert_ne hvalue]
  · have hpair : (set, value) ≠ (set', value') := fun h => hset (congrArg Prod.fst h)
    rw [if_neg hpair, votesFor, votesFor, countVote]
    split <;> rw [AList.lookup_insert_ne hset]

theorem mem_votesFor_foldl_countVote (pairs : List (List Role × List Z)) (r : Role)
    (set : List Role) (value : List Z) :
    r ∈ votesFor (pairs.foldl (countVote role) count) set value ↔
      r ∈ votesFor count set value ∨ r = role ∧ (set, value) ∈ pairs := by
  induction pairs generalizing count with
  | nil => simp
  | cons pair pairs ih =>
    rw [List.foldl_cons, ih, votesFor_countVote]
    by_cases hpair : (set, value) = pair
    · simp [hpair]
      tauto
    · simp [hpair]

theorem mem_votesFor_countVotesOf (r : Role) (set : List Role) (value : List Z) :
    r ∈ votesFor (countVotesOf broadcastResult count role) set value ↔
      r ∈ votesFor count set value ∨ r = role ∧
        ∃ pairs, votesOf (broadcastResult role) = some pairs ∧ (set, value) ∈ pairs := by
  rw [countVotesOf, mem_votesFor_foldl_countVote]
  cases votesOf (broadcastResult role) with
  | none | some pairs => simp

theorem mem_votesFor_foldl (roles : List Role) (r : Role) (set : List Role) (value : List Z) :
    r ∈ votesFor (roles.foldl (countVotesOf broadcastResult) count) set value ↔
      r ∈ votesFor count set value ∨
        r ∈ roles ∧ ∃ pairs, votesOf (broadcastResult r) = some pairs ∧ (set, value) ∈ pairs := by
  induction roles generalizing count with
  | nil => simp
  | cons role roles ih =>
    rw [List.foldl_cons, ih, mem_votesFor_countVotesOf, or_assoc, List.mem_cons, or_and_right]
    refine or_congr_right (or_congr_left (and_congr_right ?_))
    rintro rfl
    rfl

/-- No set is in the count without a vote. -/
def Voted (count : HashMap (List Role) (ValueVotes Z)) : Prop :=
  ∀ set valueVotes, count.lookup set = some valueVotes → valueVotes.entries ≠ []

theorem entries_insert_ne_nil (valueVotes : ValueVotes Z) (value : List Z) (roles : Finset Role) :
    (valueVotes.insert value roles).entries ≠ [] := by
  intro hnil
  have hlookup := AList.lookup_insert valueVotes (a := value) (b := roles)
  have hmem := AList.mem_lookup_iff.mp hlookup
  rw [hnil] at hmem
  cases hmem

theorem Voted.countVote (h : Voted count) (pair : List Role × List Z) :
    Voted (countVote role count pair) := by
  rw [ThresholdKms.countVote]
  split
  · rename_i valueVotes' hvotes
    refine forall_lookup_insert h ?_
    split_ifs
    · exact h pair.1 _ hvotes
    · exact entries_insert_ne_nil _ _ _
  · refine forall_lookup_insert h ?_
    rw [← AList.insert_empty]
    exact entries_insert_ne_nil _ _ _

theorem Voted.foldl_countVote (h : Voted count) (pairs : List (List Role × List Z)) :
    Voted (pairs.foldl (ThresholdKms.countVote role) count) := by
  induction pairs generalizing count with
  | nil => exact h
  | cons pair pairs ih => exact ih (h.countVote pair)

theorem Voted.foldl (h : Voted count) (roles : List Role) :
    Voted (roles.foldl (countVotesOf broadcastResult) count) := by
  induction roles generalizing count with
  | nil => exact h
  | cons role roles ih => exact ih (h.foldl_countVote _)

variable {S : Type} [BaseSessionHandles S]

theorem addVote_eq (valueVotes : ValueVotes Z) (value : List Z) (s : S) :
    addVote valueVotes value role s = (if role ∈ (valueVotes.lookup value).getD ∅ then valueVotes
        else valueVotes.insert value (insert role ((valueVotes.lookup value).getD ∅)),
        markCorrupt s (if role ∈ (valueVotes.lookup value).getD ∅ then [role] else [])) := by
  unfold addVote
  rcases Option.eq_none_or_eq_some (valueVotes.lookup value) with hvalue | ⟨roles, hvalue⟩
  · simp [hvalue, markCorrupt]
  · by_cases hmem : role ∈ roles
    · simp [hvalue, hmem, markCorrupt]
    · simp [hvalue, hmem, markCorrupt]

variable (count role)

theorem sortVote_eq (s : S) (pair : List Role × List Z) :
    sortVote role (count, s) pair = (countVote role count pair,
        markCorrupt s (if role ∈ votesFor count pair.1 pair.2 then [role] else [])) := by
  unfold sortVote countVote votesFor
  rcases Option.eq_none_or_eq_some (count.lookup pair.1) with hlookup | ⟨valueVotes, hlookup⟩
  · simp [hlookup, markCorrupt]
  · simp only [hlookup, addVote_eq, Option.bind_some]

/-- The votes make the party corrupt exactly when one of them was cast before. -/
theorem foldl_sortVote (pairs : List (List Role × List Z)) :
    ∃ marked : List Role, (∀ s : S, pairs.foldl (sortVote role) (count, s) =
        (pairs.foldl (countVote role) count, markCorrupt s marked)) ∧
      ∀ r, r ∈ marked ↔ r = role ∧
        ((∃ pair ∈ pairs, role ∈ votesFor count pair.1 pair.2) ∨ ¬ pairs.Nodup) := by
  induction pairs generalizing count with
  | nil => exact ⟨[], fun s => rfl, by simp⟩
  | cons pair pairs ih =>
    obtain ⟨marked, hfold, hmarked⟩ := ih (countVote role count pair)
    refine ⟨(if role ∈ votesFor count pair.1 pair.2 then [role] else []) ++ marked,
      fun s => ?_, fun r => ?_⟩
    · rw [List.foldl_cons, sortVote_eq, hfold, markCorrupt_append]
      rfl
    · have hagain : (∃ pair' ∈ pairs, role ∈ votesFor (countVote role count pair) pair'.1 pair'.2) ↔
          pair ∈ pairs ∨ ∃ pair' ∈ pairs, role ∈ votesFor count pair'.1 pair'.2 := by
        simp only [votesFor_countVote, Prod.mk.eta]
        constructor
        · rintro ⟨pair', hpair', hmem⟩
          by_cases heq : pair' = pair
          · exact Or.inl (heq ▸ hpair')
          · rw [if_neg heq] at hmem
            exact Or.inr ⟨pair', hpair', hmem⟩
        · rintro (hpair | ⟨pair', hpair', hmem⟩)
          · exact ⟨pair, hpair, by simp⟩
          · refine ⟨pair', hpair', ?_⟩
            split_ifs
            · exact Finset.mem_insert_of_mem hmem
            · exact hmem
      rw [List.mem_append, hmarked, hagain, List.exists_mem_cons_iff, List.nodup_cons]
      split_ifs with hmem
      · rw [List.mem_singleton, or_iff_left_of_imp And.left]
        exact (and_iff_left (Or.inl (Or.inl hmem))).symm
      · simp only [List.not_mem_nil, hmem, false_or, not_and_or, not_not, or_assoc, or_left_comm]

variable (broadcastResult)

theorem sortVotesOf_eq (hfresh : ∀ set value, role ∉ votesFor count set value) :
    ∃ marked : List Role, (∀ s : S, sortVotesOf broadcastResult (count, s) role =
        (countVotesOf broadcastResult count role, markCorrupt s marked)) ∧
      ∀ r, r ∈ marked ↔ r = role ∧
        ∀ pairs, votesOf (broadcastResult role) = some pairs → ¬ pairs.Nodup := by
  unfold sortVotesOf countVotesOf
  rcases broadcastResult role with - | (values | pairs | -)
  · exact ⟨[role], fun s => rfl, by simp [votesOf]⟩
  · exact ⟨[role], fun s => rfl, by simp [votesOf]⟩
  · obtain ⟨marked, hfold, hmarked⟩ := foldl_sortVote (S := S) count role pairs
    refine ⟨marked, hfold, fun r => ?_⟩
    simp [hmarked, hfresh, votesOf]
  · exact ⟨[role], fun s => rfl, by simp [votesOf]⟩

/-- Sorting the votes makes those corrupt that sent no votes or one of them twice. -/
theorem foldl_sortVotesOf {roles : List Role} (hnodup : roles.Nodup)
    (hfresh : ∀ role ∈ roles, ∀ set value, role ∉ votesFor count set value) :
    ∃ marked : List Role, (∀ s : S, roles.foldl (sortVotesOf broadcastResult) (count, s) =
        (roles.foldl (countVotesOf broadcastResult) count, markCorrupt s marked)) ∧
      ∀ r, r ∈ marked ↔ r ∈ roles ∧
        ∀ pairs, votesOf (broadcastResult r) = some pairs → ¬ pairs.Nodup := by
  induction roles generalizing count with
  | nil => exact ⟨[], fun s => rfl, by simp⟩
  | cons role roles ih =>
    obtain ⟨hrole, hnodup⟩ := List.nodup_cons.mp hnodup
    obtain ⟨marked₁, hstep, hmarked₁⟩ := sortVotesOf_eq (S := S)
      count role broadcastResult (hfresh role List.mem_cons_self)
    have hnext : ∀ r ∈ roles, ∀ set value,
        r ∉ votesFor (countVotesOf broadcastResult count role) set value := by
      intro r hr set value hmem
      rw [countVotesOf, mem_votesFor_foldl_countVote] at hmem
      rcases hmem with hmem | ⟨rfl, -⟩
      · exact hfresh r (List.mem_cons_of_mem _ hr) set value hmem
      · exact hrole hr
    obtain ⟨marked₂, hfold, hmarked₂⟩ := ih _ hnodup hnext
    refine ⟨marked₁ ++ marked₂, fun s => ?_, fun r => ?_⟩
    · rw [List.foldl_cons, hstep, hfold, markCorrupt_append]
      rfl
    · rw [List.mem_append, hmarked₁, hmarked₂, List.mem_cons, or_and_right]
      refine or_congr_left (and_congr_right ?_)
      rintro rfl
      rfl

end Count

end ThresholdKms
