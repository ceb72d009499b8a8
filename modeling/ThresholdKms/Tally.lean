import Mathlib.Data.List.AList
import Mathlib.Tactic

/-!
# Tallies

Counters and ballots in association lists. A ballot gives at most one value to each subject; adding
a ballot to the counters adds one to each of its pairs of a subject and a value.
-/

namespace Tally

section Maps

variable {κ : Type*} {ν : Type*} [DecidableEq κ]

def insertAll (m : AList (fun _ : κ => ν)) (l : List (κ × ν)) : AList (fun _ : κ => ν) :=
  l.foldl (fun m e => m.insert e.1 e.2) m

/-- The map that an iterator of pairs is collected into. -/
def collect (l : List (κ × ν)) : AList (fun _ : κ => ν) := insertAll ∅ l

theorem lookup_insert_eq (m : AList (fun _ : κ => ν)) (a k : κ) (b : ν) :
    (m.insert a b).lookup k = if k = a then some b else m.lookup k := by
  split_ifs with h
  · rw [h, AList.lookup_insert]
  · rw [AList.lookup_insert_ne h]

variable {l : List (κ × ν)} {m : AList (fun _ : κ => ν)}

theorem lookup_insertAll_of_notMem {k : κ}
    (h : k ∉ l.map Prod.fst) : (insertAll m l).lookup k = m.lookup k := by
  induction l generalizing m with
  | nil => rfl
  | cons e l ih =>
    rw [List.map_cons, List.mem_cons, not_or] at h
    exact (ih h.2).trans (AList.lookup_insert_ne h.1)

theorem lookup_insertAll_of_mem {k : κ} {v : ν}
    (hkey : k ∈ l.map Prod.fst) (hval : ∀ e ∈ l, e.1 = k → e.2 = v) :
    (insertAll m l).lookup k = some v := by
  induction l generalizing m with
  | nil => cases hkey
  | cons e l ih =>
    obtain ⟨hhead, hval⟩ := List.forall_mem_cons.mp hval
    by_cases hmem : k ∈ l.map Prod.fst
    · exact ih hmem hval
    · rw [List.map_cons, List.mem_cons] at hkey
      have hk : k = e.1 := hkey.resolve_right hmem
      refine (lookup_insertAll_of_notMem hmem).trans ?_
      rw [lookup_insert_eq, if_pos hk, hhead hk.symm]

theorem mem_of_lookup_insertAll {k : κ} {v : ν}
    (h : (insertAll m l).lookup k = some v) : (k, v) ∈ l ∨ m.lookup k = some v := by
  induction l generalizing m with
  | nil => exact Or.inr h
  | cons e l ih =>
    rcases ih (m := m.insert e.1 e.2) h with hmem | hlookup
    · exact Or.inl (List.mem_cons_of_mem _ hmem)
    · rw [lookup_insert_eq] at hlookup
      split_ifs at hlookup with hk
      · rw [Option.some_inj] at hlookup
        exact Or.inl (List.mem_cons.mpr (Or.inl (Prod.ext hk hlookup.symm)))
      · exact Or.inr hlookup

theorem mem_of_lookup_collect {k : κ} {v : ν} (h : (collect l).lookup k = some v) : (k, v) ∈ l :=
  (mem_of_lookup_insertAll h).resolve_right (by simp)

theorem lookup_collect_map (l : List κ) (f : κ → ν) (k : κ) :
    (collect (l.map (fun a => (a, f a)))).lookup k = if k ∈ l then some (f k) else none := by
  split_ifs with hk
  · refine lookup_insertAll_of_mem ?_ ?_
    · simpa using hk
    · intro e he hkey
      obtain ⟨a, -, rfl⟩ := List.mem_map.mp he
      rw [← hkey]
  · refine lookup_insertAll_of_notMem ?_
    simpa using hk

end Maps

section Counters

variable {κ : Type*} [DecidableEq κ] (counts : AList (fun _ : κ => ℕ))

def tally (k : κ) : ℕ := (counts.lookup k).getD 0

def add (k : κ) : AList (fun _ : κ => ℕ) :=
  counts.insert k (tally counts k + 1)

theorem tally_insert (a k : κ) (b : ℕ) :
    tally (counts.insert a b) k = if k = a then b else tally counts k := by
  rw [tally, lookup_insert_eq]
  split_ifs
  · rfl
  · rfl

variable {counts}

theorem tally_of_mem_entries {e : (_ : κ) × ℕ}
    (h : e ∈ counts.entries) : tally counts e.1 = e.2 := by
  rw [tally, AList.mem_lookup_iff.mpr h]
  rfl

theorem mem_entries_of_tally_pos {k : κ}
    (h : 0 < tally counts k) : ⟨k, tally counts k⟩ ∈ counts.entries := by
  apply AList.mem_lookup_iff.mp
  rw [tally] at h ⊢
  cases hlookup : counts.lookup k with
  | none => simp [hlookup] at h
  | some b => rfl

theorem tally_foldl_add (l : List κ) (counts : AList (fun _ : κ => ℕ)) (k : κ) :
    tally (l.foldl add counts) k = tally counts k + l.countP (fun a => decide (a = k)) := by
  induction l generalizing counts with
  | nil => rfl
  | cons a l ih =>
    rw [List.foldl_cons, ih, add, tally_insert, List.countP_cons]
    by_cases hk : k = a
    · subst hk
      simp only [if_true, decide_true]
      omega
    · rw [if_neg hk, decide_eq_false (Ne.symm hk)]
      simp

theorem countP_eq_of_nodup {l : List κ} (h : l.Nodup) (k : κ) :
    l.countP (fun a => decide (a = k)) = if k ∈ l then 1 else 0 := h.count

end Counters

section Ballots

variable {ρ : Type*} {τ : Type*} [DecidableEq ρ] [DecidableEq τ] (m : AList (fun _ : ρ => τ))

/-- The pairs that a ballot supports. -/
def ballot : List (ρ × τ) := m.entries.map (fun e => (e.1, e.2))

/-- A ballot that was cast and is readable supports the pair. -/
def supports (m : Option (AList (fun _ : ρ => τ))) (k : ρ × τ) : Bool :=
  m.any (fun m => decide (m.lookup k.1 = some k.2))

omit [DecidableEq τ] in
theorem mem_ballot {m : AList (fun _ : ρ => τ)} {k : ρ × τ} :
    k ∈ ballot m ↔ m.lookup k.1 = some k.2 := by
  rw [ballot, List.mem_map]
  constructor
  · rintro ⟨e, he, rfl⟩
    exact AList.mem_lookup_iff.mpr he
  · intro h
    exact ⟨⟨k.1, k.2⟩, AList.mem_lookup_iff.mp h, rfl⟩

omit [DecidableEq ρ] [DecidableEq τ] in
theorem nodup_ballot : (ballot m).Nodup := by
  have hkeys : ((ballot m).map Prod.fst).Nodup := by
    rw [ballot, List.map_map]
    exact m.nodupKeys
  exact hkeys.of_map _

theorem countP_ballot (k : ρ × τ) :
    (ballot m).countP (fun a => decide (a = k)) = (supports (some m) k).toNat := by
  rw [countP_eq_of_nodup (nodup_ballot m), supports, Option.any_some]
  by_cases h : m.lookup k.1 = some k.2
  · rw [if_pos (mem_ballot.mpr h), decide_eq_true h, Bool.toNat_true]
  · rw [if_neg (fun hmem => h (mem_ballot.mp hmem)), decide_eq_false h, Bool.toNat_false]

theorem tally_collect_ballot (k : ρ × τ) :
    tally (collect (m.entries.map (fun e => ((e.1, e.2), 1)))) k = (supports (some m) k).toNat := by
  rw [tally, supports, Option.any_some]
  by_cases h : m.lookup k.1 = some k.2
  · have hmem : (⟨k.1, k.2⟩ : (_ : ρ) × τ) ∈ m.entries := AList.mem_lookup_iff.mp h
    rw [collect, lookup_insertAll_of_mem (v := 1), decide_eq_true h]
    · rfl
    · exact List.mem_map.mpr ⟨(k, 1), List.mem_map.mpr ⟨⟨k.1, k.2⟩, hmem, rfl⟩, rfl⟩
    · intro e he _
      obtain ⟨e', -, rfl⟩ := List.mem_map.mp he
      rfl
  · rw [collect, lookup_insertAll_of_notMem, decide_eq_false h]
    · rfl
    · intro hmem
      obtain ⟨e, he, rfl⟩ := List.mem_map.mp hmem
      obtain ⟨e', he', rfl⟩ := List.mem_map.mp he
      exact h (AList.mem_lookup_iff.mpr he')

variable (counts : AList (fun _ : ρ × τ => ℕ)) (ballots : List (Option (AList (fun _ : ρ => τ))))

/-- A list of ballots is added up; what is not a ballot is left out. -/
def addBallots : AList (fun _ : ρ × τ => ℕ) :=
  ballots.foldl (fun counts m =>
    match m with
    | some m => (ballot m).foldl add counts
    | none => counts) counts

theorem tally_addBallots
    (k : ρ × τ) :
    tally (addBallots counts ballots) k =
      tally counts k + ballots.countP (fun m => supports m k) := by
  induction ballots generalizing counts with
  | nil => rfl
  | cons m ballots ih =>
    rw [List.countP_cons]
    cases m with
    | none => exact ih counts
    | some m =>
      refine (ih _).trans ?_
      rw [tally_foldl_add, countP_ballot]
      cases supports (some m) k with
      | true => simp only [Bool.toNat_true, if_true]; omega
      | false => simp

/-- A ballot supports one value for each subject. -/
theorem eq_of_supports {m : Option (AList (fun _ : ρ => τ))} {r : ρ} {v v' : τ}
    (h : supports m (r, v)) (h' : supports m (r, v')) : v = v' := by
  cases m with
  | none => cases h
  | some m =>
    have hv : m.lookup r = some v := of_decide_eq_true h
    have hv' : m.lookup r = some v' := of_decide_eq_true h'
    exact Option.some_inj.mp (hv.symm.trans hv')

end Ballots

section Voters

variable {α : Type*} {l : List α}

theorem countP_eq_add_of_mem [DecidableEq α] (hnodup : l.Nodup) {x : α} (hx : x ∈ l)
    (p : α → Bool) :
    l.countP p = (p x).toNat + l.countP (fun a => p a && decide (a ≠ x)) := by
  have hothers : l.countP (fun a => p a && a != x) = l.countP (fun a => p a && decide (a ≠ x)) :=
    List.countP_congr fun a _ => by simp
  rw [(List.perm_cons_erase hx).countP_eq, List.countP_cons, hnodup.erase_eq_filter,
    List.countP_filter, hothers, add_comm]
  cases p x with
  | true => rfl
  | false => rfl

theorem countP_add_countP_le_length {p q : α → Bool} (h : ∀ a ∈ l, p a → ¬ q a) :
    l.countP p + l.countP q ≤ l.length := by
  have hmono : l.countP q ≤ l.countP (fun a => !p a) := by
    apply List.countP_mono_left
    intro a ha hq
    cases hp : p a with
    | true => exact absurd hq (h a ha hp)
    | false => rfl
  have hlength : l.length = l.countP p + l.countP (fun a => !p a) := by
    rw [List.length_eq_countP_add_countP p]
    simp only [Bool.not_eq_true, Bool.decide_eq_false]
  omega

theorem countP_eq_sum (l : List α) (p : α → Bool) :
    l.countP p = (l.map (fun a => (p a).toNat)).sum := by
  induction l with
  | nil => rfl
  | cons a l ih =>
    rw [List.countP_cons, ih, List.map_cons]
    cases p a with
    | true => simp; omega
    | false => simp

end Voters

end Tally
