import ThresholdKms.UserDecryptionResponse

/-!
# The most common response

`selectMostCommon` tallies the values of the responses and picks the first response with the value
that occurs most often. `CastVotes` relates the responses to their values; all other facts speak of
the list of values only.
-/

namespace ThresholdKms

open Outcome

variable {P T : Type} [DecidableEq T] {tryFrom : P → Outcome T}

/-- A response without payload casts no vote, any other the value of its payload. -/
inductive CastVote (tryFrom : P → Outcome T) : Option P → Option T → Prop
  | absent : CastVote tryFrom none none
  | cast {p : P} {key : T} (h : tryFrom p = .ok key) : CastVote tryFrom (some p) (some key)

def CastVotes (tryFrom : P → Outcome T) (aggResp : List (Option P)) (votes : List (Option T)) :
    Prop :=
  List.Forall₂ (CastVote tryFrom) aggResp votes

/-- The entry of `key` after the votes from index `i` on, if it was `entry` before them. -/
def tally (key : T) (i : ℕ) (votes : List (Option T)) : Option (ℕ × ℕ) → Option (ℕ × ℕ)
  | some (occurence, first) => some (occurence + votes.count (some key), first)
  | none =>
    if some key ∈ votes then some (votes.count (some key), i + votes.idxOf (some key)) else none

theorem tally_of_ne {key : T} {vote : Option T} (hne : vote ≠ some key) (i : ℕ)
    (votes : List (Option T)) (entry : Option (ℕ × ℕ)) :
    tally key i (vote :: votes) entry = tally key (i + 1) votes entry := by
  cases entry with
  | some entry => simp [tally, List.count_cons_of_ne hne]
  | none =>
    simp only [tally, List.mem_cons, hne.symm, false_or]
    split_ifs
    · rw [List.count_cons_of_ne hne, List.idxOf_cons_ne votes hne]
      congr 2
      omega
    · rfl

theorem tally_self (key : T) (i : ℕ) (votes : List (Option T)) (entry : Option (ℕ × ℕ)) :
    tally key i (some key :: votes) entry =
      tally key (i + 1) votes (some ((entry.getD (0, i)).1 + 1, (entry.getD (0, i)).2)) := by
  cases entry with
  | some entry =>
    simp only [tally, List.count_cons_self, Option.getD_some]
    congr 2
    omega
  | none =>
    simp only [tally, List.mem_cons, true_or, if_true, List.count_cons_self, List.idxOf_cons_self,
      Option.getD_none]
    congr 2
    omega

variable {aggResp : List (Option P)} {votes : List (Option T)}

theorem foldlM_countOccurence
    (h : CastVotes tryFrom aggResp votes) (i : ℕ) (m : HashMap T (ℕ × ℕ)) :
    ∃ m', (aggResp.zipIdx i).foldlM (countOccurence tryFrom) m = .ok m' ∧
      ∀ key, m'.lookup key = tally key i votes (m.lookup key) := by
  induction h generalizing i m with
  | nil =>
    refine ⟨m, rfl, fun key => ?_⟩
    cases hkey : m.lookup key with
    | none => simp [tally]
    | some entry => simp [tally]
  | @cons r v aggResp votes hv _ ih =>
    rw [List.zipIdx_cons]
    cases hv with
    | absent =>
      obtain ⟨m', hm', hlookup⟩ := ih (i + 1) m
      refine ⟨m', hm', fun key => ?_⟩
      rw [hlookup, tally_of_ne (by simp)]
    | @cast p key hp =>
      have hstep : countOccurence tryFrom m (some p, i) = .ok (m.insert key
          (((m.lookup key).getD (0, i)).1 + 1, ((m.lookup key).getD (0, i)).2)) := by
        rw [countOccurence, hp]
        rfl
      obtain ⟨m', hm', hlookup⟩ := ih (i + 1) (m.insert key
        (((m.lookup key).getD (0, i)).1 + 1, ((m.lookup key).getD (0, i)).2))
      refine ⟨m', by rw [List.foldlM_cons, hstep, ok_bind, hm'], fun key' => ?_⟩
      rw [hlookup]
      by_cases hkey : key' = key
      · subst hkey
        rw [AList.lookup_insert, tally_self]
      · rw [AList.lookup_insert_ne hkey, tally_of_ne (fun h => hkey (Option.some.inj h).symm)]

theorem exists_votes_of_foldlM {i : ℕ} {m m' : HashMap T (ℕ × ℕ)}
    (h : (aggResp.zipIdx i).foldlM (countOccurence tryFrom) m = .ok m') :
    ∃ votes, CastVotes tryFrom aggResp votes := by
  induction aggResp generalizing i m with
  | nil => exact ⟨[], .nil⟩
  | cons r aggResp ih =>
    obtain ⟨m₁, hm₁, h⟩ := bind_eq_ok.mp h
    obtain ⟨votes, hvotes⟩ := ih h
    cases r with
    | none => exact ⟨none :: votes, .cons .absent hvotes⟩
    | some p =>
      obtain ⟨key, hkey, -⟩ := bind_eq_ok.mp hm₁
      exact ⟨some key :: votes, .cons (.cast hkey) hvotes⟩

instance : Std.Total OccurenceLe where
  total a b := by
    unfold OccurenceLe
    omega

instance : IsTrans (ℕ × ℕ) OccurenceLe where
  trans a b c hab hbc := by
    unfold OccurenceLe at *
    omega

theorem OccurenceLe.antisymm {a b : ℕ × ℕ} (hab : OccurenceLe a b) (hba : OccurenceLe b a) :
    a = b := by
  unfold OccurenceLe at *
  exact Prod.ext (by omega) (by omega)

/-- The last of the sorted entries is the largest one. -/
theorem getLast?_insertionSort {l : List (ℕ × ℕ)} {v : ℕ × ℕ} (hv : v ∈ l)
    (hmax : ∀ w ∈ l, OccurenceLe w v) : (l.insertionSort OccurenceLe).getLast? = some v := by
  obtain ⟨last, hmem, hlast, hle⟩ :=
    exists_getLast?_insertionSort OccurenceLe (List.ne_nil_of_mem hv)
  rw [hlast, (hmax last hmem).antisymm (hle v hv)]

/-- A value with more votes than any other wins, and its first response is picked. -/
theorem selectMostCommon_eq
    (h : CastVotes tryFrom aggResp votes) {key : T} (hkey : some key ∈ votes)
    (hwin : ∀ other, other ≠ key → votes.count (some other) < votes.count (some key))
    (minOccurence : ℕ) :
    selectMostCommon tryFrom minOccurence aggResp =
      .ok (if minOccurence ≤ votes.count (some key) then some (votes.idxOf (some key)) else none) := by
  obtain ⟨m, hm, hlookup⟩ := foldlM_countOccurence h 0 ∅
  have hentry : m.lookup key = some (votes.count (some key), votes.idxOf (some key)) := by
    rw [hlookup, AList.lookup_empty, tally, if_pos hkey, Nat.zero_add]
  have hlast : ((m.entries.map Sigma.snd).insertionSort OccurenceLe).getLast? =
      some (votes.count (some key), votes.idxOf (some key)) := by
    refine getLast?_insertionSort (List.mem_map.mpr ⟨_, AList.mem_lookup_iff.mp hentry, rfl⟩) ?_
    intro w hw
    obtain ⟨⟨other, w⟩, hmem, rfl⟩ := List.mem_map.mp hw
    have hother : m.lookup other = some w := AList.mem_lookup_iff.mpr hmem
    by_cases heq : other = key
    · subst heq
      rw [hentry, Option.some_inj] at hother
      rw [← hother]
      exact Or.inr ⟨rfl, le_rfl⟩
    · rw [hlookup, AList.lookup_empty, tally] at hother
      split_ifs at hother
      rw [← Option.some.inj hother]
      exact Or.inl (hwin other heq)
  rw [selectMostCommon, hm, ok_bind, hlast]
  rfl

/-- The minimum decides whether a response is picked, not which one. -/
theorem selectMostCommon_unique {min₁ min₂ i j : ℕ}
    (hi : selectMostCommon tryFrom min₁ aggResp = .ok (some i))
    (hj : selectMostCommon tryFrom min₂ aggResp = .ok (some j)) : i = j := by
  rw [selectMostCommon] at hi hj
  obtain ⟨m, hm, hi⟩ := bind_eq_ok.mp hi
  rw [hm, ok_bind] at hj
  cases hlast : ((m.entries.map Sigma.snd).insertionSort OccurenceLe).getLast? with
  | none => simp [hlast] at hi
  | some entry =>
    simp only [hlast, pure_eq_ok, Except.ok.injEq] at hi hj
    split_ifs at hi hj
    exact (Option.some.inj hi).symm.trans (Option.some.inj hj)

theorem exists_votes_of_selectMostCommon {minOccurence : ℕ}
    {idx : Option ℕ} (h : selectMostCommon tryFrom minOccurence aggResp = .ok idx) :
    ∃ votes, CastVotes tryFrom aggResp votes := by
  obtain ⟨m, hm, -⟩ := bind_eq_ok.mp h
  exact exists_votes_of_foldlM hm

end ThresholdKms
