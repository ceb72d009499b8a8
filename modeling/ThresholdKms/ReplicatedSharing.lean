import Mathlib.Tactic

/-!
# From replicated values to a polynomial sharing

A value that is known to all points outside a list of excluded ones becomes a sharing of itself by
the polynomial that is one at zero and vanishes at the excluded points. Every point can compute its
share of a combination of such values from the values that it knows.
-/

open Polynomial

namespace ReplicatedSharing

variable {R : Type*} [CommRing R]

noncomputable def normalizedRoot (a : R) : R[X] := (X - C a) * C (Ring.inverse (-a))

noncomputable def vanishing (excluded : List R) : R[X] := (excluded.map normalizedRoot).prod

theorem eval_normalizedRoot_self (a : R) : (normalizedRoot a).eval a = 0 := by
  simp [normalizedRoot]

theorem eval_zero_normalizedRoot {a : R} (ha : IsUnit a) : (normalizedRoot a).eval 0 = 1 := by
  rw [normalizedRoot, eval_mul, eval_sub, eval_X, eval_C, eval_C, zero_sub]
  exact Ring.mul_inverse_cancel _ ha.neg

theorem natDegree_normalizedRoot_le (a : R) : (normalizedRoot a).natDegree ≤ 1 :=
  (natDegree_mul_C_le _ _).trans (natDegree_X_sub_C_le a)

theorem normalizedRoot_ne_zero [Nontrivial R] {a : R} (ha : IsUnit a) : normalizedRoot a ≠ 0 := by
  intro h
  have heval := eval_zero_normalizedRoot ha
  rw [h, eval_zero] at heval
  exact zero_ne_one heval

theorem vanishing_cons (a : R) (excluded : List R) :
    vanishing (a :: excluded) = normalizedRoot a * vanishing excluded := by
  rw [vanishing, List.map_cons, List.prod_cons, vanishing]

theorem eval_zero_vanishing {excluded : List R} (h : ∀ a ∈ excluded, IsUnit a) :
    (vanishing excluded).eval 0 = 1 := by
  induction excluded with
  | nil => simp [vanishing]
  | cons a excluded ih =>
    rw [vanishing_cons, eval_mul, eval_zero_normalizedRoot (h a List.mem_cons_self),
      ih (fun b hb => h b (List.mem_cons_of_mem _ hb)), one_mul]

theorem eval_vanishing_of_mem {excluded : List R} {a : R} (h : a ∈ excluded) :
    (vanishing excluded).eval a = 0 := by
  induction excluded with
  | nil => cases h
  | cons b excluded ih =>
    rw [vanishing_cons, eval_mul]
    rcases List.mem_cons.mp h with rfl | h
    · rw [eval_normalizedRoot_self, zero_mul]
    · rw [ih h, mul_zero]

theorem natDegree_vanishing_le (excluded : List R) :
    (vanishing excluded).natDegree ≤ excluded.length := by
  induction excluded with
  | nil => simp [vanishing]
  | cons a excluded ih =>
    rw [vanishing_cons, List.length_cons]
    have := natDegree_mul_le (p := normalizedRoot a) (q := vanishing excluded)
    have := natDegree_normalizedRoot_le a
    omega

section Combination

variable {σ : Type*} (family : List σ) (excluded : σ → List R) (value : σ → R[X])

/-- The sharing of a combination of replicated values. -/
noncomputable def combination : R[X] :=
  (family.map (fun s => value s * vanishing (excluded s))).sum

theorem eval_combination (x : R) : (combination family excluded value).eval x =
      (family.map (fun s => (value s).eval x * (vanishing (excluded s)).eval x)).sum := by
  induction family with
  | nil => simp [combination]
  | cons s family ih =>
    simp only [combination, List.map_cons, List.sum_cons, eval_add, eval_mul] at ih ⊢
    rw [ih]

/-- A point needs only the values from which it is not excluded. -/
theorem eval_combination_filter (x : R) (member : σ → Bool)
    (h : ∀ s ∈ family, member s = false → x ∈ excluded s) :
    (combination family excluded value).eval x = ((family.filter member).map
        (fun s => (value s).eval x * (vanishing (excluded s)).eval x)).sum := by
  rw [eval_combination]
  induction family with
  | nil => rfl
  | cons s family ih =>
    obtain ⟨h, htail⟩ := List.forall_mem_cons.mp h
    cases hs : member s with
    | true => rw [List.filter_cons_of_pos hs, List.map_cons, List.sum_cons, List.map_cons,
        List.sum_cons, ih htail]
    | false =>
      have hzero := eval_vanishing_of_mem (h hs)
      rw [List.filter_cons_of_neg (by simp [hs]), List.map_cons, List.sum_cons, hzero, mul_zero,
        zero_add, ih htail]

theorem eval_zero_combination (h : ∀ s ∈ family, ∀ a ∈ excluded s, IsUnit a) :
    (combination family excluded value).eval 0 = (family.map (fun s => (value s).eval 0)).sum := by
  rw [eval_combination]
  refine congrArg List.sum (List.map_congr_left (fun s hs => ?_))
  rw [eval_zero_vanishing (h s hs), mul_one]

theorem natDegree_combination_le {d t : ℕ} (hvalue : ∀ s ∈ family, (value s).natDegree ≤ d)
    (hexcluded : ∀ s ∈ family, (excluded s).length ≤ t) :
    (combination family excluded value).natDegree ≤ d + t := by
  induction family with
  | nil => simp [combination]
  | cons s family ih =>
    obtain ⟨hdegree, hvalue⟩ := List.forall_mem_cons.mp hvalue
    obtain ⟨hlength, hexcluded⟩ := List.forall_mem_cons.mp hexcluded
    have hmul := natDegree_mul_le (p := value s) (q := vanishing (excluded s))
    have hvanishing := natDegree_vanishing_le (excluded s)
    rw [combination, List.map_cons]
    exact (natDegree_add_le _ _).trans (max_le (by omega) (ih hvalue hexcluded))

end Combination

end ReplicatedSharing
