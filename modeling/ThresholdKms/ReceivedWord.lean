import Mathlib.RingTheory.SimpleRing.Principal
import Mathlib.Tactic

/-!
# Received words over a commutative ring

A received word is a list of pairs of an evaluation point and a value. Over a ring with zero
divisors the points have to differ by units; then a polynomial of degree below `k` is determined by
its values at `k` of the points, and two such polynomials that disagree with one word in few places
are equal.
-/

open Polynomial

namespace ReceivedWord

variable {R : Type*} [CommRing R]

/-- The points of an exceptional sequence: any two of them differ by a unit. -/
def UnitDifferences (l : List R) : Prop := l.Pairwise (fun x y => IsUnit (x - y))

theorem UnitDifferences.sublist {l l' : List R} (hl : UnitDifferences l') (h : l.Sublist l') :
    UnitDifferences l := List.Pairwise.sublist h hl

theorem unitDifferences_iff_nodup {K : Type*} [Field K] (l : List K) :
    UnitDifferences l ↔ l.Nodup := by
  simp only [UnitDifferences, isUnit_iff_ne_zero, sub_ne_zero]
  rfl

theorem eq_zero_of_forall_eval_eq_zero {l : List R} (hl : UnitDifferences l) {p : R[X]}
    (hdeg : p.degree < l.length) (h : ∀ x ∈ l, p.eval x = 0) : p = 0 := by
  nontriviality R
  induction l generalizing p with
  | nil => exact degree_eq_bot.mp (Nat.WithBot.lt_zero_iff.mp hdeg)
  | cons x xs ih =>
    obtain ⟨q, rfl⟩ := dvd_iff_isRoot.mpr (h x (by simp))
    obtain ⟨hx, hxs⟩ := List.pairwise_cons.mp hl
    have hq : q = 0 := by
      apply ih hxs
      · rw [mul_comm, (monic_X_sub_C x).degree_mul, degree_X_sub_C, List.length_cons,
          Nat.cast_add] at hdeg
        exact lt_of_add_lt_add_right hdeg
      · intro y hy
        have hprod := h y (by simp [hy])
        rw [eval_mul, eval_sub, eval_X, eval_C] at hprod
        have hunit : IsUnit (y - x) := by
          rw [← neg_sub]
          exact (hx y hy).neg
        exact hunit.mul_right_eq_zero.mp hprod
    rw [hq, mul_zero]

open Classical in
/-- The positions at which the word disagrees with `f`. -/
noncomputable def errors (w : List (R × R)) (f : R[X]) : List (R × R) :=
  w.filter (fun p => f.eval p.1 ≠ p.2)

noncomputable def disagreements (w : List (R × R)) (f : R[X]) : ℕ := (errors w f).length

variable {w : List (R × R)} {f : R[X]}

theorem mem_errors {p : R × R} : p ∈ errors w f ↔ p ∈ w ∧ f.eval p.1 ≠ p.2 := by
  simp [errors]

theorem disagreements_map {ι : Type*} (l : List ι) (x y : ι → R) (f : R[X])
    [DecidablePred (fun o => f.eval (x o) ≠ y o)] :
    disagreements (l.map (fun o => (x o, y o))) f =
      (l.filter (fun o => f.eval (x o) ≠ y o)).length := by
  rw [disagreements, errors, List.filter_map, List.length_map]
  congr 1
  apply List.filter_congr
  intro o _
  simp

theorem disagreements_perm {w w' : List (R × R)} (h : w.Perm w') (f : R[X]) :
    disagreements w f = disagreements w' f := (h.filter _).length_eq

theorem disagreements_cons_of_eq {p : R × R} (h : f.eval p.1 = p.2)
    (w : List (R × R)) : disagreements (p :: w) f = disagreements w f := by
  simp [disagreements, errors, h]

theorem disagreements_cons_le (p : R × R) (w : List (R × R)) (f : R[X]) :
    disagreements (p :: w) f ≤ disagreements w f + 1 := by
  by_cases h : f.eval p.1 = p.2
  · rw [disagreements_cons_of_eq h]
    omega
  · simp [disagreements, errors, h]

open Classical in
theorem exists_common_agreement (w : List (R × R)) (f g : R[X]) :
    ∃ a : List (R × R), a.Sublist w ∧ (∀ p ∈ a, f.eval p.1 = p.2 ∧ g.eval p.1 = p.2) ∧
      w.length ≤ a.length + disagreements w f + disagreements w g := by
  refine ⟨w.filter (fun p => f.eval p.1 = p.2 ∧ g.eval p.1 = p.2), List.filter_sublist, by simp, ?_⟩
  unfold disagreements errors
  induction w with
  | nil => simp
  | cons p w ih =>
    by_cases hf : f.eval p.1 = p.2 <;> by_cases hg : g.eval p.1 = p.2 <;>
      simp [hf, hg] at ih ⊢ <;> omega

theorem eq_of_disagreements (hw : UnitDifferences (w.map Prod.fst))
    {f g : R[X]} {k : ℕ} (hf : f.degree < k) (hg : g.degree < k)
    (h : disagreements w f + disagreements w g + k ≤ w.length) : f = g := by
  obtain ⟨a, hsub, hagree, hlen⟩ := exists_common_agreement w f g
  apply sub_eq_zero.mp
  apply eq_zero_of_forall_eval_eq_zero (hw.sublist (hsub.map Prod.fst))
  · refine (degree_sub_le f g).trans_lt ((max_lt hf hg).trans_le ?_)
    rw [List.length_map]
    exact_mod_cast (by omega : k ≤ a.length)
  · intro x hx
    obtain ⟨p, hp, rfl⟩ := List.mem_map.mp hx
    rw [eval_sub, (hagree p hp).1, (hagree p hp).2, sub_self]

open Classical in
/-- The polynomial of degree below `k` within the error budget `e` of the word, if there is one. -/
noncomputable def decoded (w : List (R × R)) (k e : ℕ) : Option R[X] :=
  if h : ∃ f : R[X], f.degree < k ∧ disagreements w f ≤ e then some h.choose else none

theorem decoded_eq_none_iff {k e : ℕ} :
    decoded w k e = none ↔ ∀ f : R[X], f.degree < k → e < disagreements w f := by
  unfold decoded
  split_ifs with h
  · obtain ⟨f, hf, hdis⟩ := h
    exact iff_of_false (by simp) (fun hall => absurd (hall f hf) (not_lt.mpr hdis))
  · exact iff_of_true rfl (fun f hf => not_le.mp (fun hdis => h ⟨f, hf, hdis⟩))

theorem decoded_eq_some_iff (hw : UnitDifferences (w.map Prod.fst)) {k e : ℕ}
    (he : 2 * e + k ≤ w.length) :
    decoded w k e = some f ↔ f.degree < k ∧ disagreements w f ≤ e := by
  unfold decoded
  split_ifs with h
  · obtain ⟨hdeg, hdis⟩ := h.choose_spec
    rw [Option.some.injEq]
    constructor
    · rintro rfl
      exact ⟨hdeg, hdis⟩
    · rintro ⟨hf, hfdis⟩
      exact eq_of_disagreements hw hdeg hf (by omega)
  · exact iff_of_false (by simp) (fun hf => h ⟨f, hf⟩)

section Field

variable {K : Type*} [Field K] {l : List K} {p : K[X]}

theorem coe_le_roots (hl : l.Nodup) (hp : p ≠ 0)
    (h : ∀ x ∈ l, p.eval x = 0) : (l : Multiset K) ≤ p.roots := by
  rw [Multiset.le_iff_subset (Multiset.coe_nodup.mpr hl)]
  intro x hx
  exact (mem_roots hp).mpr (h x (Multiset.mem_coe.mp hx))

theorem map_X_sub_C_prod_dvd (hl : l.Nodup) (h : ∀ x ∈ l, p.eval x = 0) :
    (l.map (fun x => X - C x)).prod ∣ p := by
  by_cases hp : p = 0
  · rw [hp]
    exact dvd_zero _
  · simpa using (Multiset.prod_X_sub_C_dvd_iff_le_roots hp (l : Multiset K)).mpr
      (coe_le_roots hl hp h)

theorem length_le_natDegree (hl : l.Nodup) (hp : p ≠ 0)
    (h : ∀ x ∈ l, p.eval x = 0) : l.length ≤ p.natDegree :=
  calc l.length = Multiset.card (l : Multiset K) := rfl
    _ ≤ Multiset.card p.roots := Multiset.card_le_card (coe_le_roots hl hp h)
    _ ≤ p.natDegree := card_roots' p

theorem monic_map_X_sub_C_prod (l : List K) : (l.map (fun x => X - C x)).prod.Monic := by
  simpa using monic_multiset_prod_of_monic (l : Multiset K) _ fun x _ => monic_X_sub_C x

theorem natDegree_map_X_sub_C_prod (l : List K) :
    (l.map (fun x => X - C x)).prod.natDegree = l.length := by
  simpa using natDegree_multiset_prod_X_sub_C_eq_card (l : Multiset K)

variable (w : List (K × K))

/-- The polynomial whose roots are the points in error. -/
noncomputable def locator (f : K[X]) : K[X] :=
  ((errors w f).map (fun p => X - C p.1)).prod

theorem locator_eq (f : K[X]) :
    locator w f = (((errors w f).map Prod.fst).map (fun x => X - C x)).prod := by
  rw [List.map_map]
  rfl

theorem locator_monic (f : K[X]) : (locator w f).Monic := by
  rw [locator_eq]
  exact monic_map_X_sub_C_prod _

theorem natDegree_locator (f : K[X]) : (locator w f).natDegree = disagreements w f := by
  rw [locator_eq, natDegree_map_X_sub_C_prod, List.length_map]
  rfl

theorem eval_locator {w : List (K × K)} {f : K[X]} {p : K × K} (hp : p ∈ w)
    (hne : f.eval p.1 ≠ p.2) : (locator w f).eval p.1 = 0 := by
  rw [locator, eval_list_prod, List.map_map]
  apply List.prod_eq_zero
  exact List.mem_map.mpr ⟨p, mem_errors.mpr ⟨hp, hne⟩, by simp⟩

/-- Times the error locator, the interpolant and the message are congruent at all points. -/
theorem nodal_dvd_locator_mul_sub {w : List (K × K)} (hw : (w.map Prod.fst).Nodup) {r : K[X]}
    (hr : ∀ p ∈ w, r.eval p.1 = p.2) (f : K[X]) :
    ((w.map Prod.fst).map (fun x => X - C x)).prod ∣ locator w f * r - locator w f * f := by
  apply map_X_sub_C_prod_dvd hw
  intro x hx
  obtain ⟨p, hp, rfl⟩ := List.mem_map.mp hx
  by_cases hne : f.eval p.1 = p.2
  · rw [eval_sub, eval_mul, eval_mul, hr p hp, hne, sub_self]
  · rw [eval_sub, eval_mul, eval_mul, eval_locator hp hne, zero_mul, zero_mul, sub_zero]

end Field

end ReceivedWord
