import ThresholdKms.ReceivedWord

/-!
# Rings with base-two digits in a field

A dyadic ring has a residue homomorphism onto a field whose kernel is generated by two, a section
of it, and `2 ^ i * x = 0` only for elements with zero residue while `i` is below the width. Every
element then has `width` digits in the field; the digit of `2 ^ i * y` at position `i` is the
residue of `y`. Elements with nonzero residue are units, so the section maps distinct points to an
exceptional sequence.
-/

open Polynomial ReceivedWord

structure DyadicRing (R K : Type*) [CommRing R] [Field K] where
  width : ℕ
  residue : R →+* K
  lift : K → R
  lift_zero : lift 0 = 0
  residue_lift : ∀ x, residue (lift x) = x
  two_dvd_of_residue : ∀ x, residue x = 0 → (2 : R) ∣ x
  residue_of_two_pow_mul : ∀ i x, i < width → (2 : R) ^ i * x = 0 → residue x = 0
  two_pow_width : (2 : R) ^ width = 0

namespace DyadicRing

variable {R K : Type*} [CommRing R] [Field K] (D : DyadicRing R K)

theorem residue_two : D.residue 2 = 0 := by
  have h := congrArg D.residue D.two_pow_width
  rw [map_pow, map_zero] at h
  exact eq_zero_of_pow_eq_zero h

theorem two_dvd_iff (x : R) : (2 : R) ∣ x ↔ D.residue x = 0 := by
  constructor
  · rintro ⟨y, rfl⟩
    rw [map_mul, D.residue_two, zero_mul]
  · exact D.two_dvd_of_residue x

theorem residue_eq_of_two_pow_mul {i : ℕ} (hi : i < D.width) {x y : R}
    (h : (2 : R) ^ i * x = 2 ^ i * y) : D.residue x = D.residue y := by
  have hsub : (2 : R) ^ i * (x - y) = 0 := by rw [mul_sub, h, sub_self]
  rw [← sub_eq_zero, ← map_sub]
  exact D.residue_of_two_pow_mul i _ hi hsub

theorem two_pow_succ_dvd_iff {i : ℕ} (hi : i < D.width) (x : R) :
    (2 : R) ^ (i + 1) ∣ 2 ^ i * x ↔ D.residue x = 0 := by
  constructor
  · rintro ⟨y, hy⟩
    have h := D.residue_eq_of_two_pow_mul hi (y := 2 * y) (by rw [hy, pow_succ, mul_assoc])
    rw [h, map_mul, D.residue_two, zero_mul]
  · intro h
    obtain ⟨y, rfl⟩ := D.two_dvd_of_residue x h
    exact ⟨y, by rw [pow_succ, mul_assoc]⟩

theorem isUnit_iff (x : R) : IsUnit x ↔ D.residue x ≠ 0 := by
  constructor
  · intro h
    exact (h.map D.residue).ne_zero
  · intro h
    have hres : D.residue (x * D.lift (D.residue x)⁻¹ - 1) = 0 := by
      rw [map_sub, map_mul, D.residue_lift, mul_inv_cancel₀ h, map_one, sub_self]
    obtain ⟨y, hy⟩ := D.two_dvd_of_residue _ hres
    have hnil : IsNilpotent (x * D.lift (D.residue x)⁻¹ - 1) := by
      rw [hy]
      exact ⟨D.width, by rw [mul_pow, D.two_pow_width, zero_mul]⟩
    have hunit : IsUnit (x * D.lift (D.residue x)⁻¹) := by
      have := hnil.isUnit_add_one
      rwa [sub_add_cancel] at this
    exact isUnit_of_mul_isUnit_left hunit

/-- Each step of Newton's iteration doubles the precision of an inverse. -/
theorem two_pow_dvd_newton {a x : R} (h : (2 : R) ∣ 1 - a * x) (m : ℕ) :
    (2 : R) ^ 2 ^ m ∣ 1 - a * (fun y => y * (2 - a * y))^[m] x := by
  induction m with
  | zero => rwa [pow_zero, pow_one]
  | succ m ih =>
    rw [Function.iterate_succ_apply', pow_succ, pow_mul]
    set y := (fun y => y * (2 - a * y))^[m] x
    have hsquare : 1 - a * (y * (2 - a * y)) = (1 - a * y) ^ 2 := by ring
    rw [hsquare]
    exact pow_dvd_pow_of_dvd ih 2

theorem unitDifferences_of_residue {l : List R} (h : (l.map D.residue).Nodup) :
    UnitDifferences l := by
  refine (List.pairwise_map.mp h).imp ?_
  intro x y hxy
  rw [D.isUnit_iff, map_sub]
  exact sub_ne_zero.mpr hxy

section Polynomials

theorem exists_sub_lift_eq (x : R) : ∃ y, x = D.lift (D.residue x) + 2 * y := by
  have hres : D.residue (x - D.lift (D.residue x)) = 0 := by
    rw [map_sub, D.residue_lift, sub_self]
  obtain ⟨y, hy⟩ := D.two_dvd_of_residue _ hres
  exact ⟨y, by rw [← hy]; ring⟩

theorem exists_eq_two_mul {p : R[X]} {k : ℕ} (hdeg : p.degree < k)
    (h : p.map D.residue = 0) : ∃ q : R[X], q.degree < k ∧ p = C 2 * q := by
  have hcoeff : ∀ i, ∃ y, p.coeff i = 2 * y := by
    intro i
    apply D.two_dvd_of_residue
    rw [← coeff_map, h, coeff_zero]
  choose y hy using hcoeff
  refine ⟨∑ i ∈ Finset.range k, C (y i) * X ^ i, ?_, ?_⟩
  · rw [degree_lt_iff_coeff_zero]
    intro m hm
    simp [coeff_X_pow, Nat.not_lt.mpr hm]
  · ext m
    by_cases hm : m < k
    · simp [coeff_X_pow, hm, hy]
    · have hzero := (degree_lt_iff_coeff_zero p k).mp hdeg m (by omega)
      simp [coeff_X_pow, hm, hzero]

noncomputable def liftPoly (f : K[X]) : R[X] :=
  ∑ i ∈ Finset.range (f.natDegree + 1), C (D.lift (f.coeff i)) * X ^ i

theorem coeff_liftPoly (f : K[X]) (i : ℕ) : (D.liftPoly f).coeff i = D.lift (f.coeff i) := by
  by_cases hi : i < f.natDegree + 1
  · simp [liftPoly, coeff_X_pow, hi]
  · have hzero : f.coeff i = 0 := coeff_eq_zero_of_natDegree_lt (by omega)
    simp [liftPoly, coeff_X_pow, hi, hzero, D.lift_zero]

theorem map_liftPoly (f : K[X]) : (D.liftPoly f).map D.residue = f := by
  ext i
  rw [coeff_map, D.coeff_liftPoly, D.residue_lift]

theorem degree_liftPoly_lt {f : K[X]} {k : ℕ} (h : f.degree < k) : (D.liftPoly f).degree < k := by
  rw [degree_lt_iff_coeff_zero] at h ⊢
  intro m hm
  rw [D.coeff_liftPoly, h m hm, D.lift_zero]

theorem residue_eval_liftPoly (f : K[X]) (x : R) :
    D.residue ((D.liftPoly f).eval x) = f.eval (D.residue x) := by
  rw [← eval_map_apply, D.map_liftPoly]

/-- Removing the lift of `f` at position `i` leaves a multiple of `2 ^ (i + 1)` exactly when `f`
takes the digit of the value at the point. -/
theorem two_pow_succ_dvd_sub_iff {i : ℕ} (hi : i < D.width) (f : K[X]) (x y : R) :
    (2 : R) ^ (i + 1) ∣ 2 ^ i * y - 2 ^ i * (D.liftPoly f).eval x ↔
      f.eval (D.residue x) = D.residue y := by
  rw [← mul_sub, D.two_pow_succ_dvd_iff hi, map_sub, D.residue_eval_liftPoly, sub_eq_zero, eq_comm]

theorem exists_next_digit {f r g : R[X]} {i k : ℕ} (hg : g.degree < k) (h : f = r + C (2 ^ i) * g) :
    ∃ g' : R[X], g'.degree < k ∧
      f = r + C (2 ^ i) * D.liftPoly (g.map D.residue) + C (2 ^ (i + 1)) * g' := by
  have hmap : (g - D.liftPoly (g.map D.residue)).map D.residue = 0 := by
    rw [Polynomial.map_sub, D.map_liftPoly, sub_self]
  have hdeg : (g - D.liftPoly (g.map D.residue)).degree < k :=
    (degree_sub_le _ _).trans_lt
      (max_lt hg (D.degree_liftPoly_lt (degree_map_le.trans_lt hg)))
  obtain ⟨g', hg', heq⟩ := D.exists_eq_two_mul hdeg hmap
  refine ⟨g', hg', ?_⟩
  have hg_eq : g = D.liftPoly (g.map D.residue) + C 2 * g' := by rw [← heq]; ring
  have hC : (C (2 ^ (i + 1)) : R[X]) = C (2 ^ i) * C 2 := by rw [← C_mul, pow_succ]
  calc f = r + C (2 ^ i) * g := h
    _ = r + C (2 ^ i) * (D.liftPoly (g.map D.residue) + C 2 * g') := by rw [← hg_eq]
    _ = r + C (2 ^ i) * D.liftPoly (g.map D.residue) + C (2 ^ (i + 1)) * g' := by
        rw [hC]
        ring

end Polynomials

end DyadicRing
