import ThresholdKms.EuclideanStage
import ThresholdKms.ExceptionalInterpolation

/-!
# Error locator and error evaluator

The locator of an error vector vanishes at the inverses of the points in error. Together with the
evaluator it solves the key equation modulo `X ^ r`, and it is the only coprime solution of small
degree, so it is read off the remainder sequence of `X ^ r` and the syndrome. The magnitude of an
error is recovered from the evaluator and the derivative of the locator.
-/

open Polynomial Finset ExceptionalInterpolation EuclideanStage

namespace ErrorLocator

variable {K : Type*} [Field K] {n : ℕ} (α : Fin n → K) (B : Finset (Fin n)) (y : Fin n → K)

noncomputable def locator : K[X] := ∏ b ∈ B, (1 - C (α b) * X)

noncomputable def cofactor (b : Fin n) : K[X] := ∏ c ∈ B.erase b, (1 - C (α c) * X)

noncomputable def evaluator : K[X] := ∑ b ∈ B, C (y b * weight α b) * cofactor α B b

variable {α B y} {b : Fin n}

theorem cofactor_mul (hb : b ∈ B) : cofactor α B b * (1 - C (α b) * X) = locator α B :=
  prod_erase_mul B _ hb

theorem eval_zero_locator : (locator α B).eval 0 = 1 := by
  simp [locator, eval_prod]

theorem natDegree_factors_le (s : Finset (Fin n)) :
    (∏ b ∈ s, (1 - C (α b) * X)).natDegree ≤ s.card := by
  refine (Polynomial.natDegree_prod_le s _).trans ?_
  rw [card_eq_sum_ones]
  apply Finset.sum_le_sum
  intro b _
  compute_degree

theorem natDegree_locator_le : (locator α B).natDegree ≤ B.card := natDegree_factors_le B

theorem degree_evaluator_lt : (evaluator α B y).degree < B.card := by
  rcases B.eq_empty_or_nonempty with rfl | hne
  · simp [evaluator]
  · refine (degree_sum_le _ _).trans_lt ((Finset.sup_lt_iff (WithBot.bot_lt_coe _)).mpr ?_)
    intro b hb
    rw [← smul_eq_C_mul]
    refine (degree_smul_le _ _).trans_lt (degree_le_natDegree.trans_lt ?_)
    have hle := natDegree_factors_le (α := α) (B.erase b)
    rw [card_erase_of_mem hb] at hle
    have hpos := card_pos.mpr hne
    exact_mod_cast (by rw [cofactor]; omega : (cofactor α B b).natDegree < B.card)

theorem syndrome_eq_sum (hB : ∀ i, i ∉ B → y i = 0) (r : ℕ) :
    syndrome α r y = ∑ b ∈ B, C (y b * weight α b) * ∑ j ∈ range r, (C (α b) * X) ^ j := by
  have hsum : ∀ j, ∑ i, y i * α i ^ j * weight α i = ∑ b ∈ B, y b * weight α b * α b ^ j := by
    intro j
    rw [← Finset.sum_subset (subset_univ B)]
    · exact Finset.sum_congr rfl (fun b _ => by ring)
    · intro i _ hi
      rw [hB i hi]
      ring
  simp only [syndrome, hsum, map_sum, Finset.sum_mul, Finset.mul_sum]
  rw [Finset.sum_comm]
  refine Finset.sum_congr rfl (fun b _ => Finset.sum_congr rfl (fun j _ => ?_))
  rw [mul_pow, ← C_pow, C_mul]
  ring

theorem key_equation (hB : ∀ i, i ∉ B → y i = 0) (r : ℕ) :
    X ^ r ∣ locator α B * syndrome α r y - evaluator α B y := by
  rw [syndrome_eq_sum hB, evaluator, Finset.mul_sum, ← Finset.sum_sub_distrib]
  apply Finset.dvd_sum
  intro b hb
  have hgeom : (1 - C (α b) * X) * ∑ j ∈ range r, (C (α b) * X) ^ j = 1 - (C (α b) * X) ^ r :=
    mul_neg_geom_sum _ _
  refine ⟨-(C (y b * weight α b) * cofactor α B b * C (α b) ^ r), ?_⟩
  rw [← cofactor_mul hb]
  linear_combination C (y b * weight α b) * cofactor α B b * hgeom

section Roots

variable (hα : ∀ i, α i ≠ 0) (hinj : Function.Injective α)
include hα

theorem eval_factor_eq_zero_iff (b : Fin n) (x : K) :
    (1 - C (α b) * X : K[X]).eval x = 0 ↔ x = (α b)⁻¹ := by
  rw [eval_sub, eval_one, eval_mul, eval_C, eval_X, sub_eq_zero, eq_comm, mul_comm]
  exact mul_eq_one_iff_eq_inv₀ (hα b)

include hinj

/-- The locator vanishes at the inverses of the points in error only. -/
theorem eval_locator_eq_zero_iff (i : Fin n) : (locator α B).eval (α i)⁻¹ = 0 ↔ i ∈ B := by
  rw [locator, eval_prod, Finset.prod_eq_zero_iff]
  constructor
  · rintro ⟨b, hb, hzero⟩
    have h := (eval_factor_eq_zero_iff hα b _).mp hzero
    rwa [hinj (inv_injective h)]
  · intro hi
    exact ⟨i, hi, (eval_factor_eq_zero_iff hα i _).mpr rfl⟩

theorem eval_cofactor_ne_zero (b : Fin n) : (cofactor α B b).eval (α b)⁻¹ ≠ 0 := by
  rw [cofactor, eval_prod, Finset.prod_ne_zero_iff]
  intro c hc hzero
  have h := (eval_factor_eq_zero_iff hα c _).mp hzero
  exact ne_of_mem_erase hc (hinj (inv_injective h)).symm

omit hinj in
theorem eval_cofactor_of_ne {b c : Fin n} (hb : b ∈ B) (h : b ≠ c) :
    (cofactor α B c).eval (α b)⁻¹ = 0 := by
  rw [cofactor, eval_prod]
  exact Finset.prod_eq_zero (mem_erase.mpr ⟨h, hb⟩) ((eval_factor_eq_zero_iff hα b _).mpr rfl)

omit hinj in
theorem eval_evaluator (hb : b ∈ B) :
    (evaluator α B y).eval (α b)⁻¹ = y b * weight α b * (cofactor α B b).eval (α b)⁻¹ := by
  rw [evaluator, eval_finsetSum, Finset.sum_eq_single b]
  · rw [eval_mul, eval_C]
  · intro c _ hc
    rw [eval_mul, eval_cofactor_of_ne hα hb hc.symm, mul_zero]
  · intro h
    exact absurd hb h

omit hinj in
theorem eval_derivative_locator (hb : b ∈ B) :
    (derivative (locator α B)).eval (α b)⁻¹ = -(α b) * (cofactor α B b).eval (α b)⁻¹ := by
  rw [← cofactor_mul hb, derivative_mul, eval_add, eval_mul,
    (eval_factor_eq_zero_iff hα b _).mpr rfl, mul_zero, zero_add, eval_mul]
  simp only [derivative_sub, derivative_one, derivative_mul, derivative_C, derivative_X, zero_mul,
    mul_one, zero_add, zero_sub, eval_neg, eval_C]
  ring

theorem magnitude_eq (hex : Exceptional α) (hb : b ∈ B) :
    -(α b) * (numerator α b).eval (α b) * (evaluator α B y).eval (α b)⁻¹ /
      (derivative (locator α B)).eval (α b)⁻¹ = y b := by
  have hcof := eval_cofactor_ne_zero hα hinj (B := B) b
  have hw := hex.weight_mul b
  rw [eval_evaluator hα hb, eval_derivative_locator hα hb,
    div_eq_iff (mul_ne_zero (neg_ne_zero.mpr (hα b)) hcof)]
  linear_combination (-(α b) * y b * (cofactor α B b).eval (α b)⁻¹) * hw

theorem eval_derivative_locator_ne_zero (hb : b ∈ B) :
    (derivative (locator α B)).eval (α b)⁻¹ ≠ 0 := by
  rw [eval_derivative_locator hα hb]
  exact mul_ne_zero (neg_ne_zero.mpr (hα b)) (eval_cofactor_ne_zero hα hinj b)

theorem isCoprime_locator_evaluator (hex : Exceptional α) (hB : ∀ b ∈ B, y b ≠ 0) :
    IsCoprime (locator α B) (evaluator α B y) := by
  apply IsCoprime.prod_left
  intro b hb
  have hdegree : (1 - C (α b) * X : K[X]).degree = 1 := by
    have hneg : (1 - C (α b) * X : K[X]) = C (-(α b)) * X + C 1 := by
      rw [C_neg, C_1]
      ring
    rw [hneg]
    exact degree_linear (neg_ne_zero.mpr (hα b))
  have hirr := irreducible_of_degree_eq_one hdegree
  refine (EuclideanDomain.dvd_or_coprime _ _ hirr).resolve_left ?_
  intro hdvd
  obtain ⟨q, hq⟩ := hdvd
  have heval := eval_evaluator (y := y) hα hb
  rw [hq, eval_mul, (eval_factor_eq_zero_iff hα b _).mpr rfl, zero_mul] at heval
  have hweight : weight α b ≠ 0 := left_ne_zero_of_mul_eq_one (hex.weight_mul b)
  exact mul_ne_zero (mul_ne_zero (hB b hb) hweight) (eval_cofactor_ne_zero hα hinj b) heval.symm

theorem evaluator_ne_zero (hex : Exceptional α) (hB : ∀ b ∈ B, y b ≠ 0) (hne : B.Nonempty) :
    evaluator α B y ≠ 0 := by
  obtain ⟨b, hb⟩ := hne
  intro hzero
  have heval := eval_evaluator (y := y) hα hb
  rw [hzero, eval_zero] at heval
  have hweight : weight α b ≠ 0 := left_ne_zero_of_mul_eq_one (hex.weight_mul b)
  exact mul_ne_zero (mul_ne_zero (hB b hb) hweight) (eval_cofactor_ne_zero hα hinj b) heval.symm

end Roots

section Sequence

variable {r : ℕ} {r₀ r₁ t₀ t₁ : K[X]} (hα : ∀ i, α i ≠ 0) (hinj : Function.Injective α)
  (hex : Exceptional α) (hB : ∀ i, i ∈ B ↔ y i ≠ 0) (hne : B.Nonempty) (hcard : B.card ≤ r / 2)
  (hstage : Stage (X ^ r) (syndrome α r y) r₀ r₁ t₀ t₁) (hhigh : r / 2 ≤ r₀.natDegree)
include hα hinj hex hB hne hcard hstage hhigh

/-- The remainder sequence does not end while its remainders have large degree. -/
theorem rem_ne_zero : r₁ ≠ 0 := by
  rintro rfl
  obtain ⟨hmod, hsyn⟩ := hstage.dvd_of_last
  have hkey := key_equation (α := α) (B := B) (y := y)
    (fun i hi => not_not.mp (mt (hB i).mpr hi)) r
  have hdvd : r₀ ∣ evaluator α B y := by
    have h := dvd_sub (dvd_mul_of_dvd_right hsyn (locator α B)) (hmod.trans hkey)
    rwa [sub_sub_cancel] at h
  have hne0 := evaluator_ne_zero hα hinj hex (fun b hb => (hB b).mp hb) hne
  have hle := natDegree_le_of_dvd hdvd hne0
  have hlt := (natDegree_lt_iff_degree_lt hne0).mpr (degree_evaluator_lt (α := α) (B := B) (y := y))
  omega

/-- The first remainder of small degree gives the locator and the evaluator. -/
theorem solution_of_stage (hlow : r₁.natDegree < r / 2) :
    t₁.eval 0 ≠ 0 ∧ C (t₁.eval 0)⁻¹ * t₁ = locator α B ∧
      C (t₁.eval 0)⁻¹ * r₁ = evaluator α B y := by
  have hne0 := evaluator_ne_zero hα hinj hex (fun b hb => (hB b).mp hb) hne
  have hlt := (natDegree_lt_iff_degree_lt hne0).mpr (degree_evaluator_lt (α := α) (B := B) (y := y))
  have hloc := natDegree_locator_le (α := α) (B := B)
  have hcof := hstage.natDegree_add
  rw [natDegree_X_pow] at hcof
  have hW : (locator α B * r₁).degree < (X ^ r : K[X]).degree := by
    rw [degree_X_pow]
    refine degree_le_natDegree.trans_lt ?_
    have hle := natDegree_mul_le (p := locator α B) (q := r₁)
    exact_mod_cast (by omega : (locator α B * r₁).natDegree < r)
  have hN : (t₁ * evaluator α B y).degree < (X ^ r : K[X]).degree := by
    rw [degree_X_pow]
    refine degree_le_natDegree.trans_lt ?_
    have hle := natDegree_mul_le (p := t₁) (q := evaluator α B y)
    exact_mod_cast (by omega : (t₁ * evaluator α B y).natDegree < r)
  obtain ⟨heq, μ, hμ⟩ := hstage.key_equation (key_equation (α := α) (B := B) (y := y)
    (fun i hi => not_not.mp (mt (hB i).mpr hi)) r) hW hN
  have hω : evaluator α B y = μ * r₁ := by
    apply mul_left_cancel₀ hstage.cof_ne_zero
    rw [← heq, hμ, mul_assoc]
  have hunit : IsUnit μ := by
    have hcop := isCoprime_locator_evaluator hα hinj hex (fun b hb => (hB b).mp hb)
    exact hcop.isUnit_of_dvd' ⟨t₁, by rw [hμ, mul_comm]⟩ ⟨r₁, hω⟩
  obtain ⟨c, hc, rfl⟩ := isUnit_iff.mp hunit
  have hzero : t₁.eval 0 * c = 1 := by
    have h := eval_zero_locator (α := α) (B := B)
    rwa [hμ, eval_mul, eval_C] at h
  have hinv : (t₁.eval 0)⁻¹ = c := inv_eq_of_mul_eq_one_right hzero
  refine ⟨left_ne_zero_of_mul_eq_one hzero, ?_, ?_⟩
  · rw [hinv, hμ, mul_comm]
  · rw [hinv, hω]

end Sequence

end ErrorLocator
