import ThresholdKms.ReceivedWord

/-!
# Interpolation at points whose differences are units

Over a commutative ring, Lagrange interpolation works at points with invertible differences. The
leading coefficient of the interpolant is a weighted sum of the values, which vanishes on values of
polynomials of smaller degree. The syndrome of a word collects such sums for the word multiplied by
powers of the points, so that it depends on the errors of the word only.
-/

open Polynomial Finset ReceivedWord

namespace ExceptionalInterpolation

variable {R : Type*} [CommRing R] {n : ℕ} (α : Fin n → R)

def Exceptional : Prop := ∀ i j, i ≠ j → IsUnit (α i - α j)

variable (i : Fin n)

noncomputable def numerator : R[X] := ∏ j ∈ univ.erase i, (X - C (α j))

noncomputable def weight : R := Ring.inverse ((numerator α i).eval (α i))

theorem eval_numerator (x : R) :
    (numerator α i).eval x = ∏ j ∈ univ.erase i, (x - α j) := by
  simp [numerator, eval_prod]

theorem eval_numerator_of_ne {i j : Fin n} (h : j ≠ i) : (numerator α i).eval (α j) = 0 := by
  rw [eval_numerator]
  exact Finset.prod_eq_zero (mem_erase.mpr ⟨h, mem_univ j⟩) (sub_self _)

theorem monic_numerator : (numerator α i).Monic :=
  monic_prod_of_monic _ _ (fun j _ => monic_X_sub_C (α j))

theorem natDegree_numerator [Nontrivial R] : (numerator α i).natDegree = n - 1 := by
  rw [numerator]
  simp

theorem eq_inverse_of_mul_eq_one {x y : R} (h : y * x = 1) : y = Ring.inverse x := by
  let u : Rˣ := ⟨x, y, by rwa [mul_comm], h⟩
  exact (Ring.inverse_unit u).symm

variable {α}

theorem Exceptional.isUnit_eval_numerator (h : Exceptional α) (i : Fin n) :
    IsUnit ((numerator α i).eval (α i)) := by
  rw [eval_numerator]
  exact IsUnit.prod_iff.mpr (fun j hj => h i j (ne_of_mem_erase hj).symm)

theorem Exceptional.weight_mul (h : Exceptional α) (i : Fin n) :
    weight α i * (numerator α i).eval (α i) = 1 :=
  Ring.inverse_mul_cancel _ (h.isUnit_eval_numerator i)

theorem Exceptional.unitDifferences (h : Exceptional α) : UnitDifferences (List.ofFn α) := by
  rw [UnitDifferences, List.pairwise_ofFn]
  intro i j hij
  exact h i j hij.ne

theorem degree_numerator_lt [Nontrivial R] : (numerator α i).degree < n := by
  rw [degree_eq_natDegree (monic_numerator α i).ne_zero, natDegree_numerator]
  have := i.isLt
  exact_mod_cast (by omega : n - 1 < n)

variable {p : R[X]}

variable (h : Exceptional α)
include h

theorem Exceptional.eq_sum_numerators (hp : p.degree < n) :
    p = ∑ i, C (p.eval (α i) * weight α i) * numerator α i := by
  nontriviality R
  apply sub_eq_zero.mp
  apply eq_zero_of_forall_eval_eq_zero h.unitDifferences
  · rw [List.length_ofFn]
    refine (degree_sub_le _ _).trans_lt (max_lt hp ?_)
    refine (degree_sum_le _ _).trans_lt ((Finset.sup_lt_iff (WithBot.bot_lt_coe n)).mpr ?_)
    intro i _
    rw [← smul_eq_C_mul]
    exact (degree_smul_le _ _).trans_lt (degree_numerator_lt i)
  · intro x hx
    obtain ⟨k, rfl⟩ := List.mem_ofFn.mp hx
    rw [eval_sub, eval_finsetSum, Finset.sum_eq_single k]
    · rw [eval_mul, eval_C, mul_assoc, h.weight_mul, mul_one, sub_self]
    · intro i _ hik
      rw [eval_mul, eval_numerator_of_ne α (Ne.symm hik), mul_zero]
    · simp

theorem Exceptional.eval_eq_sum (hp : p.degree < n) (x : R) :
    p.eval x = ∑ i, weight α i * (numerator α i).eval x * p.eval (α i) := by
  conv_lhs => rw [h.eq_sum_numerators hp]
  rw [eval_finsetSum]
  apply Finset.sum_congr rfl
  intro i _
  rw [eval_mul, eval_C]
  ring

theorem Exceptional.sum_eval_mul_weight (hp : p.degree < n) :
    ∑ i, p.eval (α i) * weight α i = p.coeff (n - 1) := by
  nontriviality R
  conv_rhs => rw [h.eq_sum_numerators hp]
  rw [finsetSum_coeff]
  apply Finset.sum_congr rfl
  intro i _
  rw [coeff_C_mul, ← natDegree_numerator α i, (monic_numerator α i).coeff_natDegree, mul_one]

theorem Exceptional.sum_eval_mul_weight_eq_zero
    (hp : p.natDegree + 1 < n) : ∑ i, p.eval (α i) * weight α i = 0 := by
  have hdeg : p.degree < n :=
    degree_le_natDegree.trans_lt (by exact_mod_cast (by omega : p.natDegree < n))
  rw [h.sum_eval_mul_weight hdeg]
  exact coeff_eq_zero_of_natDegree_lt (by omega)

omit h

section Syndrome

variable (α)

/-- The syndrome of length `r` of a word at the points. -/
noncomputable def syndrome (r : ℕ) (y : Fin n → R) : R[X] :=
  ∑ j ∈ range r, C (∑ i, y i * α i ^ j * weight α i) * X ^ j

theorem coeff_syndrome (r : ℕ) (y : Fin n → R) (k : ℕ) :
    (syndrome α r y).coeff k = if k < r then ∑ i, y i * α i ^ k * weight α i else 0 := by
  simp only [syndrome, finsetSum_coeff, coeff_C_mul_X_pow, Finset.sum_ite_eq, mem_range]

theorem syndrome_add (r : ℕ) (y z : Fin n → R) :
    syndrome α r (fun i => y i + z i) = syndrome α r y + syndrome α r z := by
  ext k
  rw [coeff_add]
  simp only [coeff_syndrome]
  split_ifs
  · rw [← Finset.sum_add_distrib]
    exact Finset.sum_congr rfl (fun i _ => by ring)
  · rw [add_zero]

theorem syndrome_mul (r : ℕ) (c : R) (y : Fin n → R) :
    syndrome α r (fun i => c * y i) = C c * syndrome α r y := by
  ext k
  rw [coeff_C_mul]
  simp only [coeff_syndrome]
  split_ifs
  · rw [Finset.mul_sum]
    exact Finset.sum_congr rfl (fun i _ => by ring)
  · rw [mul_zero]

variable {α}

theorem Exceptional.syndrome_eval (h : Exceptional α) {r : ℕ} {f : R[X]}
    (hf : f.natDegree + r < n) : syndrome α r (fun i => f.eval (α i)) = 0 := by
  ext k
  rw [coeff_syndrome, coeff_zero]
  split_ifs with hk
  · have hdeg : (f * X ^ k).natDegree + 1 < n := by
      have := (natDegree_mul_le (p := f) (q := X ^ k)).trans
        (Nat.add_le_add_left (natDegree_X_pow_le k) _)
      omega
    rw [← h.sum_eval_mul_weight_eq_zero hdeg]
    exact Finset.sum_congr rfl (fun i _ => by rw [eval_mul, eval_pow, eval_X])
  · rfl

theorem Exceptional.map_weight {S : Type*} [CommRing S] (h : Exceptional α) (φ : R →+* S)
    (i : Fin n) : φ (weight α i) = weight (fun j => φ (α j)) i := by
  have heval : (numerator (fun j => φ (α j)) i).eval (φ (α i)) =
      φ ((numerator α i).eval (α i)) := by
    rw [eval_numerator, eval_numerator, map_prod]
    simp only [map_sub]
  have hmul : φ (weight α i) * φ ((numerator α i).eval (α i)) = 1 := by
    rw [← map_mul, h.weight_mul, map_one]
  rw [eq_inverse_of_mul_eq_one hmul, ← heval]
  rfl

theorem Exceptional.map_syndrome {S : Type*} [CommRing S] (h : Exceptional α) (φ : R →+* S)
    (r : ℕ) (y : Fin n → R) :
    (syndrome α r y).map φ = syndrome (fun j => φ (α j)) r (fun j => φ (y j)) := by
  ext k
  rw [coeff_map, coeff_syndrome, coeff_syndrome]
  split_ifs
  · rw [map_sum]
    apply Finset.sum_congr rfl
    intro i _
    rw [map_mul, map_mul, map_pow, h.map_weight]
  · exact map_zero φ

end Syndrome

end ExceptionalInterpolation
