import Mathlib.Tactic

/-!
# Products modulo `X ^ N + 1`

A polynomial of degree less than `N` is the function of its coefficients. The product is taken modulo
`X ^ N + 1`, so that what exceeds the degree comes back with the opposite sign.
-/

namespace NegacyclicProduct

open Finset

variable {N : ℕ} {A B : Type*} [CommRing A] [CommRing B]

def negacyclicMul (f g : Fin N → A) : Fin N → A :=
  fun k => ∑ i, if i ≤ k then f i * g (k - i) else -(f i * g (k - i))

/-- The product of two monomials with the product of their coefficients. -/
def mulMonomials (a : A) (i j : Fin N) : Fin N → A :=
  Pi.single (i + j) (if i.val + j.val < N then a else -a)

theorem sum_mulMonomials (f g : Fin N → A) :
    ∑ j, ∑ i, mulMonomials (f j * g i) i j = negacyclicMul f g := by
  funext k
  rw [Finset.sum_apply]
  refine sum_congr rfl (fun j _ => ?_)
  have : NeZero N := ⟨k.pos.ne'⟩
  -- the only summand at the coefficient is that of the difference
  rw [Finset.sum_apply, sum_eq_single (k - j)]
  · have hle : (k - j).val + j.val < N ↔ j ≤ k := by
      rcases le_or_gt j k with h | h
      · rw [Fin.coe_sub_iff_le.mpr h]
        omega
      · rw [Fin.coe_sub_iff_lt.mpr h]
        omega
    simp only [mulMonomials, sub_add_cancel, Pi.single_eq_same, hle]
  · intro i _ hi
    exact Pi.single_eq_of_ne (fun h => hi (eq_sub_of_add_eq h.symm)) _
  · exact fun h => absurd (mem_univ _) h

theorem map_negacyclicMul (φ : A →+* B) (f g : Fin N → A) (k : Fin N) :
    φ (negacyclicMul f g k) = negacyclicMul (fun i => φ (f i)) (fun i => φ (g i)) k := by
  unfold negacyclicMul
  rw [map_sum]
  refine sum_congr rfl (fun i _ => ?_)
  split_ifs
  · rw [map_mul]
  · rw [map_neg, map_mul]

theorem sub_negacyclicMul (f f' g : Fin N → A) :
    negacyclicMul (f - f') g = negacyclicMul f g - negacyclicMul f' g := by
  funext k
  rw [Pi.sub_apply]
  unfold negacyclicMul
  rw [← sum_sub_distrib]
  refine sum_congr rfl (fun i _ => ?_)
  rw [Pi.sub_apply]
  split_ifs
  · ring
  · ring

theorem single_negacyclicMul [NeZero N] (x : A) (g : Fin N → A) :
    negacyclicMul (Pi.single 0 x) g = fun k => x * g k := by
  funext k
  unfold negacyclicMul
  rw [sum_eq_single 0]
  · simp
  · intro i _ hi
    rw [Pi.single_eq_of_ne hi]
    simp
  · exact fun h => absurd (mem_univ _) h

theorem abs_negacyclicMul_le {f : Fin N → ℤ} {F : ℤ} (hf : ∀ i, |f i| ≤ F) (g : Fin N → ℤ)
    (k : Fin N) : |negacyclicMul f g k| ≤ F * ∑ i, |g i| := by
  have : NeZero N := ⟨k.pos.ne'⟩
  have hterm : ∀ i, |if i ≤ k then f i * g (k - i) else -(f i * g (k - i))| ≤ F * |g (k - i)| := by
    intro i
    have hmul : |f i * g (k - i)| ≤ F * |g (k - i)| := by
      rw [abs_mul]
      exact mul_le_mul_of_nonneg_right (hf i) (abs_nonneg _)
    split_ifs
    · exact hmul
    · rw [abs_neg]
      exact hmul
  calc |negacyclicMul f g k|
      ≤ ∑ i, |if i ≤ k then f i * g (k - i) else -(f i * g (k - i))| := abs_sum_le_sum_abs _ _
    _ ≤ ∑ i, F * |g (k - i)| := sum_le_sum (fun i _ => hterm i)
    _ = F * ∑ i, |g i| := by
      rw [← mul_sum]
      exact congrArg (F * ·) ((Equiv.subLeft k).sum_comp fun i => |g i|)

end NegacyclicProduct
