import Mathlib.Tactic

/-!
# Stages of the extended Euclidean algorithm

A stage is a pair of consecutive remainders of `a` and `b` with their cofactors of `b`. The degree
identity `deg t₁ + deg r₀ = deg a` and the unimodularity of the cofactors determine every solution
of a congruence `W * b ≡ N (mod a)` of small degree: it is a multiple of the current stage. This
is the algebra shared by remainder-sequence decoders.
-/

open Polynomial

namespace EuclideanStage

variable {K : Type*} [Field K] {a b r₀ r₁ t₀ t₁ : K[X]}

structure Stage (a b r₀ r₁ t₀ t₁ : K[X]) : Prop where
  bezout : ∃ s₀ s₁, r₀ = s₀ * a + t₀ * b ∧ r₁ = s₁ * a + t₁ * b ∧ IsUnit (s₀ * t₁ - s₁ * t₀)
  degree_rem : r₁.degree < r₀.degree
  degree_cof : t₀.degree < t₁.degree
  natDegree_add : t₁.natDegree + r₀.natDegree = a.natDegree

theorem Stage.start (h : b.degree < a.degree) : Stage a b a b 0 1 where
  bezout := ⟨1, 0, by ring, by ring, by simp⟩
  degree_rem := h
  degree_cof := by simp
  natDegree_add := by simp

theorem Stage.cof_ne_zero (h : Stage a b r₀ r₁ t₀ t₁) : t₁ ≠ 0 := by
  rintro rfl
  exact not_lt_bot (degree_zero (R := K) ▸ h.degree_cof)

theorem Stage.modulus_dvd (h : Stage a b r₀ r₁ t₀ t₁) : a ∣ t₁ * b - r₁ := by
  obtain ⟨s₀, s₁, -, h₁, -⟩ := h.bezout
  exact ⟨-s₁, by rw [h₁]; ring⟩

theorem natDegree_quotient {q r₂ : K[X]} (hdiv : r₀ = q * r₁ + r₂) (hlt : r₁.degree < r₀.degree)
    (hdeg : r₂.degree < r₁.degree) :
    q ≠ 0 ∧ q.natDegree + r₁.natDegree = r₀.natDegree ∧ 1 ≤ q.natDegree := by
  have hr₁ : r₁ ≠ 0 := by
    rintro rfl
    exact not_lt_bot (degree_zero (R := K) ▸ hdeg)
  have hq : q ≠ 0 := by
    rintro rfl
    rw [zero_mul, zero_add] at hdiv
    exact absurd (hdiv ▸ hlt) (not_lt.mpr hdeg.le)
  have hprod : r₂.degree < (q * r₁).degree := by
    refine hdeg.trans_le ?_
    rw [degree_mul]
    exact le_add_of_nonneg_left (zero_le_degree_iff.mpr hq)
  have hr₀ : r₀.degree = (q * r₁).degree := by
    rw [hdiv]
    exact degree_add_eq_left_of_degree_lt hprod
  have hnat : r₀.natDegree = q.natDegree + r₁.natDegree := by
    rw [natDegree_eq_of_degree_eq hr₀, natDegree_mul hq hr₁]
  have hlt' : r₁.natDegree < r₀.natDegree := natDegree_lt_natDegree hr₁ hlt
  exact ⟨hq, hnat.symm, by omega⟩

theorem Stage.step (h : Stage a b r₀ r₁ t₀ t₁) {q r₂ : K[X]} (hdiv : r₀ = q * r₁ + r₂)
    (hdeg : r₂.degree < r₁.degree) : Stage a b r₁ r₂ t₁ (t₀ - q * t₁) := by
  obtain ⟨hq, hnat, hpos⟩ := natDegree_quotient hdiv h.degree_rem hdeg
  have hqt : t₁.degree < (q * t₁).degree := by
    have hmul : (q * t₁).natDegree = q.natDegree + t₁.natDegree := natDegree_mul hq h.cof_ne_zero
    exact degree_lt_degree (by omega)
  have hcof : (t₀ - q * t₁).degree = (q * t₁).degree :=
    degree_sub_eq_right_of_degree_lt (h.degree_cof.trans hqt)
  refine ⟨?_, hdeg, hcof ▸ hqt, ?_⟩
  · obtain ⟨s₀, s₁, h₀, h₁, hunit⟩ := h.bezout
    refine ⟨s₁, s₀ - q * s₁, h₁, ?_, ?_⟩
    · calc r₂ = r₀ - q * r₁ := by rw [hdiv]; ring
        _ = (s₀ - q * s₁) * a + (t₀ - q * t₁) * b := by rw [h₀, h₁]; ring
    · have hneg : s₁ * (t₀ - q * t₁) - (s₀ - q * s₁) * t₁ = -(s₀ * t₁ - s₁ * t₀) := by ring
      rw [hneg]
      exact hunit.neg
  · rw [natDegree_eq_of_degree_eq hcof, natDegree_mul hq h.cof_ne_zero, ← h.natDegree_add, ← hnat]
    ring

/-- A small solution of `W * b ≡ N (mod a)` is proportional to the stage. -/
theorem Stage.key_equation (h : Stage a b r₀ r₁ t₀ t₁) {W N : K[X]} (hcong : a ∣ W * b - N)
    (hW : (W * r₁).degree < a.degree) (hN : (t₁ * N).degree < a.degree) :
    W * r₁ = t₁ * N ∧ t₁ ∣ W := by
  obtain ⟨s₀, s₁, h₀, h₁, hunit⟩ := h.bezout
  obtain ⟨k, hk⟩ := hcong
  have hdiff : W * r₁ - t₁ * N = a * (W * s₁ + t₁ * k) := by
    have hN' : N = W * b - a * k := by rw [← hk]; ring
    rw [h₁, hN']
    ring
  have hzero : W * s₁ + t₁ * k = 0 := by
    by_contra hne
    have hge : a.degree ≤ (W * r₁ - t₁ * N).degree := by
      rw [hdiff, degree_mul]
      exact le_add_of_nonneg_right (zero_le_degree_iff.mpr hne)
    exact absurd ((degree_sub_le _ _).trans_lt (max_lt hW hN)) (not_lt.mpr hge)
  rw [hzero, mul_zero] at hdiff
  refine ⟨sub_eq_zero.mp hdiff, ?_⟩
  have hcop : IsCoprime t₁ s₁ := by
    obtain ⟨u, hu⟩ := hunit.exists_right_inv
    exact ⟨s₀ * u, -(t₀ * u), by rw [← hu]; ring⟩
  exact hcop.dvd_of_dvd_mul_right ⟨-k, by linear_combination hzero⟩

theorem Stage.dvd_of_last (h : Stage a b r₀ 0 t₀ t₁) : r₀ ∣ a ∧ r₀ ∣ b := by
  obtain ⟨s₀, s₁, h₀, h₁, hunit⟩ := h.bezout
  obtain ⟨u, hu⟩ := hunit.exists_right_inv
  constructor
  · exact ⟨t₁ * u, by linear_combination (-a) * hu - u * t₁ * h₀ + u * t₀ * h₁⟩
  · exact ⟨-(s₁ * u), by linear_combination (-b) * hu + u * s₁ * h₀ - u * s₀ * h₁⟩

end EuclideanStage
