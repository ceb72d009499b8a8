import Mathlib.Algebra.Field.ZMod
import Mathlib.LinearAlgebra.Vandermonde
import ThresholdKms.CrsContribution

/-!
# What the well-formedness check accepts

The group elements are given by their exponents, and the pairing multiplies them. The second equation
is one between products of a polynomial in the first scalar and a polynomial in the second. If it
holds for all scalars then the coefficients agree, and each power follows from the one before it; the
first equation leads over the punctured index.
-/

namespace ThresholdKms

variable {F : Type} [Field F]

/-- Sums of powers that agree everywhere have the same coefficients. -/
theorem eq_of_forall_sum_pow [Fintype F] {m : ℕ} (hm : m ≤ Fintype.card F) {u v : ℕ → F}
    (h : ∀ x, ∑ i ∈ Finset.range m, x ^ i * u i = ∑ i ∈ Finset.range m, x ^ i * v i) {i : ℕ}
    (hi : i < m) : u i = v i := by
  obtain ⟨points⟩ : Nonempty (Fin m ↪ F) :=
    Function.Embedding.nonempty_of_card_le (by rwa [Fintype.card_fin])
  have hzero : (fun j : Fin m => u j - v j) = 0 := by
    apply Matrix.eq_zero_of_forall_index_sum_pow_mul_eq_zero points.injective
    intro j
    simp only [mul_sub]
    rw [Finset.sum_sub_distrib, Fin.sum_univ_eq_sum_range (fun i => points j ^ i * u i),
      Fin.sum_univ_eq_sum_range (fun i => points j ^ i * v i), h, sub_self]
  exact sub_eq_zero.mp (congrFun hzero ⟨i, hi⟩)

theorem mul_eq_of_forall_sum_pow [Fintype F] {m n : ℕ} (hm : m ≤ Fintype.card F)
    (hn : n ≤ Fintype.card F) {u u' v v' : ℕ → F}
    (h : ∀ x y, (∑ i ∈ Finset.range m, x ^ i * u i) * ∑ l ∈ Finset.range n, y ^ l * v l =
      (∑ i ∈ Finset.range m, x ^ i * u' i) * ∑ l ∈ Finset.range n, y ^ l * v' l) {i l : ℕ}
    (hi : i < m) (hl : l < n) : u i * v l = u' i * v' l := by
  have hinner : ∀ y, u i * ∑ l ∈ Finset.range n, y ^ l * v l =
      u' i * ∑ l ∈ Finset.range n, y ^ l * v' l := fun y =>
    eq_of_forall_sum_pow hm (u := fun i => u i * _) (v := fun i => u' i * _)
      (fun x => by simpa only [← mul_assoc, ← Finset.sum_mul] using h x y) hi
  exact eq_of_forall_sum_pow hn (u := fun l => u i * v l) (v := fun l => u' i * v' l)
    (fun y => by simpa only [mul_left_comm (y ^ _), ← Finset.mul_sum] using hinner y) hl

/-- The coefficients of a sum that starts with `1` and goes on with the next power of the scalar. -/
def shiftIn (g : ℕ → F) : ℕ → F
  | 0 => 1
  | i + 1 => g i

theorem sum_shiftIn (m : ℕ) (x : F) (g : ℕ → F) :
    ∑ i ∈ Finset.range (m + 1), x ^ i * shiftIn g i =
      ∑ i ∈ Finset.range m, x ^ (i + 1) * g i + 1 := by
  rw [Finset.sum_range_succ', pow_zero, one_mul]
  rfl

variable (F) in
/-- Group elements as exponents. -/
def exponents : BilinearGroup F F F F where
  gen₁ := 1
  gen₂ := 1
  pairing := LinearMap.mul F F
  gen₁_ne_zero := one_ne_zero

/-- The parameters with the given exponents. -/
def exponentParameter (round bits dim : ℕ) (a c : ℕ → F) : InternalPublicParameter F F where
  round := round
  maxNumBits := bits
  g1s := (List.range (2 * dim)).map a
  g2s := (List.range dim).map c

/-- The exponents are the powers of `tau`, except at the punctured index. -/
def PowersOf (dim : ℕ) (tau : F) (a c : ℕ → F) : Prop :=
  (∀ l < dim, c l = tau ^ (l + 1)) ∧ ∀ i < 2 * dim, i ≠ dim → a i = tau ^ (i + 1)

variable {dim : ℕ} {tau : F} {a c : ℕ → F}

theorem PowersOf.isPowers (h : PowersOf dim tau a c) (round bits : ℕ) (hpunctured : a dim = 0) :
    IsPowers (exponents F) dim tau 0 (exponentParameter round bits dim a c) where
  g1s := by
    refine List.map_congr_left fun i hi => ?_
    by_cases hdim : i = dim
    · rw [hdim, hpunctured, BilinearGroup.power, if_pos rfl]
    · rw [h.2 i (List.mem_range.mp hi) hdim, BilinearGroup.power, if_neg hdim]
      exact (mul_one _).symm
  g2s := by
    refine List.map_congr_left fun l hl => ?_
    rw [h.1 l (List.mem_range.mp hl)]
    exact (mul_one _).symm

theorem coefficients_eq [Fintype F] (hdim : 0 < dim) (hcard : 2 * dim ≤ Fintype.card F)
    (h : ∀ rho₁ rho₂, wellformedSums (exponents F) dim rho₁ rho₂ a c) {i l : ℕ} (hi : i < 2 * dim)
    (hl : l < dim) :
    (if i = dim ∨ i = dim + 1 then 0 else a i) * shiftIn c l =
      shiftIn (fun i => if i = dim - 1 ∨ i = dim then 0 else a i) i * c l := by
  refine mul_eq_of_forall_sum_pow hcard (by omega)
    (u := fun i => if i = dim ∨ i = dim + 1 then 0 else a i) (fun rho₁ rho₂ => ?_) hi hl
  have hproduct := h rho₁ rho₂
  obtain ⟨d, rfl⟩ : ∃ d, dim = d + 1 := ⟨dim - 1, by omega⟩
  rw [sum_shiftIn d, show 2 * (d + 1) = (2 * d + 1) + 1 by ring, sum_shiftIn (2 * d + 1)]
  simp only [mul_ite, mul_zero]
  exact hproduct

/-- Both equations give the powers of the first exponent. -/
theorem powersOf_of_equations [Fintype F] (hdim : 2 ≤ dim) (hcard : 2 * dim ≤ Fintype.card F)
    (hfirst : a (dim + 1) = a (dim - 1) * c 1)
    (hsums : ∀ rho₁ rho₂, wellformedSums (exponents F) dim rho₁ rho₂ a c) :
    PowersOf dim (a 0) a c := by
  have hstep : ∀ l < dim, a 0 * shiftIn c l = c l := by
    intro l hl
    have h := coefficients_eq (by omega) hcard hsums (by omega : 0 < 2 * dim) hl
    rwa [if_neg (by omega), shiftIn, one_mul] at h
  have hc : ∀ l < dim, c l = a 0 ^ (l + 1) := by
    intro l hl
    induction l with
    | zero => rw [← hstep 0 hl, shiftIn, mul_one, zero_add, pow_one]
    | succ l ih => rw [← hstep _ hl, shiftIn, ih (by omega), ← pow_succ']
  refine ⟨hc, fun i => ?_⟩
  induction i using Nat.strong_induction_on with
  | _ i ih =>
    intro hi hne
    cases i with
    | zero => rw [zero_add, pow_one]
    | succ i =>
      by_cases hnext : i = dim
      · rw [hnext, hfirst, hc 1 (by omega), ih (dim - 1) (by omega) (by omega) (by omega), ← pow_add]
        congr 1
        omega
      · have h := coefficients_eq (by omega) hcard hsums hi (by omega : 0 < dim)
        rw [if_neg (by omega), shiftIn, shiftIn, mul_one, if_neg (by omega), hc 0 (by omega),
          ih i (by omega) (by omega) hnext, zero_add, pow_one] at h
        rw [h, ← pow_succ]

variable [DecidableEq F]

theorem equations_of_verifyWellformedness (hdim : 2 ≤ dim) {round bits : ℕ}
    {hash : CeremonyHash F F F}
    (h : verifyWellformedness (exponents F) hash (exponentParameter round bits dim a c) = .ok ()) :
    a (dim + 1) = a (dim - 1) * c 1 ∧
      wellformedSums (exponents F) dim (hash.scalars (exponentParameter round bits dim a c)).1
        (hash.scalars (exponentParameter round bits dim a c)).2 a c := by
  have hg : ∀ i < 2 * dim, indexVec (exponentParameter round bits dim a c).g1s i = .ok (a i) := by
    intro i hi
    simp [indexVec, exponentParameter, hi]
  have hsecond : indexVec (exponentParameter round bits dim a c).g2s 1 = .ok (c 1) := by
    simp [indexVec, exponentParameter, (by omega : 1 < dim)]
  have hwitness : (exponentParameter round bits dim a c).witnessDim = dim := by
    simp [InternalPublicParameter.witnessDim, exponentParameter]
  simp only [verifyWellformedness, hwitness, hg _ (by omega : dim + 1 < 2 * dim),
    hg _ (by omega : dim - 1 < 2 * dim), hsecond, Outcome.ok_bind] at h
  split_ifs at h with hpairing hsums
  · cases h
  · refine ⟨(mul_one _).symm.trans (not_not.mp hpairing), (wellformedSums_congr ?_ ?_).mp hsums⟩
    · intro i hi
      simp [exponentParameter, hi]
    · intro l hl
      simp [exponentParameter, hl]
  · cases h

/-- The check passes for all scalars exactly for the powers of the first exponent, and an update of
powers gives the powers of the product. -/
theorem verifyWellformedness_exact [Fintype F] (hdim : 2 ≤ dim) (hcard : 2 * dim ≤ Fintype.card F)
    (round bits : ℕ) (a c : ℕ → F) (hpunctured : a dim = 0) (pok : ℕ → F → F → F → F) :
    ((∀ rho₁ rho₂, verifyWellformedness (exponents F) ⟨pok, fun _ => (rho₁, rho₂)⟩
        (exponentParameter round bits dim a c) = .ok ()) ↔ PowersOf dim (a 0) a c) ∧
      ∀ tau, PowersOf dim tau a c → ∀ (hash : CeremonyHash F F F) (tau' r : F) (round' : ℕ),
        ∃ proof, makePartialProofDeterministic hash (exponentParameter round bits dim a c) tau'
            round' r = .ok proof ∧
          IsPowers (exponents F) dim (tau * tau') 0 proof.newPp := by
  refine ⟨⟨fun h => ?_, fun h rho₁ rho₂ => ?_⟩, fun tau h hash tau' r round' => ?_⟩
  · exact powersOf_of_equations hdim hcard (equations_of_verifyWellformedness hdim (h 0 0)).1
      fun rho₁ rho₂ => (equations_of_verifyWellformedness hdim (h rho₁ rho₂)).2
  · exact verifyWellformedness_isPowers (h.isPowers round bits hpunctured) hdim
  · have hpowers := h.isPowers round bits hpunctured
    obtain ⟨hPok, -, hproof⟩ :=
      makePartialProofDeterministic_isPowers hash hpowers (by omega) round' tau' r
    exact ⟨_, hproof, mul_comm tau' tau ▸ hpowers.raise tau' round'⟩

theorem verifyWellformedness_exact_five : ∃ _ : Fact (Nat.Prime 5), ∀ rho₁ rho₂ : ZMod 5,
    verifyWellformedness (exponents (ZMod 5)) ⟨fun _ _ _ _ => 0, fun _ => (rho₁, rho₂)⟩
      (exponentParameter 1 1 2 (fun i => if i = 2 then 0 else 3 ^ (i + 1)) fun l => 3 ^ (l + 1)) =
        .ok () := by
  have hprime : Fact (Nat.Prime 5) := ⟨by norm_num⟩
  refine ⟨hprime, (verifyWellformedness_exact le_rfl (by decide) 1 1 _ _ rfl _).1.mpr ⟨?_, ?_⟩⟩
  · exact fun l _ => rfl
  · exact fun i _ hi => if_neg hi

end ThresholdKms
