import ThresholdKms.SyndromeCompute

/-!
# Randomness extraction

The contributions of all parties are multiplied by a Vandermonde matrix with as many columns as there
are honest parties. The rows of any that many parties form an invertible matrix, so whatever the
other parties contribute, the outputs are in bijection with the honest contributions.
-/

namespace ThresholdKms

open GaloisRing ExceptionalInterpolation

structure VdmMatrix (R : Type) where
  height : ℕ
  width : ℕ
  rows : List (List R)

namespace VdmMatrix

def fromExceptionalSequence {w : ℕ} {e : ExtensionDegree} (height width : ℕ) :
    Outcome (VdmMatrix (GaloisRing w e)) :=
  if width = 0 then
    .ok ⟨height, width, []⟩
  else do
    let rows ← (List.range height).mapM (fun idx => do
      let point ← getFromExceptionalSequence (idx + 1)
      return computePowers point (width - 1))
    return ⟨height, width, rows⟩

variable {R : Type} [CommRing R]

def mulVector (m : VdmMatrix R) (lhs : List R) : Outcome (List R) :=
  if lhs.length ≠ m.height then
    Outcome.err (s!"Cannot multiply vector of length {lhs.length} by VDM matrix of shape " ++
      s!"({m.height}, {m.width})")
  else if m.width = 0 then
    .ok []
  else
    .ok ((lhs.zip m.rows).foldl (fun res p => List.zipWith (fun r c => r + p.1 * c) res p.2)
      (List.replicate m.width 0))

/-- The outputs are a bijective function of the contributions of `honest`, for these contributions
of the others. -/
def Extracts {n : ℕ} (m : VdmMatrix R) (honest : Finset (Fin n)) (others : Fin n → R) : Prop :=
  ∃ f : (honest → R) → Fin m.width → R, Function.Bijective f ∧ ∀ x, m.mulVector
    (List.ofFn (fun i => if h : i ∈ honest then x ⟨i, h⟩ else others i)) = .ok (List.ofFn (f x))

theorem mulVector_ofFn {n k : ℕ} (hk : k ≠ 0) (row : Fin n → Fin k → R) (x : Fin n → R) :
    (⟨n, k, List.ofFn (fun i => List.ofFn (row i))⟩ : VdmMatrix R).mulVector (List.ofFn x) =
      .ok (List.ofFn (∑ i, x i • row i)) := by
  have hfold : ∀ (l : List (Fin n)) (acc : Fin k → R),
      (l.map (fun i => (x i, List.ofFn (row i)))).foldl
        (fun res p => List.zipWith (fun r c => r + p.1 * c) res p.2) (List.ofFn acc) =
      List.ofFn (acc + (l.map (fun i => x i • row i)).sum) := by
    intro l
    induction l with
    | nil => intro acc; simp
    | cons i l ih =>
      intro acc
      rw [List.map_cons, List.foldl_cons, zipWith_ofFn]
      refine (ih (acc + x i • row i)).trans ?_
      rw [List.map_cons, List.sum_cons, add_assoc]
  have hall := hfold (List.finRange n) 0
  rw [← List.ofFn_eq_map, zero_add] at hall
  rw [mulVector, if_neg (by simp), if_neg hk, List.zip, zipWith_ofFn, ← List.ofFn_const]
  exact congrArg Except.ok hall

theorem fromExceptionalSequence_eq {w : ℕ} {e : ExtensionDegree} {n k : ℕ} (hn : n < 2 ^ e.deg)
    (hk : k ≠ 0) : fromExceptionalSequence n k = .ok ⟨n, k, List.ofFn (fun i : Fin n =>
      List.ofFn (fun j : Fin k => (partyPoint i : GaloisRing w e) ^ (j : ℕ)))⟩ := by
  have hrows : (List.range n).mapM (fun idx => do
      let point ← getFromExceptionalSequence (idx + 1)
      return computePowers point (k - 1)) = .ok (List.ofFn (fun i : Fin n =>
        List.ofFn (fun j : Fin k => (partyPoint i : GaloisRing w e) ^ (j : ℕ)))) := by
    rw [← List.map_coe_finRange_eq_range, List.mapM_map, List.ofFn_eq_map]
    apply Outcome.mapM_eq_ok
    intro i _
    rw [Function.comp_apply, getFromExceptionalSequence_of_lt (by omega), Outcome.ok_bind,
      computePowers_eq, Nat.sub_add_cancel (Nat.pos_of_ne_zero hk), ← List.map_coe_finRange_eq_range,
      List.map_map, ← List.ofFn_eq_map]
    rfl
  rw [fromExceptionalSequence, if_neg hk, hrows]
  rfl

/-- A square matrix of powers of exceptional points maps row vectors bijectively. -/
theorem vecMul_vandermonde_bijective {k : ℕ} {α : Fin k → R} (h : Exceptional α) :
    Function.Bijective (fun x : Fin k → R => Matrix.vecMul x (Matrix.vandermonde α)) := by
  have hdet : IsUnit (Matrix.vandermonde α).det := by
    rw [Matrix.det_vandermonde, IsUnit.prod_univ_iff]
    intro i
    rw [IsUnit.prod_iff]
    exact fun j hj => h j i (Finset.mem_Ioi.mp hj).ne'
  refine Function.bijective_iff_has_inverse.mpr
    ⟨fun y => Matrix.vecMul y (Matrix.vandermonde α)⁻¹, fun x => ?_, fun y => ?_⟩
  · simp only [Matrix.vecMul_vecMul, Matrix.mul_nonsing_inv _ hdet, Matrix.vecMul_one]
  · simp only [Matrix.vecMul_vecMul, Matrix.nonsing_inv_mul _ hdet, Matrix.vecMul_one]

/-- Any set of `n - t` parties determines the outputs bijectively. -/
theorem extracts (F : Type) {e : ExtensionDegree} [Field F] [G2p e F] (z : BaseRing) {n t : ℕ}
    (ht : t < n) (hn : n < 2 ^ e.deg) :
    ∃ m : VdmMatrix (GaloisRing z.bits e), fromExceptionalSequence n (n - t) = .ok m ∧
      m.width = n - t ∧ ∀ honest : Finset (Fin n), honest.card = n - t → ∀ others,
        m.Extracts honest others := by
  have hk : n - t ≠ 0 := by omega
  refine ⟨_, fromExceptionalSequence_eq hn hk, rfl, fun honest hcard others => ?_⟩
  let σ : honest ≃ Fin (n - t) := Finset.equivFinOfCardEq hcard
  have hpoints : Exceptional (fun j => (partyPoint (σ.symm j : Fin n) : GaloisRing z.bits e)) :=
    fun i j hij => exceptional_partyPoint F z.bits_pos hn _ _
      (fun heq => hij (σ.symm.injective (Subtype.ext heq)))
  let outer : Fin (n - t) → GaloisRing z.bits e := ∑ i ∈ Finset.univ.filter (· ∉ honest),
    others i • (fun j : Fin (n - t) => partyPoint i ^ (j : ℕ))
  refine ⟨fun x => Matrix.vecMul (x ∘ σ.symm) (Matrix.vandermonde (fun j =>
    partyPoint (σ.symm j : Fin n))) + outer, ?_, fun x => ?_⟩
  · exact (Equiv.addRight outer).bijective.comp ((vecMul_vandermonde_bijective hpoints).comp
      (Equiv.arrowCongr σ (Equiv.refl _)).bijective)
  · rw [mulVector_ofFn hk]
    refine congrArg (fun v => Except.ok (List.ofFn v)) ?_
    rw [← Finset.sum_filter_add_sum_filter_not Finset.univ (· ∈ honest)]
    congr 1
    · rw [Finset.filter_mem_eq_inter, Finset.univ_inter, ← Finset.sum_coe_sort honest,
        ← Equiv.sum_comp σ.symm]
      funext j
      rw [Finset.sum_apply, Matrix.vecMul]
      apply Finset.sum_congr rfl
      intro a _
      rw [dif_pos (σ.symm a).2]
      rfl
    · apply Finset.sum_congr rfl
      intro i hi
      rw [dif_neg (Finset.mem_filter.mp hi).2]

theorem extracts_four_parties :
    ∃ m : VdmMatrix (GaloisRing BaseRing.z64.bits .three), fromExceptionalSequence 4 (4 - 1) = .ok m ∧
      m.width = 4 - 1 ∧ ∀ honest : Finset (Fin 4), honest.card = 4 - 1 → ∀ others,
        m.Extracts honest others :=
  extracts GF8 .z64 (by decide) (by decide)

end VdmMatrix

end ThresholdKms
