import Mathlib.LinearAlgebra.Lagrange
import ThresholdKms.PolyDivision

/-!
# Lagrange interpolation

The basis polynomials are computed point by point and may be cached in a store that is filled once
at start-up. `LagrangeStore` carries the only fact the callers rely on: a cached basis is the basis
that would be computed.
-/

open Polynomial CoefficientList

namespace ThresholdKms

open Outcome

variable {F : Type} [Field F] [DecidableEq F]

/-- One iteration of the loop over the other points: the numerator and the denominator. -/
def lagrangeStep (i : ℕ) (xi : F) (s : Poly F × F) (xj : F × ℕ) : Outcome (Poly F × F) :=
  if i ≠ xj.2 then do
    let numerator ← Poly.mul s.1 ⟨[-xj.1, 1]⟩
    return (numerator, s.2 * (xi - xj.1))
  else
    return s

def lagrangePolynomial (points : List F) (xi : F × ℕ) : Outcome (Poly F) := do
  let s ← points.zipIdx.foldlM (lagrangeStep xi.2 xi.1) (⟨[1, 0]⟩, 1)
  Poly.divScalar s.1 s.2

def lagrangePolynomials (points : List F) : Outcome (List (Poly F)) :=
  points.zipIdx.mapM (lagrangePolynomial points)

structure LagrangeStore (F : Type) [Field F] [DecidableEq F] where
  cached : List F → Option (List (Poly F))
  cached_eq : ∀ points polys, cached points = some polys → lagrangePolynomials points = .ok polys

variable (store : LagrangeStore F)

namespace LagrangeStore

def empty : LagrangeStore F where
  cached _ := none
  cached_eq _ _ h := by cases h

end LagrangeStore

def lagrangeInterpolationWithPolys (polys : List (Poly F)) (values : List F) : Outcome (Poly F) :=
  if polys.length ≠ values.length then
    Outcome.err "Lagrange interpolation failure: mismatch between number of points and values"
  else
    .ok (Poly.fromCoefs ((polys.zip values).foldl (fun coefs p => zipAddScaled coefs p.1.coefs p.2)
      (List.replicate polys.length 0)))

def lagrangeInterpolation (points values : List F) :
    Outcome (Poly F) := do
  match store.cached points with
  | some polys => lagrangeInterpolationWithPolys polys values
  | none =>
    let polys ← lagrangePolynomials points
    lagrangeInterpolationWithPolys polys values

variable {points values : List F} {polys : List (Poly F)}

theorem lagrangeInterpolation_eq_of_polys
    (h : lagrangePolynomials points = .ok polys) :
    lagrangeInterpolation store points values = lagrangeInterpolationWithPolys polys values := by
  unfold lagrangeInterpolation
  cases hc : store.cached points with
  | some cached =>
    have := store.cached_eq points cached hc
    rw [h] at this
    cases this
    rfl
  | none => rw [h, ok_bind]

theorem foldlM_lagrangeStep (i : ℕ) (xi : F) (l : List (F × ℕ)) (num : Poly F) (den : F) :
    ∃ num' : Poly F, l.foldlM (lagrangeStep i xi) (num, den) =
        .ok (num', den * (l.map (fun p => if i ≠ p.2 then xi - p.1 else 1)).prod) ∧
      num'.toPoly = num.toPoly * (l.map (fun p => if i ≠ p.2 then X - C p.1 else 1)).prod := by
  induction l generalizing num den with
  | nil => exact ⟨num, by simp, by simp⟩
  | cons p l ih =>
    by_cases hp : i ≠ p.2
    · obtain ⟨num₁, hmul, hpoly⟩ := Poly.mul_linear_eq_ok num p.1
      obtain ⟨num', hfold, hfinal⟩ := ih num₁ (den * (xi - p.1))
      refine ⟨num', ?_, ?_⟩
      · simp only [List.foldlM_cons, lagrangeStep, if_pos hp, hmul, ok_bind,
          pure_eq_ok, List.map_cons, List.prod_cons]
        rw [hfold, mul_assoc]
      · simp only [List.map_cons, List.prod_cons, if_pos hp]
        rw [hfinal, hpoly, mul_assoc]
    · obtain ⟨num', hfold, hfinal⟩ := ih num den
      refine ⟨num', ?_, ?_⟩
      · simp only [List.foldlM_cons, lagrangeStep, if_neg hp, ok_bind,
          pure_eq_ok, List.map_cons, List.prod_cons, one_mul]
        exact hfold
      · simp only [List.map_cons, List.prod_cons, if_neg hp, one_mul]
        exact hfinal

theorem map_zipIdx_eq_ofFn {α β : Type*} (l : List α) (g : α × ℕ → β) :
    l.zipIdx.map g = List.ofFn (fun j : Fin l.length => g (l.get j, j)) := by
  apply List.ext_getElem
  · simp
  · intro k h₁ h₂
    simp

theorem prod_skip_eq_erase {ι M : Type*} [Fintype ι] [DecidableEq ι] [CommMonoid M] (i : ι)
    (f : ι → M) : (∏ j, if i ≠ j then f j else 1) = ∏ j ∈ Finset.univ.erase i, f j := by
  rw [← Finset.prod_filter]
  congr 1
  ext j
  simp [eq_comm]

theorem lagrangePolynomial_eq_ok {points : List F} (hpoints : points.Nodup)
    (i : Fin points.length) :
    ∃ p : Poly F, lagrangePolynomial points (points.get i, i) = .ok p ∧
      p.toPoly = Lagrange.basis Finset.univ points.get i ∧ p.coefs.length ≤ points.length := by
  have hinj : Function.Injective points.get := List.nodup_iff_injective_get.mp hpoints
  have hone : (⟨[1, 0]⟩ : Poly F).toPoly = 1 := by simp [Poly.toPoly]
  obtain ⟨num, hfold, hnum⟩ :=
    foldlM_lagrangeStep i (points.get i) points.zipIdx ⟨[1, 0]⟩ 1
  rw [map_zipIdx_eq_ofFn, List.prod_ofFn, one_mul] at hfold
  rw [map_zipIdx_eq_ofFn, List.prod_ofFn, hone, one_mul] at hnum
  simp only [ne_eq, Fin.val_inj] at hfold hnum
  simp only [← ne_eq, prod_skip_eq_erase] at hfold hnum
  set den := ∏ j ∈ Finset.univ.erase i, (points.get i - points.get j) with hden
  have hden0 : den ≠ 0 := by
    rw [Finset.prod_ne_zero_iff]
    intro j hj
    exact sub_ne_zero.mpr (fun h => (Finset.ne_of_mem_erase hj) (hinj h).symm)
  have hbasis : (num.mulScalar den⁻¹).toPoly = Lagrange.basis Finset.univ points.get i := by
    rw [Poly.toPoly_mulScalar, hnum, ← Finset.prod_inv_distrib, map_prod, ← Finset.prod_mul_distrib]
    rfl
  refine ⟨num.mulScalar den⁻¹, ?_, hbasis, ?_⟩
  · simp only [lagrangePolynomial]
    rw [hfold, ok_bind, Poly.divScalar_of_ne _ hden0]
  · apply Poly.length_compress_le
    have hraw : (⟨num.coefs.map (· * den⁻¹)⟩ : Poly F).toPoly =
        Lagrange.basis Finset.univ points.get i := by
      rw [← hbasis]
      exact (Poly.toPoly_compress _).symm
    rw [hraw, Lagrange.degree_basis hinj.injOn (Finset.mem_univ i), Finset.card_univ,
      Fintype.card_fin]
    exact_mod_cast Nat.sub_lt (i.pos) one_pos

theorem lagrangePolynomials_eq_ok {points : List F} (hpoints : points.Nodup) :
    ∃ polys : List (Poly F), lagrangePolynomials points = .ok polys ∧
      ∃ hlen : polys.length = points.length, ∀ i : Fin points.length,
        (polys.get (i.cast hlen.symm)).toPoly = Lagrange.basis Finset.univ points.get i ∧
        (polys.get (i.cast hlen.symm)).coefs.length ≤ points.length := by
  choose p hok hbasis hlength using lagrangePolynomial_eq_ok hpoints
  let g : F × ℕ → Poly F := fun xi => if h : xi.2 < points.length then p ⟨xi.2, h⟩ else Poly.zero
  have hmap : lagrangePolynomials points = .ok (points.zipIdx.map g) := by
    apply mapM_eq_ok
    rintro ⟨x, i⟩ hx
    have hi : i < points.length := by simpa using (List.mem_zipIdx hx).2.1
    have hxi : x = points.get ⟨i, hi⟩ := by simpa using (List.mem_zipIdx hx).2.2
    simp only [g, hi, dif_pos, hxi]
    exact hok ⟨i, hi⟩
  refine ⟨points.zipIdx.map g, hmap, by simp, ?_⟩
  intro i
  have hget : (points.zipIdx.map g).get (i.cast (by simp)) = p i := by simp [g]
  rw [hget]
  exact ⟨hbasis i, hlength i⟩

omit [DecidableEq F] in
theorem ofList_foldl_zipAddScaled (ps : List (Poly F × F)) (acc : List F)
    (h : ∀ p ∈ ps, p.1.coefs.length ≤ acc.length) :
    ofList (ps.foldl (fun coefs p => zipAddScaled coefs p.1.coefs p.2) acc) =
      ofList acc + (ps.map (fun p => C p.2 * p.1.toPoly)).sum := by
  induction ps generalizing acc with
  | nil => simp
  | cons p ps ih =>
    simp only [List.foldl_cons, List.map_cons, List.sum_cons]
    rw [ih _ (fun q hq => by simpa using h q (by simp [hq])),
      ofList_zipAddScaled _ _ _ (h p (by simp)), add_assoc]
    rfl

theorem lagrangeInterpolationWithPolys_eq_ok
    (hlen : values.length = points.length)
    (hpolys : lagrangePolynomials points = .ok polys) (hpoints : points.Nodup) :
    ∃ r : Poly F, lagrangeInterpolationWithPolys polys values = .ok r ∧
      r.toPoly = Lagrange.interpolate Finset.univ points.get
        (fun i => values.get (i.cast hlen.symm)) := by
  obtain ⟨polys', hok, hplen, hspec⟩ := lagrangePolynomials_eq_ok hpoints
  rw [hpolys] at hok
  cases hok
  have hne : ¬ polys.length ≠ values.length := by omega
  refine ⟨_, if_neg hne, ?_⟩
  have hzip : (polys.zip values).map (fun p => C p.2 * p.1.toPoly) =
      List.ofFn (fun i : Fin points.length => C (values.get (i.cast hlen.symm)) *
        Lagrange.basis Finset.univ points.get i) := by
    apply List.ext_getElem
    · simp [hplen, hlen]
    · intro k h₁ h₂
      have hk : k < points.length := by simpa using h₂
      have := (hspec ⟨k, hk⟩).1
      simp only [List.get_eq_getElem, Fin.val_cast] at this
      simp [this]
  rw [Poly.toPoly_fromCoefs, ofList_foldl_zipAddScaled, hzip, List.sum_ofFn,
    Lagrange.interpolate_apply, ofList_replicate_zero, zero_add]
  rintro ⟨p, v⟩ hp
  obtain ⟨k, hk, hget⟩ := List.getElem_of_mem (List.of_mem_zip hp).1
  have := (hspec ⟨k, by omega⟩).2
  simp only [List.get_eq_getElem, Fin.val_cast, hget] at this
  simpa [hplen] using this

end ThresholdKms
