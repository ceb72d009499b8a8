import ThresholdKms.CoefficientList
import ThresholdKms.Outcome

/-!
# Dense polynomials

`Poly` is the coefficient vector of `threshold-algebra`. A vector may carry trailing zeros and the
empty vector is zero, so equality of polynomials in the source is equality of the images under
`toPoly`. The product indexes a buffer of length `len + len - 1` and panics on two empty operands.
-/

open Polynomial CoefficientList

namespace ThresholdKms

structure Poly (F : Type) where
  coefs : List F
  deriving DecidableEq, Repr

namespace Poly

variable {R : Type} [CommRing R]

noncomputable def toPoly (p : Poly R) : R[X] := ofList p.coefs

def coef (p : Poly R) (idx : ℕ) : R := p.coefs.getD idx 0

def setCoef (p : Poly R) (idx : ℕ) (value : R) : Poly R :=
  if idx < p.coefs.length then
    ⟨p.coefs.set idx value⟩
  else
    ⟨(p.coefs ++ List.replicate (idx + 1 - p.coefs.length) 0).set idx value⟩

/-- An update through `get_mut`, which first extends the coefficients with zeros. -/
def modifyCoef (p : Poly R) (idx : ℕ) (f : R → R) : Poly R :=
  if idx < p.coefs.length then
    ⟨p.coefs.modify idx f⟩
  else
    ⟨(p.setCoef idx 0).coefs.modify idx f⟩

def zero : Poly R := ⟨[]⟩

def one : Poly R := ⟨[1]⟩

def eval (p : Poly R) (point : R) : R :=
  p.coefs.reverse.foldl (fun res coef => res * point + coef) 0

variable (p : Poly R)

theorem coeff_toPoly (k : ℕ) : p.toPoly.coeff k = p.coef k := coeff_ofList _ _

@[simp] theorem toPoly_zero : (zero : Poly R).toPoly = 0 := rfl

@[simp] theorem toPoly_one : (one : Poly R).toPoly = 1 := by simp [toPoly, one]

theorem toPoly_linear (x : R) : (⟨[-x, 1]⟩ : Poly R).toPoly = X - C x := by
  simp only [toPoly, ofList_cons, ofList_nil, C_neg, C_1]
  ring

theorem length_setCoef_length (value : R) :
    (p.setCoef p.coefs.length value).coefs.length = p.coefs.length + 1 := by
  unfold setCoef
  rw [if_neg (lt_irrefl _), List.length_set, List.length_append, List.length_replicate]
  omega

theorem toPoly_setCoef_of_zero {p : Poly R} {idx : ℕ} (h : p.coef idx = 0) (value : R) :
    (p.setCoef idx value).toPoly = p.toPoly + C value * X ^ idx := by
  unfold setCoef
  split_ifs with hlt
  · exact ofList_set_of_zero hlt h
  · have hlen : idx < (p.coefs ++ List.replicate (idx + 1 - p.coefs.length) 0).length := by
      rw [List.length_append, List.length_replicate]
      omega
    have hz : (p.coefs ++ List.replicate (idx + 1 - p.coefs.length) 0).getD idx 0 = 0 := by
      rw [List.getD_append_right _ _ _ _ (by omega)]
      by_cases hi : idx - p.coefs.length < idx + 1 - p.coefs.length <;>
        simp [List.getD_eq_getElem?_getD, hi]
    rw [toPoly, ofList_set_of_zero hlen hz, ofList_append, ofList_replicate_zero, mul_zero,
      add_zero]
    rfl

theorem toPoly_modifyCoef_add (idx : ℕ) (c : R) :
    (p.modifyCoef idx (· + c)).toPoly = p.toPoly + C c * X ^ idx := by
  unfold modifyCoef
  split_ifs with h
  · exact ofList_modify_add _ _ _ h
  · have hset : (p.setCoef idx 0).toPoly = p.toPoly ∧ idx < (p.setCoef idx 0).coefs.length := by
      have hcoef : p.coef idx = 0 := by
        rw [coef, List.getD_eq_default _ _ (by omega)]
      refine ⟨by rw [toPoly_setCoef_of_zero hcoef, C_0, zero_mul, add_zero], ?_⟩
      rw [setCoef, if_neg h, List.length_set, List.length_append, List.length_replicate]
      omega
    rw [← hset.1]
    exact ofList_modify_add _ _ _ hset.2

theorem coefs_ne_nil {p : Poly R} (h : p.toPoly ≠ 0) : p.coefs ≠ [] := by
  intro hnil
  exact h (by simp [toPoly, hnil])

theorem eval_eq (x : R) : p.eval x = p.toPoly.eval x := by
  rw [eval, List.foldl_reverse, toPoly, eval_ofList]

variable [DecidableEq R]

def compress (p : Poly R) : Poly R := ⟨p.coefs.rdropWhile (fun c => decide (c = 0))⟩

def fromCoefs (coefs : List R) : Poly R := compress ⟨coefs⟩

def deg (p : Poly R) : ℕ :=
  match p.coefs.zipIdx.reverse.find? (fun c => decide (c.1 ≠ 0)) with
  | some c => c.2
  | none => 0

def isZero (p : Poly R) : Bool := p.coefs.all (fun c => decide (c = 0))

def highestCoefficient (p : Poly R) : R :=
  (p.coefs.reverse.find? (fun c => decide (c ≠ 0))).getD 0

def formalDerivative (p : Poly R) : Poly R :=
  if 0 < p.deg then
    ⟨((p.coefs.drop 1).foldl (fun s c => (s.1 ++ [c * s.2], s.2 + 1)) (([] : List R), (1 : R))).1⟩
  else
    ⟨[0]⟩

variable (a b : Poly R)

def add : Poly R :=
  if b.coefs.length ≤ a.coefs.length then
    fromCoefs (accumulate b.coefs.zipIdx Prod.snd Prod.fst a.coefs)
  else
    fromCoefs (accumulate a.coefs.zipIdx Prod.snd Prod.fst b.coefs)

def sub : Poly R :=
  let res := a.coefs ++ List.replicate (max a.coefs.length b.coefs.length - a.coefs.length) 0
  fromCoefs (b.coefs.zipIdx.foldl (fun r c => r.modify c.2 (· - c.1)) res)

def mul : Outcome (Poly R) := do
  let len ← Outcome.usizeSub (a.coefs.length + b.coefs.length) 1
  let extended := a.coefs.zipIdx.foldl (fun ext xi =>
    accumulate b.coefs.zipIdx (fun xj => xi.2 + xj.2) (fun xj => xi.1 * xj.1) ext)
    (List.replicate len 0)
  return fromCoefs extended

def mulScalar (p : Poly R) (x : R) : Poly R := fromCoefs (p.coefs.map (· * x))

@[simp] theorem toPoly_compress : p.compress.toPoly = p.toPoly :=
  ofList_rdropWhile_zero _

@[simp] theorem toPoly_fromCoefs (l : List R) : (fromCoefs l).toPoly = ofList l :=
  toPoly_compress ⟨l⟩

/-- The source's degree agrees with Mathlib's, which is also zero on the zero polynomial. -/
theorem deg_eq_natDegree : p.deg = p.toPoly.natDegree := by
  obtain ⟨l⟩ := p
  induction l using List.reverseRecOn with
  | nil => simp [deg, toPoly]
  | append_singleton l c ih =>
    by_cases hc : c = 0
    · subst hc
      simpa [deg, toPoly, List.zipIdx_append, ofList_concat_zero] using ih
    · simpa [deg, toPoly, List.zipIdx_append, hc] using (natDegree_ofList_concat hc).symm

omit [DecidableEq R] in
theorem foldl_derivative (l acc : List R) (m : R) :
    (l.foldl (fun s c => (s.1 ++ [c * s.2], s.2 + 1)) (acc, m)).1 =
      acc ++ l.zipIdx.map (fun c => c.1 * (m + c.2)) := by
  induction l generalizing acc m with
  | nil => simp
  | cons c l ih =>
    rw [List.foldl_cons, ih, List.zipIdx_cons', List.map_cons, List.map_map, List.append_assoc]
    congr 1
    simp only [Nat.cast_zero, add_zero, List.singleton_append, List.cons.injEq, true_and]
    apply List.map_congr_left
    intro p _
    simp only [Function.comp_apply, Prod.map_fst, Prod.map_snd, id_eq, Nat.cast_add, Nat.cast_one]
    ring

theorem toPoly_formalDerivative : p.formalDerivative.toPoly = derivative p.toPoly := by
  rw [formalDerivative]
  split_ifs with hdeg
  · rw [foldl_derivative, List.nil_append]
    ext k
    rw [coeff_derivative, coeff_toPoly, coeff_toPoly, coef, coef, List.getD_eq_getElem?_getD,
      List.getD_eq_getElem?_getD, List.getElem?_map, List.getElem?_zipIdx, List.getElem?_drop,
      add_comm 1 k]
    cases p.coefs[k + 1]? with
    | none => simp
    | some c => simp [add_comm]
  · rw [deg_eq_natDegree] at hdeg
    rw [derivative_of_natDegree_zero (by omega)]
    simp [toPoly]

theorem isZero_iff : p.isZero = true ↔ p.toPoly = 0 := by
  obtain ⟨l⟩ := p
  induction l with
  | nil => simp [isZero, toPoly]
  | cons c cs ih =>
    simp only [isZero, toPoly, List.all_cons, Bool.and_eq_true, decide_eq_true_eq] at ih ⊢
    rw [ih]
    constructor
    · rintro ⟨rfl, hcs⟩
      simp [hcs]
    · intro h
      have h0 : c = 0 := by simpa using congrArg (fun q => q.coeff 0) h
      refine ⟨h0, ?_⟩
      ext k
      simpa [h0] using congrArg (fun q => q.coeff (k + 1)) h

theorem highestCoefficient_eq : p.highestCoefficient = p.toPoly.leadingCoeff := by
  obtain ⟨l⟩ := p
  induction l using List.reverseRecOn with
  | nil => simp [highestCoefficient, toPoly]
  | append_singleton l c ih =>
    by_cases hc : c = 0
    · subst hc
      simpa [highestCoefficient, toPoly, ofList_concat_zero] using ih
    · have hlead : (ofList (l ++ [c])).leadingCoeff = c := by
        rw [leadingCoeff, natDegree_ofList_concat hc, coeff_ofList]
        simp
      simpa [highestCoefficient, toPoly, hc] using hlead.symm

theorem length_compress_le {p : Poly R} {m : ℕ} (h : p.toPoly.degree < m) :
    p.compress.coefs.length ≤ m := by
  obtain ⟨l⟩ := p
  induction l using List.reverseRecOn with
  | nil => simp [compress]
  | append_singleton l c ih =>
    by_cases hc : c = 0
    · subst hc
      rw [compress, List.rdropWhile_concat_pos _ _ _ (by simp)]
      exact ih (by simpa only [toPoly, ofList_concat_zero] using h)
    · rw [compress, List.rdropWhile_concat_neg _ _ _ (by simpa using hc)]
      have hne : (ofList (l ++ [c])).coeff l.length ≠ 0 := by simpa [coeff_ofList] using hc
      have hlt := (degree_lt_iff_coeff_zero _ _).mp h l.length
      by_contra hlen
      exact hne (hlt (by simp at hlen; omega))

@[simp] theorem compress_fromCoefs (l : List R) : (fromCoefs l).compress = fromCoefs l := by
  rw [fromCoefs, compress, compress, List.rdropWhile_idempotent]

theorem length_le_of_compressed {p : Poly R} (hp : p.compress = p) {m : ℕ}
    (h : p.toPoly.degree < m) : p.coefs.length ≤ m := by
  rw [← hp]
  exact length_compress_le h

theorem toPoly_add : (add a b).toPoly = a.toPoly + b.toPoly := by
  unfold add
  split_ifs with h
  · rw [toPoly_fromCoefs, ofList_accumulate_zipIdx _ _ h]
    rfl
  · rw [toPoly_fromCoefs, ofList_accumulate_zipIdx _ _ (by omega), add_comm]
    rfl

theorem toPoly_sub : (sub a b).toPoly = a.toPoly - b.toPoly := by
  have hfold : ∀ res : List R, b.coefs.zipIdx.foldl (fun r c => r.modify c.2 (· - c.1)) res =
        accumulate b.coefs.zipIdx Prod.snd (fun c => -c.1) res := by
    intro res
    simp only [accumulate, sub_eq_add_neg]
  unfold sub
  simp only [toPoly_fromCoefs, hfold]
  rw [ofList_accumulate, ofList_append, ofList_replicate_zero]
  · have hneg : (b.coefs.zipIdx.map fun j => C (-j.1) * X ^ j.2).sum = -ofList b.coefs := by
      have h := sum_zipIdx_monomials b.coefs 0
      rw [pow_zero, one_mul] at h
      rw [← h, List.sum_neg]
      simp [Function.comp_def]
    rw [hneg, mul_zero, add_zero]
    rfl
  · rintro ⟨c, i⟩ hc
    have := (List.mem_zipIdx hc).2.1
    simp only [List.length_append, List.length_replicate] at this ⊢
    omega

theorem mul_eq_ok {a b : Poly R} (h : a.coefs ≠ [] ∨ b.coefs ≠ []) :
    ∃ c, mul a b = .ok c ∧ c.toPoly = a.toPoly * b.toPoly := by
  have hlen : 1 ≤ a.coefs.length + b.coefs.length := by
    rcases h with h | h
    · have := List.length_pos_iff.mpr h
      omega
    · have := List.length_pos_iff.mpr h
      omega
  refine ⟨_, by rw [mul, Outcome.usizeSub_of_le hlen]; rfl, ?_⟩
  rw [toPoly_fromCoefs, ofList_foldl_rows a.coefs b.coefs 0]
  · simp [toPoly]
  · right
    simp only [List.length_replicate]
    omega

theorem mul_linear_eq_ok (a : Poly R) (x : R) :
    ∃ c, mul a ⟨[-x, 1]⟩ = .ok c ∧ c.toPoly = a.toPoly * (X - C x) := by
  obtain ⟨c, hc, hpoly⟩ := mul_eq_ok (a := a) (b := ⟨[-x, 1]⟩) (Or.inr (List.cons_ne_nil _ _))
  exact ⟨c, hc, by rw [hpoly, toPoly_linear]⟩

omit [DecidableEq R] in
theorem foldlM_product {α : Type} {step : Poly R → α → Outcome (Poly R)} {f : α → R[X]}
    (hstep : ∀ g a, ∃ g', step g a = .ok g' ∧ g'.toPoly = g.toPoly * f a) (l : List α) (g : Poly R) :
    ∃ g', l.foldlM step g = .ok g' ∧ g'.toPoly = g.toPoly * (l.map f).prod := by
  induction l generalizing g with
  | nil => exact ⟨g, rfl, by simp⟩
  | cons a l ih =>
    obtain ⟨g₁, hg₁, hpoly⟩ := hstep g a
    obtain ⟨g', hrun, hprod⟩ := ih g₁
    refine ⟨g', by rw [List.foldlM_cons, hg₁, Outcome.ok_bind, hrun], ?_⟩
    rw [hprod, hpoly, List.map_cons, List.prod_cons, mul_assoc]

theorem toPoly_mulScalar (x : R) : (p.mulScalar x).toPoly = C x * p.toPoly := by
  rw [mulScalar, toPoly_fromCoefs, ofList_map_mul]
  rfl

end Poly

end ThresholdKms
