import Mathlib.Data.List.DropRight
import Mathlib.Data.List.GetD
import Mathlib.Tactic

/-!
# Polynomials stored as coefficient lists

`ofList l` is the polynomial whose coefficient of degree `k` is entry `k` of `l`. The lemmas
translate the list operations of dense polynomial arithmetic (in-place accumulation, padding with
zeros, dropping trailing zeros, Horner evaluation) into operations on `R[X]`.
-/

open Polynomial

namespace CoefficientList

variable {R : Type*} [CommRing R]

noncomputable def ofList : List R → R[X]
  | [] => 0
  | c :: cs => C c + X * ofList cs

@[simp] theorem ofList_nil : ofList ([] : List R) = 0 := rfl

@[simp] theorem ofList_cons (c : R) (cs : List R) : ofList (c :: cs) = C c + X * ofList cs := rfl

variable (l : List R)

theorem coeff_ofList (k : ℕ) : (ofList l).coeff k = l.getD k 0 := by
  induction l generalizing k with
  | nil => simp
  | cons c cs ih =>
    cases k with
    | zero => simp
    | succ k => simp [ih]

theorem coeff_ofList_of_le {l : List R} {k : ℕ} (h : l.length ≤ k) : (ofList l).coeff k = 0 := by
  rw [coeff_ofList, List.getD_eq_default _ _ h]

theorem degree_ofList_lt : (ofList l).degree < l.length :=
  (degree_lt_iff_coeff_zero _ _).mpr (fun _ hm => coeff_ofList_of_le hm)

theorem eval_ofList (x : R) :
    (ofList l).eval x = l.foldr (fun c res => res * x + c) 0 := by
  induction l with
  | nil => simp
  | cons c cs ih =>
    simp only [ofList_cons, eval_add, eval_C, eval_mul, eval_X, ih, List.foldr_cons]
    ring

@[simp] theorem ofList_replicate_zero (n : ℕ) : ofList (List.replicate n (0 : R)) = 0 := by
  induction n with
  | zero => rfl
  | succ n ih => simp [List.replicate_succ, ih]

theorem ofList_append (l l' : List R) :
    ofList (l ++ l') = ofList l + X ^ l.length * ofList l' := by
  induction l with
  | nil => simp
  | cons c cs ih =>
    simp only [List.cons_append, ofList_cons, ih, List.length_cons, pow_succ]
    ring

theorem ofList_concat_zero (l : List R) : ofList (l ++ [0]) = ofList l := by simp [ofList_append]

theorem ofList_map_mul (x : R) : ofList (l.map (· * x)) = C x * ofList l := by
  induction l with
  | nil => simp
  | cons c cs ih =>
    simp only [List.map_cons, ofList_cons, ih, C_mul]
    ring

theorem ofList_rdropWhile_zero [DecidableEq R] :
    ofList (l.rdropWhile (fun c => decide (c = 0))) = ofList l := by
  induction l using List.reverseRecOn with
  | nil => rfl
  | append_singleton l c ih =>
    by_cases hc : c = 0
    · rw [List.rdropWhile_concat_pos _ _ _ (by simpa using hc), ih, ofList_append, hc]
      simp
    · rw [List.rdropWhile_concat_neg _ _ _ (by simpa using hc)]

/-- A list with a nonzero last entry has one entry more than its degree. -/
theorem natDegree_ofList_concat {l : List R} {c : R} (hc : c ≠ 0) :
    (ofList (l ++ [c])).natDegree = l.length := by
  apply natDegree_eq_of_le_of_coeff_ne_zero
  · rw [natDegree_le_iff_coeff_eq_zero]
    intro m hm
    exact coeff_ofList_of_le (by simpa using hm)
  · rw [coeff_ofList]
    simpa using hc

/-- In-place accumulation into an existing entry adds a monomial. -/
theorem ofList_modify_add (i : ℕ) (c : R) (hi : i < l.length) :
    ofList (l.modify i (· + c)) = ofList l + C c * X ^ i := by
  induction l generalizing i with
  | nil => simp at hi
  | cons d ds ih =>
    cases i with
    | zero =>
      simp only [List.modify_zero_cons, ofList_cons, C_add, pow_zero]
      ring
    | succ i =>
      simp only [List.length_cons, Nat.succ_lt_succ_iff] at hi
      simp only [List.modify_succ_cons, ofList_cons, ih i hi, pow_succ]
      ring

theorem ofList_set_of_zero {l : List R} {i : ℕ} {c : R} (hi : i < l.length)
    (h0 : l.getD i 0 = 0) : ofList (l.set i c) = ofList l + C c * X ^ i := by
  have hset : l.set i c = l.modify i (· + c) := by
    apply List.ext_getElem?
    intro k
    by_cases hk : i = k
    · subst hk
      have hz : l[i] = 0 := by simpa [List.getD_eq_getElem?_getD, hi] using h0
      simp [hi, hz]
    · simp [hk]
  rw [hset, ofList_modify_add l i c hi]

variable (acc l : List R)

section Accumulate

variable {ι : Type*}

/-- The loop `for j in js { acc[pos j] += val j }`. -/
def accumulate (js : List ι) (pos : ι → ℕ) (val : ι → R) (acc : List R) : List R :=
  js.foldl (fun a j => a.modify (pos j) (· + val j)) acc

@[simp] theorem length_accumulate (js : List ι) (pos : ι → ℕ) (val : ι → R) (acc : List R) :
    (accumulate js pos val acc).length = acc.length := by
  induction js generalizing acc with
  | nil => rfl
  | cons j js ih => simpa [accumulate] using ih (acc.modify (pos j) (· + val j))

theorem ofList_accumulate (js : List ι) (pos : ι → ℕ) (val : ι → R) (acc : List R)
    (h : ∀ j ∈ js, pos j < acc.length) :
    ofList (accumulate js pos val acc) =
      ofList acc + (js.map (fun j => C (val j) * X ^ pos j)).sum := by
  induction js generalizing acc with
  | nil => simp [accumulate]
  | cons j js ih =>
    have hrest : ∀ i ∈ js, pos i < (acc.modify (pos j) (· + val j)).length := by
      intro i hi
      simpa using h i (by simp [hi])
    have hstep := ih (acc.modify (pos j) (· + val j)) hrest
    rw [ofList_modify_add _ _ _ (h j (by simp))] at hstep
    simp only [accumulate, List.foldl_cons] at hstep ⊢
    rw [hstep, List.map_cons, List.sum_cons, add_assoc]

theorem sum_zipIdx_monomials (i : ℕ) :
    ((l.zipIdx i).map (fun p => C p.1 * X ^ p.2)).sum = X ^ i * ofList l := by
  induction l generalizing i with
  | nil => simp
  | cons c cs ih =>
    simp only [List.zipIdx_cons, List.map_cons, List.sum_cons, ih, ofList_cons, pow_succ]
    ring

theorem sum_range_monomials {m : ℕ} (hm : (ofList l).degree < m) :
    ((List.range m).map (fun j => C (l.getD j 0) * X ^ j)).sum = ofList l := by
  ext k
  have hcoeff : (((List.range m).map (fun j => C (l.getD j 0) * X ^ j)).sum).coeff k =
      ∑ j ∈ Finset.range m, if k = j then l.getD j 0 else 0 := by
    rw [← List.sum_toFinset _ List.nodup_range, List.toFinset_range, finsetSum_coeff]
    simp only [coeff_C_mul_X_pow]
  rw [hcoeff, Finset.sum_ite_eq]
  split_ifs with hk
  · exact (coeff_ofList l k).symm
  · exact ((degree_lt_iff_coeff_zero _ _).mp hm k (by simpa using hk)).symm

theorem ofList_accumulate_zipIdx (h : l.length ≤ acc.length) :
    ofList (accumulate l.zipIdx Prod.snd Prod.fst acc) = ofList acc + ofList l := by
  rw [ofList_accumulate, sum_zipIdx_monomials, pow_zero, one_mul]
  rintro ⟨c, i⟩ hc
  have := (List.mem_zipIdx hc).2.1
  omega

/-- The double loop `ext[i + j] += a[i] * b[j]` computes the product. -/
theorem ofList_foldl_rows (a b : List R) (k : ℕ) (ext : List R)
    (h : b = [] ∨ k + a.length + b.length ≤ ext.length + 1) :
    ofList ((a.zipIdx k).foldl (fun ext xi =>
        accumulate b.zipIdx (fun xj => xi.2 + xj.2) (fun xj => xi.1 * xj.1) ext) ext) =
      ofList ext + X ^ k * ofList a * ofList b := by
  induction a generalizing k ext with
  | nil => simp
  | cons x xs ih =>
    have hrow : ofList (accumulate b.zipIdx (fun xj => k + xj.2) (fun xj => x * xj.1) ext) =
        ofList ext + C x * X ^ k * ofList b := by
      rw [ofList_accumulate]
      · have hmon : (b.zipIdx.map fun j => C (x * j.1) * X ^ (k + j.2)) =
            (b.zipIdx.map fun j => C x * X ^ k * (C j.1 * X ^ j.2)) := by
          apply List.map_congr_left
          intro j _
          rw [C_mul]
          ring
        rw [hmon, List.sum_map_mul_left, sum_zipIdx_monomials, pow_zero, one_mul]
      · rintro ⟨c, i⟩ hc
        have hi := (List.mem_zipIdx hc).2.1
        rcases h with rfl | h
        · simp at hi
        · simp only [List.length_cons] at h hi ⊢
          omega
    have hrest := ih (k + 1)
      (accumulate b.zipIdx (fun xj => k + xj.2) (fun xj => x * xj.1) ext) (by
        rcases h with rfl | h
        · exact Or.inl rfl
        · right
          simp only [List.length_cons, length_accumulate] at h ⊢
          omega)
    simp only [List.zipIdx_cons, List.foldl_cons]
    rw [hrest, hrow, ofList_cons]
    ring

end Accumulate

/-- Adds `x` times the entries of `l` to the entries it is zipped with; entries beyond `l` stay. -/
def zipAddScaled (x : R) : List R :=
  List.zipWith (fun a c => a + c * x) acc l ++ acc.drop l.length

@[simp] theorem length_zipAddScaled (x : R) : (zipAddScaled acc l x).length = acc.length := by
  simp only [zipAddScaled, List.length_append, List.length_zipWith, List.length_drop]
  omega

theorem ofList_zipAddScaled (x : R) (h : l.length ≤ acc.length) :
    ofList (zipAddScaled acc l x) = ofList acc + C x * ofList l := by
  induction l generalizing acc with
  | nil => simp [zipAddScaled]
  | cons c cs ih =>
    cases acc with
    | nil => simp at h
    | cons a as =>
      simp only [List.length_cons, Nat.succ_le_succ_iff] at h
      have hrest := ih as h
      simp only [zipAddScaled] at hrest
      simp only [zipAddScaled, List.zipWith_cons_cons, List.length_cons, List.drop_succ_cons,
        List.cons_append, ofList_cons, hrest, C_add, C_mul]
      ring

end CoefficientList
