import ThresholdKms.GaloisRing
import ThresholdKms.Poly

/-!
# Binary polynomials over the ring

The decoders work on one digit of the shares at a time. A polynomial over the quotient field is
evaluated at ring points from the bytes of its coefficients (`lazyEval`), and added into the result
polynomial at the digit's position. Both are operations on the lift of the polynomial.
-/

open Polynomial CoefficientList

namespace ThresholdKms

open ResiduePoly GaloisRing

variable {R : Type}

/-- The powers `1, point, …, point ^ degree`. -/
def computePowers [CommRing R] (point : R) : ℕ → List R
  | 0 => [1]
  | degree + 1 =>
    let powers := computePowers point degree
    powers ++ [powers.getD degree 0 * point]

theorem computePowers_eq [CommRing R] (point : R) (degree : ℕ) :
    computePowers point degree = (List.range (degree + 1)).map (point ^ ·) := by
  induction degree with
  | zero => simp [computePowers]
  | succ degree ih =>
    have hlast : ((List.range (degree + 1)).map (point ^ ·)).getD degree 0 = point ^ degree := by
      simp [List.getD_eq_getElem?_getD]
    rw [computePowers, ih, List.range_succ (n := degree + 1), List.map_append, hlast,
      List.map_singleton, pow_succ]

theorem getD_computePowers [CommRing R] (point : R) {degree j : ℕ} (h : j ≤ degree) :
    (computePowers point degree).getD j 0 = point ^ j := by
  rw [computePowers_eq, List.getD_eq_getElem?_getD, List.getElem?_map,
    List.getElem?_range (by omega)]
  rfl

variable {w : ℕ} {e : ExtensionDegree} (acc : Fin (e.deg + (e.deg - 1)) → BitVec w)

/-- The inner loop `res_coefs[j + bit] += coefs[j]`. -/
def addShifted (bit : Fin e.deg)
    (r : GaloisRing w e) : Fin (e.deg + (e.deg - 1)) → BitVec w :=
  fun k => acc k + if h : bit.val ≤ k.val ∧ k.val - bit.val < e.deg then
    r.coefs ⟨k.val - bit.val, h.2⟩ else 0

def lazyEvalStep (p : ℕ × GaloisRing w e) :
    Fin (e.deg + (e.deg - 1)) → BitVec w :=
  (List.finRange e.deg).foldl (fun acc (bit : Fin e.deg) =>
    if p.1.testBit bit then addShifted acc bit p.2 else acc) acc

def lazyEval (coefs : List ℕ) (powers : List (GaloisRing w e)) : Outcome (GaloisRing w e) :=
  let supplied := powers.length
  let needed := coefs.length
  if supplied < needed then
    Outcome.panic s!"Not enough powers supplied for bitwise evaluation. Only {supplied} are supplied but {needed} are needed."
  else
    .ok (reduceMul ((coefs.zip powers).foldl lazyEvalStep (fun _ => 0)))

def addCoef (x : GaloisRing w e) (d : Fin e.deg) (v : BitVec w) : GaloisRing w e :=
  ⟨Function.update x.coefs d (x.coefs d + v)⟩

def accumulateAndLiftBitwisePoly {F : Type} [Field F] [G2p e F] (res : Poly (GaloisRing w e))
    (p : Poly F) (amount : ℕ) : Poly (GaloisRing w e) :=
  p.coefs.zipIdx.foldl (fun res ci => (List.finRange e.deg).foldl (fun res (d : Fin e.deg) =>
    if (G2p.toU8 e ci.1).testBit d then
      res.modifyCoef ci.2 (fun c => addCoef c d ((1 : BitVec w) <<< (amount % w)))
    else res) res) res

section LazyEval

theorem powerSum_addShifted (bit : Fin e.deg) (r : GaloisRing w e) :
    powerSum scalarHom (generator : GaloisRing w e) (addShifted acc bit r) =
      powerSum scalarHom generator acc + generator ^ (bit : ℕ) * r := by
  have hsum : ∑ k : Fin (e.deg + (e.deg - 1)), (scalarHom (if h : bit.val ≤ k.val ∧
      k.val - bit.val < e.deg then r.coefs ⟨k.val - bit.val, h.2⟩ else 0) : GaloisRing w e) *
        generator ^ (k : ℕ) = generator ^ (bit : ℕ) * r := by
    conv_rhs => rw [← valueAt_scalarHom_generator r, valueAt, powerSum, Finset.mul_sum]
    symm
    apply Finset.sum_of_injOn (fun j : Fin e.deg => (⟨bit + j, by omega⟩ : Fin (e.deg + (e.deg - 1))))
    · intro i _ j _ hij
      simpa [Fin.ext_iff] using hij
    · simp
    · intro k _ hk
      rw [dif_neg, map_zero, zero_mul]
      rintro ⟨hle, hlt⟩
      apply hk
      refine ⟨⟨k.val - bit.val, hlt⟩, by simp, ?_⟩
      ext
      simp
      omega
    · intro j _
      have hj : bit.val ≤ bit.val + j.val ∧ bit.val + j.val - bit.val < e.deg := by omega
      rw [dif_pos hj]
      have hidx : (⟨bit.val + j.val - bit.val, hj.2⟩ : Fin e.deg) = j := by
        ext
        simp
      rw [hidx]
      ring
  rw [powerSum, powerSum, ← hsum, ← Finset.sum_add_distrib]
  apply Finset.sum_congr rfl
  intro k _
  rw [addShifted, map_add, add_mul]

theorem fromByte_eq_sum (c : ℕ) : (fromByte c : GaloisRing w e) =
      ∑ j : Fin e.deg, if c.testBit j then generator ^ (j : ℕ) else 0 := by
  conv_lhs => rw [← valueAt_scalarHom_generator (fromByte c), valueAt]
  apply Finset.sum_congr rfl
  intro j _
  simp only [fromByte]
  split_ifs with hbit
  · rw [map_one, one_mul]
  · rw [map_zero, zero_mul]

theorem powerSum_lazyEvalStep (p : ℕ × GaloisRing w e) :
    powerSum scalarHom (generator : GaloisRing w e) (lazyEvalStep acc p) =
      powerSum scalarHom generator acc + fromByte p.1 * p.2 := by
  have hfold : ∀ (bits : List (Fin e.deg)) (acc : Fin (e.deg + (e.deg - 1)) → BitVec w),
      powerSum scalarHom (generator : GaloisRing w e) (bits.foldl (fun acc (bit : Fin e.deg) =>
        if p.1.testBit bit then addShifted acc bit p.2 else acc) acc) =
      powerSum scalarHom generator acc +
        (bits.map (fun j : Fin e.deg => if p.1.testBit j then generator ^ (j : ℕ) else 0)).sum * p.2 := by
    intro bits
    induction bits with
    | nil => intro acc; simp
    | cons bit bits ih =>
      intro acc
      rw [List.foldl_cons, ih, List.map_cons, List.sum_cons]
      split_ifs with hbit
      · rw [powerSum_addShifted]
        ring
      · ring
  rw [lazyEvalStep, hfold, fromByte_eq_sum]
  congr 2

theorem lazyEval_eq {coefs : List ℕ} {powers : List (GaloisRing w e)}
    (h : coefs.length ≤ powers.length) :
    lazyEval coefs powers = .ok ((coefs.zip powers).map (fun p => fromByte p.1 * p.2)).sum := by
  have hfold : ∀ (l : List (ℕ × GaloisRing w e)) (acc : Fin (e.deg + (e.deg - 1)) → BitVec w),
      powerSum scalarHom (generator : GaloisRing w e) (l.foldl lazyEvalStep acc) =
        powerSum scalarHom generator acc + (l.map (fun p => fromByte p.1 * p.2)).sum := by
    intro l
    induction l with
    | nil => intro acc; simp
    | cons p l ih =>
      intro acc
      rw [List.foldl_cons, ih, powerSum_lazyEvalStep, List.map_cons, List.sum_cons, add_assoc]
  have hzero : powerSum scalarHom (generator : GaloisRing w e)
      (fun _ : Fin (e.deg + (e.deg - 1)) => (0 : BitVec w)) = 0 := by
    simp only [powerSum, map_zero, zero_mul, Finset.sum_const_zero]
  rw [lazyEval]
  simp only [if_neg (show ¬ powers.length < coefs.length by omega)]
  rw [reduceMul_eq_powerSum, hfold, hzero, zero_add]

end LazyEval

section Lift

variable {F : Type} [Field F] [G2p e F]

omit [G2p e F] in
theorem liftPoly_toPoly (D : DyadicRing (GaloisRing w e) F) (f : Poly F) :
    D.liftPoly f.toPoly = ofList (f.coefs.map D.lift) := by
  ext1 k
  rw [D.coeff_liftPoly, Poly.coeff_toPoly, coeff_ofList, Poly.coef, ← D.lift_zero, List.getD_map]

theorem sum_zip_powers (l : List (GaloisRing w e)) (x : GaloisRing w e) (m k : ℕ)
    (h : l.length ≤ m) :
    ((l.zip ((List.range' k m).map (x ^ ·))).map (fun p => p.1 * p.2)).sum =
      x ^ k * (ofList l).eval x := by
  induction l generalizing m k with
  | nil => simp
  | cons c cs ih =>
    cases m with
    | zero => simp at h
    | succ m =>
      simp only [List.length_cons, Nat.succ_le_succ_iff] at h
      simp only [List.range'_succ, List.map_cons, List.zip_cons_cons, List.sum_cons, ih m _ h,
        ofList_cons, eval_add, eval_C, eval_mul, eval_X, pow_succ]
      ring

theorem lazyEval_powers (hw : 0 < w) (f : Poly F) (x : GaloisRing w e) {degree : ℕ}
    (h : f.coefs.length ≤ degree + 1) :
    lazyEval (f.coefs.map (G2p.toU8 e)) (computePowers x degree) =
      .ok (((dyadic F hw).liftPoly f.toPoly).eval x) := by
  have hsum := sum_zip_powers (f.coefs.map (dyadic F hw).lift) x (degree + 1) 0 (by simpa using h)
  rw [pow_zero, one_mul, ← liftPoly_toPoly, ← List.range_eq_range'] at hsum
  rw [lazyEval_eq (by simpa [computePowers_eq] using h), computePowers_eq, ← hsum,
    List.zip_map_left, List.zip_map_left, List.map_map, List.map_map]
  rfl

variable (F) in
/-- The products of the ring are the products of the polynomials modulo the modulus, and evaluation
from bytes, with any number of powers that suffices, evaluates the coefficient-wise lift. -/
theorem product_and_lazyEval (z : BaseRing) :
    (∀ a b : GaloisRing z.bits e, (reduceMul (karatsuba e a.coefs b.coefs)).toPolynomial =
      (a.toPolynomial * b.toPolynomial) %ₘ e.modulusAt X) ∧
    ∀ (p : Poly F) (x : GaloisRing z.bits e) (k : ℕ),
      lazyEval (p.coefs.map (G2p.toU8 e)) (computePowers x (p.coefs.length - 1 + k)) =
        .ok ((⟨p.coefs.map (fun c => bitLift c 0)⟩ : Poly (GaloisRing z.bits e)).eval x) := by
  constructor
  · intro a b
    have : Nontrivial (BitVec z.bits) := by
      cases z with
      | z64 => exact ⟨0, 1, by decide⟩
      | z128 => exact ⟨0, 1, by decide⟩
    exact toPolynomial_reduceMul a b
  · intro p x k
    have hlift : (fun c : F => (bitLift c 0 : GaloisRing z.bits e)) = (dyadic F z.bits_pos).lift := by
      funext c
      rw [bitLift_eq z.bits_pos z.bits_pos, pow_zero, one_mul]
    rw [lazyEval_powers z.bits_pos p x (by omega), Poly.eval_eq, hlift, liftPoly_toPoly]
    rfl

theorem addCoef_eq (x : GaloisRing w e) (d : Fin e.deg) (v : BitVec w) :
    addCoef x d v = x + ⟨fun j => if j = d then v else 0⟩ := by
  ext1
  funext j
  by_cases hj : j = d
  · subst hj
    simp [addCoef]
  · simp [addCoef, hj]

variable {amount : ℕ}

theorem one_shiftLeft_eq (h : amount < w) :
    (1 : BitVec w) <<< (amount % w) = 2 ^ amount := by
  apply BitVec.eq_of_toNat_eq
  have hmul := toNat_two_pow_mul (w := w) amount 1
  rw [mul_one] at hmul
  rw [hmul, Nat.mod_eq_of_lt h, BitVec.toNat_shiftLeft, Nat.shiftLeft_eq, mul_comm]

theorem sum_singles_eq (h : amount < w) (c : ℕ) :
    (∑ d : Fin e.deg, if c.testBit d then (⟨fun j => if j = d then
      (1 : BitVec w) <<< (amount % w) else 0⟩ : GaloisRing w e) else 0) = 2 ^ amount * fromByte c := by
  have hcoefs : ∀ (s : Finset (Fin e.deg)) (g : Fin e.deg → GaloisRing w e) (j : Fin e.deg),
      (∑ d ∈ s, g d).coefs j = ∑ d ∈ s, (g d).coefs j := by
    intro s g j
    induction s using Finset.induction_on with
    | empty => simp
    | insert d s hd ih => rw [Finset.sum_insert hd, Finset.sum_insert hd, coefs_add, ih]
  ext1
  funext j
  rw [hcoefs, fromScalar_two_pow_mul, Finset.sum_eq_single j]
  · by_cases hb : c.testBit j
    · simp only [hb, if_true, fromByte, one_shiftLeft_eq h, mul_one]
    · simp [hb, fromByte]
  · intro d _ hd
    by_cases hb : c.testBit d
    · simp [hb, Ne.symm hd]
    · simp [hb]
  · simp

/-- Accumulation adds the shifted lift of the polynomial. -/
theorem toPoly_accumulateAndLift (hw : 0 < w) (res : Poly (GaloisRing w e)) (p : Poly F)
    (h : amount < w) :
    (accumulateAndLiftBitwisePoly res p amount).toPoly =
      res.toPoly + C (2 ^ amount) * (dyadic F hw).liftPoly p.toPoly := by
  have hinner : ∀ (c i : ℕ) (ds : List (Fin e.deg)) (res : Poly (GaloisRing w e)),
      (ds.foldl (fun res (d : Fin e.deg) => if c.testBit d then res.modifyCoef i
        (fun x => addCoef x d ((1 : BitVec w) <<< (amount % w))) else res) res).toPoly =
      res.toPoly + C (ds.map (fun d : Fin e.deg => if c.testBit d then
        (⟨fun j => if j = d then (1 : BitVec w) <<< (amount % w) else 0⟩ : GaloisRing w e)
          else 0)).sum * X ^ i := by
    intro c i ds
    induction ds with
    | nil => intro res; simp
    | cons d ds ih =>
      intro res
      rw [List.foldl_cons, ih, List.map_cons, List.sum_cons]
      split_ifs with hd
      · simp only [addCoef_eq]
        rw [Poly.toPoly_modifyCoef_add, C_add]
        ring
      · rw [zero_add]
  have houter : ∀ (l : List (F × ℕ)) (res : Poly (GaloisRing w e)),
      (l.foldl (fun res ci => (List.finRange e.deg).foldl (fun res (d : Fin e.deg) =>
        if (G2p.toU8 e ci.1).testBit d then
          res.modifyCoef ci.2 (fun c => addCoef c d ((1 : BitVec w) <<< (amount % w)))
        else res) res) res).toPoly =
      res.toPoly + C (2 ^ amount) *
        ((l.map (fun ci => ((dyadic F hw).lift ci.1, ci.2))).map (fun p => C p.1 * X ^ p.2)).sum := by
    intro l
    induction l with
    | nil => intro res; simp
    | cons ci l ih =>
      intro res
      have hbyte := sum_singles_eq (e := e) h (G2p.toU8 e ci.1)
      rw [← List.sum_ofFn, List.ofFn_eq_map] at hbyte
      rw [List.foldl_cons, ih, hinner, hbyte, List.map_cons, List.map_cons, List.sum_cons, C_mul]
      change _ + C (2 ^ amount) * C ((dyadic F hw).lift ci.1) * X ^ ci.2 + _ = _
      ring
  have hzip : p.coefs.zipIdx.map
      (fun ci => ((dyadic F hw).lift ci.1, ci.2) : F × ℕ → GaloisRing w e × ℕ) =
      (p.coefs.map (dyadic F hw).lift).zipIdx := by
    rw [List.zipIdx_map]
    rfl
  rw [accumulateAndLiftBitwisePoly, houter, hzip, sum_zipIdx_monomials, pow_zero, one_mul,
    liftPoly_toPoly]

end Lift

end ThresholdKms
