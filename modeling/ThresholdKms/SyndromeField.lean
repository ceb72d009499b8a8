import ThresholdKms.BitwisePoly
import ThresholdKms.ErrorLocator
import ThresholdKms.Inversion
import ThresholdKms.Lagrange
import ThresholdKms.Share

/-!
# Syndromes

The syndrome of a sharing is computed from the numerators of the Lagrange basis and the powers of
the parties' points. A syndrome over the quotient field is decoded through the remainder sequence of
`X ^ r`; a syndrome over the ring is decoded one digit at a time, and corrected by the syndrome of
the digits found.
-/

namespace ThresholdKms

open GaloisRing

section Field

variable {R : Type} [CommRing R] [DecidableEq R]

/-- One iteration of the product over the other points. -/
def numeratorStep (i : ℕ) (numerator : Poly R) (xj : R × ℕ) : Outcome (Poly R) :=
  if i ≠ xj.2 then Poly.mul numerator (Poly.fromCoefs [-xj.1, 1]) else .ok numerator

def lagrangeNumerators (points : List R) : Outcome (List (Poly R)) :=
  points.zipIdx.mapM (fun xi => points.zipIdx.foldlM (numeratorStep xi.2) Poly.one)

def computePowersList (points : List R) (maxExponent : ℕ) : List (List R) :=
  points.map (fun p => computePowers p maxExponent)

variable {F : Type} [Field F] [DecidableEq F]

/-- The remainder sequence, stopped at the first remainder of degree below `bound`. -/
def decodeSyndromeLoop (bound : ℕ) : ℕ → Poly F → Poly F → Poly F → Poly F →
    Outcome (Poly F × Poly F)
  | 0, _, _, _, _ => Outcome.diverge
  | fuel + 1, r0, r1, t0, t1 =>
    if bound ≤ r0.deg then do
      let (q, _) ← Poly.quoRem r0 r1
      let qt ← Poly.mul q t1
      let qr ← Poly.mul q r1
      decodeSyndromeLoop bound fuel r1 (Poly.sub r0 qr) t1 (Poly.sub t0 qt)
    else
      .ok (r0, t0)

/-- The indices with errors. -/
def errorPositions (sigma : Poly F) (xAlpha : List F) : Outcome (List ℕ) :=
  xAlpha.zipIdx.foldlM (fun bs x => do
    let inv ← fieldInvert x.1
    return if sigma.eval inv = 0 then bs ++ [x.2] else bs) []

def errorMagnitude (sigma omega lagrangePoly : Poly F) (alphaB : F) : Outcome F := do
  let alphaBInv ← fieldInvert alphaB
  let numerator := -alphaB * lagrangePoly.eval alphaB * omega.eval alphaBInv
  fieldDiv numerator (sigma.formalDerivative.eval alphaBInv)

def decodeSyndrome (syndrome : Poly F) (xAlpha : List F) (r : ℕ) : Outcome (List F) :=
  if syndrome.isZero then
    .ok (List.replicate xAlpha.length 0)
  else do
    let (r0, t0) ← decodeSyndromeLoop (r / 2) (r + 2) (Poly.zero.setCoef r 1) syndrome Poly.zero
      Poly.one
    let sigma ← Poly.divScalar t0 (t0.eval 0)
    let omega ← Poly.divScalar r0 (t0.eval 0)
    let bs ← errorPositions sigma xAlpha
    let lagrangePolys ← lagrangeNumerators xAlpha
    bs.foldlM (fun e b => do
      let eb ← errorMagnitude sigma omega (lagrangePolys.getD b Poly.zero) (xAlpha.getD b 0)
      return e.set b eb) (List.replicate xAlpha.length 0)

def syndromeDecodingZ2 (e : ExtensionDegree) [G2p e F] (parties : List ℕ) (syndrome : Poly F)
    (threshold : ℕ) : Outcome (List F) := do
  let r ← Outcome.usizeSub parties.length (threshold + 1)
  decodeSyndrome syndrome (parties.map (fun s => G2p.fromU8 e (s % 256))) r

end Field

variable {w : ℕ} {e : ExtensionDegree} (F : Type) [Field F] [DecidableEq F] [G2p e F]

/-- One coefficient of the syndrome. -/
def syndromeCoef (parties ys : List (GaloisRing w e)) (lagrangePolys : List (Poly (GaloisRing w e)))
    (alphaPowers : List (List (GaloisRing w e))) (j : ℕ) : Outcome (GaloisRing w e) :=
  (List.range ys.length).foldlM (fun coef i => do
    let numerator := ys.getD i 0 * (alphaPowers.getD i []).getD j 0
    let denom := (lagrangePolys.getD i Poly.zero).eval (parties.getD i 0)
    let inverse ← invert F denom
    return coef + numerator * inverse) 0

def syndromeCompute (sharing : ShamirSharings (GaloisRing w e)) (threshold : ℕ) :
    Outcome (Poly (GaloisRing w e)) := do
  let r ← Outcome.usizeSub sharing.shares.length (threshold + 1)
  let ys := sharing.shares.map Share.value
  let parties ← sharing.owners.mapM embedRole
  let lagrangePolys ← lagrangeNumerators parties
  let alphaPowers := computePowersList parties r
  (List.range r).foldlM (fun res j => do
    let coef ← syndromeCoef F parties ys lagrangePolys alphaPowers j
    return res.setCoef j coef) Poly.zero

/-- The state of the digit loop: the syndrome still to be explained and the errors found. -/
structure SyndromeState (w : ℕ) (e : ExtensionDegree) where
  syndromePoly : Poly (GaloisRing w e)
  eRes : List (GaloisRing w e)

def syndromeDecodeStep (parties : List ℕ) (threshold : ℕ) (s : SyndromeState w e) (bitIdx : ℕ) :
    Outcome (SyndromeState w e) := do
  let slicedSyndrome := Poly.fromCoefs (s.syndromePoly.coefs.map (fun c => bitCompose F c bitIdx))
  let ej ← syndromeDecodingZ2 e parties slicedSyndrome threshold
  let liftedE := ej.map (fun x => (bitLift x bitIdx : GaloisRing w e))
  let eRes ←
    if s.eRes.length = liftedE.length then
      .ok (List.zipWith (· + ·) s.eRes liftedE)
    else
      Outcome.panic "itertools: .zip_eq() reached end of one iterator before the other"
  let correctedShamir : ShamirSharings (GaloisRing w e) :=
    ⟨liftedE.zipIdx.map (fun v => ⟨v.2 + 1, v.1⟩)⟩
  let syndromeCorrection ← syndromeCompute F correctedShamir threshold
  return ⟨Poly.sub s.syndromePoly syndromeCorrection, eRes⟩

def syndromeDecode (syndromePoly : Poly (GaloisRing w e)) (parties : List Role) (threshold : ℕ) :
    Outcome (List (GaloisRing w e)) := do
  let s ← (List.range w).foldlM (syndromeDecodeStep F parties threshold)
    ⟨syndromePoly, List.replicate parties.length 0⟩
  return s.eRes

/-!
## Syndrome decoding over the quotient field

On the syndrome of an error vector with at most `r / 2` errors the remainder sequence stops at the
locator and the evaluator, and the positions and magnitudes computed from them are the errors.
-/

open Polynomial ExceptionalInterpolation EuclideanStage ErrorLocator

open Outcome

section Numerators

variable {R : Type} [CommRing R] [DecidableEq R] {n : ℕ}

theorem zipIdx_ofFn {α : Type*} (x : Fin n → α) :
    (List.ofFn x).zipIdx = List.ofFn (fun i => (x i, (i : ℕ))) := by
  apply List.ext_getElem
  · simp
  · intro k h₁ h₂
    simp

theorem getD_ofFn {α : Type*} (x : Fin n → α) (i : Fin n) (d : α) :
    (List.ofFn x).getD i d = x i := by
  rw [List.getD_eq_getElem _ _ (by simp), List.getElem_ofFn]

theorem zipWith_ofFn {α β γ : Type*} (f : α → β → γ) (x : Fin n → α) (y : Fin n → β) :
    List.zipWith f (List.ofFn x) (List.ofFn y) = List.ofFn (fun i => f (x i) (y i)) := by
  apply List.ext_getElem
  · simp
  · intro k h₁ h₂
    simp

theorem mapM_ofFn {α β : Type} {f : α → Outcome β} {x : Fin n → α} {y : Fin n → β}
    (h : ∀ i, f (x i) = .ok (y i)) : (List.ofFn x).mapM f = .ok (List.ofFn y) := by
  rw [List.ofFn_eq_map, List.ofFn_eq_map, List.mapM_map]
  exact mapM_eq_ok (fun i _ => h i)

theorem foldlM_numeratorStep [Nontrivial R] (i : ℕ) (l : List (R × ℕ)) (num : Poly R) :
    ∃ num' : Poly R, l.foldlM (numeratorStep i) num = .ok num' ∧
      num'.toPoly = num.toPoly * (l.map (fun p => if i ≠ p.2 then X - C p.1 else 1)).prod := by
  refine Poly.foldlM_product (fun num p => ?_) l num
  by_cases hp : i ≠ p.2
  · have hlinear : (Poly.fromCoefs [-p.1, 1]).toPoly = X - C p.1 := by
      rw [Poly.toPoly_fromCoefs]
      exact Poly.toPoly_linear p.1
    have hne : (Poly.fromCoefs [-p.1, 1]).coefs ≠ [] :=
      Poly.coefs_ne_nil (by rw [hlinear]; exact X_sub_C_ne_zero p.1)
    obtain ⟨num₁, hmul, hpoly⟩ := Poly.mul_eq_ok (a := num) (Or.inr hne)
    exact ⟨num₁, by rw [numeratorStep, if_pos hp, hmul], by rw [hpoly, hlinear, if_pos hp]⟩
  · exact ⟨num, by rw [numeratorStep, if_neg hp], by rw [if_neg hp, mul_one]⟩

theorem lagrangeNumerators_ofFn [Nontrivial R] (α : Fin n → R) :
    ∃ polys : Fin n → Poly R, lagrangeNumerators (List.ofFn α) = .ok (List.ofFn polys) ∧
      ∀ i, (polys i).toPoly = numerator α i := by
  choose polys hfold hpoly using fun i : Fin n =>
    foldlM_numeratorStep (i : ℕ) (List.ofFn α).zipIdx (Poly.one : Poly R)
  refine ⟨polys, ?_, ?_⟩
  · rw [lagrangeNumerators]
    nth_rewrite 2 [zipIdx_ofFn]
    exact mapM_ofFn hfold
  · intro i
    rw [hpoly i, Poly.toPoly_one, one_mul, zipIdx_ofFn, List.map_ofFn, List.prod_ofFn]
    simp only [Function.comp_apply, ne_eq, Fin.val_inj]
    exact prod_skip_eq_erase i (fun j => X - C (α j))

end Numerators

variable {F : Type} [Field F] [DecidableEq F]

section Sequence

variable {a b : F[X]} {bound : ℕ}

/-- The loop stops at the first remainder of degree below the bound. -/
theorem decodeSyndromeLoop_eq_ok (hbound : 1 ≤ bound)
    (hrem : ∀ r₀ r₁ t₀ t₁ : F[X], Stage a b r₀ r₁ t₀ t₁ → bound ≤ r₀.natDegree → r₁ ≠ 0)
    (fuel : ℕ) (r0 r1 t0 t1 : Poly F) (hstage : Stage a b r0.toPoly r1.toPoly t0.toPoly t1.toPoly)
    (hhigh : bound ≤ r0.toPoly.natDegree) (hfuel : r1.toPoly.natDegree + 2 ≤ fuel) :
    ∃ q t : Poly F, decodeSyndromeLoop bound fuel r0 r1 t0 t1 = .ok (q, t) ∧
      q.toPoly.natDegree < bound ∧
      ∃ p s, Stage a b p q.toPoly s t.toPoly ∧ bound ≤ p.natDegree := by
  induction fuel generalizing r0 r1 t0 t1 with
  | zero => omega
  | succ fuel ih =>
    have hr1 := hrem _ _ _ _ hstage hhigh
    obtain ⟨q, r2, hquo, hdiv, hlt⟩ := Poly.quoRem_eq_ok r0 hr1
    obtain ⟨qt, hmulT, hqt⟩ :=
      Poly.mul_eq_ok (a := q) (Or.inr (Poly.coefs_ne_nil hstage.cof_ne_zero))
    obtain ⟨qr, hmulR, hqr⟩ := Poly.mul_eq_ok (a := q) (Or.inr (Poly.coefs_ne_nil hr1))
    have hnext : (Poly.sub r0 qr).toPoly = r2.toPoly := by
      rw [Poly.toPoly_sub, hqr, hdiv]
      ring
    have hstage' : Stage a b r1.toPoly (Poly.sub r0 qr).toPoly t1.toPoly
        (Poly.sub t0 qt).toPoly := by
      rw [hnext, Poly.toPoly_sub, hqt]
      exact hstage.step hdiv hlt
    have hrun : decodeSyndromeLoop bound (fuel + 1) r0 r1 t0 t1 =
        decodeSyndromeLoop bound fuel r1 (Poly.sub r0 qr) t1 (Poly.sub t0 qt) := by
      rw [decodeSyndromeLoop, if_pos (by rwa [Poly.deg_eq_natDegree]), hquo]
      simp only [hmulT, hmulR, ok_bind]
    rw [hrun]
    by_cases hlow : bound ≤ r1.toPoly.natDegree
    · apply ih _ _ _ _ hstage' hlow
      rw [hnext]
      have : r2.toPoly.natDegree < r1.toPoly.natDegree := by
        by_cases hr2 : r2.toPoly = 0
        · rw [hr2, natDegree_zero]
          omega
        · exact natDegree_lt_natDegree hr2 hlt
      omega
    · obtain ⟨fuel, rfl⟩ : ∃ k, fuel = k + 1 := ⟨fuel - 1, by omega⟩
      refine ⟨r1, t1, ?_, not_le.mp hlow, _, _, hstage, hhigh⟩
      rw [decodeSyndromeLoop, if_neg (by rwa [Poly.deg_eq_natDegree])]

end Sequence

section Decoding

variable {n : ℕ} {α : Fin n → F}

theorem foldlM_errorPositions (sigma : Poly F) (hα : ∀ i, α i ≠ 0) (l : List (Fin n))
    (bs : List ℕ) :
    (l.map (fun i => (α i, (i : ℕ)))).foldlM (fun bs x => do
        let inv ← fieldInvert x.1
        return if sigma.eval inv = 0 then bs ++ [x.2] else bs) bs =
      .ok (bs ++ (l.filter (fun i => decide (sigma.toPoly.eval (α i)⁻¹ = 0))).map Fin.val) := by
  induction l generalizing bs with
  | nil => simp
  | cons i l ih =>
    rw [List.map_cons, List.foldlM_cons, fieldInvert_of_ne (hα i), ok_bind,
      pure_eq_ok, ok_bind, ih, Poly.eval_eq]
    by_cases h : sigma.toPoly.eval (α i)⁻¹ = 0
    · simp [h]
    · simp [h]

theorem errorPositions_ofFn (sigma : Poly F) (hα : ∀ i, α i ≠ 0) :
    errorPositions sigma (List.ofFn α) = .ok (((List.finRange n).filter
        (fun i => decide (sigma.toPoly.eval (α i)⁻¹ = 0))).map Fin.val) := by
  rw [errorPositions, zipIdx_ofFn, List.ofFn_eq_map, foldlM_errorPositions sigma hα,
    List.nil_append]

variable {y : Fin n → F} {B : Finset (Fin n)}

theorem errorMagnitude_eq {sigma omega lagrangePoly : Poly F}
    (hα : ∀ i, α i ≠ 0) (hinj : Function.Injective α) (hex : Exceptional α)
    (hsigma : sigma.toPoly = locator α B) (homega : omega.toPoly = evaluator α B y) {b : Fin n}
    (hb : b ∈ B) (hpoly : lagrangePoly.toPoly = numerator α b) :
    errorMagnitude sigma omega lagrangePoly (α b) = .ok (y b) := by
  rw [errorMagnitude, fieldInvert_of_ne (hα b), ok_bind]
  simp only [Poly.eval_eq, Poly.toPoly_formalDerivative, hsigma, homega, hpoly]
  rw [fieldDiv_of_ne _ (eval_derivative_locator_ne_zero hα hinj hb), magnitude_eq hα hinj hex hb]

omit [Field F] [DecidableEq F] in
theorem set_ofFn (v : Fin n → F) (b : Fin n) (x : F) :
    (List.ofFn v).set b x = List.ofFn (Function.update v b x) := by
  apply List.ext_getElem
  · simp
  · intro k h₁ h₂
    rw [List.getElem_set, List.getElem_ofFn, List.getElem_ofFn, Function.update_apply]
    simp only [Fin.ext_iff, eq_comm]

omit [Field F] [DecidableEq F] in
theorem foldlM_set {mag : ℕ → Outcome F} (bs : List (Fin n))
    (hmag : ∀ b ∈ bs, mag b = .ok (y b)) (v : Fin n → F) :
    (bs.map Fin.val).foldlM (fun e b => do
        let eb ← mag b
        return e.set b eb) (List.ofFn v) =
      .ok (List.ofFn (fun i => if i ∈ bs then y i else v i)) := by
  induction bs generalizing v with
  | nil => simp
  | cons b bs ih =>
    rw [List.map_cons, List.foldlM_cons, hmag b (by simp), ok_bind, pure_eq_ok,
      ok_bind, set_ofFn, ih (fun c hc => hmag c (by simp [hc]))]
    congr 2
    funext i
    by_cases hi : i = b
    · subst hi
      simp
    · simp [hi]

omit [DecidableEq F] in
theorem degree_syndrome_lt (r : ℕ) (y : Fin n → F) : (syndrome α r y).degree < r := by
  rw [degree_lt_iff_coeff_zero]
  intro k hk
  rw [coeff_syndrome, if_neg (by omega)]

omit [DecidableEq F] in
/-- Few errors with a zero syndrome are no errors. -/
theorem eq_zero_of_syndrome_eq_zero {r : ℕ}
    (hα : ∀ i, α i ≠ 0) (hinj : Function.Injective α) (hex : Exceptional α)
    (hB : ∀ i, i ∈ B ↔ y i ≠ 0) (hcard : B.card ≤ r / 2) (hzero : syndrome α r y = 0) :
    B = ∅ := by
  by_contra hne
  have hne' := Finset.nonempty_iff_ne_empty.mpr hne
  have hkey := key_equation (α := α) (B := B) (y := y)
    (fun i hi => not_not.mp (mt (hB i).mpr hi)) r
  rw [hzero, mul_zero, zero_sub, dvd_neg] at hkey
  have hne0 := evaluator_ne_zero hα hinj hex (fun b hb => (hB b).mp hb) hne'
  have hle := natDegree_le_of_dvd hkey hne0
  rw [natDegree_X_pow] at hle
  have hlt := (natDegree_lt_iff_degree_lt hne0).mpr (degree_evaluator_lt (α := α) (B := B) (y := y))
  omega

/-- The decoder finds up to `r / 2` errors. -/
theorem decodeSyndrome_eq {r : ℕ} (hα : ∀ i, α i ≠ 0) (hinj : Function.Injective α)
    (hex : Exceptional α) (hcard : (Finset.univ.filter (fun i => y i ≠ 0)).card ≤ r / 2)
    {S : Poly F} (hS : S.toPoly = syndrome α r y) :
    decodeSyndrome S (List.ofFn α) r = .ok (List.ofFn y) := by
  set B := Finset.univ.filter (fun i => y i ≠ 0) with hBdef
  have hB : ∀ i, i ∈ B ↔ y i ≠ 0 := by simp [hBdef]
  rw [decodeSyndrome]
  by_cases hzero : S.toPoly = 0
  · have hempty := eq_zero_of_syndrome_eq_zero hα hinj hex hB hcard (hS ▸ hzero)
    have hy : y = fun _ => 0 := by
      funext i
      by_contra hi
      have := (hB i).mpr hi
      rw [hempty] at this
      exact absurd this (Finset.notMem_empty i)
    rw [if_pos ((Poly.isZero_iff S).mpr hzero), hy, List.length_ofFn, List.ofFn_const]
  · have hne : B.Nonempty := by
      by_contra hempty
      apply hzero
      rw [hS, syndrome_eq_sum (B := B) (fun i hi => not_not.mp (mt (hB i).mpr hi)),
        Finset.not_nonempty_iff_eq_empty.mp hempty, Finset.sum_empty]
    have hpos : 1 ≤ r / 2 := (Finset.card_pos.mpr hne).trans_le hcard
    have hXr : ((Poly.zero : Poly F).setCoef r 1).toPoly = X ^ r := by
      rw [Poly.toPoly_setCoef_of_zero rfl, Poly.toPoly_zero, zero_add, C_1, one_mul]
    have hstart : Stage (X ^ r) (syndrome α r y) ((Poly.zero : Poly F).setCoef r 1).toPoly S.toPoly
        (Poly.zero : Poly F).toPoly (Poly.one : Poly F).toPoly := by
      rw [hXr, hS, Poly.toPoly_one]
      exact Stage.start (by rw [degree_X_pow]; exact degree_syndrome_lt r y)
    have hfuel : S.toPoly.natDegree + 2 ≤ r + 2 := by
      have := natDegree_le_of_degree_le (hS ▸ (degree_syndrome_lt r y).le)
      omega
    obtain ⟨r0, t0, hrun, hlow, p, s, hstage, hhigh⟩ := decodeSyndromeLoop_eq_ok hpos
      (fun _ _ _ _ => rem_ne_zero hα hinj hex hB hne hcard) (r + 2) _ S _ _ hstart
      (by rw [hXr, natDegree_X_pow]; omega) hfuel
    obtain ⟨ht0, hsigma, homega⟩ :=
      solution_of_stage hα hinj hex hB hne hcard hstage hhigh hlow
    obtain ⟨polys, hpolys, hnum⟩ := lagrangeNumerators_ofFn α
    have hnz : ¬ S.isZero = true := mt (Poly.isZero_iff S).mp hzero
    rw [if_neg hnz, hrun]
    simp only [Poly.eval_eq, Poly.divScalar_of_ne _ ht0, ok_bind, hpolys]
    have hsigma' : (t0.mulScalar (t0.toPoly.eval 0)⁻¹).toPoly = locator α B := by
      rw [Poly.toPoly_mulScalar, hsigma]
    have homega' : (r0.mulScalar (t0.toPoly.eval 0)⁻¹).toPoly = evaluator α B y := by
      rw [Poly.toPoly_mulScalar, homega]
    have hmem : ∀ i, i ∈ (List.finRange n).filter (fun i =>
        decide ((t0.mulScalar (t0.toPoly.eval 0)⁻¹).toPoly.eval (α i)⁻¹ = 0)) ↔ i ∈ B := by
      intro i
      rw [List.mem_filter, decide_eq_true_eq, hsigma', eval_locator_eq_zero_iff hα hinj]
      simp
    rw [errorPositions_ofFn _ hα, ok_bind, List.length_ofFn, ← List.ofFn_const, foldlM_set (y := y)]
    · congr 2
      funext i
      simp only [hmem]
      by_cases hi : i ∈ B
      · rw [if_pos hi]
      · rw [if_neg hi, not_not.mp (mt (hB i).mpr hi)]
    · intro b hb
      rw [getD_ofFn, getD_ofFn]
      exact errorMagnitude_eq hα hinj hex hsigma' homega' ((hmem b).mp hb) (hnum b)

end Decoding

end ThresholdKms
