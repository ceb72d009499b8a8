import ThresholdKms.Poly

/-!
# Long division of dense polynomials

`quoRem` is the schoolbook loop of the source: the quotient entry of index `i` is read off the
running remainder, which is updated in place. Division by the zero polynomial panics.
-/

open Polynomial CoefficientList

namespace ThresholdKms

variable {F : Type} [Field F] [DecidableEq F]

/-- Division in the coefficient field. A zero divisor panics in the library that implements the
field, and the text stands for that library's. -/
def fieldDiv (a b : F) : Outcome F :=
  if b = 0 then .panic "division by zero" else .ok (a / b)

def fieldInvert (a : F) : Outcome F := fieldDiv 1 a

theorem fieldDiv_of_ne (a : F) {b : F} (h : b ≠ 0) : fieldDiv a b = .ok (a / b) := if_neg h

theorem fieldInvert_of_ne {a : F} (h : a ≠ 0) : fieldInvert a = .ok a⁻¹ := by
  rw [fieldInvert, fieldDiv_of_ne 1 h, one_div]

namespace Poly

def divScalar (p : Poly F) (x : F) : Outcome (Poly F) := do
  let coefs ← p.coefs.mapM (fun c => fieldDiv c x)
  return fromCoefs coefs

theorem divScalar_of_ne (p : Poly F) {x : F} (h : x ≠ 0) :
    p.divScalar x = .ok (p.mulScalar x⁻¹) := by
  have hmap : p.coefs.mapM (fun c => fieldDiv c x) = .ok (p.coefs.map (· * x⁻¹)) :=
    Outcome.mapM_eq_ok (fun c _ => by rw [fieldDiv_of_ne c h, div_eq_mul_inv])
  rw [divScalar, hmap]
  rfl

/-- One round of the division loop on the pair of buffers `(q, r)`. -/
def quoRemStep (b : Poly F) (bLen : ℕ) (t : F) (i : ℕ) (s : List F × List F) : List F × List F :=
  let qi := s.2.getD (i + bLen - 1) 0 * t
  (s.1.set i qi, (List.range bLen).foldl (fun r j => r.modify (i + j) (· - qi * b.coef j)) s.2)

/-- The rounds `count - 1, …, 0`. -/
def quoRemLoop (b : Poly F) (bLen : ℕ) (t : F) : ℕ → List F × List F → List F × List F
  | 0, s => s
  | i + 1, s => quoRemLoop b bLen t i (quoRemStep b bLen t i s)

def quoRem (a b : Poly F) : Outcome (Poly F × Poly F) := do
  let aLen := a.deg + 1
  let bLen := b.deg + 1
  if bLen = 1 ∧ b.coef 0 = 0 then
    Outcome.panic "division by 0 in quo_rem"
  else if aLen = 1 ∧ a.coef 0 = 0 then
    return (zero, zero)
  else
    let t ← fieldInvert b.highestCoefficient
    let rounds := if bLen ≤ aLen then aLen - bLen + 1 else 0
    let s := quoRemLoop b bLen t rounds (List.replicate aLen 0, a.coefs)
    return (fromCoefs s.1, fromCoefs s.2)

theorem deg_zero_and_coef_zero_iff (p : Poly F) :
    (p.deg + 1 = 1 ∧ p.coef 0 = 0) ↔ p.toPoly = 0 := by
  rw [deg_eq_natDegree, ← coeff_toPoly]
  constructor
  · rintro ⟨hdeg, hcoef⟩
    rw [eq_C_of_natDegree_eq_zero (by omega : p.toPoly.natDegree = 0), hcoef, C_0]
  · intro h
    simp [h]

/-- What holds of the buffers once the rounds from `m` on are done. -/
structure QuoRemInvariant (a b : Poly F) (m : ℕ) (s : List F × List F) : Prop where
  identity : ofList s.1 * b.toPoly + ofList s.2 = a.toPoly
  length_quo : s.1.length = a.deg + 1
  length_rem : s.2.length = a.coefs.length
  quo_zero : ∀ i, i < m → s.1.getD i 0 = 0
  rem_zero : ∀ k, m + b.deg ≤ k → (ofList s.2).coeff k = 0

theorem length_le_of_deg (a : Poly F) (h : a.toPoly ≠ 0) : a.deg + 1 ≤ a.coefs.length := by
  by_contra hlt
  have hcoeff : a.toPoly.coeff a.deg ≠ 0 := by
    rw [deg_eq_natDegree]
    exact leadingCoeff_ne_zero.mpr h
  exact hcoeff (coeff_ofList_of_le (by omega))

theorem sum_coef_monomials (b : Poly F) :
    ((List.range (b.deg + 1)).map (fun j => C (b.coef j) * X ^ j)).sum = b.toPoly := by
  apply sum_range_monomials
  rw [deg_eq_natDegree]
  exact lt_of_le_of_lt degree_le_natDegree (by exact_mod_cast Nat.lt_succ_self _)

theorem ofList_quoRemStep_rem (b : Poly F) (i : ℕ) (qi : F) (r : List F)
    (h : i + b.deg + 1 ≤ r.length) :
    ofList ((List.range (b.deg + 1)).foldl (fun r j => r.modify (i + j) (· - qi * b.coef j)) r) =
      ofList r - C qi * X ^ i * b.toPoly := by
  have hfold : (List.range (b.deg + 1)).foldl
      (fun r j => r.modify (i + j) (· - qi * b.coef j)) r =
        accumulate (List.range (b.deg + 1)) (fun j => i + j) (fun j => -(qi * b.coef j)) r := by
    simp only [accumulate, sub_eq_add_neg]
  have hmon : (List.range (b.deg + 1)).map (fun j => C (-(qi * b.coef j)) * X ^ (i + j)) =
      (List.range (b.deg + 1)).map (fun j => -(C qi * X ^ i) * (C (b.coef j) * X ^ j)) := by
    apply List.map_congr_left
    intro j _
    rw [C_neg, C_mul]
    ring
  rw [hfold, ofList_accumulate, hmon, List.sum_map_mul_left, sum_coef_monomials]
  · ring
  · intro j hj
    have := List.mem_range.mp hj
    omega

theorem quoRemStep_invariant {a b : Poly F} {m : ℕ} {s : List F × List F} (ha : a.toPoly ≠ 0)
    (hb : b.toPoly ≠ 0) (hm : m + b.deg ≤ a.deg) (h : QuoRemInvariant a b (m + 1) s) :
    QuoRemInvariant a b m
      (quoRemStep b (b.deg + 1) (b.highestCoefficient)⁻¹ m s) := by
  have hlen := length_le_of_deg a ha
  have hlead : b.toPoly.coeff b.deg = b.highestCoefficient := by
    rw [deg_eq_natDegree, highestCoefficient_eq]
    rfl
  have hlead0 : b.highestCoefficient ≠ 0 := by
    rw [highestCoefficient_eq]
    exact leadingCoeff_ne_zero.mpr hb
  set qi := s.2.getD (m + (b.deg + 1) - 1) 0 * (b.highestCoefficient)⁻¹ with hqi
  have hqi' : (ofList s.2).coeff (m + b.deg) = qi * b.highestCoefficient := by
    rw [hqi, coeff_ofList, show m + (b.deg + 1) - 1 = m + b.deg by omega, mul_assoc,
      inv_mul_cancel₀ hlead0, mul_one]
  have hrem := ofList_quoRemStep_rem b m qi s.2 (by rw [h.length_rem]; omega)
  have hquo : ofList (s.1.set m qi) = ofList s.1 + C qi * X ^ m :=
    ofList_set_of_zero (by rw [h.length_quo]; omega) (h.quo_zero m (by omega))
  constructor
  · change ofList (s.1.set m qi) * b.toPoly + ofList (List.foldl _ s.2 _) = _
    rw [hrem, hquo, ← h.identity]
    ring
  · simpa [quoRemStep] using h.length_quo
  · have hfoldlen : ∀ (js : List ℕ) (r : List F),
        (js.foldl (fun r j => r.modify (m + j) (· - qi * b.coef j)) r).length = r.length := by
      intro js
      induction js with
      | nil => intro r; rfl
      | cons j js ih => intro r; simp [ih]
    exact (hfoldlen _ _).trans h.length_rem
  · intro i hi
    change (s.1.set m qi).getD i 0 = 0
    rw [List.getD_eq_getElem?_getD, List.getElem?_set_ne (by omega)]
    exact h.quo_zero i (by omega)
  · intro k hk
    change (ofList (List.foldl _ s.2 _)).coeff k = 0
    rw [hrem, coeff_sub, mul_assoc, coeff_C_mul, coeff_X_pow_mul']
    rcases Nat.eq_or_lt_of_le hk with rfl | hlt
    · rw [if_pos (by omega), hqi', Nat.add_sub_cancel_left, hlead, sub_self]
    · have hbz : b.toPoly.coeff (k - m) = 0 := by
        apply coeff_eq_zero_of_natDegree_lt
        rw [← deg_eq_natDegree]
        omega
      rw [h.rem_zero k (by omega), if_pos (by omega), hbz, mul_zero, sub_zero]

theorem quoRemLoop_invariant {a b : Poly F} (ha : a.toPoly ≠ 0) (hb : b.toPoly ≠ 0) (m : ℕ)
    (s : List F × List F) (hm : m = 0 ∨ m - 1 + b.deg ≤ a.deg) (h : QuoRemInvariant a b m s) :
    QuoRemInvariant a b 0 (quoRemLoop b (b.deg + 1) (b.highestCoefficient)⁻¹ m s) := by
  induction m generalizing s with
  | zero => exact h
  | succ m ih =>
    have hle : m + b.deg ≤ a.deg := by omega
    exact ih _ (by omega) (quoRemStep_invariant ha hb hle h)

/-- Division by a nonzero polynomial succeeds with a quotient and a remainder of lower degree. -/
theorem quoRem_eq_ok (a : Poly F) {b : Poly F} (hb : b.toPoly ≠ 0) :
    ∃ q r, quoRem a b = .ok (q, r) ∧ a.toPoly = q.toPoly * b.toPoly + r.toPoly ∧
      r.toPoly.degree < b.toPoly.degree := by
  have hb' : ¬ (b.deg + 1 = 1 ∧ b.coef 0 = 0) := fun h => hb ((deg_zero_and_coef_zero_iff b).mp h)
  by_cases ha : a.toPoly = 0
  · refine ⟨zero, zero, ?_, ?_, ?_⟩
    · rw [quoRem, if_neg hb', if_pos ((deg_zero_and_coef_zero_iff a).mpr ha)]
      rfl
    · simp [ha]
    · simpa using bot_lt_iff_ne_bot.mpr (mt degree_eq_bot.mp hb)
  · have ha' : ¬ (a.deg + 1 = 1 ∧ a.coef 0 = 0) :=
      fun h => ha ((deg_zero_and_coef_zero_iff a).mp h)
    have hlead0 : b.highestCoefficient ≠ 0 := by
      rw [highestCoefficient_eq]
      exact leadingCoeff_ne_zero.mpr hb
    set rounds := if b.deg + 1 ≤ a.deg + 1 then a.deg + 1 - (b.deg + 1) + 1 else 0 with hrounds
    set s := quoRemLoop b (b.deg + 1) (b.highestCoefficient)⁻¹ rounds
      (List.replicate (a.deg + 1) 0, a.coefs) with hs
    have hinit : QuoRemInvariant a b rounds (List.replicate (a.deg + 1) 0, a.coefs) := by
      refine ⟨by simp [toPoly], by simp, rfl, ?_, ?_⟩
      · intro i _
        by_cases hi : i < a.deg + 1 <;> simp [List.getD_eq_getElem?_getD, hi]
      · intro k hk
        change a.toPoly.coeff k = 0
        apply coeff_eq_zero_of_natDegree_lt
        rw [← deg_eq_natDegree]
        split_ifs at hrounds <;> omega
    have hfinal : QuoRemInvariant a b 0 s :=
      quoRemLoop_invariant ha hb rounds _ (by split_ifs at hrounds <;> omega) hinit
    refine ⟨fromCoefs s.1, fromCoefs s.2, ?_, ?_, ?_⟩
    · rw [quoRem, if_neg hb', if_neg ha', fieldInvert_of_ne hlead0]
      rfl
    · rw [toPoly_fromCoefs, toPoly_fromCoefs, hfinal.identity]
    · rw [toPoly_fromCoefs, degree_eq_natDegree hb, degree_lt_iff_coeff_zero]
      intro k hk
      exact hfinal.rem_zero k (by rw [deg_eq_natDegree]; omega)

end Poly

end ThresholdKms
