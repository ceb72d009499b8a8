import ThresholdKms.Outcome

/-!
# Rounded division

The integers of a ciphertext have a sign and a magnitude below `2 ^ 2304`. A quotient is rounded up
if the remainder is at least half of the divisor, but that half is itself rounded down. For an odd
divisor one remainder is therefore rounded up although it is nearer to zero. A change of the modulus
to a divisor of it does not meet that remainder.
-/

namespace ThresholdKms

/-- The bound of `U2304`. -/
def uintBound : ℕ := 2 ^ 2304

theorem two_pow_le_uintBound {k : ℕ} (h : k ≤ 2304) : 2 ^ k ≤ uintBound := by
  rw [uintBound]
  gcongr
  decide

structure IntQ where
  isNegative : Bool
  data : ℕ
  lt : data < uintBound

namespace IntQ

def toInt (x : IntQ) : ℤ := if x.isNegative then -x.data else x.data

def fromU64 (value : UInt64) : IntQ :=
  ⟨false, value.toNat, value.toNat_lt.trans_le (two_pow_le_uintBound (by decide))⟩

/-- The result of an operation of the library of big integers, which panics on overflow. -/
def checked (operation : String) (isNegative : Bool) (data : ℕ) : Outcome IntQ :=
  if h : data < uintBound then .ok ⟨isNegative, data, h⟩
  else Outcome.panic s!"attempted to {operation} with overflow"

def mul (x rhs : IntQ) : Outcome IntQ :=
  let ret := x.data * rhs.data
  checked "multiply" ((x.isNegative != rhs.isNegative) && ret != 0) ret

/-- The quotient of the magnitudes, one more if the remainder is at least half of the divisor. -/
def roundedQuotient (x rhs : ℕ) : ℕ :=
  let halfRhs := rhs >>> 1
  if halfRhs ≤ x % rhs then x / rhs + 1 else x / rhs

/-- The library's panic for a divisor of zero is named by the expression that raises it. -/
def divAndRound (x rhs : IntQ) : Outcome IntQ :=
  if rhs.data = 0 then Outcome.panic "rhs.data.to_nz().unwrap()"
  else
    let q := roundedQuotient x.data rhs.data
    checked "add" (x.isNegative && q != 0) q

/-- How a coefficient is scaled: by the new modulus when the modulus is switched, and by the
plaintext modulus in the decryption. -/
def scaleAndRound (coef factor modulus : IntQ) : Outcome IntQ := do
  (← coef.mul factor).divAndRound modulus

/-- A nearest integer to the quotient, and of two the one away from zero. -/
def Nearest (x y z : ℤ) : Prop := 2 * |x - y * z| ≤ y ∧ (2 * |x - y * z| = y → |x| < |y * z|)

theorem nearest_neg {x y z : ℤ} : Nearest (-x) y (-z) ↔ Nearest x y z := by
  unfold Nearest
  rw [mul_neg, neg_sub_neg, abs_sub_comm, abs_neg, abs_neg]

/-- Between natural numbers, the distance and the direction of a tie are those of the product. -/
theorem nearest_natCast {x y z : ℕ} : Nearest x y z ↔
    2 * ((x : ℤ) - (y * z : ℕ)).natAbs ≤ y ∧
      (2 * ((x : ℤ) - (y * z : ℕ)).natAbs = y → x < y * z) := by
  rw [Nearest, ← Nat.cast_mul, Int.abs_eq_natAbs, Nat.abs_cast, Nat.abs_cast, Nat.cast_lt]
  norm_cast

theorem nearest_roundedQuotient_iff {x y : ℕ} (hy : 0 < y) :
    Nearest x y (roundedQuotient x y) ↔ Even y ∨ x % y ≠ y / 2 := by
  have hmod := Nat.mod_lt x hy
  have hdiv := Nat.div_add_mod x y
  rw [nearest_natCast, Nat.even_iff, roundedQuotient, Nat.shiftRight_eq_div_pow, pow_one]
  split_ifs with hhalf
  · rw [Nat.mul_succ]
    omega
  · omega

theorem nearest_signed_iff {x : IntQ} {y : ℤ} {q : ℕ} (h : q < uintBound) :
    Nearest x.toInt y (toInt ⟨x.isNegative && q != 0, q, h⟩) ↔ Nearest x.data y q := by
  unfold toInt
  cases x.isNegative with
  | false => rfl
  | true =>
    rw [← nearest_neg]
    by_cases hq : q = 0
    · simp [hq]
    · simp [hq]

/-- Only the divisor one can overflow. -/
theorem roundedQuotient_lt {x y : ℕ} (hx : x < uintBound) (hy : 1 < y) :
    roundedQuotient x y < uintBound := by
  have hle : x / y ≤ x / 2 := Nat.div_le_div_left hy (by decide)
  have hbound := @two_pow_le_uintBound 1 (by decide)
  unfold roundedQuotient
  dsimp only
  split_ifs <;> omega

variable {y : IntQ}

theorem toInt_of_pos (hy : 0 < y.toInt) : y.toInt = y.data ∧ 0 < y.data := by
  unfold toInt at *
  split_ifs at * <;> omega

theorem exists_nearest_iff (x : IntQ) (hy : 0 < y.data) :
    (∃ z, x.divAndRound y = .ok z ∧ Nearest x.toInt y.data z.toInt) ↔
      Even y.data ∨ x.data % y.data ≠ y.data / 2 := by
  rw [divAndRound, if_neg hy.ne', checked]
  by_cases hlt : roundedQuotient x.data y.data < uintBound
  · rw [dif_pos hlt, ← nearest_roundedQuotient_iff hy, ← nearest_signed_iff hlt]
    constructor
    · rintro ⟨_, ⟨⟩, h⟩
      exact h
    · exact fun h => ⟨_, rfl, h⟩
  · have hone : y.data = 1 := by
      have hle := mt (roundedQuotient_lt x.lt) hlt
      omega
    rw [dif_neg hlt, hone]
    simp [Outcome.panic, Nat.mod_one]

theorem divAndRound_nearest_iff (x : IntQ) (hy : 0 < y.toInt) :
    (∃ z, x.divAndRound y = .ok z ∧ Nearest x.toInt y.toInt z.toInt) ↔
      Even y.data ∨ x.data % y.data ≠ y.data / 2 := by
  obtain ⟨hdata, hpos⟩ := toInt_of_pos hy
  rw [hdata, exists_nearest_iff x hpos]

/-- A scaled coefficient is rounded correctly if the factor divides the modulus. -/
theorem scaleAndRound_nearest {coef factor modulus x : IntQ} (hmodulus : 0 < modulus.toInt)
    (hfactor : 1 < factor.data) (hdvd : factor.data ∣ modulus.data)
    (hmul : coef.mul factor = .ok x) :
    ∃ z, coef.scaleAndRound factor modulus = .ok z ∧
      Nearest x.toInt modulus.toInt z.toInt := by
  have hx : x.data = coef.data * factor.data := by
    simp only [mul, checked] at hmul
    split_ifs at hmul with h
    · cases hmul
      rfl
    · cases hmul
  obtain ⟨hdata, hpos⟩ := toInt_of_pos hmodulus
  rw [scaleAndRound, hmul, Outcome.ok_bind, hdata, exists_nearest_iff _ hpos, hx,
    or_iff_not_imp_left, Nat.not_even_iff]
  intro hodd hhalf
  have hrem : factor.data ∣ coef.data * factor.data % modulus.data :=
    (Nat.dvd_mod_iff hdvd).mpr (Dvd.intro_left _ rfl)
  have hone : factor.data ∣ modulus.data - 2 * (modulus.data / 2) :=
    Nat.dvd_sub hdvd ((hhalf ▸ hrem).mul_left 2)
  rw [show modulus.data - 2 * (modulus.data / 2) = 1 by omega, Nat.dvd_one] at hone
  omega

theorem scaleAndRound_nearest_seven :
    ∃ z, (fromU64 7).scaleAndRound (fromU64 3) (fromU64 15) = .ok z ∧
      Nearest (fromU64 21).toInt (fromU64 15).toInt z.toInt := by
  have hmul : (fromU64 7).mul (fromU64 3) = .ok (fromU64 21) := by
    rw [mul]
    exact dif_pos (fromU64 21).lt
  exact scaleAndRound_nearest (by decide) (by decide) (by decide) hmul

theorem divAndRound_nearest_neg_eight : ∃ z,
    ({ fromU64 8 with isNegative := true } : IntQ).divAndRound (fromU64 5) = .ok z ∧
      Nearest (-8) 5 z.toInt :=
  (divAndRound_nearest_iff { fromU64 8 with isNegative := true } (by decide)).mpr (by decide)

/-- A third is rounded to one. -/
theorem divAndRound_one_three : (fromU64 1).divAndRound (fromU64 3) = .ok (fromU64 1) := by
  have hquotient : roundedQuotient 1 3 = 1 := by decide
  rw [divAndRound, if_neg (by decide)]
  exact hquotient ▸ dif_pos (fromU64 1).lt

end IntQ

end ThresholdKms
