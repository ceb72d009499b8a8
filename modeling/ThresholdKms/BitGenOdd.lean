import ThresholdKms.BgvLevels
import ThresholdKms.NoiseFlooding

/-!
# Square roots modulo the largest prime

The algorithm of Tonelli and Shanks, in a field with `2 ^ pow2 * oddDiv` units. Each round multiplies
the root by a correction that lowers the order of the error; the order is a power of two.
-/

namespace ThresholdKms

section Algorithm

variable {F : Type} [CommRing F] [DecidableEq F]

/-- The constants that belong to a prime: `nonResidue` is the power `oddDiv` of a non-residue. -/
structure SqrtConstants (F : Type) where
  oddDiv : ℕ
  oddDivPlusOneDivTwo : ℕ
  nonResidue : F
  pow2 : ℕ

/-- The least `i` from the given one on for which the power `2 ^ i` of `t` is one. -/
def leastPower (t : F) : ℕ → ℕ → Outcome ℕ
  | 0, _ => Outcome.panic "attempt to shift left with overflow"
  | fuel + 1, i => if t ^ (2 ^ i) = 1 then .ok i else leastPower t fuel (i + 1)

/-- The loop; the exponent `m` falls in each round. -/
def sqrtLoop : ℕ → ℕ → F → F → F → Outcome F
  | 0, _, _, t, r => if t = 1 then .ok r else Outcome.panic "assertion failed: i < m"
  | fuel + 1, m, c, t, r =>
    if t = 1 then .ok r
    else do
      let i ← leastPower t 127 1
      if i < m then
        let b := c ^ (2 ^ (m - i - 1))
        if t * (b * b) = 0 then Outcome.panic "assertion failed: t != FieldR::ZERO"
        else sqrtLoop fuel i (b * b) (t * (b * b)) (r * b)
      else Outcome.panic "assertion failed: i < m"

def fieldSqrt (k : SqrtConstants F) (v : F) : Outcome F :=
  sqrtLoop k.pow2 k.pow2 k.nonResidue (v ^ k.oddDiv) (v ^ k.oddDivPlusOneDivTwo)

end Algorithm

variable {F : Type} [Field F] [DecidableEq F]

structure SqrtConstants.Valid [Fintype F] (k : SqrtConstants F) : Prop where
  pow2_pos : 0 < k.pow2
  pow2_le : k.pow2 ≤ 127
  card_units : Fintype.card F - 1 = 2 ^ k.pow2 * k.oddDiv
  half : k.oddDiv + 1 = 2 * k.oddDivPlusOneDivTwo
  order : k.nonResidue ^ (2 ^ (k.pow2 - 1)) = -1

theorem leastPower_eq_ok {t : F} {fuel i j : ℕ} (hij : i ≤ j) (hj : j < i + fuel)
    (hone : t ^ (2 ^ j) = 1) :
    ∃ l, leastPower t fuel i = .ok l ∧ i ≤ l ∧ l ≤ j ∧ t ^ (2 ^ l) = 1 ∧
      ∀ l', i ≤ l' → l' < l → t ^ (2 ^ l') ≠ 1 := by
  induction fuel generalizing i with
  | zero => omega
  | succ fuel ih =>
    unfold leastPower
    by_cases hi : t ^ (2 ^ i) = 1
    · rw [if_pos hi]
      exact ⟨i, rfl, le_rfl, hij, hi, fun l' h h' => absurd h' (not_lt.mpr h)⟩
    · rw [if_neg hi]
      have hne : i ≠ j := fun heq => hi (heq ▸ hone)
      obtain ⟨l, hok, hle, hlj, hl, hmin⟩ := ih (i := i + 1) (by omega) (by omega)
      refine ⟨l, hok, by omega, hlj, hl, fun l' hil' hl' => ?_⟩
      by_cases heq : l' = i
      · exact heq ▸ hi
      · exact hmin l' (by omega) hl'

/-- What each round keeps: the square of the root is the value times the error, and the error has
half of the order that is left. -/
structure SqrtInvariant (v : F) (m : ℕ) (c t r : F) : Prop where
  pos : 0 < m
  square : r * r = t * v
  error : t ^ (2 ^ (m - 1)) = 1
  correction : c ^ (2 ^ (m - 1)) = -1

omit [DecidableEq F] in
theorem pow_two_pow_mul (x : F) (a b : ℕ) : (x ^ (2 ^ a)) ^ (2 ^ b) = x ^ (2 ^ (a + b)) := by
  rw [← pow_mul, ← pow_add]

omit [DecidableEq F] in
theorem pow_pred_eq_neg_one {t : F} {i : ℕ} (hi : 1 ≤ i) (hne : t ≠ 1) (hone : t ^ (2 ^ i) = 1)
    (hmin : ∀ l', 1 ≤ l' → l' < i → t ^ (2 ^ l') ≠ 1) : t ^ (2 ^ (i - 1)) = -1 := by
  have hsq : t ^ (2 ^ (i - 1)) * t ^ (2 ^ (i - 1)) = 1 := by
    rw [← sq, ← pow_mul, ← pow_succ, Nat.sub_add_cancel hi, hone]
  rcases mul_self_eq_one_iff.mp hsq with hpos | hneg
  · exfalso
    by_cases h : i = 1
    · rw [h] at hpos
      exact hne (by simpa using hpos)
    · exact hmin (i - 1) (by omega) (by omega) hpos
  · exact hneg

omit [DecidableEq F] in
theorem SqrtInvariant.step {v : F} {m : ℕ} {c t r : F} (h : SqrtInvariant v m c t r) {i : ℕ}
    (hi : 1 ≤ i) (him : i < m) (ht : t ^ (2 ^ (i - 1)) = -1) :
    SqrtInvariant v i (c ^ (2 ^ (m - i - 1)) * c ^ (2 ^ (m - i - 1)))
      (t * (c ^ (2 ^ (m - i - 1)) * c ^ (2 ^ (m - i - 1)))) (r * c ^ (2 ^ (m - i - 1))) := by
  have hcc : c ^ (2 ^ (m - i - 1)) * c ^ (2 ^ (m - i - 1)) = c ^ (2 ^ (m - i)) := by
    rw [← sq, ← pow_mul, ← pow_succ, show m - i - 1 + 1 = m - i by omega]
  have hcorrection : (c ^ (2 ^ (m - i - 1)) * c ^ (2 ^ (m - i - 1))) ^ (2 ^ (i - 1)) = -1 := by
    rw [hcc, pow_two_pow_mul, show m - i + (i - 1) = m - 1 by omega, h.correction]
  refine ⟨hi, ?_, ?_, hcorrection⟩
  · calc r * c ^ (2 ^ (m - i - 1)) * (r * c ^ (2 ^ (m - i - 1)))
        = r * r * (c ^ (2 ^ (m - i - 1)) * c ^ (2 ^ (m - i - 1))) := by ring
      _ = t * (c ^ (2 ^ (m - i - 1)) * c ^ (2 ^ (m - i - 1))) * v := by rw [h.square]; ring
  · rw [mul_pow, hcorrection, ht]
    ring

theorem sqrtLoop_correct {v : F} {fuel m : ℕ} {c t r : F} (hfuel : m ≤ fuel) (hm : m ≤ 127)
    (h : SqrtInvariant v m c t r) : ∃ root, sqrtLoop fuel m c t r = .ok root ∧ root * root = v := by
  induction fuel generalizing m c t r with
  | zero => exact absurd h.pos (by omega)
  | succ fuel ih =>
    unfold sqrtLoop
    by_cases hone : t = 1
    · rw [if_pos hone]
      exact ⟨r, rfl, by rw [h.square, hone, one_mul]⟩
    · rw [if_neg hone]
      have hm1 : 1 ≤ m - 1 := by
        by_contra hlt
        have hzero : m - 1 = 0 := by omega
        have herror := h.error
        rw [hzero] at herror
        exact hone (by simpa using herror)
      obtain ⟨i, hok, hi, him, hpow, hmin⟩ := leastPower_eq_ok hm1 (by omega : m - 1 < 1 + 127) h.error
      have hneg := pow_pred_eq_neg_one hi hone hpow hmin
      have hnext := h.step hi (by omega) hneg
      have hne : t * (c ^ (2 ^ (m - i - 1)) * c ^ (2 ^ (m - i - 1))) ≠ 0 := by
        intro hzero
        have herror := hnext.error
        rw [hzero, zero_pow (pow_pos two_pos _).ne'] at herror
        exact zero_ne_one herror
      rw [hok, Outcome.ok_bind, if_pos (by omega)]
      rw [if_neg hne]
      exact ih (by omega) (by omega) hnext

/-- The square of a unit has a root, and it is found. -/
theorem fieldSqrt_correct [Fintype F] {k : SqrtConstants F} (hk : k.Valid) {a : F} (ha : a ≠ 0) :
    ∃ root, fieldSqrt k (a * a) = .ok root ∧ root * root = a * a := by
  refine sqrtLoop_correct le_rfl hk.pow2_le ⟨hk.pow2_pos, ?_, ?_, hk.order⟩
  · rw [← pow_add, ← two_mul, ← hk.half, pow_succ]
  · have hexp : 2 * k.oddDiv * 2 ^ (k.pow2 - 1) = Fintype.card F - 1 := by
      rw [hk.card_units, mul_comm 2, mul_assoc, ← pow_succ', Nat.sub_add_cancel hk.pow2_pos, mul_comm]
    rw [← sq, ← pow_mul, ← pow_mul, ← mul_assoc, hexp]
    exact FiniteField.pow_card_sub_one_eq_one a ha

/-!
## Random bits for an odd modulus

A random element is squared and the square is opened; its quotient by the root of the square modulo
the largest prime `R` is a random sign modulo `R`, but anything modulo the other primes. The bit is
masked by a number that is short compared to `R` and opened modulo `QR`.
-/

open Outcome

variable {Q R : ℕ} (v : ZMod (Q * R))

def modLargestPrime : ZMod (Q * R) := ((v.val % R : ℕ) : ZMod (Q * R))

def largestPrimeFactorNonZero : Prop := modLargestPrime v ≠ 0

/-- The projection to the field of the largest prime. -/
def toFieldR : ZMod R := ((v.val % R : ℕ) : ZMod R)

variable {n : ℕ}

def invert (v : ZMod n) : Outcome (ZMod n) :=
  if v.val.Coprime n then .ok v⁻¹ else Outcome.err s!"Could not invert {v.val}"

/-- The values that are opened for a bit. -/
structure OpenedBit (Q R : ℕ) where
  square : ZMod (Q * R)
  masked : ZMod (Q * R)

/-- One bit, from a random element whose square is not zero modulo `R`. -/
def genBitOdd (k : SqrtConstants (ZMod R)) (a r : ZMod (Q * R)) :
    Outcome (OpenedBit Q R × ZMod (Q * R)) := do
  let twoInv ← invert (2 : ℕ)
  let s := a * a
  let root ← fieldSqrt k (toFieldR s)
  let cInv ← invert (root.val : ZMod (Q * R))
  let v := a * cInv
  let b := (v + 1) * twoInv
  let c := b + r
  return (⟨s, c⟩, modLargestPrime c - r)

/-- The largest mask: two values for each set, after the shift that makes them positive. -/
def maskBound (n t : ℕ) : ℕ := n.choose t * (2 ^ (statsec + 2) - 2)

/-- No other element and mask explain what is opened with the opposite bit. -/
def Revealing (k : SqrtConstants (ZMod R)) (bound : ℕ) (a : ZMod (Q * R)) (r : ℕ) : Prop :=
  ∃ opened bit, genBitOdd k a r = .ok (opened, bit) ∧
    ∀ (a' : ZMod (Q * R)) (r' : ℕ), r' ≤ bound → genBitOdd k a' r' ≠ .ok (opened, 1 - bit)

theorem mul_inv_of_coprime {v : ZMod n} (h : v.val.Coprime n) : v * v⁻¹ = 1 := by
  rw [ZMod.mul_inv_eq_gcd, h]
  exact Nat.cast_one

theorem coprime_two (hodd : Odd n) : (2 : ZMod n).val.Coprime n := by
  have hcast : (2 : ZMod n).val = 2 % n := by
    have h := ZMod.val_natCast n 2
    exact_mod_cast h
  rw [hcast, Nat.Coprime, ← Nat.gcd_rec]
  exact Nat.coprime_two_right.mpr hodd

theorem invert_eq_ok_iff {v u : ZMod n} :
    invert v = .ok u ↔ v.val.Coprime n ∧ v⁻¹ = u := by
  unfold invert
  split_ifs with h
  · rw [Except.ok.injEq, and_iff_right h]
  · simp [h, err]

variable {k : SqrtConstants (ZMod R)} {opened : OpenedBit Q R} {bit : ZMod (Q * R)}

theorem genBitOdd_eq_ok {a r : ZMod (Q * R)}
    (h : genBitOdd k a r = .ok (opened, bit)) :
    ∃ root, fieldSqrt k (toFieldR (a * a)) = .ok root ∧
      (root.val : ZMod (Q * R)).val.Coprime (Q * R) ∧ opened.square = a * a ∧
      opened.masked = (a * (root.val : ZMod (Q * R))⁻¹ + 1) * 2⁻¹ + r ∧
      bit = modLargestPrime opened.masked - r := by
  obtain ⟨twoInv, htwo, h⟩ := bind_eq_ok.mp h
  obtain ⟨root, hroot, h⟩ := bind_eq_ok.mp h
  obtain ⟨cInv, hinv, h⟩ := bind_eq_ok.mp h
  obtain ⟨-, rfl⟩ := invert_eq_ok_iff.mp htwo
  obtain ⟨hcoprime, rfl⟩ := invert_eq_ok_iff.mp hinv
  obtain ⟨rfl, rfl⟩ := Prod.mk.inj (Except.ok.inj h)
  exact ⟨root, hroot, hcoprime, rfl, by rw [Nat.cast_ofNat], rfl⟩

theorem genBitOdd_of_root (hodd : Odd (Q * R)) {a : ZMod (Q * R)}
    {root : ZMod R} (hroot : fieldSqrt k (toFieldR (a * a)) = .ok root)
    (hcoprime : (root.val : ZMod (Q * R)).val.Coprime (Q * R)) (r : ZMod (Q * R)) :
    genBitOdd k a r = .ok (⟨a * a, (a * (root.val : ZMod (Q * R))⁻¹ + 1) * 2⁻¹ + r⟩,
      modLargestPrime ((a * (root.val : ZMod (Q * R))⁻¹ + 1) * 2⁻¹ + r) - r) := by
  have htwo : invert (2 : ZMod (Q * R)) = .ok 2⁻¹ := invert_eq_ok_iff.mpr ⟨coprime_two hodd, rfl⟩
  have hinv := invert_eq_ok_iff.mpr ⟨hcoprime, rfl⟩
  unfold genBitOdd
  simp only [Nat.cast_ofNat, htwo, ok_bind, hroot, hinv]
  rfl

theorem eq_sign_of_squares {A : Type*} [CommRing A] {v v' sign half : A} (htwo : 2 * half = 1)
    (hsign : sign * sign = 1) (hdiff : v - v' = 2 * sign) (hsquares : v' * v' = v * v) :
    v = sign := by
  have hv' : v' = v - 2 * sign := by linear_combination -hdiff
  have hfour : 4 * (sign * v) = 4 := by
    rw [hv'] at hsquares
    linear_combination 4 * hsign - hsquares
  have hone : sign * v = 1 := by
    linear_combination half * half * hfour - (sign * v - 1) * (2 * half + 1) * htwo
  linear_combination sign * hone - v * hsign

/-- Two elements with opposite bits and the same opened values are the root itself and its
negative. -/
theorem eq_root_of_opposite (hodd : Odd (Q * R)) {a a' r r' : ZMod (Q * R)}
    (hbit : bit = 0 ∨ bit = 1) (h : genBitOdd k a r = .ok (opened, bit))
    (h' : genBitOdd k a' r' = .ok (opened, 1 - bit)) {root : ZMod R}
    (hroot : fieldSqrt k (toFieldR (a * a)) = .ok root) :
    a = root.val ∨ a = -(root.val : ZMod (Q * R)) := by
  obtain ⟨root₁, hroot₁, hcoprime, hsquare, hmasked, hx⟩ := genBitOdd_eq_ok h
  obtain ⟨root₂, hroot₂, -, hsquare', hmasked', hx'⟩ := genBitOdd_eq_ok h'
  obtain rfl : root₁ = root := Except.ok.inj (hroot₁.symm.trans hroot)
  have hsq : a' * a' = a * a := hsquare'.symm.trans hsquare
  obtain rfl : root₂ = root₁ := by
    rw [hsq] at hroot₂
    exact Except.ok.inj (hroot₂.symm.trans hroot₁)
  have hc := mul_inv_of_coprime hcoprime
  have htwo := mul_inv_of_coprime (coprime_two hodd)
  generalize (root₂.val : ZMod (Q * R)) = c at *
  generalize (2 : ZMod (Q * R))⁻¹ = half at *
  -- the difference of the masks is the difference of the bits, which is a sign
  have hshift : r' - r = 2 * bit - 1 := by linear_combination hx' - hx
  have hdiff : a * c⁻¹ - a' * c⁻¹ = 2 * (2 * bit - 1) := by
    linear_combination 2 * hmasked' - 2 * hmasked + 2 * hshift -
      (a * c⁻¹ - a' * c⁻¹) * htwo
  have hsign : (2 * bit - 1) * (2 * bit - 1) = 1 := by
    rcases hbit with rfl | rfl
    · ring
    · ring
  have hsquares : a' * c⁻¹ * (a' * c⁻¹) = a * c⁻¹ * (a * c⁻¹) := by
    linear_combination c⁻¹ * c⁻¹ * hsq
  have hroots := eq_sign_of_squares htwo hsign hdiff hsquares
  have ha : a = (2 * bit - 1) * c := by
    rw [← hroots, mul_assoc, mul_comm c⁻¹, hc, mul_one]
  rcases hbit with rfl | rfl
  · exact Or.inr (by rw [ha]; ring)
  · exact Or.inl (by rw [ha]; ring)

end ThresholdKms
