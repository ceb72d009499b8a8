import Mathlib.Data.BitVec
import Mathlib.Tactic

/-!
# Wrapping integers

The base rings of the source are the integers modulo `2 ^ 64` and `2 ^ 128`. The lemmas relate
multiplication by powers of two to divisibility of the representative and to its bits.
-/

namespace ThresholdKms

inductive BaseRing where
  | z64
  | z128
  deriving DecidableEq, Repr

/-- The width `Z::BIT_LENGTH`. -/
def BaseRing.bits : BaseRing → ℕ
  | .z64 => 64
  | .z128 => 128

theorem BaseRing.bits_pos (z : BaseRing) : 0 < z.bits := by cases z <;> decide

variable {w : ℕ}

theorem toNat_two_pow_mul (i : ℕ) (x : BitVec w) :
    ((2 : BitVec w) ^ i * x).toNat = 2 ^ i * x.toNat % 2 ^ w := by
  have hpow : (2 : BitVec w) ^ i = ((2 ^ i : ℕ) : BitVec w) := by push_cast; rfl
  rw [hpow, BitVec.natCast_eq_ofNat, BitVec.toNat_mul, BitVec.toNat_ofNat, Nat.mod_mul_mod]

variable {i : ℕ}

theorem two_pow_dvd_iff (hi : i ≤ w) (x : BitVec w) :
    (2 : BitVec w) ^ i ∣ x ↔ 2 ^ i ∣ x.toNat := by
  constructor
  · rintro ⟨y, rfl⟩
    rw [toNat_two_pow_mul]
    exact (Nat.dvd_mod_iff (pow_dvd_pow 2 hi)).mpr (Nat.dvd_mul_right _ _)
  · rintro ⟨k, hk⟩
    refine ⟨BitVec.ofNat w k, ?_⟩
    apply BitVec.eq_of_toNat_eq
    rw [toNat_two_pow_mul, BitVec.toNat_ofNat, Nat.mul_mod_mod, ← hk, Nat.mod_eq_of_lt x.isLt]

theorem getLsbD_two_pow_mul (hi : i < w) (x : BitVec w) :
    ((2 : BitVec w) ^ i * x).getLsbD i = x.getLsbD 0 := by
  rw [← BitVec.testBit_toNat, ← BitVec.testBit_toNat, toNat_two_pow_mul, Nat.testBit_mod_two_pow,
    Nat.testBit_two_pow_mul]
  simp [hi]

theorem two_dvd_iff_getLsbD (hw : 0 < w) (x : BitVec w) :
    (2 : BitVec w) ∣ x ↔ x.getLsbD 0 = false := by
  have h := two_pow_dvd_iff (i := 1) (by omega) x
  rw [pow_one] at h
  rw [h, ← BitVec.testBit_toNat]
  simp [Nat.dvd_iff_mod_eq_zero]

theorem getLsbD_zero_of_two_pow_mul_eq_zero (hi : i < w) {x : BitVec w}
    (h : (2 : BitVec w) ^ i * x = 0) : x.getLsbD 0 = false := by
  rw [← getLsbD_two_pow_mul hi x, h]
  simp

theorem two_pow_width_eq_zero : (2 : BitVec w) ^ w = 0 := by
  have h := toNat_two_pow_mul (w := w) w 1
  rw [mul_one] at h
  apply BitVec.eq_of_toNat_eq
  rw [h]
  simp

/-- The mask test of the source: no bit below position `i` is set. -/
theorem and_mask_eq_zero_iff (hi : i < w) (x : BitVec w) :
    x &&& (((1 : BitVec w) <<< i) - 1) = 0 ↔ (2 : BitVec w) ^ i ∣ x := by
  have hmask : (((1 : BitVec w) <<< i) - 1).toNat = 2 ^ i - 1 := by
    have hlt : 2 ^ i < 2 ^ w := Nat.pow_lt_pow_right (by norm_num) hi
    have hone : (1 : BitVec w).toNat = 1 := by
      simp [Nat.mod_eq_of_lt (Nat.one_lt_two_pow (by omega : w ≠ 0))]
    have hshift : ((1 : BitVec w) <<< i).toNat = 2 ^ i := by
      rw [BitVec.toNat_shiftLeft, hone, Nat.one_shiftLeft, Nat.mod_eq_of_lt hlt]
    have hle : (1 : BitVec w) ≤ (1 : BitVec w) <<< i := by
      rw [BitVec.le_def, hone, hshift]
      exact Nat.one_le_two_pow
    rw [BitVec.toNat_sub_of_le hle, hone, hshift]
  rw [two_pow_dvd_iff hi.le, ← BitVec.toNat_inj, BitVec.toNat_and, hmask, Nat.dvd_iff_mod_eq_zero]
  simp

section Residue

variable {F : Type*} [Field F]

theorem cast_mod_two_pow (hw : 0 < w) (h2 : (2 : F) = 0) (m : ℕ) :
    ((m % 2 ^ w : ℕ) : F) = (m : F) := by
  have hpow : ((2 ^ w : ℕ) : F) = 0 := by
    push_cast
    rw [h2, zero_pow (by omega)]
  conv_rhs => rw [← Nat.mod_add_div m (2 ^ w)]
  rw [Nat.cast_add, Nat.cast_mul, hpow, zero_mul, add_zero]

/-- The reduction of a wrapping integer modulo two, in a field of characteristic two. -/
def bitHom (hw : 0 < w) (h2 : (2 : F) = 0) : BitVec w →+* F where
  toFun x := (x.toNat : F)
  map_zero' := by simp
  map_one' := by simp [Nat.mod_eq_of_lt (Nat.one_lt_two_pow (by omega : w ≠ 0))]
  map_add' x y := by
    rw [BitVec.toNat_add, ← Nat.cast_add]
    exact cast_mod_two_pow hw h2 _
  map_mul' x y := by
    rw [BitVec.toNat_mul, ← Nat.cast_mul]
    exact cast_mod_two_pow hw h2 _

theorem bitHom_apply (hw : 0 < w) (h2 : (2 : F) = 0) (x : BitVec w) :
    bitHom hw h2 x = if x.getLsbD 0 then 1 else 0 := by
  change (x.toNat : F) = _
  rw [← Nat.mod_add_div x.toNat 2, Nat.cast_add, Nat.cast_mul, Nat.cast_ofNat, h2, zero_mul,
    ← BitVec.testBit_toNat]
  rcases Nat.mod_two_eq_zero_or_one x.toNat with h | h
  · simp [h]
  · simp [h]

end Residue

end ThresholdKms
