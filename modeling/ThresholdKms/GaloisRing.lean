import ThresholdKms.DyadicRing
import ThresholdKms.GaloisField

/-!
# Galois rings over wrapping integers

The digits of a Galois ring element are read by `bitCompose`, one bit of every coefficient at a
time, and written by `bitLift`. With them the ring is a dyadic ring over its quotient field, which
is all the decoders use.
-/

namespace ThresholdKms

abbrev GaloisRing (w : ℕ) (e : ExtensionDegree) := ResiduePoly (BitVec w) e

namespace GaloisRing

open ResiduePoly

variable {w : ℕ} {e : ExtensionDegree}

/-- The residue whose coefficients are the bits of `c`. -/
def fromByte (c : ℕ) : GaloisRing w e := ⟨fun j => if c.testBit j then 1 else 0⟩

def getFromExceptionalSequence (idx : ℕ) : Outcome (GaloisRing w e) :=
  if 2 ^ e.deg ≤ idx then
    Outcome.err s!"Value {idx} is too large to be embedded!"
  else
    .ok (fromByte idx)

/-- A shift of the coefficients; the shift amount wraps at the width. -/
def shl (x : GaloisRing w e) (rhs : ℕ) : GaloisRing w e := ⟨fun j => x.coefs j <<< (rhs % w)⟩

def multiplePow2 (x : GaloisRing w e) (exp : ℕ) : Outcome Bool :=
  if w < exp then
    Outcome.panic "assertion failed: exp <= Z::BIT_LENGTH"
  else if exp = w then
    .ok (decide (∀ j, x.coefs j = 0))
  else
    .ok (decide (∀ j, x.coefs j &&& (((1 : BitVec w) <<< exp) - 1) = 0))

section Digits

variable (F : Type) [Field F] [G2p e F]

def bitCompose (x : GaloisRing w e) (idxBit : ℕ) : F :=
  G2p.fromU8 e (Nat.ofBits (fun j : Fin e.deg => (x.coefs j).getLsbD idxBit))

variable {F}

def bitLift (x : F) (pos : ℕ) : GaloisRing w e := shl (fromByte (G2p.toU8 e x)) pos

end Digits

section Lemmas

theorem fromScalar_two_pow_mul (i : ℕ) (x : GaloisRing w e) (j : Fin e.deg) :
    ((2 : GaloisRing w e) ^ i * x).coefs j = (2 : BitVec w) ^ i * x.coefs j := by
  have hpow : (2 : GaloisRing w e) ^ i = fromScalar ((2 : BitVec w) ^ i) := by
    have h := map_pow (scalarHom : BitVec w →+* GaloisRing w e) 2 i
    exact h.symm
  rw [hpow, coefs_fromScalar_mul]

theorem two_pow_dvd_iff_coefs {i : ℕ} (x : GaloisRing w e) :
    (2 : GaloisRing w e) ^ i ∣ x ↔ ∀ j, (2 : BitVec w) ^ i ∣ x.coefs j := by
  constructor
  · rintro ⟨y, rfl⟩ j
    exact ⟨y.coefs j, fromScalar_two_pow_mul i y j⟩
  · intro h
    choose y hy using h
    refine ⟨⟨y⟩, ?_⟩
    ext1
    funext j
    rw [fromScalar_two_pow_mul, hy]

theorem shl_eq {rhs : ℕ} (h : rhs < w) (x : GaloisRing w e) : shl x rhs = 2 ^ rhs * x := by
  ext1
  funext j
  rw [fromScalar_two_pow_mul]
  apply BitVec.eq_of_toNat_eq
  rw [toNat_two_pow_mul]
  simp only [shl, Nat.mod_eq_of_lt h, BitVec.toNat_shiftLeft, Nat.shiftLeft_eq, mul_comm]

theorem multiplePow2_eq {exp : ℕ} (h : exp ≤ w) (x : GaloisRing w e) :
    ∃ b, multiplePow2 x exp = .ok b ∧ (b = true ↔ (2 : GaloisRing w e) ^ exp ∣ x) := by
  unfold multiplePow2
  rw [if_neg (by omega)]
  split_ifs with hexp
  · refine ⟨_, rfl, ?_⟩
    rw [decide_eq_true_eq, hexp, two_pow_dvd_iff_coefs, two_pow_width_eq_zero]
    simp only [zero_dvd_iff]
  · refine ⟨_, rfl, ?_⟩
    rw [decide_eq_true_eq, two_pow_dvd_iff_coefs]
    exact forall_congr' (fun j => and_mask_eq_zero_iff (by omega) (x.coefs j))

instance {z : BaseRing} : Nontrivial (GaloisRing z.bits e) := by
  refine ⟨⟨0, 1, fun h => ?_⟩⟩
  have hcoef : (0 : BitVec z.bits) = 1 :=
    congrArg (fun x : GaloisRing z.bits e => x.coefs ⟨0, e.deg_pos⟩) h
  cases z with
  | z64 => exact absurd hcoef (by decide)
  | z128 => exact absurd hcoef (by decide)

theorem fromByte_zero : (fromByte 0 : GaloisRing w e) = 0 := by
  simp only [fromByte, Nat.zero_testBit, Bool.false_eq_true, if_false]
  rfl

theorem getFromExceptionalSequence_of_lt {idx : ℕ} (h : idx < 2 ^ e.deg) :
    getFromExceptionalSequence idx = .ok (fromByte idx : GaloisRing w e) :=
  if_neg (by omega)

variable {F : Type} [Field F] [G2p e F]

/-- The residue homomorphism reads the low bit of every coefficient. -/
def residueHom (hw : 0 < w) : GaloisRing w e →+* F :=
  valueHom (bitHom hw (G2p.two_eq_zero e)) (G2p.modulusAt_two (F := F) (e := e))

theorem sum_bits_eq_fromU8 (f : Fin e.deg → Bool) :
    (∑ j, if f j then (G2p.fromU8 e 2 : F) ^ (j : ℕ) else 0) = G2p.fromU8 e (Nat.ofBits f) := by
  rw [G2p.fromU8_eq_sum _ (Nat.ofBits_lt_two_pow f)]
  apply Finset.sum_congr rfl
  intro j _
  rw [Nat.testBit_ofBits_lt f j j.isLt]

variable (hw : 0 < w)
include hw

theorem residueHom_eq (x : GaloisRing w e) :
    (residueHom hw x : F) = G2p.fromU8 e (Nat.ofBits (fun j => (x.coefs j).getLsbD 0)) := by
  rw [← sum_bits_eq_fromU8]
  change ∑ j, bitHom hw (G2p.two_eq_zero e) (x.coefs j) * (G2p.fromU8 e 2 : F) ^ (j : ℕ) = _
  apply Finset.sum_congr rfl
  intro j _
  rw [bitHom_apply]
  split_ifs <;> simp

theorem residueHom_fromByte {c : ℕ} (hc : c < 2 ^ e.deg) :
    (residueHom hw (fromByte c : GaloisRing w e) : F) = G2p.fromU8 e c := by
  have hbits : (fun j : Fin e.deg => ((fromByte c : GaloisRing w e).coefs j).getLsbD 0) =
      fun j : Fin e.deg => c.testBit j := by
    funext j
    simp only [fromByte]
    split_ifs with h
    · simp [h, hw]
    · simpa using h
  rw [residueHom_eq, hbits, Nat.ofBits_testBit, Nat.mod_eq_of_lt hc]

variable {x : GaloisRing w e}

theorem getLsbD_of_residueHom_eq_zero
    (h : (residueHom hw x : F) = 0) (j : Fin e.deg) : (x.coefs j).getLsbD 0 = false := by
  rw [residueHom_eq, ← G2p.fromU8_zero e] at h
  have h0 := G2p.fromU8_injOn e (Nat.ofBits_lt_two_pow _) (by positivity) h
  rw [← Nat.testBit_ofBits_lt (fun j => (x.coefs j).getLsbD 0) j j.isLt, h0]
  simp

theorem residueHom_eq_zero
    (h : ∀ j, (x.coefs j).getLsbD 0 = false) : (residueHom hw x : F) = 0 := by
  rw [residueHom_eq, ← sum_bits_eq_fromU8]
  simp [h]

theorem two_dvd_of_residueHom_eq_zero (x : GaloisRing w e)
    (h : (residueHom hw x : F) = 0) : 2 ∣ x := by
  have h1 := (two_pow_dvd_iff_coefs (i := 1) x).mpr (fun j => by
    rw [pow_one]
    exact (two_dvd_iff_getLsbD hw _).mpr (getLsbD_of_residueHom_eq_zero hw h j))
  rwa [pow_one] at h1

theorem residueHom_of_two_pow_mul (i : ℕ) (x : GaloisRing w e) (hi : i < w)
    (h : 2 ^ i * x = 0) : (residueHom hw x : F) = 0 := by
  apply residueHom_eq_zero
  intro j
  apply getLsbD_zero_of_two_pow_mul_eq_zero hi
  rw [← fromScalar_two_pow_mul, h, coefs_zero]

omit hw

theorem two_pow_eq_zero : (2 : GaloisRing w e) ^ w = 0 := by
  have h := fromScalar_two_pow_mul (w := w) (e := e) w 1
  ext1
  funext j
  rw [← mul_one ((2 : GaloisRing w e) ^ w), h, two_pow_width_eq_zero, zero_mul, coefs_zero]

variable (F) in
/-- The Galois ring as a dyadic ring over its quotient field. -/
def dyadic (hw : 0 < w) : DyadicRing (GaloisRing w e) F where
  width := w
  residue := residueHom hw
  lift x := fromByte (G2p.toU8 e x)
  lift_zero := by
    ext1
    funext j
    simp [fromByte, G2p.toU8_zero]
  residue_lift x := by
    rw [residueHom_fromByte hw (G2p.toU8_lt x), G2p.fromU8_toU8]
  two_dvd_of_residue := two_dvd_of_residueHom_eq_zero hw
  residue_of_two_pow_mul := residueHom_of_two_pow_mul hw
  two_pow_width := two_pow_eq_zero

theorem bitCompose_two_pow_mul (hw : 0 < w) {i : ℕ} (hi : i < w) (y : GaloisRing w e) :
    bitCompose F ((2 : GaloisRing w e) ^ i * y) i = (dyadic F hw).residue y := by
  change _ = residueHom hw y
  rw [residueHom_eq, bitCompose]
  simp only [fromScalar_two_pow_mul, getLsbD_two_pow_mul hi]

theorem bitCompose_zero (hw : 0 < w) (y : GaloisRing w e) :
    bitCompose F y 0 = (dyadic F hw).residue y := by
  have h := bitCompose_two_pow_mul (F := F) hw hw y
  rwa [pow_zero, one_mul] at h

theorem bitLift_eq (hw : 0 < w) {pos : ℕ} (hpos : pos < w) (x : F) :
    (bitLift x pos : GaloisRing w e) = 2 ^ pos * (dyadic F hw).lift x :=
  shl_eq hpos _

end Lemmas

end GaloisRing

end ThresholdKms
