import ThresholdKms.ExceptionalInterpolation
import ThresholdKms.GaloisRing
import ThresholdKms.PolyDivision

/-!
# Inversion in the ring

The inverse of the residue is lifted and refined by Newton's iteration. The number of iterations is
the binary logarithm of the width, which is exact because both widths are powers of two.
-/

namespace ThresholdKms

namespace GaloisRing

variable {w : ℕ} {e : ExtensionDegree} (F : Type) [Field F] [DecidableEq F] [G2p e F]

def embedQuotientExceptionalSequence (x : F) : Outcome (GaloisRing w e) :=
  getFromExceptionalSequence (G2p.toU8 e x)

def invert (x : GaloisRing w e) : Outcome (GaloisRing w e) :=
  if x = 0 then
    Outcome.err "Cannot invert 0"
  else do
    let ainv ← fieldInvert (bitCompose F x 0)
    let x0 ← embedQuotientExceptionalSequence F ainv
    return (fun x0 => x0 * ((2 : ℕ) - x * x0))^[Nat.log2 w] x0

omit [DecidableEq F] in
theorem embedQuotientExceptionalSequence_eq (hw : 0 < w) (x : F) :
    embedQuotientExceptionalSequence F x = .ok ((dyadic F hw).lift x : GaloisRing w e) :=
  getFromExceptionalSequence_of_lt (G2p.toU8_lt x)

theorem invert_of_isUnit (z : BaseRing) {x : GaloisRing z.bits e} (hx : IsUnit x) :
    invert F x = .ok (Ring.inverse x) := by
  have hres : (dyadic F z.bits_pos).residue x ≠ 0 := ((dyadic F z.bits_pos).isUnit_iff x).mp hx
  have hx0 : x ≠ 0 := by
    rintro rfl
    exact hres (map_zero _)
  set x0 : GaloisRing z.bits e := (dyadic F z.bits_pos).lift ((dyadic F z.bits_pos).residue x)⁻¹
    with hx0def
  have hstart : (2 : GaloisRing z.bits e) ∣ 1 - x * x0 := by
    rw [(dyadic F z.bits_pos).two_dvd_iff, map_sub, map_one, map_mul,
      (dyadic F z.bits_pos).residue_lift, mul_inv_cancel₀ hres, sub_self]
  have hwidth : 2 ^ Nat.log2 z.bits = z.bits := by cases z <;> rfl
  have hnewton := DyadicRing.two_pow_dvd_newton hstart (Nat.log2 z.bits)
  rw [hwidth, show (2 : GaloisRing z.bits e) ^ z.bits = 0 from (dyadic F z.bits_pos).two_pow_width,
    zero_dvd_iff, sub_eq_zero] at hnewton
  rw [invert, if_neg hx0, bitCompose_zero z.bits_pos, fieldInvert_of_ne hres, Outcome.ok_bind,
    embedQuotientExceptionalSequence_eq F z.bits_pos]
  refine congrArg Except.ok (ExceptionalInterpolation.eq_inverse_of_mul_eq_one ?_)
  rw [mul_comm, Nat.cast_ofNat, hnewton]

/-- What inversion promises: the inverse of a unit, and an error for every other element. -/
def InvertsUnits (x : GaloisRing w e) : Prop :=
  (IsUnit x → ∃ y, invert F x = .ok y ∧ x * y = 1) ∧
    (¬ IsUnit x → ∃ msg, invert F x = Outcome.err msg)

/-- The guard only looks for zero, so the division of the field panics on all other non-units. -/
theorem invert_of_not_isUnit (z : BaseRing) {x : GaloisRing z.bits e} (hx : ¬ IsUnit x)
    (h0 : x ≠ 0) : invert F x = Outcome.panic "division by zero" := by
  have hres : (dyadic F z.bits_pos).residue x = 0 :=
    not_not.mp (mt ((dyadic F z.bits_pos).isUnit_iff x).mpr hx)
  rw [invert, if_neg h0, bitCompose_zero z.bits_pos, hres, fieldInvert, fieldDiv, if_pos rfl]
  rfl

/-- The units are the elements that are not zero modulo two, and inversion keeps its promise
exactly for them and for zero. -/
theorem invertsUnits_iff (z : BaseRing) (x : GaloisRing z.bits e) :
    (IsUnit x ↔ ¬ 2 ∣ x) ∧ (InvertsUnits F x ↔ IsUnit x ∨ x = 0) := by
  refine ⟨?_, ?_, ?_⟩
  · rw [(dyadic F z.bits_pos).isUnit_iff, (dyadic F z.bits_pos).two_dvd_iff]
  · rintro ⟨-, herr⟩
    by_contra hcon
    rw [not_or] at hcon
    obtain ⟨msg, hmsg⟩ := herr hcon.1
    rw [invert_of_not_isUnit F z hcon.1 hcon.2] at hmsg
    cases hmsg
  · rintro (hx | rfl)
    · exact ⟨fun _ => ⟨_, invert_of_isUnit F z hx, Ring.mul_inverse_cancel x hx⟩,
        fun hn => absurd hx hn⟩
    · exact ⟨fun hx => absurd hx not_isUnit_zero, fun _ => ⟨_, if_pos rfl⟩⟩

theorem not_invertsUnits_two : ¬ InvertsUnits GF8 (2 : GaloisRing BaseRing.z64.bits .three) := by
  rintro ⟨-, herr⟩
  have hunit : ¬ IsUnit (2 : GaloisRing BaseRing.z64.bits .three) := by
    rw [(dyadic GF8 BaseRing.z64.bits_pos).isUnit_iff, not_not]
    exact (dyadic GF8 BaseRing.z64.bits_pos).residue_two
  have h0 : (2 : GaloisRing BaseRing.z64.bits .three) ≠ 0 := by
    intro h
    exact absurd (congrFun (congrArg ResiduePoly.coefs h) (0 : Fin 3)) (by decide)
  obtain ⟨msg, hmsg⟩ := herr hunit
  rw [invert_of_not_isUnit GF8 .z64 hunit h0] at hmsg
  cases hmsg

end GaloisRing

end ThresholdKms
