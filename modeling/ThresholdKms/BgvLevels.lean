import Mathlib.Data.ZMod.Basic

/-!
# The moduli

A ciphertext at the top level has coefficients modulo `Q`, a product of fifteen primes, and keys are
generated modulo `QR`. A level is the ring of integers modulo its modulus.
-/

namespace ThresholdKms

/-- The modulus `QProd15` of `LevelEll`. -/
def modulusQ : ℕ :=
  0x43e81c13ee4a27181339e4c66eef29a987c3d4bc3e01375bb65ae36f3bbe918fde3394c1c80e4ce419d0054d71e806cdfdc9089d7c6869c697a6788e980158fb72f762e96f05bd232324d0a5e5c4fc022d5ddd32cc5318beb4be09940f3a0001

/-- The modulus of `FieldR`, which is also the scaling factor of `LevelKsw`. -/
def modulusR : ℕ :=
  0x400040000000000000000000000000000000000000000000000000000000000000000000000000000000000000000000000000000000000000000000000000000000000000000000000000000000000000000000000000000000006a006a0001

/-- The residue modulo `Q` of an element of the ring modulo `Q * R`, in the same ring. -/
def remQ (Q R : ℕ) (x : ZMod (Q * R)) : ZMod (Q * R) := ((x.val % Q : ℕ) : ZMod (Q * R))

/-- The residue modulo `Q`, in the ring modulo `Q`. -/
def toLevelEll (Q R : ℕ) (x : ZMod (Q * R)) : ZMod Q := ((x.val % Q : ℕ) : ZMod Q)

def plaintextMod : ℕ := 65537

def newHopeBound : ℕ := 1

variable {Q R : ℕ}

theorem toLevelEll_eq [NeZero (Q * R)] (x : ZMod (Q * R)) :
    toLevelEll Q R x = ZMod.castHom (Dvd.intro R rfl) (ZMod Q) x := by
  unfold toLevelEll
  rw [ZMod.natCast_mod, ZMod.natCast_val]
  rfl

theorem toLevelEll_intCast_eq_iff [NeZero (Q * R)] (u v : ℤ) :
    toLevelEll Q R (u : ZMod (Q * R)) = toLevelEll Q R (v : ZMod (Q * R)) ↔ (Q : ℤ) ∣ u - v := by
  rw [toLevelEll_eq, toLevelEll_eq, map_intCast, map_intCast, eq_comm,
    ZMod.intCast_eq_intCast_iff_dvd_sub]

end ThresholdKms
