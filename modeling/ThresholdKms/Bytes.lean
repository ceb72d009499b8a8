import Mathlib.Tactic

/-!
# Little-endian bytes
-/

namespace ThresholdKms

abbrev Bytes := List UInt8

/-- The value of little-endian bytes. -/
def fromLeBytes : Bytes → ℕ
  | [] => 0
  | b :: bs => b.toNat + 256 * fromLeBytes bs

def toLeBytes : ℕ → ℕ → Bytes
  | 0, _ => []
  | m + 1, v => UInt8.ofNat v :: toLeBytes m (v / 256)

theorem fromLeBytes_lt (bs : Bytes) : fromLeBytes bs < 256 ^ bs.length := by
  induction bs with
  | nil => simp [fromLeBytes]
  | cons b bs ih =>
    have hb := b.toNat_lt
    rw [fromLeBytes, List.length_cons]
    omega

theorem toLeBytes_fromLeBytes (bs : Bytes) : toLeBytes bs.length (fromLeBytes bs) = bs := by
  induction bs with
  | nil => rfl
  | cons b bs ih =>
    have hb := b.toNat_lt
    have hdiv : (b.toNat + 256 * fromLeBytes bs) / 256 = fromLeBytes bs := by omega
    have hbyte : UInt8.ofNat (b.toNat + 256 * fromLeBytes bs) = b := by
      apply UInt8.toNat_inj.mp
      rw [UInt8.toNat_ofNat']
      omega
    rw [List.length_cons, toLeBytes, fromLeBytes, hdiv, hbyte, ih]

end ThresholdKms
