import ThresholdKms.BaseRing
import ThresholdKms.Outcome
import ThresholdKms.ResiduePoly

/-!
# The quotient fields

The fields of size `2 ^ 3` to `2 ^ 8` come from the `g2p` macro, which is given the extension
degree and the modulus. The class states what the macro documents: an element is a byte below the
field size, its bits are the coefficients of powers of the element `2`, which is a root of the
modulus, in characteristic two.
-/

namespace ThresholdKms

class G2p (e : ExtensionDegree) (F : Type) [Field F] where
  toU8 : F → ℕ
  fromU8 : ℕ → F
  toU8_lt : ∀ x, toU8 x < 2 ^ e.deg
  fromU8_toU8 : ∀ x, fromU8 (toU8 x) = x
  toU8_fromU8 : ∀ b, b < 2 ^ e.deg → toU8 (fromU8 b) = b
  two_eq_zero : (2 : F) = 0
  modulusAt_two : e.modulusAt (fromU8 2) = 0
  fromU8_eq_sum : ∀ b, b < 2 ^ e.deg →
    fromU8 b = ∑ i : Fin e.deg, if b.testBit i then fromU8 2 ^ (i : ℕ) else 0

namespace G2p

variable (e : ExtensionDegree) {F : Type} [Field F] [G2p e F]

theorem fromU8_injOn {a b : ℕ} (ha : a < 2 ^ e.deg) (hb : b < 2 ^ e.deg)
    (h : (fromU8 e a : F) = fromU8 e b) : a = b := by
  rw [← toU8_fromU8 (F := F) (e := e) a ha, ← toU8_fromU8 (F := F) (e := e) b hb, h]

theorem fromU8_zero : (fromU8 e 0 : F) = 0 := by
  rw [fromU8_eq_sum 0 (by positivity)]
  simp

theorem toU8_zero : toU8 e (0 : F) = 0 := by
  rw [← fromU8_zero e, toU8_fromU8 0 (by positivity)]

end G2p

def fieldName : ExtensionDegree → String
  | .three => "GF8"
  | .four => "GF16"
  | .five => "GF32"
  | .six => "GF64"
  | .seven => "GF128"
  | .eight => "GF256"

/-- The `get_from_exceptional_sequence` of the field of degree `e`. -/
def fieldFromExceptionalSequence (e : ExtensionDegree) {F : Type} [Field F] [G2p e F] (idx : ℕ) :
    Outcome F :=
  let name := fieldName e
  if 2 ^ e.deg ≤ idx then
    Outcome.err s!"Index out of bounds for {name} exceptional sequence"
  else
    .ok (G2p.fromU8 e (idx % 256))

theorem fieldFromExceptionalSequence_of_lt (e : ExtensionDegree) {F : Type} [Field F] [G2p e F]
    {idx : ℕ} (h : idx < 2 ^ e.deg) :
    fieldFromExceptionalSequence e idx = .ok (G2p.fromU8 e idx : F) := by
  have hbyte : 2 ^ e.deg ≤ 2 ^ 8 := Nat.pow_le_pow_right (by norm_num) e.deg_le_eight
  rw [fieldFromExceptionalSequence, if_neg (by omega), Nat.mod_eq_of_lt (by omega)]

section BitResidues

variable {e : ExtensionDegree}

theorem residue_two_eq_zero : (2 : ResiduePoly (ZMod 2) e) = 0 := by
  rw [← map_ofNat ResiduePoly.scalarHom 2, show (OfNat.ofNat 2 : ZMod 2) = 0 from rfl, map_zero]

theorem residue_ofBits_coefs (x : ResiduePoly (ZMod 2) e) :
    (⟨fun i => if (Nat.ofBits fun i => decide (x.coefs i = 1)).testBit i then 1 else 0⟩ :
      ResiduePoly (ZMod 2) e) = x := by
  have hval : ∀ c : ZMod 2, (if c = 1 then (1 : ZMod 2) else 0) = c := by decide
  ext i
  simp only [Nat.testBit_ofBits_lt _ i.val i.isLt, decide_eq_true_eq, hval]

theorem ofBits_residue {b : ℕ} (hb : b < 2 ^ e.deg) :
    Nat.ofBits (fun i : Fin e.deg => decide ((if b.testBit i then (1 : ZMod 2) else 0) = 1)) = b := by
  have hbits : ∀ c : Bool, decide ((if c then (1 : ZMod 2) else 0) = 1) = c := by decide
  simp only [hbits]
  rw [Nat.ofBits_testBit, Nat.mod_eq_of_lt hb]

theorem residue_two_bits :
    (⟨fun i => if (2 : ℕ).testBit i then 1 else 0⟩ : ResiduePoly (ZMod 2) e) = .generator := by
  ext i
  revert i
  cases e <;> decide

theorem residue_eq_sum (b : ℕ) : (⟨fun i => if b.testBit i then 1 else 0⟩ : ResiduePoly (ZMod 2) e) =
    ∑ i : Fin e.deg, if b.testBit i then ResiduePoly.generator ^ (i : ℕ) else 0 := by
  refine (ResiduePoly.valueAt_scalarHom_generator _).symm.trans ?_
  simp only [ResiduePoly.valueAt, powerSum]
  apply Finset.sum_congr rfl
  intro i _
  split_ifs <;> simp

end BitResidues

/-- The residues over the field with two elements, of which the degree three ones are a field. -/
abbrev GF8 := ResiduePoly (ZMod 2) .three

namespace GF8

theorem coefs_mul_pow_six : ∀ f : Fin 3 → ZMod 2, f ≠ 0 → ∀ i : Fin (ExtensionDegree.deg .three),
      ((⟨f⟩ : GF8) * (⟨f⟩ : GF8) ^ 6).coefs i = (1 : GF8).coefs i := by
  decide

theorem mul_pow_six {x : GF8} (hx : x ≠ 0) : x * x ^ 6 = 1 := by
  ext1
  funext i
  exact coefs_mul_pow_six x.coefs (fun h => hx (ResiduePoly.ext h)) i

instance : Field GF8 where
  inv x := x ^ 6
  exists_pair_ne := ⟨0, 1, fun h => absurd (congrFun (congrArg ResiduePoly.coefs h) (0 : Fin 3))
    (by decide)⟩
  mul_inv_cancel x hx := mul_pow_six hx
  inv_zero := zero_pow (by norm_num)
  nnqsmul := _
  qsmul := _

instance : G2p .three GF8 where
  toU8 x := Nat.ofBits (fun i => decide (x.coefs i = 1))
  fromU8 b := ⟨fun i => if b.testBit i then 1 else 0⟩
  toU8_lt x := Nat.ofBits_lt_two_pow _
  fromU8_toU8 := residue_ofBits_coefs
  toU8_fromU8 b hb := ofBits_residue hb
  two_eq_zero := residue_two_eq_zero
  modulusAt_two := by rw [residue_two_bits, ResiduePoly.modulusAt_generator]
  fromU8_eq_sum b _ := by rw [residue_two_bits, residue_eq_sum]

end GF8

/-!
## The field of size sixteen

The quotient field of the ring that backups are shared over.
-/

/-- The residues over the field with two elements, of degree four. -/
abbrev GF16 := ResiduePoly (ZMod 2) .four

namespace GF16

theorem coefs_mul_pow_fourteen : ∀ f : Fin 4 → ZMod 2, f ≠ 0 →
    ∀ i : Fin (ExtensionDegree.deg .four),
      ((⟨f⟩ : GF16) * (⟨f⟩ : GF16) ^ 14).coefs i = (1 : GF16).coefs i := by
  decide +kernel

theorem mul_pow_fourteen {x : GF16} (hx : x ≠ 0) : x * x ^ 14 = 1 := by
  ext1
  funext i
  exact coefs_mul_pow_fourteen x.coefs (fun h => hx (ResiduePoly.ext h)) i

instance : Field GF16 where
  inv x := x ^ 14
  exists_pair_ne := ⟨0, 1, fun h => absurd (congrFun (congrArg ResiduePoly.coefs h) (0 : Fin 4))
    (by decide)⟩
  mul_inv_cancel x hx := mul_pow_fourteen hx
  inv_zero := zero_pow (by norm_num)
  nnqsmul := _
  qsmul := _

instance : G2p .four GF16 where
  toU8 x := Nat.ofBits (fun i => decide (x.coefs i = 1))
  fromU8 b := ⟨fun i => if b.testBit i then 1 else 0⟩
  toU8_lt x := Nat.ofBits_lt_two_pow _
  fromU8_toU8 := residue_ofBits_coefs
  toU8_fromU8 b hb := ofBits_residue hb
  two_eq_zero := residue_two_eq_zero
  modulusAt_two := by rw [residue_two_bits, ResiduePoly.modulusAt_generator]
  fromU8_eq_sum b _ := by rw [residue_two_bits, residue_eq_sum]

end GF16

end ThresholdKms
