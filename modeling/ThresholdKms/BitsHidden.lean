import Mathlib.NumberTheory.LucasLehmer
import ThresholdKms.BitGenOdd

/-!
# What the openings reveal about a bit

The two roots of the opened square that agree with the root modulo `R` up to sign are the only ones
with opposite bits. Unless the random element is one of them modulo every prime, the masked bit
determines the mask and with it the bit.
-/

namespace ThresholdKms

variable {Q R : ℕ}

/-- The projection as a homomorphism. -/
def projR (Q R : ℕ) : ZMod (Q * R) →+* ZMod R := ZMod.castHom (Dvd.intro_left Q rfl) (ZMod R)

theorem toFieldR_eq [NeZero (Q * R)] (v : ZMod (Q * R)) : toFieldR v = projR Q R v := by
  unfold toFieldR projR
  rw [ZMod.natCast_mod, ZMod.natCast_val]
  rfl

theorem modLargestPrime_eq [NeZero (Q * R)] {v : ZMod (Q * R)} {m : ℕ} (hm : m < R)
    (h : projR Q R v = m) : modLargestPrime v = m := by
  rw [← toFieldR_eq, toFieldR, ZMod.natCast_mod, ZMod.natCast_eq_natCast_iff'] at h
  unfold modLargestPrime
  rw [h, Nat.mod_eq_of_lt hm]

theorem projR_root [NeZero R] (root : ZMod R) : projR Q R (root.val : ZMod (Q * R)) = root := by
  rw [map_natCast, ZMod.natCast_zmod_val]

variable {root : ZMod R} {a : ZMod (Q * R)}

section Bit

variable [NeZero (Q * R)]

theorem modLargestPrime_bit (hodd : Odd (Q * R)) {v : ZMod (Q * R)} {bit r : ℕ} (hr : bit + r < R)
    (hv : projR Q R v = 2 * bit - 1) :
    modLargestPrime ((v + 1) * 2⁻¹ + (r : ZMod (Q * R))) - r = bit := by
  have htwo := congrArg (projR Q R) (mul_inv_of_coprime (coprime_two hodd))
  rw [map_mul, map_one, map_ofNat] at htwo
  have hproj : projR Q R ((v + 1) * 2⁻¹ + (r : ZMod (Q * R))) = ((bit + r : ℕ) : ZMod R) := by
    rw [map_add, map_mul, map_add, map_one, map_natCast, hv, Nat.cast_add]
    linear_combination (bit : ZMod R) * htwo
  rw [modLargestPrime_eq hr hproj, Nat.cast_add, add_sub_cancel_right]

variable {k : SqrtConstants (ZMod R)}

variable (hodd : Odd (Q * R))
include hodd

/-- An element that is neither the root nor its negative reveals its bit with every mask. -/
theorem revealing_of_ne (hroot : fieldSqrt k (toFieldR (a * a)) = .ok root)
    (hcoprime : (root.val : ZMod (Q * R)).val.Coprime (Q * R))
    (hsign : projR Q R (a * (root.val : ZMod (Q * R))⁻¹) = 1 ∨
      projR Q R (a * (root.val : ZMod (Q * R))⁻¹) = -1)
    (hne : a ≠ root.val) (hneg : a ≠ -(root.val : ZMod (Q * R))) {r : ℕ} (hr : 1 + r < R)
    (bound : ℕ) : Revealing k bound a r := by
  have hok := genBitOdd_of_root hodd hroot hcoprime (r : ZMod (Q * R))
  refine ⟨_, _, hok, fun a' r' _ h' => ?_⟩
  have hbit : modLargestPrime ((a * (root.val : ZMod (Q * R))⁻¹ + 1) * 2⁻¹ + (r : ZMod (Q * R))) -
        r = 0 ∨
      modLargestPrime ((a * (root.val : ZMod (Q * R))⁻¹ + 1) * 2⁻¹ + (r : ZMod (Q * R))) -
        r = 1 := by
    rcases hsign with hv | hv
    · right
      exact_mod_cast modLargestPrime_bit hodd hr (by rw [hv]; ring)
    · left
      exact_mod_cast modLargestPrime_bit hodd (show 0 + r < R by omega)
        (by rw [hv]; ring)
  rcases eq_root_of_opposite hodd hbit hok h' hroot with h | h
  · exact hne h
  · exact hneg h

theorem genBitOdd_of_sign {c : ZMod (Q * R)} (hc : c = root.val) (hcoprime : c.val.Coprime (Q * R))
    (hroot : fieldSqrt k (toFieldR (c * c)) = .ok root) {bit r : ℕ} (hbit : bit = 0 ∨ bit = 1)
    (hr : bit + r < R) :
    genBitOdd k ((2 * (bit : ZMod (Q * R)) - 1) * c) (r : ZMod (Q * R)) =
      .ok (⟨c * c, ((bit + r : ℕ) : ZMod (Q * R))⟩, (bit : ZMod (Q * R))) := by
  have hinv := mul_inv_of_coprime hcoprime
  have htwo := mul_inv_of_coprime (coprime_two hodd)
  have hsquare : (2 * (bit : ZMod (Q * R)) - 1) * c * ((2 * bit - 1) * c) = c * c := by
    rcases hbit with rfl | rfl
    · ring
    · ring
  have hv : (2 * bit - 1) * c * c⁻¹ = 2 * (bit : ZMod (Q * R)) - 1 := by
    rw [mul_assoc, hinv, mul_one]
  have hmasked : ((2 * bit - 1) * c * c⁻¹ + 1) * 2⁻¹ + (r : ZMod (Q * R)) =
      ((bit + r : ℕ) : ZMod (Q * R)) := by
    rw [hv]
    push_cast
    linear_combination (bit : ZMod (Q * R)) * htwo
  have hproj : projR Q R ((2 * bit - 1) * c * c⁻¹) = 2 * bit - 1 := by
    rw [hv, map_sub, map_mul, map_one, map_ofNat, map_natCast]
  have hbitr := modLargestPrime_bit hodd hr hproj
  rw [← hsquare] at hroot
  rw [hc] at hcoprime
  rw [genBitOdd_of_root hodd hroot hcoprime, ← hc, hsquare, hbitr, hmasked]

/-- The other sign of the root explains the openings with the opposite bit. -/
theorem not_revealing_of_sign {c : ZMod (Q * R)}
    (hc : c = root.val) (hcoprime : c.val.Coprime (Q * R))
    (hroot : fieldSqrt k (toFieldR (c * c)) = .ok root) {bit bit' r r' bound : ℕ}
    (hbit : bit + bit' = 1) (hr : bit + r < R) (hmasked : bit' + r' = bit + r)
    (hr' : r' ≤ bound) : ¬ Revealing k bound ((2 * (bit : ZMod (Q * R)) - 1) * c) r := by
  rintro ⟨opened, b, hok, hother⟩
  rw [genBitOdd_of_sign hodd hc hcoprime hroot (by omega) hr] at hok
  obtain ⟨rfl, rfl⟩ := Prod.mk.inj (Except.ok.inj hok)
  apply hother ((2 * (bit' : ZMod (Q * R)) - 1) * c) r' hr'
  rw [genBitOdd_of_sign hodd hc hcoprime hroot (by omega) (by omega), hmasked]
  have hcast := congrArg (Nat.cast : ℕ → ZMod (Q * R)) hbit
  rw [Nat.cast_add, Nat.cast_one] at hcast
  rw [← hcast, add_sub_cancel_left]

/-- For the root and its negative a single mask reveals the bit, at one end of the range. -/
theorem revealing_subset_singleton {bound : ℕ} (hR : bound + 1 < R)
    (hroot : fieldSqrt k (toFieldR (a * a)) = .ok root)
    (hroots : ∀ root, fieldSqrt k (toFieldR (a * a)) = .ok root →
      (root.val : ZMod (Q * R)).val.Coprime (Q * R) →
        a = root.val ∨ a = -(root.val : ZMod (Q * R))) :
    ∃ r₀, {r | r ≤ bound ∧ Revealing k bound a r} ⊆ {r₀} := by
  by_cases hcoprime : (root.val : ZMod (Q * R)).val.Coprime (Q * R)
  · rcases hroots root hroot hcoprime with h | h
    · refine ⟨bound, fun r ⟨hr, hrev⟩ => ?_⟩
      by_contra hne
      have hlt : r < bound := lt_of_le_of_ne hr hne
      apply not_revealing_of_sign hodd h (h ▸ hcoprime) hroot (show 1 + 0 = 1 from rfl)
        (show 1 + r < R by omega) (show 0 + (r + 1) = 1 + r by omega) hlt
      rw [show (2 * ((1 : ℕ) : ZMod (Q * R)) - 1) * a = a by ring]
      exact hrev
    · have hneg := hroot
      rw [h, neg_mul_neg] at hneg
      refine ⟨0, fun r ⟨hr, hrev⟩ => ?_⟩
      by_contra hne
      have hpos : r ≠ 0 := hne
      apply not_revealing_of_sign hodd rfl hcoprime hneg (show 0 + 1 = 1 from rfl)
        (show 0 + r < R by omega) (show 1 + (r - 1) = 0 + r by omega) (show r - 1 ≤ bound by omega)
      rw [show (2 * ((0 : ℕ) : ZMod (Q * R)) - 1) * (root.val : ZMod (Q * R)) = a by
        rw [h]; ring]
      exact hrev
  · refine ⟨0, fun r ⟨_, hrev⟩ => ?_⟩
    obtain ⟨opened, bit, hok, -⟩ := hrev
    obtain ⟨root', hroot', hcoprime', -⟩ := genBitOdd_eq_ok hok
    obtain rfl : root' = root := Except.ok.inj (hroot'.symm.trans hroot)
    exact absurd hcoprime' hcoprime

end Bit

section Field

variable [Fact R.Prime]

theorem projR_sign [NeZero (Q * R)] (hsquare : root * root = toFieldR (a * a))
    (hcoprime : (root.val : ZMod (Q * R)).val.Coprime (Q * R)) :
    projR Q R (a * (root.val : ZMod (Q * R))⁻¹) = 1 ∨
      projR Q R (a * (root.val : ZMod (Q * R))⁻¹) = -1 := by
  have hinv := congrArg (projR Q R) (mul_inv_of_coprime hcoprime)
  rw [map_mul, projR_root, map_one] at hinv
  rw [toFieldR_eq, map_mul] at hsquare
  apply mul_self_eq_one_iff.mp
  rw [map_mul]
  linear_combination -(projR Q R (root.val : ZMod (Q * R))⁻¹) ^ 2 * hsquare +
    (root * projR Q R (root.val : ZMod (Q * R))⁻¹ + 1) * hinv

variable {k : SqrtConstants (ZMod R)}

theorem fieldSqrt_toFieldR [NeZero (Q * R)] (hk : k.Valid)
    (ha : largestPrimeFactorNonZero a) :
    ∃ root, fieldSqrt k (toFieldR (a * a)) = .ok root ∧ root * root = toFieldR (a * a) := by
  have hne : projR Q R a ≠ 0 := by
    intro hzero
    apply ha
    rw [modLargestPrime_eq (Nat.Prime.pos Fact.out) (by rw [hzero, Nat.cast_zero]), Nat.cast_zero]
  rw [toFieldR_eq, map_mul]
  exact fieldSqrt_correct hk hne

theorem statsec_le_maskBound {n t : ℕ} (ht : t ≤ n) : 2 ^ statsec ≤ maskBound n t + 1 := by
  have hpos := Nat.choose_pos ht
  calc 2 ^ statsec ≤ 1 * (2 ^ (statsec + 2) - 2) + 1 := by decide
    _ ≤ n.choose t * (2 ^ (statsec + 2) - 2) + 1 := by gcongr; exact hpos

/-- For all masks but a negligible fraction the openings can arise with the opposite bit, exactly
when the element is the root of its square modulo `R` up to sign, or the call fails. -/
theorem bitsHidden_iff (hk : k.Valid) (hodd : Odd (Q * R)) {n t : ℕ}
    (ht : t ≤ n) (hR : maskBound n t + 1 < R) {a : ZMod (Q * R)}
    (ha : largestPrimeFactorNonZero a) :
    {r | r ≤ maskBound n t ∧ Revealing k (maskBound n t) a r}.ncard * 2 ^ statsec ≤
        maskBound n t + 1 ↔
      ∀ root, fieldSqrt k (toFieldR (a * a)) = .ok root →
        (root.val : ZMod (Q * R)).val.Coprime (Q * R) →
          a = root.val ∨ a = -(root.val : ZMod (Q * R)) := by
  have : NeZero (Q * R) := ⟨fun hzero => by simp [hzero] at hodd⟩
  obtain ⟨root, hroot, hsquare⟩ := fieldSqrt_toFieldR hk ha
  have hlarge := statsec_le_maskBound ht
  generalize maskBound n t = bound at *
  constructor
  · intro hfew root' hroot' hcoprime
    obtain rfl : root' = root := Except.ok.inj (hroot'.symm.trans hroot)
    by_contra hne
    obtain ⟨hne, hneg⟩ := not_or.mp hne
    have hall : {r | r ≤ bound ∧ Revealing k bound a r} = Set.Iic bound := by
      ext r
      refine and_iff_left_of_imp fun hr => ?_
      exact revealing_of_ne hodd hroot hcoprime (projR_sign hsquare hcoprime) hne hneg
        (by omega) bound
    rw [hall, ← Finset.coe_Iic, Set.ncard_coe_finset, Nat.card_Iic] at hfew
    have hsec : 2 ≤ 2 ^ statsec := by decide
    nlinarith
  · intro hroots
    obtain ⟨r₀, hsub⟩ := revealing_subset_singleton hodd hR hroot hroots
    have hcard := Set.ncard_le_ncard hsub
    rw [Set.ncard_singleton] at hcard
    calc _ ≤ 1 * 2 ^ statsec := Nat.mul_le_mul_right _ hcard
      _ ≤ bound + 1 := hlarge

end Field

theorem fieldSqrt_one (k : SqrtConstants (ZMod R)) : fieldSqrt k 1 = .ok 1 := by
  unfold fieldSqrt
  rw [one_pow, one_pow]
  cases k.pow2 with
  | zero => rw [sqrtLoop, if_pos rfl]
  | succ m => rw [sqrtLoop, if_pos rfl]

def mersenneConstants : SqrtConstants (ZMod (mersenne 61)) := ⟨2 ^ 60 - 1, 2 ^ 59, -1, 1⟩

theorem mersenneConstants_valid [Fact (mersenne 61).Prime] : mersenneConstants.Valid where
  pow2_pos := by decide
  pow2_le := by decide
  card_units := by rw [ZMod.card]; rfl
  half := by rfl
  order := pow_one _

theorem mersenne_prime : (mersenne 61).Prime :=
  lucas_lehmer_sufficiency 61 (by norm_num) (by norm_num)

/-- The constants of `largest_prime_factor_sqrt`. -/
def sqrtConstants : SqrtConstants (ZMod modulusR) where
  oddDiv := 0x20002000000000000000000000000000000000000000000000000000000000000000000000000000000000000000000000000000000000000000000000000000000000000000000000000000000000000000000000000000000000350035
  oddDivPlusOneDivTwo := 0x100010000000000000000000000000000000000000000000000000000000000000000000000000000000000000000000000000000000000000000000000000000000000000000000000000000000000000000000000000000000001a801b
  nonResidue := 0x1e528ea4b55cf66ce0de709f70f3e39d945dd63087c4a634a3eff8c36be27d36f6a32908b3b188874659e63e73aa3adf09eb0ffc153e24896a03d728776026ead7aa4eeea3e068077628d5f704364d9466b6ac2a5e3db6d328b1d7c98e407877
  pow2 := 17

/-- An element that is one modulo `R` and not modulo the other primes reveals its bit. -/
theorem revealing_one_add [NeZero (Q * R)] (hodd : Odd (Q * R)) (hQ : 2 < Q)
    (k : SqrtConstants (ZMod R)) {bound r : ℕ} (hr : 1 + r < R) :
    Revealing k bound (1 + R : ZMod (Q * R)) r := by
  have : Fact (1 < R) := ⟨by omega⟩
  have hlt : R + 2 < Q * R := by nlinarith
  have : Fact (1 < Q * R) := ⟨by omega⟩
  have hproj : projR Q R (1 + R : ZMod (Q * R)) = 1 := by
    rw [map_add, map_one, map_natCast, ZMod.natCast_self, add_zero]
  have hroot : fieldSqrt k (toFieldR ((1 + R : ZMod (Q * R)) * (1 + R : ZMod (Q * R)))) = .ok 1 := by
    rw [toFieldR_eq, map_mul, hproj, one_mul, fieldSqrt_one]
  have hval : ((1 : ZMod R).val : ZMod (Q * R)) = 1 := by
    rw [ZMod.val_one, Nat.cast_one]
  have hcoprime : ((1 : ZMod R).val : ZMod (Q * R)).val.Coprime (Q * R) := by
    rw [hval, ZMod.val_one]
    exact Nat.coprime_one_left _
  have hinv : (1 : ZMod (Q * R))⁻¹ = 1 := by
    have h := mul_inv_of_coprime hcoprime
    rwa [hval, one_mul] at h
  have hne : ∀ m, 0 < m → m < Q * R → ((m : ℕ) : ZMod (Q * R)) ≠ 0 := by
    intro m hpos hm hzero
    rw [ZMod.natCast_eq_zero_iff] at hzero
    exact absurd (Nat.le_of_dvd hpos hzero) hm.not_ge
  apply revealing_of_ne hodd hroot hcoprime _ _ _ hr
  · left
    rw [hval, hinv, mul_one, hproj]
  · rw [hval]
    intro heq
    exact hne R (by omega) (by omega) (by linear_combination heq)
  · rw [hval]
    intro heq
    exact hne (R + 2) (by omega) hlt (by push_cast; linear_combination heq)

theorem bitsHidden_iff_mersenne : {r | r ≤ maskBound 4 1 ∧
      Revealing mersenneConstants (maskBound 4 1) (-1 : ZMod (3 * mersenne 61)) r}.ncard *
        2 ^ statsec ≤ maskBound 4 1 + 1 := by
  have : Fact (mersenne 61).Prime := ⟨mersenne_prime⟩
  have : Fact (1 < 3 * mersenne 61) := ⟨by decide⟩
  have hnonzero : largestPrimeFactorNonZero (-1 : ZMod (3 * mersenne 61)) := by
    unfold largestPrimeFactorNonZero
    decide
  refine (bitsHidden_iff mersenneConstants_valid (by decide) (by decide) (by decide)
    hnonzero).mpr fun root hroot _ => Or.inr ?_
  rw [neg_mul_neg, one_mul, toFieldR, ZMod.val_one, show 1 % mersenne 61 = 1 from rfl, Nat.cast_one,
    fieldSqrt_one] at hroot
  obtain rfl := Except.ok.inj hroot
  rw [ZMod.val_one, Nat.cast_one]

theorem modulus_odd : Odd (modulusQ * modulusR) := by
  norm_num [modulusQ, modulusR, Nat.odd_iff]

theorem openedBits_reveal :
    largestPrimeFactorNonZero (1 + modulusR : ZMod (modulusQ * modulusR)) ∧ maskBound 4 1 + 1 <
        {r | r ≤ maskBound 4 1 ∧ Revealing sqrtConstants (maskBound 4 1)
          (1 + modulusR : ZMod (modulusQ * modulusR)) r}.ncard * 2 ^ statsec := by
  have : NeZero (modulusQ * modulusR) := ⟨by decide⟩
  have hR : maskBound 4 1 + 1 < modulusR := by decide
  constructor
  · unfold largestPrimeFactorNonZero
    have : Fact (1 < modulusQ * modulusR) := ⟨by decide⟩
    exact one_ne_zero
  · have hall : {r | r ≤ maskBound 4 1 ∧ Revealing sqrtConstants (maskBound 4 1)
        (1 + modulusR : ZMod (modulusQ * modulusR)) r} = Set.Iic (maskBound 4 1) := by
      ext r
      refine and_iff_left_of_imp fun hr => ?_
      exact revealing_one_add modulus_odd (by decide) sqrtConstants (by omega)
    rw [hall, ← Finset.coe_Iic, Set.ncard_coe_finset, Nat.card_Iic]
    decide

end ThresholdKms
