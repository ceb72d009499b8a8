import ThresholdKms.PrssConsistency

/-!
# Noise flooding

Before a decryption is opened, a mask is added to it that is larger than its noise. A mask is the sum
of two values for each set of parties, of which there are at most 2047; together with the noise it
stays below half of the distance between two messages of four bits.
-/

namespace ThresholdKms

open GaloisRing ResiduePoly Outcome

def bSwitchSquash : ℕ := 2 ^ 70

/-- The message of a plaintext of `w` bits, of which the highest is a padding bit. -/
def fromExpandedMsg {w : ℕ} (rawPlaintext : BitVec w) (messageAndCarryModBits : ℕ) :
    Outcome (BitVec 128) := do
  let deltaPadBits ← Outcome.usizeSub w (messageAndCarryModBits + 1)
  if 2 ^ w - 1 - 2 ^ deltaPadBits < rawPlaintext.toNat then
    return 0
  else
    let halfBits ← Outcome.usizeSub deltaPadBits 1
    let rawMsg := ((rawPlaintext.toNat + 2 ^ halfBits) % 2 ^ 128) >>> deltaPadBits
    return BitVec.ofNat 128 (rawMsg % 2 ^ messageAndCarryModBits)

/-- The message is found if the error is smaller than half of the distance of two messages. -/
theorem fromExpandedMsg_of_lt {b m : ℕ} {error : ℤ} (hb : b ≤ 4) (hm : m < 2 ^ b)
    (hlo : -2 ^ (126 - b) ≤ error) (hhi : error < 2 ^ (126 - b)) :
    fromExpandedMsg (BitVec.ofInt 128 (2 ^ (127 - b) * m + error)) b = .ok (BitVec.ofNat 128 m) := by
  have hpow : (2 : ℕ) ^ (127 - b) = 2 * 2 ^ (126 - b) := by
    rw [← pow_succ', show 126 - b + 1 = 127 - b by omega]
  have htop : (2 : ℕ) ^ (127 - b) * 2 ^ b = 2 ^ 127 := by
    rw [← pow_add, show 127 - b + b = 127 by omega]
  have hbits : usizeSub 128 (b + 1) = .ok (127 - b) := by
    rw [usizeSub_of_le (by omega), show 128 - (b + 1) = 127 - b by omega]
  have hhalf : usizeSub (127 - b) 1 = .ok (126 - b) := by
    rw [usizeSub_of_le (by omega), show 127 - b - 1 = 126 - b by omega]
  have hle : 2 ^ (127 - b) * m + 2 ^ (127 - b) ≤ 2 ^ 127 := by
    exact htop ▸ Nat.mul_le_mul_left _ hm
  have hzero : m ≠ 0 → 2 ^ (127 - b) ≤ 2 ^ (127 - b) * m :=
    fun hne => Nat.le_mul_of_pos_right _ (Nat.pos_of_ne_zero hne)
  have hcast : (2 : ℤ) ^ (127 - b) * m = ((2 ^ (127 - b) * m : ℕ) : ℤ) := by push_cast; ring
  have hlo' : -((2 ^ (126 - b) : ℕ) : ℤ) ≤ error := by exact_mod_cast hlo
  have hhi' : error < ((2 ^ (126 - b) : ℕ) : ℤ) := by exact_mod_cast hhi
  unfold fromExpandedMsg
  rw [hbits, ok_bind, hhalf, BitVec.toNat_ofInt, hcast]
  by_cases hneg : ((2 ^ (127 - b) * m : ℕ) : ℤ) + error < 0
  · have hm0 : m = 0 := by
      by_contra hne
      omega
    rw [if_pos (by omega), hm0]
    rfl
  · have hraw : ((((2 ^ (127 - b) * m : ℕ) : ℤ) + error) % ((2 ^ 128 : ℕ) : ℤ)).toNat =
        (((2 ^ (127 - b) * m : ℕ) : ℤ) + error).toNat := by
      rw [Int.emod_eq_of_lt (not_lt.mp hneg) (by omega)]
    have hdiv : ((((2 ^ (127 - b) * m : ℕ) : ℤ) + error).toNat + 2 ^ (126 - b)) / 2 ^ (127 - b) =
        m := by
      have hcomm := Nat.mul_comm (2 ^ (127 - b)) m
      refine Nat.div_eq_of_lt_le ?_ ?_
      · omega
      · rw [Nat.succ_mul]
        omega
    rw [hraw, if_neg (by omega), ok_bind, Nat.mod_eq_of_lt (by omega),
      Nat.shiftRight_eq_div_pow, hdiv]
    exact congrArg (fun x => Except.ok (BitVec.ofNat 128 x)) (Nat.mod_eq_of_lt hm)

theorem length_combinations {α : Type} (k : ℕ) (l : List α) :
    (combinations k l).length = l.length.choose k :=
  (combinations_perm k l).length_eq.trans (List.length_sublistsLen k l)

variable {e : ExtensionDegree} {n t : ℕ} (keys : PrssKeys)

/-- The mask that is shared at a counter. -/
def maskSecret (n t ctr bd1 : ℕ) : ℤ :=
  ((combinations (n - t) (partyRoles n)).map (phiOf keys ctr bd1)).sum

theorem phiOf_bounds (ctr : ℕ) {bd1 : ℕ} (hpos : 0 < bd1) (s : List Role) :
    -(2 * bd1 : ℤ) ≤ phiOf keys ctr bd1 s ∧ phiOf keys ctr bd1 s ≤ 2 * bd1 := by
  have h₀ := phiValue_bounds (keys.prf s).phiAes ctr hpos
  have h₁ := phiValue_bounds (keys.prf s).phiAes (ctr + 1) hpos
  unfold phiOf
  constructor
  · omega
  · omega

theorem maskSecret_bounds (ht : t ≤ n) (ctr : ℕ) {bd1 : ℕ} (hpos : 0 < bd1) :
    |maskSecret keys n t ctr bd1| ≤ n.choose t * (2 * bd1) := by
  have hsum : ∀ l : List (List Role), |(l.map (phiOf keys ctr bd1)).sum| ≤ l.length * (2 * bd1) := by
    intro l
    induction l with
    | nil => simp
    | cons s l ih =>
      have hphi := abs_le.mpr (phiOf_bounds keys ctr hpos s)
      rw [List.map_cons, List.sum_cons, List.length_cons]
      push_cast
      linarith [abs_add_le (phiOf keys ctr bd1 s) ((l.map (phiOf keys ctr bd1)).sum)]
  have hlen : (allSets n t).length = n.choose t := by
    rw [length_combinations, length_partyRoles, Nat.choose_symm ht]
  exact hlen ▸ hsum _

theorem isSharing_maskSharing (F : Type) [Field F] [G2p e F] (hn : n < 2 ^ e.deg) (ht : t ≤ n)
    (ctr bd1 : ℕ) :
    IsSharing t (fromScalar (BitVec.ofInt BaseRing.z128.bits (maskSecret keys n t ctr bd1)))
      (fun i : Fin n => (maskSharing keys n t ctr bd1).eval
        (partyPoint i : GaloisRing BaseRing.z128.bits e)) := by
  have hsharing := isSharing_constants F BaseRing.z128.bits_pos hn ht
    (fun s => (phiOf keys ctr bd1 s : GaloisRing BaseRing.z128.bits e))
  have hsecret : ((allSets n t).map (fun s =>
      (phiOf keys ctr bd1 s : GaloisRing BaseRing.z128.bits e))).sum =
        fromScalar (BitVec.ofInt BaseRing.z128.bits (maskSecret keys n t ctr bd1)) := by
    have hcast := Int.cast_list_sum (R := GaloisRing BaseRing.z128.bits e)
      ((allSets n t).map (phiOf keys ctr bd1))
    rw [List.map_map] at hcast
    exact hcast.symm
  rw [hsecret] at hsharing
  exact hsharing

/-- The decryption with a mask is the message, for all sets of parties, keys and counters. -/
theorem fromExpandedMsg_masked (F : Type) [Field F] [DecidableEq F] [G2p e F] (ht : t < n)
    (hsize : n.choose t ≤ prssSizeMax) {setup : Fin n → PRSSSetup BaseRing.z128.bits e}
    (hsetup : ∀ i : Fin n, prssSets F (partyRoles n) t (i + 1)
      ((partySets n t (i + 1)).map keys.key) = .ok (setup i))
    (counters : PRSSCounters) (prssGenParMinChunk amount : ℕ) :
    (counters.maskCtr + 2 * amount ≤ 2 ^ 120 → ∀ i : Fin n, ∃ r,
      maskNextVec prssGenParMinChunk (sessionState keys (setup i) counters) (i + 1) bSwitchSquash
        amount = .ok r) ∧
    ∀ masks : Fin n → List (GaloisRing BaseRing.z128.bits e),
      (∀ i : Fin n, ∃ s, maskNextVec prssGenParMinChunk (sessionState keys (setup i) counters)
        (i + 1) bSwitchSquash amount = .ok (masks i, s)) →
      ∀ k < amount, ∃ (secret : BitVec 128) (shares : Fin n → GaloisRing BaseRing.z128.bits e),
        (∀ i, (masks i)[k]? = some (shares i)) ∧ IsSharing t (fromScalar secret) shares ∧
        ∀ b ≤ 4, ∀ m : ℕ, m < 2 ^ b → ∀ noise : ℤ, |noise| ≤ bSwitchSquash →
          fromExpandedMsg (BitVec.ofInt 128 (2 ^ (128 - b - 1) * m + noise) + secret) b =
            .ok (BitVec.ofNat 128 m) := by
  have i₀ : Fin n := ⟨0, by omega⟩
  have hn : n < 2 ^ e.deg := ((prssSets_eq_ok_iff keys F .z128 ht.le _ _).mp (hsetup i₀)).1
  have hstate : ∀ i : Fin n, sessionState keys (setup i) counters =
      partyState keys n t counters (i + 1) := by
    intro i
    rw [((prssSets_eq_ok_iff keys F .z128 ht.le _ _).mp (hsetup i)).2]
    rfl
  have hbd : bSwitchSquash * 2 ^ statsec % 2 ^ 128 = 2 ^ 110 := by decide
  have hmasks : counters.maskCtr + 2 * amount ≤ 2 ^ 120 → ∀ i : Fin n,
      maskNextVec prssGenParMinChunk (partyState keys n t counters (i + 1)) (i + 1) bSwitchSquash
        amount = .ok ((List.range amount).map (fun k =>
          (maskSharing keys n t (counters.maskCtr + 2 * k) (2 ^ 110)).eval
            (partyPoint i : GaloisRing BaseRing.z128.bits e)), partyState keys n t
              { counters with maskCtr := counters.maskCtr + 2 * amount } (i + 1)) := by
    intro hctr i
    rw [maskNextVec_eq keys prssGenParMinChunk (by rw [hbd]; positivity) (by rw [hbd]; norm_num)
      hctr i, hbd]
  simp only [hstate]
  refine ⟨fun hctr i => ⟨_, hmasks hctr i⟩, fun masks hrun k hk => ?_⟩
  obtain ⟨s₀, h₀⟩ := hrun i₀
  obtain ⟨-, -, -, hctr⟩ := maskNextVec_bounds (sets_partyState_ne_nil keys counters ht i₀)
    (Nat.zero_lt_of_lt hk) h₀
  refine ⟨BitVec.ofInt 128 (maskSecret keys n t (counters.maskCtr + 2 * k) (2 ^ 110)), _,
    fun i => ?_, isSharing_maskSharing keys F hn ht.le (counters.maskCtr + 2 * k) (2 ^ 110),
    fun b hb m hm noise hnoise => ?_⟩
  · obtain ⟨s, hs⟩ := hrun i
    have heq := congrArg Prod.fst (Except.ok.inj (hs.symm.trans (hmasks hctr i)))
    rw [show masks i = _ from heq, List.getElem?_map, List.getElem?_range hk]
    rfl
  · have hsets : (n.choose t : ℤ) * (2 * (2 ^ 110 : ℕ)) ≤ 2047 * 2 ^ 111 := by
      have hle : (n.choose t : ℤ) ≤ 2047 := by exact_mod_cast hsize
      push_cast
      linarith
    have hmask := abs_le.mp ((maskSecret_bounds keys ht.le (counters.maskCtr + 2 * k)
      (show 0 < 2 ^ 110 by positivity)).trans hsets)
    have hquarter : (2 : ℤ) ^ 122 ≤ 2 ^ (126 - b) :=
      pow_le_pow_right₀ (by norm_num) (by omega)
    have hnoise' := abs_le.mp hnoise
    unfold bSwitchSquash at hnoise'
    push_cast at hnoise'
    rw [← BitVec.ofInt_add, add_assoc, show 128 - b - 1 = 127 - b by omega]
    refine fromExpandedMsg_of_lt hb hm ?_ ?_
    · linarith
    · linarith

/-- Four parties mask the largest message of four bits. -/
theorem fromExpandedMsg_masked_four_parties :
    ∃ (secret : BitVec 128) (shares : Fin 4 → GaloisRing BaseRing.z128.bits .three),
      IsSharing 1 (fromScalar secret) shares ∧
      fromExpandedMsg (BitVec.ofInt 128 (2 ^ (128 - 4 - 1) * (15 : ℕ) + -5) + secret) 4 =
        .ok (BitVec.ofNat 128 15) := by
  obtain ⟨hok, hmasked⟩ := fromExpandedMsg_masked (n := 4) (t := 1) (e := .three) xorKeys GF8
    (by decide) (by decide)
    (fun i => prssSets_eq xorKeys GF8 .z128 (by decide) (by decide) _) ⟨0, 5, 9⟩ 2 1
  choose masks hmasks using hok (by norm_num)
  obtain ⟨secret, shares, -, hsharing, hdecode⟩ :=
    hmasked (fun i => (masks i).1) (fun i => ⟨(masks i).2, hmasks i⟩) 0 one_pos
  exact ⟨secret, shares, hsharing, hdecode 4 le_rfl 15 (by norm_num) (-5) (by decide)⟩

end ThresholdKms
