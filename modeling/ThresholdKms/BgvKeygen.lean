import ThresholdKms.BgvLevels
import ThresholdKms.NegacyclicProduct

/-!
# Key generation

The parties open the two halves `pk_b` and `pk_b'` of the public key as elements modulo `QR`, and
reduce the first one modulo `Q` only afterwards. So the quotient by `Q` is opened as well, and it is
not determined by the public key.
-/

namespace ThresholdKms

open NegacyclicProduct

variable {N Q R p : ℕ}

/-- The secret key and the noises of the two halves, before they are reduced. -/
structure BgvSecrets (N : ℕ) where
  sk : Fin N → ℤ
  ePk : Fin N → ℤ
  ePkPrime : Fin N → ℤ

structure BgvSecrets.Valid (s : BgvSecrets N) : Prop where
  ternary : ∀ i, |s.sk i| ≤ 1
  noise : ∀ i, |s.ePk i| ≤ newHopeBound
  noisePrime : ∀ i, |s.ePkPrime i| ≤ newHopeBound

namespace BgvSecrets.Valid

variable {s s' : BgvSecrets N} (hs : s.Valid) (hs' : s'.Valid)
include hs hs'

theorem abs_sk_sub_le (i : Fin N) : |s.sk i - s'.sk i| ≤ 2 :=
  (abs_sub _ _).trans (by linarith [hs.ternary i, hs'.ternary i])

theorem abs_ePk_sub_le (i : Fin N) : |s.ePk i - s'.ePk i| ≤ 2 * newHopeBound :=
  (abs_sub _ _).trans (by linarith [hs.noise i, hs'.noise i])

end BgvSecrets.Valid

/-- What is opened of the second halves. -/
@[ext]
structure OpenedPublicKey (N Q R : ℕ) where
  pkB : Fin N → ZMod (Q * R)
  pkBPrime : Fin N → ZMod (Q * R)

@[ext]
structure BgvPublicKey (N Q R : ℕ) where
  a : Fin N → ZMod Q
  b : Fin N → ZMod Q
  aPrime : Fin N → ZMod (Q * R)
  bPrime : Fin N → ZMod (Q * R)

/-- The polynomials are multiplied by their transforms; `R` is the scaling factor. -/
def openPublicKey (p : ℕ) (pkA pkAPrime : Fin N → ZMod (Q * R)) (s : BgvSecrets N) :
    OpenedPublicKey N Q R :=
  let sk : Fin N → ZMod (Q * R) := fun i => s.sk i
  let pkAModQ := fun i => remQ Q R (pkA i)
  { pkB := fun k => negacyclicMul sk pkAModQ k + s.ePk k * p
    pkBPrime := fun k =>
      s.ePkPrime k * p + negacyclicMul sk pkAPrime k - negacyclicMul sk sk k * R }

def bgvDistributedKeygen (p : ℕ) (pkA pkAPrime : Fin N → ZMod (Q * R)) (s : BgvSecrets N) :
    BgvPublicKey N Q R :=
  let opened := openPublicKey p pkA pkAPrime s
  { a := fun i => toLevelEll Q R (pkA i)
    b := fun i => toLevelEll Q R (opened.pkB i)
    aPrime := pkAPrime
    bPrime := opened.pkBPrime }

/-- The first half over the integers. -/
def unreducedPkB (p : ℕ) (pkA : Fin N → ZMod (Q * R)) (sk e : Fin N → ℤ) (k : Fin N) : ℤ :=
  negacyclicMul sk (fun i => (((pkA i).val % Q : ℕ) : ℤ)) k + e k * p

variable (pkA pkAPrime : Fin N → ZMod (Q * R))

theorem pkB_eq (s : BgvSecrets N) (k : Fin N) :
    (openPublicKey p pkA pkAPrime s).pkB k = (unreducedPkB p pkA s.sk s.ePk k : ZMod (Q * R)) := by
  have hmap := map_negacyclicMul (Int.castRingHom (ZMod (Q * R))) s.sk
    (fun i => (((pkA i).val % Q : ℕ) : ℤ)) k
  simp only [eq_intCast, Int.cast_natCast] at hmap
  unfold unreducedPkB
  rw [Int.cast_add, hmap, Int.cast_mul, Int.cast_natCast]
  rfl

theorem unreducedPkB_sub (pkA : Fin N → ZMod (Q * R)) (sk sk' e e' : Fin N → ℤ) (k : Fin N) :
    unreducedPkB p pkA sk e k - unreducedPkB p pkA sk' e' k =
      unreducedPkB p pkA (sk - sk') (e - e') k := by
  unfold unreducedPkB
  rw [sub_negacyclicMul, Pi.sub_apply, Pi.sub_apply]
  ring

theorem abs_unreducedPkB_le (pkA : Fin N → ZMod (Q * R)) {sk : Fin N → ℤ} {D : ℤ}
    (hD : ∀ i, |sk i| ≤ D) (e : Fin N → ℤ) (k : Fin N) :
    |unreducedPkB p pkA sk e k| ≤ D * ∑ i, (((pkA i).val % Q : ℕ) : ℤ) + |e k| * p := by
  have hmul := abs_negacyclicMul_le hD (fun i => (((pkA i).val % Q : ℕ) : ℤ)) k
  simp only [Nat.abs_cast] at hmul
  refine (abs_add_le _ _).trans (add_le_add hmul ?_)
  rw [abs_mul, Nat.abs_cast]

variable (s s' : BgvSecrets N)

theorem pkB_eq_iff (k : Fin N) :
    (openPublicKey p pkA pkAPrime s).pkB k = (openPublicKey p pkA pkAPrime s').pkB k ↔
      ((Q * R : ℕ) : ℤ) ∣ unreducedPkB p pkA (s.sk - s'.sk) (s.ePk - s'.ePk) k := by
  rw [pkB_eq, pkB_eq, eq_comm, ZMod.intCast_eq_intCast_iff_dvd_sub, unreducedPkB_sub]

theorem b_eq_iff [NeZero (Q * R)] (k : Fin N) :
    (bgvDistributedKeygen p pkA pkAPrime s).b k = (bgvDistributedKeygen p pkA pkAPrime s').b k ↔
      (Q : ℤ) ∣ unreducedPkB p pkA (s.sk - s'.sk) (s.ePk - s'.ePk) k := by
  simp only [bgvDistributedKeygen, pkB_eq]
  rw [toLevelEll_intCast_eq_iff, unreducedPkB_sub]

variable {s s'}

/-- The same values are opened for two keys with the same public key if the coefficients of the secret
keys differ by at most `D` and `D` times the sum of the mask, with the difference of the noises, stays
below `Q`. -/
theorem openPublicKey_eq_of_noCarry (hR : 0 < R) {D : ℤ} (hD : ∀ i, |s.sk i - s'.sk i| ≤ D)
    (hsmall : ∀ k, D * ∑ i, (((pkA i).val % Q : ℕ) : ℤ) + |s.ePk k - s'.ePk k| * p < Q)
    (hkey : bgvDistributedKeygen p pkA pkAPrime s = bgvDistributedKeygen p pkA pkAPrime s') :
    openPublicKey p pkA pkAPrime s = openPublicKey p pkA pkAPrime s' := by
  have hpkB : (openPublicKey p pkA pkAPrime s).pkB = (openPublicKey p pkA pkAPrime s').pkB := by
    funext k
    have hlt := (abs_unreducedPkB_le pkA hD (s.ePk - s'.ePk) k).trans_lt (hsmall k)
    have : NeZero (Q * R) :=
      ⟨(Nat.mul_pos (by exact_mod_cast (abs_nonneg _).trans_lt hlt) hR).ne'⟩
    have hdvd := (b_eq_iff pkA pkAPrime s s' k).mp (congrFun (congrArg BgvPublicKey.b hkey) k)
    rw [pkB_eq_iff, Int.eq_zero_of_abs_lt_dvd hdvd hlt]
    exact dvd_zero _
  exact OpenedPublicKey.ext hpkB (congrArg BgvPublicKey.bPrime hkey)

section Constants

variable [NeZero N]

/-- The secret key and the noise of the first half are constants. -/
def constantSecrets (N : ℕ) [NeZero N] (sk e : ℤ) : BgvSecrets N := ⟨Pi.single 0 sk, Pi.single 0 e, 0⟩

theorem valid_constantSecrets {sk e : ℤ} (hsk : |sk| ≤ 1) (he : |e| ≤ 1) :
    (constantSecrets N sk e).Valid := by
  have hsingle : ∀ x : ℤ, |x| ≤ 1 → ∀ i : Fin N, |(Pi.single 0 x : Fin N → ℤ) i| ≤ 1 := by
    intro x hx i
    rcases eq_or_ne i 0 with rfl | hi
    · exact hx
    · rw [Pi.single_eq_of_ne hi]
      decide
  exact ⟨hsingle sk hsk, hsingle e he, fun i => by simp [constantSecrets]⟩

theorem unreducedPkB_constantSecrets (pkA : Fin N → ZMod (Q * R)) (sk sk' e e' : ℤ) (k : Fin N) :
    unreducedPkB p pkA ((constantSecrets N sk e).sk - (constantSecrets N sk' e').sk)
      ((constantSecrets N sk e).ePk - (constantSecrets N sk' e').ePk) k =
        (sk - sk') * (((pkA k).val % Q : ℕ) : ℤ) + (Pi.single 0 (e - e') : Fin N → ℤ) k * p := by
  unfold unreducedPkB constantSecrets
  rw [← Pi.single_sub, ← Pi.single_sub, single_negacyclicMul]

/-- The second half does not tell a secret key from its negative if the mask is zero. -/
theorem bPrime_constantSecrets (pkA : Fin N → ZMod (Q * R)) (e e' : ℤ) :
    (openPublicKey p pkA 0 (constantSecrets N 1 e)).pkBPrime =
      (openPublicKey p pkA 0 (constantSecrets N (-1) e')).pkBPrime := by
  have hcast : ∀ x : ℤ, (fun i => ((Pi.single 0 x : Fin N → ℤ) i : ZMod (Q * R))) =
      Pi.single 0 (x : ZMod (Q * R)) := by
    intro x
    funext i
    rcases eq_or_ne i 0 with rfl | hi
    · rw [Pi.single_eq_same, Pi.single_eq_same]
    · rw [Pi.single_eq_of_ne hi, Pi.single_eq_of_ne hi, Int.cast_zero]
  funext k
  simp only [openPublicKey, constantSecrets, hcast, single_negacyclicMul]
  rcases eq_or_ne k 0 with rfl | hk
  · simp
  · simp [Pi.single_eq_of_ne hk]

/-- A secret key and its negative have the same public key if the mask is zero. -/
theorem keygen_constantSecrets_of_dvd [NeZero (Q * R)] (pkA : Fin N → ZMod (Q * R)) (e e' : ℤ)
    (hdvd : ∀ k, (Q : ℤ) ∣ 2 * (((pkA k).val % Q : ℕ) : ℤ) + (Pi.single 0 (e - e') : Fin N → ℤ) k * p) :
    bgvDistributedKeygen p pkA 0 (constantSecrets N 1 e) =
      bgvDistributedKeygen p pkA 0 (constantSecrets N (-1) e') := by
  have hb : (bgvDistributedKeygen p pkA 0 (constantSecrets N 1 e)).b =
      (bgvDistributedKeygen p pkA 0 (constantSecrets N (-1) e')).b := by
    funext k
    rw [b_eq_iff, unreducedPkB_constantSecrets]
    exact hdvd k
  exact BgvPublicKey.ext rfl hb rfl (bPrime_constantSecrets pkA e e')

theorem val_single_mod (hR : 0 < R) {a : ℕ} (ha : a < Q) (k : Fin N) :
    ((Pi.single 0 (a : ZMod (Q * R)) : Fin N → ZMod (Q * R)) k).val % Q =
      (Pi.single 0 a : Fin N → ℕ) k := by
  rcases eq_or_ne k 0 with rfl | hk
  · rw [Pi.single_eq_same, Pi.single_eq_same,
      ZMod.val_cast_of_lt (ha.trans_le (Nat.le_mul_of_pos_right Q hR)), Nat.mod_eq_of_lt ha]
  · rw [Pi.single_eq_of_ne hk, Pi.single_eq_of_ne hk, ZMod.val_zero, Nat.zero_mod]

end Constants

/-- The mask `p` and the noises `-1` and `1` hide which of the keys `1` and `-1` it is. -/
theorem openPublicKey_eq_masked_by_p :
    openPublicKey plaintextMod
        (Pi.single 0 (plaintextMod : ZMod (modulusQ * modulusR)) : Fin 65536 → _) 0
        (constantSecrets 65536 1 (-1)) =
      openPublicKey plaintextMod (Pi.single 0 (plaintextMod : ZMod (modulusQ * modulusR))) 0
        (constantSecrets 65536 (-1) 1) := by
  have : NeZero (modulusQ * modulusR) := ⟨by decide⟩
  have hs : (constantSecrets 65536 1 (-1)).Valid := valid_constantSecrets le_rfl (by decide)
  have hs' : (constantSecrets 65536 (-1) 1).Valid := valid_constantSecrets (by decide) le_rfl
  refine openPublicKey_eq_of_noCarry _ 0 (by decide) (hs.abs_sk_sub_le hs') (fun k => ?_)
    (keygen_constantSecrets_of_dvd _ (-1) 1 (fun k => ?_))
  · rw [Finset.sum_congr rfl (fun i _ => congrArg Nat.cast (val_single_mod (by decide) (by decide) i)),
      ← Nat.cast_sum, Finset.sum_pi_single', if_pos (Finset.mem_univ _)]
    have hnoise := mul_le_mul_of_nonneg_right (hs.abs_ePk_sub_le hs' k)
      (Int.natCast_nonneg plaintextMod)
    exact (add_le_add_right hnoise _).trans_lt (by decide)
  · rw [val_single_mod (by decide) (by decide)]
    rcases eq_or_ne k 0 with rfl | hk
    · decide
    · rw [Pi.single_eq_of_ne hk, Pi.single_eq_of_ne hk]
      decide

/-- The constant keys `1` and `-1` with the noises `1` and `0`, under the mask `(Q - p) / 2`: the first
halves differ by `Q`. -/
theorem openPublicKey_reveals_key :
    ∃ (pkA : Fin 65536 → ZMod (modulusQ * modulusR)) (s s' : BgvSecrets 65536), s.Valid ∧ s'.Valid ∧
      bgvDistributedKeygen plaintextMod pkA 0 s = bgvDistributedKeygen plaintextMod pkA 0 s' ∧
      openPublicKey plaintextMod pkA 0 s ≠ openPublicKey plaintextMod pkA 0 s' := by
  have : NeZero (modulusQ * modulusR) := ⟨by decide⟩
  have hmask : ∀ k : Fin 65536, 2 * ((((Pi.single 0 (((modulusQ - plaintextMod) / 2 : ℕ) :
      ZMod (modulusQ * modulusR)) : Fin 65536 → ZMod (modulusQ * modulusR)) k).val % modulusQ : ℕ) : ℤ) +
      (Pi.single 0 (1 - 0) : Fin 65536 → ℤ) k * plaintextMod =
        (Pi.single 0 (modulusQ : ℤ) : Fin 65536 → ℤ) k := by
    intro k
    rw [val_single_mod (by decide) (by decide)]
    rcases eq_or_ne k 0 with rfl | hk
    · decide
    · rw [Pi.single_eq_of_ne hk, Pi.single_eq_of_ne hk, Pi.single_eq_of_ne hk]
      rfl
  refine ⟨Pi.single 0 (((modulusQ - plaintextMod) / 2 : ℕ) : ZMod (modulusQ * modulusR)),
    constantSecrets 65536 1 1, constantSecrets 65536 (-1) 0, valid_constantSecrets le_rfl le_rfl,
    valid_constantSecrets (by decide) (by decide), keygen_constantSecrets_of_dvd _ 1 0 (fun k => ?_),
    fun heq => ?_⟩
  · rw [hmask k]
    rcases eq_or_ne k 0 with rfl | hk
    · rw [Pi.single_eq_same]
    · rw [Pi.single_eq_of_ne hk]
      exact dvd_zero _
  · have hdvd := (pkB_eq_iff _ 0 _ _ 0).mp (congrFun (congrArg OpenedPublicKey.pkB heq) 0)
    rw [unreducedPkB_constantSecrets, show (1 : ℤ) - -1 = 2 by norm_num] at hdvd
    revert hdvd
    decide

end ThresholdKms
