import ThresholdKms.PrssRange

/-!
# Consistency of pseudorandom sharings

The parties hold setups for the same keys and are at the same counters of one session. Whenever a
generator returns a share to each of them, the shares lie on one polynomial of the degree of the
generator, and its value at zero is determined by the values of all sets.
-/

open Polynomial ReplicatedSharing

namespace ThresholdKms

open GaloisRing

variable {w n : ℕ}

/-- The shares lie on one polynomial of bounded degree that has the secret as its value at zero. -/
def IsSharing {e : ExtensionDegree} (d : ℕ) (secret : GaloisRing w e)
    (shares : Fin n → GaloisRing w e) : Prop :=
  ∃ f : (GaloisRing w e)[X], f.natDegree ≤ d ∧ f.eval 0 = secret ∧
    ∀ i, shares i = f.eval (partyPoint i)

/-- A session of a setup that has reached the counters. -/
def sessionState {w : ℕ} {e : ExtensionDegree} (keys : PrssKeys) (setup : PRSSSetup w e)
    (counters : PRSSCounters) : PRSSState w e :=
  { setup.newPrssSessionState keys.aes128 keys.sid with counters := counters }

/-- The call returns a share to every party. -/
def Outputs {e : ExtensionDegree}
    (call : Fin n → Outcome (GaloisRing w e × PRSSState w e)) (shares : Fin n → GaloisRing w e) :
    Prop :=
  ∀ i, ∃ s, call i = .ok (shares i, s)

theorem Outputs.eq {e : ExtensionDegree}
    {call : Fin n → Outcome (GaloisRing w e × PRSSState w e)} {x y : Fin n → GaloisRing w e}
    {s : Fin n → PRSSState w e} (h : Outputs call x) (hcall : ∀ i, call i = .ok (y i, s i)) :
    x = y := by
  funext i
  obtain ⟨s', hs'⟩ := h i
  exact congrArg Prod.fst (Except.ok.inj (hs'.symm.trans (hcall i)))

variable {z : BaseRing} {e : ExtensionDegree} {t : ℕ}

section Sharings

variable (keys : PrssKeys) (counters : PRSSCounters)

theorem isSharing_setSharing (F : Type) [Field F] [G2p e F] {w : ℕ} (hw : 0 < w)
    (hn : n < 2 ^ e.deg) (ht : t ≤ n) {d : ℕ} {value : List Role → (GaloisRing w e)[X]}
    (hvalue : ∀ s, (value s).natDegree ≤ d) : IsSharing (d + t)
      (((allSets n t).map (fun s => (value s).eval 0)).sum)
      (fun i : Fin n => (setSharing n t value).eval (partyPoint i)) :=
  ⟨setSharing n t value, natDegree_setSharing_le ht hvalue, eval_zero_setSharing F hw hn value,
    fun _ => rfl⟩

theorem isSharing_constants (F : Type) [Field F] [G2p e F] {w : ℕ} (hw : 0 < w)
    (hn : n < 2 ^ e.deg) (ht : t ≤ n) (value : List Role → GaloisRing w e) :
    IsSharing t ((allSets n t).map value).sum
      (fun i : Fin n => (setSharing n t (fun s => C (value s))).eval (partyPoint i)) := by
  have hsharing := isSharing_setSharing F hw hn ht (d := 0) (fun s => (natDegree_C (value s)).le)
  simpa only [eval_C, zero_add] using hsharing

theorem sets_partyState_ne_nil (ht : t < n) (i : Fin n) :
    (partyState keys n t counters (i + 1) : PRSSState z.bits e).prssSetup.sets ≠ [] := by
  intro h
  exact partySets_ne_nil ht (List.mem_ofFn.mpr ⟨i, rfl⟩) (List.map_eq_nil_iff.mp h)

theorem prssNext_of_lt (hctr : counters.prssCtr < 2 ^ 112) (i : Fin n) :
    prssNext (partyState keys n t counters (i + 1)) (i + 1) =
      .ok ((prssSharing keys n t counters.prssCtr).eval (partyPoint i : GaloisRing z.bits e),
        partyState keys n t { counters with prssCtr := counters.prssCtr + 1 } (i + 1)) := by
  rw [prssNext, prssNextVec_eq keys hctr]
  rfl

variable {x : GaloisRing z.bits e} {s : PRSSState z.bits e} {i : Fin n}

theorem prssCtr_lt_of_prssNext (ht : t < n)
    (h : prssNext (partyState keys n t counters (i + 1)) (i + 1) = .ok (x, s)) :
    counters.prssCtr < 2 ^ 112 := by
  obtain ⟨l, hvec⟩ := nextOf_eq_ok h
  obtain ⟨batch, hbatch, -⟩ := Outcome.bind_eq_ok.mp hvec
  obtain ⟨d, y, hd, hy, -⟩ := nextBatch_one_eq_ok hbatch
  rw [mapM_setData] at hd
  cases hd
  refine prssElement_lt ?_ hy
  rw [Ne, List.map_eq_nil_iff]
  exact partySets_ne_nil ht (List.mem_ofFn.mpr ⟨i, rfl⟩)

theorem przsNext_of_lt (hctr : counters.przsCtr < 2 ^ 104) (i : Fin n) :
    przsNext (partyState keys n t counters (i + 1)) (i + 1) t =
      .ok ((przsSharing keys n t counters.przsCtr).eval (partyPoint i : GaloisRing z.bits e),
        partyState keys n t { counters with przsCtr := counters.przsCtr + 1 } (i + 1)) := by
  rw [przsNext, przsNextVec_eq keys hctr]
  rfl

/-- Without a threshold no cipher is called and the share is zero for any counter. -/
theorem przsCtr_lt_or_eq_zero (ht : t < n)
    (h : przsNext (partyState keys n t counters (i + 1)) (i + 1) t = .ok (x, s)) :
    counters.przsCtr < 2 ^ 104 ∨ t = 0 ∧ x = 0 := by
  obtain ⟨l, hvec⟩ := nextOf_eq_ok h
  obtain ⟨⟨values, ctr⟩, hbatch, hret⟩ := Outcome.bind_eq_ok.mp hvec
  obtain ⟨d, y, hd, hy, hvalues⟩ := nextBatch_one_eq_ok hbatch
  cases hvalues
  cases hret
  rw [mapM_przsSetData] at hd
  cases hd
  rcases Nat.eq_zero_or_pos t with rfl | hpos
  · right
    rw [przsElement_eq_zero (by simp)] at hy
    exact ⟨rfl, (Except.ok.inj hy).symm⟩
  · left
    cases hcases : partySets n t (i + 1) with
    | nil => exact absurd hcases (partySets_ne_nil ht (List.mem_ofFn.mpr ⟨i, rfl⟩))
    | cons set sets =>
      rw [hcases] at hy
      refine przsElement_lt ?_ hy
      rw [Ne, List.ofFn_eq_nil_iff]
      exact hpos.ne'

theorem maskNext_of_lt (prssGenParMinChunk : ℕ) {bd : ℕ} (hpos : 0 < bd * 2 ^ statsec % 2 ^ 128)
    (hbd : bd * 2 ^ statsec % 2 ^ 128 ≤ 2 ^ 126) (hctr : counters.maskCtr + 2 ≤ 2 ^ 120)
    (i : Fin n) :
    maskNext prssGenParMinChunk (partyState keys n t counters (i + 1)) (i + 1) bd =
      .ok ((maskSharing keys n t counters.maskCtr (bd * 2 ^ statsec % 2 ^ 128)).eval
          (partyPoint i : GaloisRing BaseRing.z128.bits e),
        partyState keys n t { counters with maskCtr := counters.maskCtr + 2 } (i + 1)) := by
  rw [maskNext, maskNextVec_eq keys prssGenParMinChunk hpos hbd hctr]
  rfl

variable {prssGenParMinChunk bd : ℕ}

theorem bounds_of_maskNext (ht : t < n)
    (h : maskNext prssGenParMinChunk (partyState keys n t counters (i + 1)) (i + 1) bd =
      .ok (x, s)) :
    z = .z128 ∧ 0 < bd * 2 ^ statsec % 2 ^ 128 ∧ bd * 2 ^ statsec % 2 ^ 128 ≤ 2 ^ 126 ∧
      counters.maskCtr + 2 ≤ 2 ^ 120 := by
  obtain ⟨l, hvec⟩ := nextOf_eq_ok h
  exact maskNextVec_bounds (sets_partyState_ne_nil keys counters ht i) one_pos hvec

variable {x : Fin n → GaloisRing z.bits e}

theorem prssNext_isSharing (F : Type) [Field F] [G2p e F] (hn : n < 2 ^ e.deg) (ht : t < n)
    (i₀ : Fin n)
    (h : Outputs (fun i : Fin n => prssNext (partyState keys n t counters (i + 1)) (i + 1)) x) :
    ∃ psiA : List Role → GaloisRing z.bits e, (∀ A ∈ allSets n t,
        psi (keys.prf A).psiAes counters.prssCtr = .ok (psiA A)) ∧
      IsSharing t ((allSets n t).map psiA).sum x := by
  obtain ⟨s₀, h₀⟩ := h i₀
  have hctr := prssCtr_lt_of_prssNext keys counters ht h₀
  have hx := h.eq (fun i => prssNext_of_lt keys counters hctr i)
  refine ⟨psiOf keys counters.prssCtr, fun A _ => psi_of_lt _ hctr, ?_⟩
  rw [hx]
  exact isSharing_constants F z.bits_pos hn ht.le _

theorem maskNext_isSharing (F : Type) [Field F] [G2p e F] (hn : n < 2 ^ e.deg) (ht : t < n)
    (i₀ : Fin n) (h : Outputs (fun i : Fin n =>
      maskNext prssGenParMinChunk (partyState keys n t counters (i + 1)) (i + 1) bd) x) :
    ∃ phi₀ phi₁ : List Role → ℤ, (∀ A ∈ allSets n t,
        phiRange (keys.prf A).phiAes counters.maskCtr 2 (bd * 2 ^ statsec % 2 ^ 128) =
          .ok [phi₀ A, phi₁ A]) ∧
      IsSharing t ((allSets n t).map
        (fun A => ((phi₀ A + phi₁ A : ℤ) : GaloisRing z.bits e))).sum x := by
  obtain ⟨s₀, h₀⟩ := h i₀
  obtain ⟨rfl, hpos, hbd, hctr⟩ := bounds_of_maskNext keys counters ht h₀
  have hx := h.eq (fun i => maskNext_of_lt keys counters prssGenParMinChunk hpos hbd hctr i)
  refine ⟨_, _, fun A _ => phiRange_eq_ok _ hpos hbd hctr, ?_⟩
  rw [hx]
  exact isSharing_constants F BaseRing.z128.bits_pos hn ht.le _

theorem przsNext_isSharing (F : Type) [Field F] [G2p e F] (hn : n < 2 ^ e.deg) (ht : t < n)
    (h : Outputs (fun i : Fin n => przsNext (partyState keys n t counters (i + 1)) (i + 1) t) x) :
    IsSharing (2 * t) 0 x := by
  by_cases hctr : counters.przsCtr < 2 ^ 104
  · have hx := h.eq (fun i => przsNext_of_lt keys counters hctr i)
    have hsharing := isSharing_setSharing F z.bits_pos hn ht.le
      (natDegree_chiPoly_le (z := z) (e := e) keys t counters.przsCtr)
    simp only [eval_zero_chiPoly, List.map_const', List.sum_replicate, smul_zero] at hsharing
    rw [hx, two_mul]
    exact hsharing
  · refine ⟨0, by simp, eval_zero, fun i => ?_⟩
    obtain ⟨s, hs⟩ := h i
    rw [eval_zero]
    exact ((przsCtr_lt_or_eq_zero keys counters ht hs).resolve_left hctr).2

end Sharings

/-- The sharings of the three generators, and the counters at which they are returned. -/
theorem prss_sharings (F : Type) [Field F] [DecidableEq F] [G2p e F] (keys : PrssKeys) (ht : t < n)
    {setup : Fin n → PRSSSetup z.bits e} (hsetup : ∀ i : Fin n, prssSets F (partyRoles n) t (i + 1)
      ((partySets n t (i + 1)).map keys.key) = .ok (setup i)) (counters : PRSSCounters)
    (prssGenParMinChunk bd : ℕ) :
    (∀ x, Outputs (fun i : Fin n => prssNext (sessionState keys (setup i) counters) (i + 1)) x →
      ∃ psiA : List Role → GaloisRing z.bits e, (∀ A ∈ combinations (n - t) (partyRoles n),
          psi (keys.prf A).psiAes counters.prssCtr = .ok (psiA A)) ∧
        IsSharing t ((combinations (n - t) (partyRoles n)).map psiA).sum x) ∧
    (∀ x, Outputs (fun i : Fin n =>
        maskNext prssGenParMinChunk (sessionState keys (setup i) counters) (i + 1) bd) x →
      ∃ phi₀ phi₁ : List Role → ℤ, (∀ A ∈ combinations (n - t) (partyRoles n),
          phiRange (keys.prf A).phiAes counters.maskCtr 2 (bd * 2 ^ statsec % 2 ^ 128) =
            .ok [phi₀ A, phi₁ A]) ∧
        IsSharing t ((combinations (n - t) (partyRoles n)).map
          (fun A => ((phi₀ A + phi₁ A : ℤ) : GaloisRing z.bits e))).sum x) ∧
    (∀ x, Outputs (fun i : Fin n => przsNext (sessionState keys (setup i) counters) (i + 1) t) x →
      IsSharing (2 * t) 0 x) ∧
    (counters.prssCtr < 2 ^ 112 →
      ∃ x, Outputs (fun i : Fin n => prssNext (sessionState keys (setup i) counters) (i + 1)) x) ∧
    (z = .z128 → 0 < bd * 2 ^ statsec % 2 ^ 128 → bd * 2 ^ statsec % 2 ^ 128 ≤ 2 ^ 126 →
      counters.maskCtr + 2 ≤ 2 ^ 120 →
      ∃ x, Outputs (fun i : Fin n =>
        maskNext prssGenParMinChunk (sessionState keys (setup i) counters) (i + 1) bd) x) ∧
    (counters.przsCtr < 2 ^ 104 → ∃ x, Outputs (fun i : Fin n =>
        przsNext (sessionState keys (setup i) counters) (i + 1) t) x) := by
  have i₀ : Fin n := ⟨0, by omega⟩
  have hn : n < 2 ^ e.deg := ((prssSets_eq_ok_iff keys F z ht.le _ _).mp (hsetup i₀)).1
  have hstate : ∀ i : Fin n, sessionState keys (setup i) counters =
      partyState keys n t counters (i + 1) := by
    intro i
    rw [((prssSets_eq_ok_iff keys F z ht.le _ _).mp (hsetup i)).2]
    rfl
  simp only [hstate]
  refine ⟨?_, ?_, ?_, ?_, ?_, ?_⟩
  · intro x h
    exact prssNext_isSharing keys counters F hn ht i₀ h
  · intro x h
    exact maskNext_isSharing keys counters F hn ht i₀ h
  · intro x h
    exact przsNext_isSharing keys counters F hn ht h
  · intro hctr
    exact ⟨_, fun i => ⟨_, prssNext_of_lt keys counters hctr i⟩⟩
  · rintro rfl hpos hbd hctr
    exact ⟨_, fun i => ⟨_, maskNext_of_lt keys counters prssGenParMinChunk hpos hbd hctr i⟩⟩
  · intro hctr
    exact ⟨_, fun i => ⟨_, przsNext_of_lt keys counters hctr i⟩⟩

def xorKeys : PrssKeys where
  aes128 := fun key block => key ^^^ block
  key := fun s => BitVec.ofNat 128 s.sum
  sid := 7

theorem prss_sharings_four_parties :
    ∃ setup : Fin 4 → PRSSSetup BaseRing.z128.bits .three,
      (∀ i : Fin 4, prssSets GF8 (partyRoles 4) 1 (i + 1) ((partySets 4 1 (i + 1)).map xorKeys.key) =
        .ok (setup i)) ∧
      (∃ x psiA, Outputs (fun i : Fin 4 =>
          prssNext (sessionState xorKeys (setup i) ⟨0, 5, 9⟩) (i + 1)) x ∧
        (∀ A ∈ combinations 3 (partyRoles 4), psi (xorKeys.prf A).psiAes 5 = .ok (psiA A)) ∧
        IsSharing 1 ((combinations 3 (partyRoles 4)).map psiA).sum x) ∧
      (∃ (x : _) (phi₀ phi₁ : List Role → ℤ), Outputs (fun i : Fin 4 =>
          maskNext 2 (sessionState xorKeys (setup i) ⟨0, 5, 9⟩) (i + 1) 3) x ∧
        (∀ A ∈ combinations 3 (partyRoles 4),
          phiRange (xorKeys.prf A).phiAes 0 2 (3 * 2 ^ statsec % 2 ^ 128) = .ok [phi₀ A, phi₁ A]) ∧
        IsSharing 1 ((combinations 3 (partyRoles 4)).map (fun A =>
          ((phi₀ A + phi₁ A : ℤ) : GaloisRing BaseRing.z128.bits .three))).sum x) ∧
      ∃ x, Outputs (fun i : Fin 4 =>
        przsNext (sessionState xorKeys (setup i) ⟨0, 5, 9⟩) (i + 1) 1) x ∧ IsSharing 2 0 x := by
  have hsetup : ∀ i : Fin 4, prssSets GF8 (partyRoles 4) 1 (i + 1)
      ((partySets 4 1 (i + 1)).map xorKeys.key) =
        .ok (partySetup xorKeys 4 1 (i + 1) : PRSSSetup BaseRing.z128.bits .three) :=
    fun i => prssSets_eq xorKeys GF8 .z128 (by decide) (by decide) _
  obtain ⟨hprss, hmask, hprzs, hprss', hmask', hprzs'⟩ :=
    prss_sharings GF8 xorKeys (by decide) hsetup ⟨0, 5, 9⟩ 2 3
  obtain ⟨x, hx⟩ := hprss' (by norm_num)
  obtain ⟨y, hy⟩ := hmask' rfl (by decide) (by decide) (by norm_num)
  obtain ⟨v, hv⟩ := hprzs' (by norm_num)
  obtain ⟨psiA, hpsi, hsharing⟩ := hprss x hx
  obtain ⟨phi₀, phi₁, hphi, hmasks⟩ := hmask y hy
  exact ⟨_, hsetup, ⟨x, psiA, hx, hpsi, hsharing⟩, ⟨y, phi₀, phi₁, hy, hphi, hmasks⟩, v, hv, hprzs v hv⟩

end ThresholdKms
