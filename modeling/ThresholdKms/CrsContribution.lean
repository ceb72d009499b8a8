import ThresholdKms.CrsCeremony

/-!
# Accepted contributions

An honest party's contribution to powers of a secret passes the checks of all others. A contribution
that passes has the dimension of the current parameters, a later round, a proof of knowledge that
verifies, and passes the well-formedness check.
-/

namespace ThresholdKms

open Outcome

variable {F G₁ G₂ Gₜ : Type} [Field F] [AddCommGroup G₁] [AddCommGroup G₂] [AddCommGroup Gₜ]
  [Module F G₁] [Module F G₂] [Module F Gₜ] {grp : BilinearGroup F G₁ G₂ Gₜ}
  {hash : CeremonyHash F G₁ G₂} {dim round : ℕ} {tau : F} {pp : InternalPublicParameter G₁ G₂}
  {proof : PartialProof F G₁ G₂}

theorem BilinearGroup.power_zero (grp : BilinearGroup F G₁ G₂ Gₜ) (hdim : 0 < dim) (tau : F)
    (c : G₁) : grp.power dim tau c 0 = tau • grp.gen₁ := by
  simp [BilinearGroup.power, hdim.ne]

theorem IsPowers.index_first {c : G₁} (h : IsPowers grp dim tau c pp) (hdim : 0 < dim) :
    indexVec pp.g1s 0 = .ok (tau • grp.gen₁) := by
  rw [h.index_g1s (by omega), grp.power_zero hdim]

theorem makePartialProofDeterministic_isPowers (hash : CeremonyHash F G₁ G₂) {c : G₁}
    (h : IsPowers grp dim tau c pp) (hdim : 0 < dim) (round : ℕ) (t r : F) :
    ∃ hPok, hPok = hash.pok round ((t * tau) • grp.gen₁) (tau • grp.gen₁)
        (r • tau • grp.gen₁) ∧
      makePartialProofDeterministic hash pp t round r =
        .ok ⟨hPok, hPok * t + r, true, pp.raise t round⟩ := by
  refine ⟨_, rfl, ?_⟩
  have hlen : ¬ pp.g1s.length ≠ 2 * pp.witnessDim := by
    rw [h.length_g1s, h.witnessDim_eq]
    exact not_not.mpr rfl
  rw [makePartialProofDeterministic, if_neg hlen]
  simp only [h.index_first hdim, (h.raise t round).index_first hdim, ok_bind, pure_eq_ok]

variable [DecidableEq F] [DecidableEq G₁] [DecidableEq Gₜ]

omit [DecidableEq F] [DecidableEq G₁] in
theorem verifyWellformedness_isPowers (h : IsPowers grp dim tau 0 pp) (hdim : 2 ≤ dim) :
    verifyWellformedness grp hash pp = .ok () := by
  have hfirst : grp.pairing (grp.power dim tau 0 (dim + 1)) grp.gen₂ =
      grp.pairing (grp.power dim tau 0 (dim - 1)) (tau ^ (1 + 1) • grp.gen₂) := by
    rw [BilinearGroup.power, BilinearGroup.power, if_neg (by omega), if_neg (by omega)]
    simp only [map_smul, LinearMap.smul_apply, smul_smul, Nat.sub_add_cancel (by omega : 1 ≤ dim)]
    congr 1
    ring
  have hsums : wellformedSums grp dim (hash.scalars pp).1 (hash.scalars pp).2
      (fun i => pp.g1s.getD i 0) (fun l => pp.g2s.getD l 0) := by
    refine (wellformedSums_congr ?_ ?_).mpr (@wellformedSums_power _ _ _ _ _ _ _ _ _ _ _ grp dim tau
      (by omega) _ _ 0)
    · intro i hi
      simp [h.g1s, hi]
    · intro l hl
      simp [h.g2s, hl]
  simp only [verifyWellformedness, h.witnessDim_eq, h.index_g1s (by omega : dim + 1 < 2 * dim),
    h.index_g1s (by omega : dim - 1 < 2 * dim), h.index_g2s (by omega : 1 < dim), ok_bind]
  rw [if_neg (not_not.mpr hfirst), if_pos hsums]

omit [AddCommGroup G₂] [Module F G₂] [DecidableEq G₁] [DecidableEq Gₜ] in
theorem verifyDlogProof_honest (hash : CeremonyHash F G₁ G₂) (round : ℕ) (old : G₁) (t r : F) :
    verifyDlogProof hash (hash.pok round (t • old) old (r • old) * t + r)
      (hash.pok round (t • old) old (r • old)) old (t • old) round = .ok () := by
  have hcommit : ∀ c : F, (c * t + r) • old + (-c) • t • old = r • old := by
    intro c
    rw [smul_smul, ← add_smul]
    congr 1
    ring
  rw [verifyDlogProof, hcommit, if_neg (not_not.mpr rfl)]

theorem verifyProof_contribution {c : G₁} (h : IsPowers grp dim tau c pp) (hdim : 2 ≤ dim)
    (htau : tau ≠ 0) {t r : F} (ht : t ≠ 0) (hround : pp.round < round)
    (hproof : makePartialProofDeterministic hash pp t round r = .ok proof) :
    verifyProof grp hash pp proof round = .ok (pp.raise t round) := by
  have hpos : 0 < dim := by omega
  obtain ⟨hPok, rfl, hmake⟩ := makePartialProofDeterministic_isPowers hash h hpos round t r
  rw [hmake] at hproof
  cases hproof
  have hnew := h.raise t round
  have hlater : ¬ (pp.raise t round).round ≤ pp.round := by
    simpa [InternalPublicParameter.raise] using hround
  have hdlog := verifyDlogProof_honest hash round (tau • grp.gen₁) t r
  rw [smul_smul] at hdlog
  have hpunctured : indexVec (pp.raise t round).g1s dim = .ok 0 := by
    rw [hnew.index_g1s (by omega), BilinearGroup.power, if_pos rfl]
  have hg : ¬ (pp.raise t round).g1s.length ≠ dim * 2 := by
    rw [hnew.length_g1s, Nat.mul_comm]
    exact not_not.mpr rfl
  simp only [verifyProof, if_neg hlater, h.index_first hpos, hnew.index_first hpos, hdlog,
    h.witnessDim_eq, hnew.witnessDim_eq, hpunctured, verifyWellformedness_isPowers hnew hdim,
    ok_bind, pure_eq_ok, if_neg (smul_ne_zero (mul_ne_zero ht htau) grp.gen₁_ne_zero),
    if_neg hg]
  simp

/-- What the checks of a proof that is accepted amount to. -/
structure AcceptedProof (grp : BilinearGroup F G₁ G₂ Gₜ) (hash : CeremonyHash F G₁ G₂)
    (pp : InternalPublicParameter G₁ G₂) (proof : PartialProof F G₁ G₂) (round : ℕ) : Prop where
  later : pp.round < proof.newPp.round
  dlog : ∃ old new, pp.g1s[0]? = some old ∧ proof.newPp.g1s[0]? = some new ∧
    verifyDlogProof hash proof.sPok proof.hPok old new round = .ok () ∧ new ≠ 0
  length_g1s : proof.newPp.g1s.length = pp.witnessDim * 2
  witnessDim_eq : proof.newPp.witnessDim = pp.witnessDim
  punctured : proof.newPp.g1s[pp.witnessDim]? = some 0
  wellformed : verifyWellformedness grp hash proof.newPp = .ok ()

theorem verifyProof_ok {newPp : InternalPublicParameter G₁ G₂}
    (h : verifyProof grp hash pp proof round = .ok newPp) :
    newPp = proof.newPp ∧ AcceptedProof grp hash pp proof round := by
  obtain ⟨-, h⟩ := guard_eq_ok.mp h
  obtain ⟨hlater, h⟩ := guard_eq_ok.mp h
  obtain ⟨old, hold, h⟩ := bind_eq_ok.mp h
  obtain ⟨new, hnew, h⟩ := bind_eq_ok.mp h
  obtain ⟨_, hdlog, h⟩ := bind_eq_ok.mp h
  obtain ⟨hzero, h⟩ := guard_eq_ok.mp h
  obtain ⟨hg, h⟩ := guard_eq_ok.mp h
  obtain ⟨hhat, h⟩ := guard_eq_ok.mp h
  obtain ⟨p, hp, h⟩ := bind_eq_ok.mp h
  obtain ⟨hpunctured, h⟩ := guard_eq_ok.mp h
  obtain ⟨_, hwell, h⟩ := bind_eq_ok.mp h
  cases h
  rw [not_not] at hg hhat hpunctured
  subst hpunctured
  exact ⟨rfl, not_le.mp hlater,
    ⟨old, new, indexVec_eq_ok.mp hold, indexVec_eq_ok.mp hnew, hdlog, hzero⟩, hg, hhat,
    indexVec_eq_ok.mp hp, hwell⟩

omit [DecidableEq F] [DecidableEq G₁] in
theorem verifyWellformedness_returns (hlen : pp.g1s.length = pp.witnessDim * 2)
    (hdim : 2 ≤ pp.witnessDim) : (verifyWellformedness grp hash pp).Returns := by
  obtain ⟨after, hafter⟩ := exists_indexVec (by omega : pp.witnessDim + 1 < pp.g1s.length)
  obtain ⟨before, hbefore⟩ := exists_indexVec (by omega : pp.witnessDim - 1 < pp.g1s.length)
  obtain ⟨second, hsecond⟩ := exists_indexVec (show 1 < pp.g2s.length from hdim)
  simp only [verifyWellformedness, hafter, hbefore, hsecond, ok_bind]
  refine returns_guard fun _ => ?_
  split_ifs
  · exact returns_ok _
  · exact returns_err _

/-- The proof has an element to index by when its points are valid and its round is later. -/
def Indexable (pp : InternalPublicParameter G₁ G₂) (proof : PartialProof F G₁ G₂) : Prop :=
  proof.pointsValid = true → pp.round < proof.newPp.round → proof.newPp.g1s ≠ []

theorem verifyProof_returns (grp : BilinearGroup F G₁ G₂ Gₜ) (hash : CeremonyHash F G₁ G₂)
    (round : ℕ) (hdim : 2 ≤ pp.witnessDim) (hold : pp.g1s ≠ []) (hnew : Indexable pp proof) :
    (verifyProof grp hash pp proof round).Returns := by
  refine returns_guard fun hvalid => returns_guard fun hlater => ?_
  have hnew := hnew (Bool.not_eq_false _ ▸ hvalid) (not_le.mp hlater)
  obtain ⟨old, hold⟩ := exists_indexVec (List.length_pos_of_ne_nil hold)
  obtain ⟨new, hnew⟩ := exists_indexVec (List.length_pos_of_ne_nil hnew)
  simp only [hold, hnew, ok_bind]
  refine (returns_guard fun _ => returns_ok _).bind fun _ _ => ?_
  refine returns_guard fun _ => returns_guard fun hg =>
    returns_guard fun hhat => ?_
  rw [not_not] at hg hhat
  obtain ⟨p, hp⟩ := exists_indexVec (by omega : pp.witnessDim < proof.newPp.g1s.length)
  rw [hp]
  refine returns_guard fun _ => ?_
  refine (verifyWellformedness_returns (by rw [hg, hhat]) (by omega)).bind fun _ _ => ?_
  exact returns_ok _

end ThresholdKms
