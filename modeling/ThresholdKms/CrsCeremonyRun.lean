import ThresholdKms.CrsContribution

/-!
# Every honest contribution is kept

As long as no accepted proof of a corrupt party claims the round of a later honest party or another
bound on the number of bits, the honest parties agree after each turn on parameters that are the
powers of the product of all contributions so far.
-/

namespace ThresholdKms

variable {F G₁ G₂ Gₜ : Type} [Field F] [AddCommGroup G₁] [AddCommGroup G₂] [AddCommGroup Gₜ]
  [Module F G₁] [Module F G₂] [Module F Gₜ] [DecidableEq F] [DecidableEq G₁] [DecidableEq Gₜ]
  (grp : BilinearGroup F G₁ G₂ Gₜ) (hash : CeremonyHash F G₁ G₂)
  (parties : CeremonyParties F G₁ G₂) (known : Role → F)

/-- Parameters that pass the well-formedness check are powers of one secret. -/
def WellformedSound (dim : ℕ) (pp : InternalPublicParameter G₁ G₂) : Prop :=
  pp.g1s.length = dim * 2 → pp.witnessDim = dim → pp.g1s[dim]? = some 0 →
    verifyWellformedness grp hash pp = .ok () → ∃ tau, IsPowers grp dim tau 0 pp

/-- The party of the turn knows the secret of a proof that verifies against the parameters of the
honest parties, and its parameters are well-formed if they pass the check. -/
def SoundTurn (dim : ℕ) (state : CeremonyState G₁ G₂) (turn : Role × ℕ) : Prop :=
  ∀ proof, parties.honest turn.1 = false → parties.corrupt turn.1 = .partialProof proof →
    WellformedSound grp hash dim proof.newPp ∧
    ∀ me pp old new, parties.honest me = true → state me = .ok pp → pp.g1s[0]? = some old →
      proof.newPp.g1s[0]? = some new →
      verifyDlogProof hash proof.sPok proof.hPok old new turn.2 = .ok () →
      new = known turn.1 • old

/-- A proof of a corrupt party has an element to index by, and if it is accepted, then it keeps the
bound on the number of bits and its round is before that of every later honest party. -/
def TameTurn (n : ℕ) (state : CeremonyState G₁ G₂) (turn : Role × ℕ) : Prop :=
  ∀ proof, parties.honest turn.1 = false → parties.corrupt turn.1 = .partialProof proof →
    ∀ me pp, parties.honest me = true → state me = .ok pp →
      Indexable pp proof ∧
      (verifyProof grp hash pp proof turn.2 = .ok proof.newPp →
        proof.newPp.maxNumBits = pp.maxNumBits ∧
        ∀ later, parties.honest later = true → turn.1 < later → later ≤ n →
          proof.newPp.round < later)

/-- The factor a party contributes: a corrupt one's proof may be rejected. -/
def ContributionOf (role : Role) (factor : F) : Prop :=
  if parties.honest role then factor = parties.tau role else factor = 1 ∨ factor = known role

/-- All honest parties have these parameters, powers of `tau`. -/
structure Agreed (dim bits : ℕ) (tau : F) (punctured : G₁) (pp : InternalPublicParameter G₁ G₂)
    (state : CeremonyState G₁ G₂) : Prop where
  same : ∀ me, parties.honest me = true → state me = .ok pp
  powers : IsPowers grp dim tau punctured pp
  tau_ne_zero : tau ≠ 0
  maxNumBits_eq : pp.maxNumBits = bits

variable {grp hash parties known} {n dim bits : ℕ} {tau : F} {c : G₁}
  {pp : InternalPublicParameter G₁ G₂} {state : CeremonyState G₁ G₂} {role : Role}

theorem receiveContribution_cases (grp : BilinearGroup F G₁ G₂ Gₜ) (hash : CeremonyHash F G₁ G₂)
    (round : ℕ) {message : CeremonyMessage F G₁ G₂} (hdim : 2 ≤ pp.witnessDim)
    (hpp : pp.g1s ≠ []) (hindex : ∀ proof, message = .partialProof proof → Indexable pp proof) :
    receiveContribution grp hash round message pp = .ok pp ∨
      ∃ proof, message = .partialProof proof ∧
        verifyProof grp hash pp proof round = .ok proof.newPp ∧
        receiveContribution grp hash round message pp = .ok proof.newPp := by
  cases message with
  | partialProof proof =>
    rcases verifyProof_returns grp hash round hdim hpp (hindex proof rfl) with
      ⟨newPp, hok⟩ | ⟨msg, herr⟩
    · obtain ⟨rfl, -⟩ := verifyProof_ok hok
      exact .inr ⟨proof, rfl, hok, by simp only [receiveContribution, hok]⟩
    · exact .inl (by simp only [receiveContribution, herr, Outcome.err])
  | other => exact .inl rfl
  | nothing => exact .inl rfl

theorem ceremonyTurns_eq (n : ℕ) :
    ceremonyTurns n = (partyRoles n).map fun role => (role, role) := by
  apply List.ext_getElem
  · simp [ceremonyTurns]
  · intro i _ _
    simp [ceremonyTurns, partyRoles, Nat.add_comm]

section Turns

variable (h : Agreed grp parties dim bits tau c pp state) (hdim : 2 ≤ dim)
include h hdim

theorem Agreed.honest_turn (hash : CeremonyHash F G₁ G₂)
    (hrole : parties.honest role = true) (htau : parties.tau role ≠ 0) (hround : pp.round < role) :
    Agreed grp parties dim bits (parties.tau role * tau) 0 (pp.raise (parties.tau role) role)
      (ceremonyTurn grp hash parties state (role, role)) := by
  obtain ⟨hPok, -, hmake⟩ := makePartialProofDeterministic_isPowers hash h.powers (by omega) role
    (parties.tau role) (parties.coins role)
  have hcontribute : contribute hash parties state (role, role) =
      .ok ⟨hPok, hPok * parties.tau role + parties.coins role, true,
        pp.raise (parties.tau role) role⟩ := by
    rw [contribute, h.same role hrole]
    exact hmake
  have hverify := verifyProof_contribution h.powers hdim h.tau_ne_zero htau hround hmake
  refine ⟨fun me hme => ?_, h.powers.raise _ _, mul_ne_zero htau h.tau_ne_zero, h.maxNumBits_eq⟩
  by_cases hmine : me = role
  · rw [ceremonyTurn, if_pos hmine, hcontribute]
    rfl
  · rw [ceremonyTurn, if_neg hmine, h.same me hme, broadcastOf, if_pos hrole, hcontribute]
    simp only [Outcome.ok_bind, receiveContribution, hverify]

variable {me : Role} (hme : parties.honest me = true)
include hme

omit [DecidableEq G₁] in
/-- A proof that is accepted multiplies the secret by what its party knows. -/
theorem Agreed.accepted_powers {proof : PartialProof F G₁ G₂}
    (hrole : parties.honest role = false) (hproof : parties.corrupt role = .partialProof proof)
    (hsound : SoundTurn grp hash parties known dim state (role, role))
    (haccepted : AcceptedProof grp hash pp proof role) :
    IsPowers grp dim (known role * tau) 0 proof.newPp ∧ known role * tau ≠ 0 := by
  obtain ⟨hwell, hknown⟩ := hsound proof hrole hproof
  have hwitness := h.powers.witnessDim_eq
  obtain ⟨tau', hpowers⟩ := hwell (hwitness ▸ haccepted.length_g1s)
    (hwitness ▸ haccepted.witnessDim_eq) (hwitness ▸ haccepted.punctured) haccepted.wellformed
  obtain ⟨old, new, hold, hnew, hdlog, hzero⟩ := haccepted.dlog
  have hfactor := hknown me pp old new hme (h.same me hme) hold hnew hdlog
  have hold' : old = tau • grp.gen₁ :=
    Except.ok.inj ((indexVec_eq_ok.mpr hold).symm.trans (h.powers.index_first (by omega)))
  have hnew' : new = tau' • grp.gen₁ :=
    Except.ok.inj ((indexVec_eq_ok.mpr hnew).symm.trans (hpowers.index_first (by omega)))
  have htau' : tau' = known role * tau := by
    apply smul_left_injective F grp.gen₁_ne_zero
    simp only [← hnew', hfactor, hold', smul_smul]
  subst htau'
  refine ⟨hpowers, fun hz => hzero ?_⟩
  rw [hnew', hz, zero_smul]

theorem Agreed.corrupt_turn (hrole : parties.honest role = false)
    (hsound : SoundTurn grp hash parties known dim state (role, role))
    (htame : TameTurn grp hash parties n state (role, role)) :
    ∃ factor c' pp', (factor = 1 ∨ factor = known role) ∧ (c = 0 → c' = 0) ∧
      (pp' = pp ∨ ∀ later, parties.honest later = true → role < later → later ≤ n →
        pp'.round < later) ∧
      Agreed grp parties dim bits (factor * tau) c' pp'
        (ceremonyTurn grp hash parties state (role, role)) := by
  have hturn : ∀ other, parties.honest other = true →
      ceremonyTurn grp hash parties state (role, role) other =
        receiveContribution grp hash role (parties.corrupt role) pp := by
    intro other hother
    have hne : other ≠ role := by
      rintro rfl
      rw [hother] at hrole
      cases hrole
    rw [ceremonyTurn, if_neg hne, h.same other hother, broadcastOf, if_neg (by simp [hrole])]
    rfl
  have hne : pp.g1s ≠ [] := by
    rw [← List.length_pos_iff, h.powers.length_g1s]
    omega
  rcases receiveContribution_cases grp hash role (h.powers.witnessDim_eq.symm ▸ hdim) hne
      (fun proof hproof => (htame proof hrole hproof me pp hme (h.same me hme)).1) with
    hkeep | ⟨proof, hproof, hok, hreceive⟩
  · refine ⟨1, c, pp, .inl rfl, id, .inl rfl, fun other hother => ?_, ?_, ?_, h.maxNumBits_eq⟩
    · rw [hturn other hother, hkeep]
    · rw [one_mul]
      exact h.powers
    · rw [one_mul]
      exact h.tau_ne_zero
  · obtain ⟨hbits, hlater⟩ := (htame proof hrole hproof me pp hme (h.same me hme)).2 hok
    obtain ⟨hpowers, hzero⟩ := h.accepted_powers hdim hme hrole hproof hsound (verifyProof_ok hok).2
    refine ⟨known role, 0, proof.newPp, .inr rfl, fun _ => rfl, .inr hlater, fun other hother => ?_,
      hpowers, hzero, hbits.trans h.maxNumBits_eq⟩
    rw [hturn other hother, hreceive]

theorem Agreed.run {roles : List Role} (hsorted : roles.Pairwise (· < ·))
    (hn : ∀ role ∈ roles, role ≤ n)
    (htau : ∀ role ∈ roles, parties.honest role = true → parties.tau role ≠ 0)
    (hrounds : ∀ role ∈ roles, parties.honest role = true → pp.round < role)
    (hsound : Along (ceremonyTurn grp hash parties) (SoundTurn grp hash parties known dim) state
      (roles.map fun role => (role, role)))
    (htame : Along (ceremonyTurn grp hash parties) (TameTurn grp hash parties n) state
      (roles.map fun role => (role, role))) :
    ∃ factors c' pp', List.Forall₂ (ContributionOf parties known) roles factors ∧
      (c = 0 ∨ (∃ role ∈ roles, parties.honest role = true) → c' = 0) ∧
      Agreed grp parties dim bits (factors.prod * tau) c' pp'
        ((roles.map fun role => (role, role)).foldl (ceremonyTurn grp hash parties) state) := by
  induction roles generalizing tau c pp state with
  | nil => exact ⟨[], c, pp, .nil, by simp, by simpa using h⟩
  | cons role roles ih =>
    obtain ⟨hfirst, hsorted⟩ := List.pairwise_cons.mp hsorted
    obtain ⟨-, hn⟩ := List.forall_mem_cons.mp hn
    obtain ⟨hrole', htau⟩ := List.forall_mem_cons.mp htau
    obtain ⟨hround, hrounds⟩ := List.forall_mem_cons.mp hrounds
    cases hrole : parties.honest role with
    | true =>
      have hstep := h.honest_turn hdim hash hrole (hrole' hrole) (hround hrole)
      obtain ⟨factors, c', pp', hfactors, hc, hagreed⟩ := ih hstep hsorted hn htau
        (fun r hr _ => hfirst r hr) hsound.2 htame.2
      refine ⟨parties.tau role :: factors, c', pp', .cons ?_ hfactors, fun _ => hc (.inl rfl), ?_⟩
      · simp [ContributionOf, hrole]
      · rw [List.prod_cons, mul_comm (parties.tau role), mul_assoc]
        exact hagreed
    | false =>
      obtain ⟨factor, c₁, pp₁, hfactor, hc₁, hround₁, hstep⟩ :=
        h.corrupt_turn hdim hme hrole hsound.1 htame.1
      have hrounds₁ : ∀ r ∈ roles, parties.honest r = true → pp₁.round < r := by
        intro r hr hhonest
        rcases hround₁ with rfl | hlater
        · exact hrounds r hr hhonest
        · exact hlater r hhonest (hfirst r hr) (hn r hr)
      obtain ⟨factors, c', pp', hfactors, hc, hagreed⟩ := ih hstep hsorted hn htau hrounds₁
        hsound.2 htame.2
      refine ⟨factor :: factors, c', pp', .cons ?_ hfactors, fun hor => hc ?_, ?_⟩
      · simpa [ContributionOf, hrole] using hfactor
      · simpa [hrole] using hor.imp_left hc₁
      · rw [List.prod_cons, mul_comm factor, mul_assoc]
        exact hagreed

end Turns

variable (grp hash parties known n) (witnessDim : ℕ) (maxNumPtBits : Option ℕ)

omit [DecidableEq F] [DecidableEq G₁] [DecidableEq Gₜ] in
theorem agreed_new : Agreed grp parties witnessDim (maxNumPtBits.getD zkDefaultMaxNumBits) 1 grp.gen₁
      (InternalPublicParameter.new grp witnessDim maxNumPtBits)
      (fun _ => .ok (InternalPublicParameter.new grp witnessDim maxNumPtBits)) :=
  ⟨fun _ _ => rfl, isPowers_new grp witnessDim maxNumPtBits, one_ne_zero, rfl⟩

/-!
## The parameters the ceremony returns

The honest parties return the same parameters with every honest secret in them, unless a proof of a
corrupt party that is accepted claims the round of a later honest party or another bound on the
number of bits, or one that is looked at has no elements.
-/

/-- All honest parties return the same parameters, of the dimension and the bound given, which are
the powers of a product with one factor for each party, the secret for the honest ones. -/
def KeepsContributions : Prop :=
  ∃ pp factors, List.Forall₂ (ContributionOf parties known) (partyRoles n) factors ∧
    ∀ me ∈ partyRoles n, parties.honest me = true →
      executeCeremony grp hash parties n witnessDim maxNumPtBits me = .ok pp ∧
      pp.witnessDim = witnessDim ∧
      pp.maxNumBits = maxNumPtBits.getD zkDefaultMaxNumBits ∧
      pp.g1s = (List.range (2 * witnessDim)).map (grp.power witnessDim factors.prod 0)

/-- Every turn of the ceremony, in the state it is taken. -/
def EveryTurn (p : CeremonyState G₁ G₂ → Role × ℕ → Prop) : Prop :=
  Along (ceremonyTurn grp hash parties) p
    (fun _ => .ok (InternalPublicParameter.new grp witnessDim maxNumPtBits)) (ceremonyTurns n)

theorem executeCeremony_keeps_contributions (hdim : 2 ≤ witnessDim)
    (hsound : EveryTurn grp hash parties n witnessDim maxNumPtBits
      (SoundTurn grp hash parties known witnessDim))
    (htau : ∀ role ∈ partyRoles n, parties.honest role = true → parties.tau role ≠ 0)
    (htame : EveryTurn grp hash parties n witnessDim maxNumPtBits
      (TameTurn grp hash parties n)) :
    KeepsContributions grp hash parties known n witnessDim maxNumPtBits := by
  by_cases hexists : ∃ me ∈ partyRoles n, parties.honest me = true
  · obtain ⟨me, hmem, hme⟩ := hexists
    rw [EveryTurn, ceremonyTurns_eq] at hsound htame
    obtain ⟨factors, c, pp, hfactors, hc, hagreed⟩ := (agreed_new ..).run hdim hme
      (pairwise_partyRoles n) (fun role hrole => (mem_partyRoles_iff.mp hrole).2) htau
      (fun role hrole _ => (mem_partyRoles_iff.mp hrole).1) hsound htame
    obtain rfl := hc (.inr ⟨me, hmem, hme⟩)
    rw [mul_one, ← ceremonyTurns_eq] at hagreed
    exact ⟨pp, factors, hfactors, fun other _ hother => ⟨hagreed.same other hother,
      hagreed.powers.witnessDim_eq, hagreed.maxNumBits_eq, hagreed.powers.g1s⟩⟩
  · refine ⟨InternalPublicParameter.new grp witnessDim maxNumPtBits, (partyRoles n).map fun _ => 1,
      ?_, fun me hmem hme => absurd ⟨me, hmem, hme⟩ hexists⟩
    rw [List.forall₂_map_right_iff, List.forall₂_same]
    intro role hrole
    have hcorrupt : ¬ parties.honest role = true := fun h => hexists ⟨role, hrole, h⟩
    simp [ContributionOf, hcorrupt]

section Small

/-- The field of three elements as a bilinear group. -/
def smallGroup : BilinearGroup (ZMod 3) (ZMod 3) (ZMod 3) (ZMod 3) where
  gen₁ := 1
  gen₂ := 1
  pairing := LinearMap.mul (ZMod 3) (ZMod 3)
  gen₁_ne_zero := one_ne_zero

def smallHash : CeremonyHash (ZMod 3) (ZMod 3) (ZMod 3) where
  pok := fun _ _ old _ => old
  scalars := fun _ => (1, 1)

/-- The first of three parties contributes the secret one, with a round, a bound on the number of
bits and elements of its choice. -/
def smallParties (round maxNumBits : ℕ) (g1s : List (ZMod 3)) :
    CeremonyParties (ZMod 3) (ZMod 3) (ZMod 3) where
  honest := fun role => role ≠ 1
  tau := fun role => if role = 2 then -1 else 1
  coins := fun _ => 1
  corrupt := fun _ => .partialProof ⟨1, -1, true, ⟨round, maxNumBits, g1s, [1, 1]⟩⟩

variable {round maxNumBits : ℕ} {g1s : List (ZMod 3)}

theorem everyTurn_small {p : CeremonyState (ZMod 3) (ZMod 3) → Role × ℕ → Prop}
    (hfirst : p (fun _ => .ok (InternalPublicParameter.new smallGroup 2 none)) (1, 1))
    (hrest : ∀ state role, (smallParties round maxNumBits g1s).honest role = true →
      p state (role, role)) :
    EveryTurn smallGroup smallHash (smallParties round maxNumBits g1s) 3 2 none p :=
  ⟨hfirst, hrest _ 2 rfl, hrest _ 3 rfl, trivial⟩

theorem smallParties_sound :
    EveryTurn smallGroup smallHash (smallParties round maxNumBits [1, 1, 0, 1]) 3 2 none
      (SoundTurn smallGroup smallHash (smallParties round maxNumBits [1, 1, 0, 1])
        (fun _ => 1) 2) := by
  refine everyTurn_small ?_ ?_
  · intro proof _ hproof
    cases hproof
    refine ⟨fun _ _ _ _ => ⟨1, rfl, rfl⟩, ?_⟩
    intro me pp old new _ hpp hold hnew _
    cases hpp
    cases hold
    cases hnew
    rfl
  · intro state role hhonest proof hcorrupt _
    rw [hhonest] at hcorrupt
    cases hcorrupt

/-- A corrupt party that claims a later round makes the others reject what the honest parties
contribute, it changes the bound on the number of bits, and with no elements it stops them. -/
theorem accepted_round_splits_ceremony :
    EveryTurn smallGroup smallHash (smallParties 100 2048 [1, 1, 0, 1]) 3 2 none
      (SoundTurn smallGroup smallHash (smallParties 100 2048 [1, 1, 0, 1]) (fun _ => 1) 2) ∧
    executeCeremony smallGroup smallHash (smallParties 100 2048 [1, 1, 0, 1]) 3 2 none 2 =
      .ok ⟨2, 2048, [2, 1, 0, 1], [2, 1]⟩ ∧
    executeCeremony smallGroup smallHash (smallParties 100 2048 [1, 1, 0, 1]) 3 2 none 3 =
      .ok ⟨3, 2048, [1, 1, 0, 1], [1, 1]⟩ ∧
    ¬ KeepsContributions smallGroup smallHash (smallParties 100 2048 [1, 1, 0, 1]) (fun _ => 1)
      3 2 none ∧
    executeCeremony smallGroup smallHash (smallParties 1 7 [1, 1, 0, 1]) 3 2 none 2 =
      .ok ⟨3, 7, [2, 1, 0, 1], [2, 1]⟩ ∧
    executeCeremony smallGroup smallHash (smallParties 1 2048 []) 3 2 none 2 =
      Outcome.panic "index out of bounds" := by
  refine ⟨smallParties_sound, rfl, rfl, ?_, rfl, rfl⟩
  rintro ⟨pp, factors, -, hkept⟩
  have htwo : Except.ok _ = Except.ok pp := (hkept 2 (by decide) rfl).1
  have hthree : Except.ok _ = Except.ok pp := (hkept 3 (by decide) rfl).1
  have hround : (2 : ℕ) = 3 :=
    congrArg InternalPublicParameter.round (Except.ok.inj (htwo.trans hthree.symm))
  cases hround

theorem executeCeremony_keeps_contributions_small :
    KeepsContributions smallGroup smallHash (smallParties 1 2048 [1, 1, 0, 1]) (fun _ => 1)
      3 2 none := by
  refine executeCeremony_keeps_contributions _ _ _ _ 3 2 none le_rfl smallParties_sound ?_ ?_
  · decide
  · refine everyTurn_small ?_ ?_
    · intro proof _ hproof me pp _ hpp
      cases hproof
      cases hpp
      exact ⟨fun _ _ => by decide, fun _ => ⟨rfl, fun later _ hlater _ => hlater⟩⟩
    · intro state role hhonest proof hcorrupt _
      rw [hhonest] at hcorrupt
      cases hcorrupt

end Small

end ThresholdKms
