import ThresholdKms.PrssCheckRun
import ThresholdKms.TripleRun

/-!
# Checks agree with the generators

The shares that a check computes from the votes are those that the generators return to the parties
at the counter of the check, whatever the corrupt parties vote for.
-/

namespace ThresholdKms

open GaloisRing Polynomial

section Next

variable {z : BaseRing} {e : ExtensionDegree} (keys : PrssKeys) {n t ctr : ℕ}
  (mode : ComputeShareMode)

/-- The generator whose shares a check recomputes. -/
def modeNext (state : PRSSState z.bits e) (role : Role) (t : ℕ) :
    Outcome (GaloisRing z.bits e × PRSSState z.bits e) :=
  match mode with
  | .prss => prssNext state role
  | .przs => przsNext state role t

def countersAt (ctr : ℕ) (counters : PRSSCounters) : PRSSCounters :=
  match mode with
  | .prss => { counters with prssCtr := ctr }
  | .przs => { counters with przsCtr := ctr }

/-- The counters at which the generator can call its cipher. -/
def counterLimit : ComputeShareMode → ℕ
  | .prss => 2 ^ 112
  | .przs => 2 ^ 104

theorem modeNext_of_lt (hctr : ctr < counterLimit mode)
    (counters : PRSSCounters) (i : Fin n) :
    ∃ state, modeNext mode (partyState keys n t (countersAt mode ctr counters) (i + 1)) (i + 1) t =
      .ok ((modeSharing keys mode n t ctr).eval (partyPoint i : GaloisRing z.bits e), state) := by
  cases mode with
  | prss => exact ⟨_, prssNext_of_lt keys _ hctr i⟩
  | przs => exact ⟨_, przsNext_of_lt keys _ hctr i⟩

theorem modeNext_eq_ok (ht : t < n) (mode : ComputeShareMode) {counters : PRSSCounters} {i : Fin n}
    {x : GaloisRing z.bits e} {state : PRSSState z.bits e}
    (h : modeNext mode (partyState keys n t (countersAt mode ctr counters) (i + 1)) (i + 1) t =
      .ok (x, state)) :
    x = (modeSharing keys mode n t ctr).eval (partyPoint i) := by
  have hlimit : ctr < counterLimit mode →
      x = (modeSharing keys mode n t ctr).eval (partyPoint i) := by
    intro hctr
    obtain ⟨state', hnext⟩ := modeNext_of_lt (z := z) (e := e) (t := t) keys mode hctr counters i
    rw [h] at hnext
    exact congrArg Prod.fst (Except.ok.inj hnext)
  cases mode with
  | prss => exact hlimit (prssCtr_lt_of_prssNext keys _ ht h)
  | przs =>
    rcases przsCtr_lt_or_eq_zero keys _ ht h with hctr | ⟨rfl, hx⟩
    · exact hlimit hctr
    · have hzero : (modeSharing keys .przs n 0 ctr : (GaloisRing z.bits e)[X]) = 0 :=
        przsSharing_zero_threshold keys n ctr
      rw [hx, hzero, eval_zero]

end Next

variable {z : BaseRing} {e : ExtensionDegree} {F : Type} [Field F] [DecidableEq F] [G2p e F]
  {S : Type} [BaseSessionHandles S] [LawfulSession S]

/-- Whatever the corrupt parties vote for, the votes settle, no honest party becomes corrupt, and the
share of an honest party is the one that its own generator returns at the counter. -/
theorem settleVotes_sound (honest : Finset Role) (n t : ℕ) (hhonest : HonestMajority honest n t)
    (keys : PrssKeys) (setup : Role → PRSSSetup z.bits e)
    (hsetup : ∀ p ∈ honest, prssSets F (partyRoles n) t p ((partySets n t p).map keys.key) =
      .ok (setup p)) (mode : ComputeShareMode) (ctr : ℕ)
    (broadcastResult : Role → BroadcastValue (SmallValue (GaloisRing z.bits e)))
    (hvotes : HonestVotes honest n t (modeValues keys mode t ctr) broadcastResult) (session : S)
    (hparties : numParties session = n) (hthreshold : threshold session = t) :
    ∃ session' shares, settleVotes F mode broadcastResult session = .ok (session', shares) ∧
      (∀ p ∈ honest, p ∈ corruptRoles session' → p ∈ corruptRoles session) ∧
      ∀ p ∈ honest, ∃ share, shares.lookup p = some share ∧ ∀ counters,
        (∀ x state, modeNext mode (sessionState keys (setup p) (countersAt mode ctr counters)) p t =
          .ok (x, state) → x = share) ∧
        (ctr < counterLimit mode → ∃ state, modeNext mode
          (sessionState keys (setup p) (countersAt mode ctr counters)) p t = .ok (share, state)) := by
  have hn := lt_of_setup hsetup hhonest
  have htn : t < n := by have := hhonest.lt; omega
  obtain ⟨marked, shares, hmarked, hlookup, hsettle⟩ :=
    settleVotes_eq F (S := S) hhonest hn mode hvotes
  refine ⟨markCorrupt session marked, shares, hsettle session hparties hthreshold, ?_, ?_⟩
  · intro p hp hcorrupt
    rw [corruptRoles_markCorrupt, Finset.mem_union, Finset.mem_erase, List.mem_toFinset] at hcorrupt
    refine hcorrupt.resolve_right (fun hnew => ?_)
    exact (mem_otherRoles.mp (hmarked p hnew.2)).2 hp
  · intro p hp
    refine ⟨_, hlookup p (hhonest.mem_roles p hp), fun counters => ?_⟩
    rw [sessionState_of_setup hsetup hhonest _ hp]
    obtain ⟨i, rfl⟩ := List.mem_ofFn.mp (hhonest.mem_roles p hp)
    exact ⟨fun x state hnext => modeNext_eq_ok keys htn mode hnext,
      fun hctr => modeNext_of_lt keys mode hctr counters i⟩

/-- Party 4 broadcasts a value of another type. -/
theorem settleVotes_sound_four_parties :
    ∃ session' shares, settleVotes GF8 .prss (fun role =>
        if role = 4 then .payload .other
        else .payload (.prssVotes (votesWith 4 1 (modeValues xorKeys .prss 1 5) role)))
        (⟨1, 4, 1, ∅⟩ : BaseSession) = .ok (session', shares) ∧
      (∀ p ∈ ({1, 2, 3} : Finset Role), p ∈ corruptRoles session' → p ∈ (∅ : Finset Role)) ∧
      ∀ p ∈ ({1, 2, 3} : Finset Role), ∃ share : GaloisRing BaseRing.z64.bits .three,
        shares.lookup p = some share ∧ ∀ counters,
        (∀ x state, modeNext .prss (sessionState xorKeys (partySetup xorKeys 4 1 p)
          (countersAt .prss 5 counters)) p 1 = .ok (x, state) → x = share) ∧
        (5 < counterLimit .prss → ∃ state, modeNext .prss (sessionState xorKeys
          (partySetup xorKeys 4 1 p) (countersAt .prss 5 counters)) p 1 = .ok (share, state)) := by
  refine settleVotes_sound {1, 2, 3} 4 1 ⟨by decide, by decide, by decide⟩ xorKeys _
    (fun p _ => prssSets_partySetup (n := 4) (t := 1) (by decide) (by decide) xorKeys p) .prss 5 _
    (fun p hp => ?_) _ rfl rfl
  rw [if_neg]
  rintro rfl
  exact absurd hp (by decide)

end ThresholdKms
