import ThresholdKms.DisputeAgreement

/-!
# Runs of the verification

In all repetitions the honest parties broadcast check values of the honest dealings. As long as the
repetitions pass, their sessions stay as they are; the first one that fails ends all runs.
-/

open Polynomial

namespace ThresholdKms

open GaloisRing LargeSession Lockstep

section Runs

variable {w : ℕ} {e : ExtensionDegree} {F : Type} [Field F] [DecidableEq F] [G2p e F]
  {honest corrupt : Finset Role} {n t l : ℕ} {disputes : DisputeSet} {kind : LocalShare}
  {dealing : ℕ → Role → Dealing w e} {layers : Role → List (Layer (GaloisRing w e))}

/-- The honest parties have dealt the same secrets and pads with all degrees, and hold each other's
shares; `dealing i` are the dealings with the degree of index `i`. -/
structure HonestShares (honest : Finset Role) (n t l : ℕ) (disputes : DisputeSet) (kind : LocalShare)
    (dealing : ℕ → Role → Dealing w e) (layers : Role → List (Layer (GaloisRing w e))) : Prop where
  valid : ∀ h ∈ honest, ∀ i degree, (kind.degrees t)[i]? = some degree →
    (dealing i h).Valid degree l (disputes.get h)
  sameSecrets : ∀ h ∈ honest, ∀ i < (kind.degrees t).length,
    (dealing i h).secrets.map (eval 0) = (dealing 0 h).secrets.map (eval 0) ∧
      (dealing i h).pads.map (eval 0) = (dealing 0 h).pads.map (eval 0)
  length_layers : ∀ p ∈ honest, (layers p).length = (kind.degrees t).length
  holds : ∀ p ∈ honest, ∀ i layer, (layers p)[i]? = some layer →
    HoldsLayer n l honest (dealing i) p layer

variable {maps : List (MapsSharesChallenges (GaloisRing w e))}

theorem LocalShare.parse_message (kind : LocalShare) {t : ℕ}
    (h : maps.length = (kind.degrees t).length) :
    kind.parse (.payload (kind.message maps)) = some maps := by
  cases kind with
  | single =>
    obtain ⟨m, rfl⟩ := List.length_eq_one_iff.mp h
    rfl
  | double =>
    obtain ⟨m, m', rfl⟩ := List.length_eq_two.mp h
    rfl

variable {p : Role}

section HonestShares

variable (h : HonestShares honest n t l disputes kind dealing layers)
include h

theorem HonestShares.valid_of_lt
    (hp : p ∈ honest) {i : ℕ} (hi : i < (kind.degrees t).length) :
    (dealing i p).Valid ((kind.degrees t)[i]) l (disputes.get p) :=
  h.valid p hp i _ (List.getElem?_eq_getElem hi)

theorem HonestShares.mapM_computeMaps
    (hhonest : HonestMajority honest n t) {challenges : Role → List (GaloisRing w e)}
    (hchallenges : ∀ role ∈ partyRoles n, (challenges role).length = l) {g : ℕ}
    (hg : g < repetitions e) (hp : p ∈ honest) {session : LargeSession}
    (hnum : numParties session = n) :
    ∃ maps, (layers p).mapM (computeMaps (challengeMap session challenges) g p) = .ok maps ∧
      maps.length = (kind.degrees t).length ∧ ∀ i m, maps[i]? = some m →
        TrueMaps n honest (fun q => (dealing i q).combined (challenges q) g) p m := by
  have hlayer : ∀ i layer, (layers p)[i]? = some layer →
      ∃ m, computeMaps (challengeMap session challenges) g p layer = .ok m ∧
        TrueMaps n honest (fun q => (dealing i q).combined (challenges q) g) p m := by
    intro i layer hget
    have hi : i < (kind.degrees t).length := by
      rw [← h.length_layers p hp]
      exact (List.getElem?_eq_some_iff.mp hget).1
    have hvalid := h.valid_of_lt hp hi
    exact (h.holds p hp i layer hget).computeMaps_eq hnum hchallenges
      ⟨hvalid.length_secrets, hvalid.length_pads⟩ hhonest.mem_roles hp hg
  obtain ⟨maps, hmaps, hlen, htrue⟩ := Outcome.mapM_of_getElem hlayer
  exact ⟨maps, hmaps, hlen.trans (h.length_layers p hp), htrue⟩

theorem HonestShares.honestChecks (challenges : Role → List (GaloisRing w e)) (g : ℕ)
    {received : Role → BroadcastValue (LargeValue (GaloisRing w e))}
    (hreceived : ∀ p ∈ honest, ∃ maps, kind.parse (received p) = some maps ∧
      ∀ i m, maps[i]? = some m →
        TrueMaps n honest (fun q => (dealing i q).combined (challenges q) g) p m) :
    HonestChecks honest n t disputes kind (fun i q => (dealing i q).combined (challenges q) g)
      received where
  natDegree_le := fun p hp i degree hdegree =>
    (h.valid p hp i degree hdegree).natDegree_combined_le _ g
  disputed := fun p hp i hi role hrole =>
    (h.valid_of_lt hp hi).eval_combined_eq_zero _ g hrole
  sameSecret := by
    intro p hp i hi
    obtain ⟨hsecrets, hpads⟩ := h.sameSecrets p hp i hi
    rw [Dealing.eval_combined, Dealing.eval_combined, hsecrets, hpads]
  maps := hreceived

theorem HonestShares.zeroShares {bad : List Role} (hbad : ∀ p ∈ honest, p ∉ bad) :
    HonestShares honest n t l disputes kind dealing
      (fun p => (layers p).map (zeroShares l bad)) where
  valid := h.valid
  sameSecrets := h.sameSecrets
  length_layers := fun p hp => by rw [List.length_map, h.length_layers p hp]
  holds := by
    intro p hp i layer hget
    rw [List.getElem?_map, Option.map_eq_some_iff] at hget
    obtain ⟨layer', hget', rfl⟩ := hget
    exact (h.holds p hp i layer' hget').zeroShares hbad

end HonestShares

/-- The honest parties are all still running, with the sessions of the start, or have all failed with
the same findings. -/
def InStep (honest corrupt : Finset Role) (n t l : ℕ) (disputes : DisputeSet) (kind : LocalShare)
    (dealing : ℕ → Role → Dealing w e) (state : Role → VerifyState w e) : Prop :=
  (∃ layers, HonestShares honest n t l disputes kind dealing layers ∧
    ∀ p ∈ honest, state p = ⟨⟨⟨p, n, t, corrupt⟩, disputes⟩, layers p, true⟩) ∨
  ∃ done found, Findings honest n done found false ∧ ∀ p ∈ honest, (state p).ok = false ∧
    Recorded n t p corrupt disputes done found (state p).session

/-- The disagreements in what is broadcast are orderly. -/
def OrderlyRound (corrupt : Finset Role) (n t : ℕ) (disputes : DisputeSet) (kind : LocalShare)
    (received : Role → BroadcastValue (LargeValue (GaloisRing w e))) : Prop :=
  ∀ i < (kind.degrees t).length, Orderly n t disputes
    (accusations n corrupt disputes (layerData kind (visible corrupt received) i))

variable {challenges : ℕ → Role → List (GaloisRing w e)}

section Repetition

variable {received : Role → BroadcastValue (LargeValue (GaloisRing w e))}

/-- The parties that become corrupt because they broadcast nothing. -/
def silentRoles (n : ℕ) (corrupt : Finset Role)
    (received : Role → BroadcastValue (LargeValue (GaloisRing w e))) : List Role :=
  (partyRoles n).filter fun role => decide (role ∉ corrupt ∧ visible corrupt received role = .bot)

theorem mem_silentRoles {role : Role} :
    role ∈ silentRoles n corrupt received ↔
      role ∈ partyRoles n ∧ role ∉ corrupt ∧ visible corrupt received role = .bot := by
  rw [silentRoles, List.mem_filter, decide_eq_true_eq]

theorem mem_otherRoles_of_silent
    (hparse : ∀ p ∈ honest, ∃ maps, kind.parse (visible corrupt received p) = some maps)
    {role : Role} (hrole : role ∈ silentRoles n corrupt received) : role ∈ otherRoles honest n := by
  obtain ⟨hrole', -, hbot⟩ := mem_silentRoles.mp hrole
  refine mem_otherRoles.mpr ⟨hrole', fun hhon => ?_⟩
  obtain ⟨maps, hmaps⟩ := hparse role hhon
  rw [hbot] at hmaps
  cases kind <;> cases hmaps

variable (store : LagrangeStore F)

/-- What a repetition does with the broadcasts. -/
def afterBroadcast (kind : LocalShare) (l n t : ℕ)
    (corrupt : Finset Role) (disputes : DisputeSet) (order : ℕ → List Role) (p : Role)
    (layers : List (Layer (GaloisRing w e)))
    (received : Role → BroadcastValue (LargeValue (GaloisRing w e))) :
    LargeProg (GaloisRing w e) (VerifyState w e) :=
  let session := markCorrupt (⟨⟨p, n, t, corrupt⟩, disputes⟩ : LargeSession)
    (silentRoles n corrupt received)
  if corruptRoles session ≠ corrupt then .done ⟨session, layers, false⟩
  else Prog.ofExcept (verifyBroadcast store kind l order session layers (visible corrupt received))

theorem verifyRepetition_eq {g : ℕ}
    {layers : List (Layer (GaloisRing w e))}
    (hmaps : layers.mapM (computeMaps (challengeMap ⟨⟨p, n, t, corrupt⟩, disputes⟩
      (challenges g)) g p) = .ok maps) (order : ℕ → ℕ → List Role) :
    verifyRepetition store kind l challenges order
        ⟨⟨⟨p, n, t, corrupt⟩, disputes⟩, layers, true⟩ g =
      .send (.payload (kind.message maps))
        (afterBroadcast store kind l n t corrupt disputes (order g) p layers) := by
  unfold verifyRepetition
  change (Prog.ofExcept (layers.mapM (computeMaps (challengeMap ⟨⟨p, n, t, corrupt⟩, disputes⟩
    (challenges g)) g p)) >>= _) = _
  rw [hmaps]
  rfl

variable {allowed : (Role → BroadcastValue (LargeValue (GaloisRing w e))) → Prop}

/-- New silent parties end the verification, with no disputes. -/
theorem afterBroadcast_silent (order : Role → ℕ → List Role)
    (hothers : ∀ role ∈ silentRoles n corrupt received, role ∈ otherRoles honest n)
    (hsilent : silentRoles n corrupt received ≠ []) :
    EnsuresWhen (· ∈ honest) allowed (InStep honest corrupt n t l disputes kind dealing)
      (fun p => afterBroadcast store kind l n t corrupt disputes (order p) p (layers p)
        received) := by
  have hmark : ∀ p ∈ honest, Recorded n t p corrupt disputes ∅
      (silentRoles n corrupt received).toFinset (markCorrupt
        (⟨⟨p, n, t, corrupt⟩, disputes⟩ : LargeSession) (silentRoles n corrupt received)) :=
    fun p hp => recorded_markCorrupt (fun hsil => (mem_otherRoles.mp (hothers p hsil)).2 hp)
      (fun r hr => (mem_silentRoles.mp hr).1)
  refine .done (fun p => ⟨markCorrupt (⟨⟨p, n, t, corrupt⟩, disputes⟩ : LargeSession)
    (silentRoles n corrupt received), layers p, false⟩) (fun p hp => if_pos ?_)
    (Or.inr ⟨∅, (silentRoles n corrupt received).toFinset, ⟨fun h => (by cases h),
      fun q hq => hothers q (List.mem_toFinset.mp hq), by simp [mem_partners]⟩,
      fun p hp => ⟨rfl, hmark p hp⟩⟩)
  rw [(hmark p hp).sessionAt.corruptRoles_eq]
  intro heq
  obtain ⟨r, hr⟩ := List.exists_mem_of_ne_nil _ hsilent
  apply (mem_silentRoles.mp hr).2.1
  rw [← heq]
  exact Finset.mem_union_right _ (List.mem_toFinset.mpr hr)

variable (hhonest : HonestMajority honest n t) (hstate : DisputeState honest n corrupt disputes)

include hhonest hstate

/-- Without them the honest parties check the broadcasts and end with the same findings. -/
theorem afterBroadcast_checked {poly : ℕ → Role → (GaloisRing w e)[X]}
    (hchecks : HonestChecks honest n t disputes kind poly (visible corrupt received))
    (hw : 0 < w) (hn : n < 2 ^ e.deg) (store : LagrangeStore F) {order : Role → ℕ → List Role}
    (horder : ∀ p ∈ honest, ∀ i, (order p i).Perm (partyRoles n))
    (horderly : OrderlyRound corrupt n t disputes kind received)
    (hshares : HonestShares honest n t l disputes kind dealing layers)
    (hsilent : silentRoles n corrupt received = []) :
    EnsuresWhen (· ∈ honest) allowed (InStep honest corrupt n t l disputes kind dealing)
      (fun p => afterBroadcast store kind l n t corrupt disputes (order p) p (layers p)
        received) := by
  obtain ⟨bad, done, found, ok, hfindings, hbad, hverify⟩ := verifyBroadcast_agreed (l := l)
    hhonest hstate hchecks horder horderly hw hn store layers
  have hsession : ∀ p, ∃ session', p ∈ honest →
      verifyBroadcast store kind l (order p) ⟨⟨p, n, t, corrupt⟩, disputes⟩ (layers p)
        (visible corrupt received) = .ok ⟨session', (layers p).map (zeroShares l bad), ok⟩ ∧
      Recorded n t p corrupt disputes done found session' := by
    intro p
    by_cases hp : p ∈ honest
    · obtain ⟨session', h⟩ := hverify p hp
      exact ⟨session', fun _ => h⟩
    · exact ⟨⟨⟨p, n, t, corrupt⟩, disputes⟩, fun hp' => absurd hp' hp⟩
  choose session' hsession using hsession
  refine .done (fun p => ⟨session' p, (layers p).map (zeroShares l bad), ok⟩)
    (fun p hp => ?_) ?_
  · rw [afterBroadcast, hsilent]
    change (if (corrupt : Finset Role) ≠ corrupt then _ else _) = _
    rw [if_neg (not_not.mpr rfl)]
    change Prog.ofExcept (verifyBroadcast store kind l (order p) ⟨⟨p, n, t, corrupt⟩, disputes⟩
      (layers p) (visible corrupt received)) = _
    rw [(hsession p hp).1]
    rfl
  · cases ok with
    | true =>
      obtain ⟨rfl, rfl⟩ := hfindings.none_of_ok rfl
      refine Or.inl ⟨_, hshares.zeroShares hbad, fun p hp => ?_⟩
      have hstart := (hsession p hp).2.eq_start hstate.closed (Finset.empty_subset _)
      exact congrArg (fun s => (⟨s, (layers p).map (zeroShares l bad), true⟩ :
        VerifyState w e)) hstart
    | false => exact Or.inr ⟨done, found, hfindings, fun p hp => ⟨rfl, (hsession p hp).2⟩⟩

end Repetition

variable (hhonest : HonestMajority honest n t) (hstate : DisputeState honest n corrupt disputes)

include hhonest hstate

theorem verifyRepetition_ensures (hw : 0 < w) (hn : n < 2 ^ e.deg) (store : LagrangeStore F)
    (hchallenges : ∀ g, ∀ role ∈ partyRoles n, (challenges g role).length = l)
    {order : Role → ℕ → ℕ → List Role}
    (horder : ∀ p ∈ honest, ∀ g i, (order p g i).Perm (partyRoles n))
    (hshares : HonestShares honest n t l disputes kind dealing layers) {g : ℕ}
    (hg : g < repetitions e) :
    EnsuresWhen (· ∈ honest) (OrderlyRound corrupt n t disputes kind)
      (InStep honest corrupt n t l disputes kind dealing)
      (fun p => verifyRepetition store kind l challenges (order p)
        ⟨⟨⟨p, n, t, corrupt⟩, disputes⟩, layers p, true⟩ g) := by
  have hmaps : ∀ p, ∃ maps, p ∈ honest →
      (layers p).mapM (computeMaps (challengeMap ⟨⟨p, n, t, corrupt⟩, disputes⟩ (challenges g)) g p) =
        .ok maps ∧ maps.length = (kind.degrees t).length ∧ ∀ i m, maps[i]? = some m →
          TrueMaps n honest (fun q => (dealing i q).combined (challenges g q) g) p m := by
    intro p
    by_cases hp : p ∈ honest
    · obtain ⟨maps, hmaps⟩ := hshares.mapM_computeMaps hhonest (hchallenges g) hg hp
        (show numParties (⟨⟨p, n, t, corrupt⟩, disputes⟩ : LargeSession) = n from rfl)
      exact ⟨maps, fun _ => hmaps⟩
    · exact ⟨[], fun hp' => absurd hp' hp⟩
  choose maps hmaps using hmaps
  have hdisjoint : ∀ p ∈ honest, p ∉ corrupt :=
    fun p hp hmem => (mem_otherRoles.mp (hstate.subset hmem)).2 hp
  refine .send (fun p => .payload (kind.message (maps p)))
    (fun p => afterBroadcast store kind l n t corrupt disputes (order p g) p (layers p))
    (fun p hp => verifyRepetition_eq store (hmaps p hp).1 (order p))
    (fun received horderly hreceived => ?_)
  have hparse : ∀ p ∈ honest, kind.parse (visible corrupt received p) = some (maps p) := by
    intro p hp
    rw [visible, if_neg (hdisjoint p hp), hreceived p hp]
    exact kind.parse_message (hmaps p hp).2.1
  by_cases hsilent : silentRoles n corrupt received = []
  · exact afterBroadcast_checked hhonest hstate (hshares.honestChecks (challenges g) g
      (fun p hp => ⟨maps p, hparse p hp, (hmaps p hp).2.2⟩)) hw hn store (fun p hp => horder p hp g)
      horderly hshares hsilent
  · exact afterBroadcast_silent store (fun p => order p g)
      (fun role => mem_otherRoles_of_silent fun p hp => ⟨maps p, hparse p hp⟩) hsilent

end Runs

end ThresholdKms
