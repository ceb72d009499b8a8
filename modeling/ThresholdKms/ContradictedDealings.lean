import ThresholdKms.VerifySharingRun

/-!
# Runs in which some receivers contradict their dealers

Every party deals zeros, and broadcasts as a dealer that it did. As receivers, the parties broadcast
shares of one instead, for a given set of receivers and dealers. All dealers pass the check, and what
is left of the verification is the search for disputes among these contradictions.
-/

open Polynomial

namespace ThresholdKms

open GaloisRing LargeSession Lockstep Tally

variable {Z : Type}

def mapOf (n : ℕ) (f : Role → Z) : BTreeMap Z :=
  ((partyRoles n).map (fun role => (⟨role, f role⟩ : (_ : Role) × Z))).toFinmap

theorem lookup_mapOf (n : ℕ) (f : Role → Z) (role : Role) :
    (mapOf n f).lookup role = if role ∈ partyRoles n then some (f role) else none := by
  have hmap : (partyRoles n).map (fun role => (⟨role, f role⟩ : (_ : Role) × Z)) =
      ((partyRoles n).map (fun role => (⟨role, []⟩ : (_ : Role) × List Z))).map
        (fun entry => ⟨entry.1, f entry.1⟩) := by
    rw [List.map_map]
    rfl
  rw [mapOf, Finmap.dlookup_list_toFinmap, hmap, dlookup_map_keys]
  exact if_congr (by simp) rfl rfl

theorem keys_mapOf (n : ℕ) (f : Role → Z) :
    (mapOf n f).keys = (partyRoles n).toFinset := by
  ext role
  rw [Finmap.mem_keys, ← Finmap.lookup_isSome, lookup_mapOf]
  by_cases hrole : role ∈ partyRoles n
  · simp [hrole]
  · simp [hrole]

section Scenario

variable {w : ℕ} {e : ExtensionDegree} (n : ℕ) (wrong : Finset (Role × Role))

/-- The pad that the receiver has of the dealer. -/
def contradictedPad (receiver dealer : Role) : GaloisRing w e :=
  if (receiver, dealer) ∈ wrong then 1 else 0

def contradictedLayer (p : Role) : Layer (GaloisRing w e) where
  secrets := ⟨collect ((partyRoles n).map (fun role => (role, [0]))),
    collect ((partyRoles n).map (fun role => (role, [0])))⟩
  pads := ⟨collect ((partyRoles n).map (fun role =>
      (role, List.replicate (repetitions e) (contradictedPad wrong p role)))),
    collect ((partyRoles n).map (fun role => (role, List.replicate (repetitions e) 0)))⟩

def contradictedMaps (p : Role) : MapsSharesChallenges (GaloisRing w e) :=
  ⟨mapOf n (contradictedPad wrong p), mapOf n (fun _ => 0)⟩

def contradictedRound (p : Role) : BroadcastValue (LargeValue (GaloisRing w e)) :=
  .payload (.localSingleShare (contradictedMaps n wrong p))

variable (w e) in
/-- What the parties read from the broadcasts. -/
abbrev contradictedData : Role → Option (MapsSharesChallenges (GaloisRing w e)) :=
  layerData .single (contradictedRound n wrong) 0

variable {n} in
theorem lookup_zeros {role : Role} (hrole : role ∈ partyRoles n) :
    (collect ((partyRoles n).map (fun role => (role, [(0 : GaloisRing w e)])))).lookup role =
      some [0] :=
  (lookup_collect_map _ (fun _ => [0]) role).trans (if_pos hrole)

variable {n} in
theorem computeCheckValues_zeros {challenges : Role → Option (List (GaloisRing w e))}
    (hchallenges : ∀ role ∈ partyRoles n, ∃ c, challenges role = some [c]) {g : ℕ}
    (hg : g < repetitions e) (myRole : Option Role)
    (hme : ∀ role ∈ partyRoles n, myRole.getD role ∈ partyRoles n) (v : Role → GaloisRing w e)
    {padsShares : HashMap Role (List (GaloisRing w e))} (hpads : ∀ role, padsShares.lookup role =
      if role ∈ partyRoles n then some (List.replicate (repetitions e) (v role)) else none) :
    computeCheckValues padsShares challenges (collect ((partyRoles n).map (fun role => (role, [0]))))
      g myRole = .ok (mapOf n v) := by
  have hvalue : ∀ role pads, padsShares.lookup role = some pads → checkValueOf challenges
      (collect ((partyRoles n).map (fun role => (role, [0])))) g myRole role pads = .ok (v role) := by
    intro role pads hlookup
    rw [hpads] at hlookup
    by_cases hrole : role ∈ partyRoles n
    · rw [if_pos hrole, Option.some.injEq] at hlookup
      subst hlookup
      obtain ⟨c, hc⟩ := hchallenges _ (hme role hrole)
      have hget : (List.replicate (repetitions e) (v role)).getD g 0 = v role := by
        rw [List.getD_eq_getElem _ _ (by rwa [List.length_replicate]), List.getElem_replicate]
      rw [checkValueOf_eq (by rwa [List.length_replicate]) hc (lookup_zeros hrole) rfl, hget,
        checkValue_eq]
      simp
    · rw [if_neg hrole] at hlookup
      cases hlookup
  obtain ⟨m, hm, hlookup⟩ := computeCheckValues_eq v hvalue
  rw [hm]
  refine congrArg Except.ok (Finmap.ext_lookup (fun role => ?_))
  rw [hlookup, lookup_mapOf]
  refine if_congr ?_ rfl rfl
  rw [← AList.lookup_isSome, hpads]
  by_cases hrole : role ∈ partyRoles n
  · simp [hrole]
  · simp [hrole]

variable {p : Role}

variable {n} in
theorem computeMaps_contradictedLayer {session : LargeSession} (hnum : numParties session = n)
    {challenges : Role → List (GaloisRing w e)}
    (hchallenges : ∀ role ∈ partyRoles n, (challenges role).length = 1) {g : ℕ}
    (hg : g < repetitions e) (hp : p ∈ partyRoles n) :
    computeMaps (challengeMap session challenges) g p (contradictedLayer n wrong p) =
      .ok (contradictedMaps n wrong p) := by
  have hmap : ∀ role ∈ partyRoles n, ∃ c, challengeMap session challenges role = some [c] := by
    intro role hrole
    obtain ⟨c, hc⟩ := List.length_eq_one_iff.mp (hchallenges role hrole)
    exact ⟨c, by rw [challengeMap, sessionRoles, hnum, if_pos hrole, hc]⟩
  have hall := computeCheckValues_zeros hmap hg none (fun _ hrole => hrole) (contradictedPad wrong p)
    (lookup_collect_map _ _)
  have hmine := computeCheckValues_zeros hmap hg (some p) (fun _ _ => hp) (fun _ => 0)
    (lookup_collect_map _ _)
  unfold computeMaps contradictedLayer
  rw [hall, Outcome.ok_bind, hmine]
  rfl

variable {n} {wrong} {F : Type} [Field F] [DecidableEq F] [G2p e F]

theorem goodSender_contradictedRound (degree : ℕ) (p : Role) :
    GoodSender n [degree] ∅ (LocalShare.single.parse
      (contradictedRound n wrong p : BroadcastValue (LargeValue (GaloisRing w e)))) := by
  refine ⟨[contradictedMaps n wrong p], 0, rfl, fun m hm => ⟨0, ?_, eval_zero⟩⟩
  obtain rfl := List.mem_singleton.mp hm
  refine ⟨keys_mapOf n _, by simp, fun role hrole => ?_, by simp⟩
  rw [eval_zero]
  exact (lookup_mapOf n _ role).trans (if_pos hrole)

variable (wrong) in
theorem disagree_contradictedRound {r s : Role} (hr : r ∈ partyRoles n) (hs : s ∈ partyRoles n)
    (hone : (1 : GaloisRing w e) ≠ 0) :
    Disagree (contradictedData w e n wrong) r s ↔ (r, s) ∈ wrong := by
  change (mapOf n (contradictedPad wrong r)).lookup s ≠
    (mapOf n (fun _ => (0 : GaloisRing w e))).lookup r ↔ _
  rw [lookup_mapOf, lookup_mapOf, if_pos hs, if_pos hr, ne_eq, Option.some.injEq, contradictedPad]
  by_cases hmem : (r, s) ∈ wrong
  · simp [hmem, hone]
  · simp [hmem]

theorem accusations_contradictedRound (hone : (1 : GaloisRing w e) ≠ 0)
    (hwrong : ∀ a ∈ wrong, a.1 ∈ partyRoles n ∧ a.2 ∈ partyRoles n) :
    accusations n ∅ DisputeSet.new (contradictedData w e n wrong) = wrong := by
  ext ⟨r, s⟩
  rw [mem_accusations]
  constructor
  · rintro ⟨⟨hr, hs⟩, -, -, -, hdis⟩
    exact (disagree_contradictedRound wrong hr hs hone).mp hdis
  · intro hmem
    obtain ⟨hr, hs⟩ := hwrong _ hmem
    exact ⟨⟨hr, hs⟩, Finset.notMem_empty r, Finset.notMem_empty s, Finset.notMem_empty r,
      (disagree_contradictedRound wrong hr hs hone).mpr hmem⟩

theorem foldlM_verifyRepetition_failed (store : LagrangeStore F) (kind : LocalShare) (l : ℕ)
    (challenges : ℕ → Role → List (GaloisRing w e)) (order : ℕ → ℕ → List Role) (gs : List ℕ)
    {state : VerifyState w e} (hstate : state.ok = false) :
    gs.foldlM (fun state g => if state.ok then
      verifyRepetition store kind l challenges order state g else pure state) state =
      .done state := by
  induction gs with
  | nil => rfl
  | cons g gs ih =>
    rw [List.foldlM_cons, if_neg (by simp [hstate])]
    exact ih

theorem silentRoles_contradictedRound : silentRoles n ∅ (contradictedRound n wrong :
    Role → BroadcastValue (LargeValue (GaloisRing w e))) = [] := by
  apply List.filter_eq_nil_iff.mpr
  intro role _
  rw [decide_eq_true_eq]
  rintro ⟨-, hbot⟩
  cases hbot

variable (hw : 0 < w) (hn : n < 2 ^ e.deg) (store : LagrangeStore F) {t : ℕ} (ht : t < n)
include hw hn ht

theorem corruptSenders_contradictedRound (p : Role) :
    corruptSenders store .single ⟨⟨p, n, t, ∅⟩, .new⟩ (contradictedRound n wrong :
      Role → BroadcastValue (LargeValue (GaloisRing w e))) = .ok [] := by
  classical
  rw [corruptSenders, Outcome.filterM_eq_ok (g := fun _ => false), List.filter_false]
  intro role _
  by_cases hme : role = p
  · subst hme
    exact if_pos rfl
  · refine (senderIsCorrupt_eq hw hn store rfl (fun d hd => ?_) (Finset.empty_subset _) hme _).trans
      (congrArg Except.ok (decide_eq_false (not_not.mpr (goodSender_contradictedRound t role))))
    exact (List.mem_singleton.mp hd).trans_lt ht

variable {session' : LargeSession}

theorem verifyBroadcast_contradictedRound {order : ℕ → List Role}
    (hlook : lookForDisputes (order 0) (contradictedData w e n wrong) ⟨⟨p, n, t, ∅⟩, .new⟩ =
      .ok (session', false)) :
    verifyBroadcast store .single 1 order ⟨⟨p, n, t, ∅⟩, .new⟩ [contradictedLayer n wrong p]
        (contradictedRound n wrong : Role → BroadcastValue (LargeValue (GaloisRing w e))) =
      .ok ⟨session', [contradictedLayer n wrong p].map (zeroShares 1 []), false⟩ := by
  change (corruptSenders store .single ⟨⟨p, n, t, ∅⟩, .new⟩ (contradictedRound n wrong) >>= _) = _
  rw [corruptSenders_contradictedRound hw hn store ht p]
  change ((lookForDisputes (order 0) (contradictedData w e n wrong)
    (⟨⟨p, n, t, ∅⟩, .new⟩ : LargeSession) >>= fun state => pure state) >>= _) = _
  rw [hlook]
  rfl

variable (hp : p ∈ partyRoles n)
include hp

/-- A search for disputes that finds one ends the verification. -/
theorem verifySharing_contradictedRound {challenges : ℕ → Role → List (GaloisRing w e)}
    (hchallenges : ∀ g, ∀ role ∈ partyRoles n, (challenges g role).length = 1)
    (order : ℕ → ℕ → List Role)
    (hlook : lookForDisputes (order 0 0) (contradictedData w e n wrong) ⟨⟨p, n, t, ∅⟩, .new⟩ =
      .ok (session', false)) :
    ∃ next layers', verifySharing store .single 1 challenges order ⟨⟨p, n, t, ∅⟩, .new⟩
        [contradictedLayer n wrong p] = .send (contradictedRound n wrong p) next ∧
      next (contradictedRound n wrong) = .done ⟨session', layers', false⟩ := by
  obtain ⟨m, hm⟩ := Nat.exists_eq_succ_of_ne_zero (repetitions_pos e).ne'
  have hmaps : [contradictedLayer n wrong p].mapM (computeMaps
      (challengeMap (⟨⟨p, n, t, ∅⟩, .new⟩ : LargeSession) (challenges 0)) 0 p) =
      .ok [contradictedMaps n wrong p] := by
    rw [List.mapM_cons, computeMaps_contradictedLayer wrong
      (show numParties (⟨⟨p, n, t, ∅⟩, .new⟩ : LargeSession) = n from rfl) (hchallenges 0)
      (repetitions_pos e) hp]
    rfl
  refine ⟨fun received => afterBroadcast store .single 1 n t ∅ .new (order 0) p
      [contradictedLayer n wrong p] received >>= fun state =>
      ((List.range m).map Nat.succ).foldlM (fun state g => if state.ok then
        verifyRepetition store .single 1 challenges order state g else pure state) state,
    [contradictedLayer n wrong p].map (zeroShares 1 []), ?_, ?_⟩
  · unfold verifySharing
    rw [hm, List.range_succ_eq_map, List.foldlM_cons, verifyRepetition_eq store hmaps order]
    rfl
  · simp only [afterBroadcast, silentRoles_contradictedRound]
    change (Prog.ofExcept (verifyBroadcast store .single 1 (order 0) ⟨⟨p, n, t, ∅⟩, .new⟩
      [contradictedLayer n wrong p] (contradictedRound n wrong)) >>= _) = _
    rw [verifyBroadcast_contradictedRound hw hn store ht hlook]
    exact foldlM_verifyRepetition_failed store _ _ challenges order _ rfl

/-- Orderly contradictions are recorded, and the verification fails. -/
theorem exists_run_contradictedRound (hone : (1 : GaloisRing w e) ≠ 0) (hne : wrong ≠ ∅)
    (hwrong : ∀ a ∈ wrong, a.1 ∈ partyRoles n ∧ a.2 ∈ partyRoles n)
    (horderly : Orderly n t .new wrong) (hme : p ∉ exceeding n t .new wrong) :
    ∃ state, (verifySharing store .single 1 (fun _ _ => [0]) (fun _ _ => partyRoles n)
        ⟨⟨p, n, t, ∅⟩, .new⟩ [contradictedLayer n wrong p] : LargeProg (GaloisRing w e) _).run
          (fun _ => contradictedRound n wrong) = .ok state ∧ state.ok = false ∧
      Recorded n t p ∅ .new wrong (exceeding n t .new wrong) state.session := by
  have hacc := accusations_contradictedRound hone hwrong
  have hpresent : AllPresent n ∅ (layerData .single (contradictedRound n wrong :
      Role → BroadcastValue (LargeValue (GaloisRing w e))) 0) :=
    fun role _ _ => ⟨contradictedMaps n wrong role, rfl, keys_mapOf n _⟩
  have hsession : SessionAt (⟨⟨p, n, t, ∅⟩, .new⟩ : LargeSession) p n t ∅ := ⟨rfl, rfl, rfl, rfl⟩
  obtain ⟨session', hlook, hrec⟩ := lookForDisputes_of_orderly ⟨⟨p, n, t, ∅⟩, .new⟩ hsession
    (hacc.symm ▸ horderly) (hacc.symm ▸ hme) hpresent (List.Perm.refl (partyRoles n))
  simp only [hacc, decide_eq_false hne] at hlook hrec
  have hchallenges : ∀ (g : ℕ), ∀ role ∈ partyRoles n,
      ((fun _ _ => [0] : ℕ → Role → List (GaloisRing w e)) g role).length = 1 := fun _ _ _ => rfl
  obtain ⟨next, layers', hprog, hnext⟩ := verifySharing_contradictedRound hw hn store ht hp
    hchallenges (fun _ _ => partyRoles n) hlook
  exact ⟨⟨session', layers', false⟩, (Prog.run_of_send hprog hnext).1, rfl, hrec⟩

end Scenario

/-!
## Progress of the verification

A failed verification makes progress, as long as no party contradicts itself. A party that does makes
the verification fail and leaves the session as it was.
-/

variable {e : ExtensionDegree} {F : Type} [Field F] [DecidableEq F] [G2p e F]

/-- A failed verification has found a corrupt party or a dispute, as long as no party contradicts
itself. -/
theorem verifySharing_progress (z : BaseRing) (store : LagrangeStore F) (kind : LocalShare) (l : ℕ)
    (challenges : ℕ → Role → List (GaloisRing z.bits e)) (order : ℕ → ℕ → List Role)
    (session : LargeSession) (layers : List (Layer (GaloisRing z.bits e)))
    (rounds : ℕ → Role → BroadcastValue (LargeValue (GaloisRing z.bits e)))
    (hself : ∀ k, NoSelfContradiction kind (corruptRoles session) (rounds k))
    (state : VerifyState z.bits e)
    (hrun : (verifySharing store kind l challenges order session layers).run rounds = .ok state)
    (hfailed : state.ok = false) : Lt session state.session := by
  have hgrown := Prog.foldlM_of_run
    (fun state : VerifyState z.bits e => GrownSince session (state.session, state.ok)) ?_ hself
    ⟨Le.refl session, fun hf => by cases hf⟩ hrun
  · exact hgrown.2 hfailed
  · intro g _ s s' rounds hrounds hs hstep
    split_ifs at hstep with hok
    · have hstep' := grownSince_verifyRepetition hs.1.corruptRoles hrounds hstep
      exact ⟨hs.1.trans hstep'.1, fun hf => hs.1.trans_lt (hstep'.2 hf)⟩
    · cases hstep
      exact hs

theorem orderly_third_fourth : Orderly 4 1 .new {((3, 4) : Role × Role)} := by
  refine ⟨by decide, ?_⟩
  rintro p ⟨a, ha, h⟩ -
  obtain rfl := Finset.mem_singleton.mp ha
  rcases h with rfl | rfl
  · decide
  · decide

/-- The first of four parties finds that the third contradicts the fourth. -/
theorem verifySharing_progress_four_parties :
    ∃ state, (verifySharing (F := GF8) LagrangeStore.empty .single 1 (fun _ _ => [0])
        (fun _ _ => partyRoles 4) ⟨⟨1, 4, 1, ∅⟩, .new⟩ [contradictedLayer 4 {(3, 4)} 1] :
        LargeProg (GaloisRing BaseRing.z64.bits .three) _).run
          (fun _ => contradictedRound 4 {(3, 4)}) = .ok state ∧
      state.ok = false ∧ Lt ⟨⟨1, 4, 1, ∅⟩, .new⟩ state.session := by
  obtain ⟨state, hrun, hfailed, -⟩ := exists_run_contradictedRound (F := GF8) (e := .three)
    BaseRing.z64.bits_pos (by decide) LagrangeStore.empty (by decide) (p := 1) (by decide) (by decide)
    (Finset.singleton_ne_empty _) (by decide) orderly_third_fourth (by decide)
  refine ⟨state, hrun, hfailed, verifySharing_progress .z64 LagrangeStore.empty .single 1 _ _ _ _ _
    (fun _ role _ maps hmaps m hm => ?_) state hrun hfailed⟩
  cases hmaps
  obtain rfl := List.mem_singleton.mp hm
  have hself : contradictedPad {((3, 4) : Role × Role)} role role =
      (0 : GaloisRing BaseRing.z64.bits .three) := by
    refine if_neg (fun hmem => ?_)
    have h := Prod.mk.inj (Finset.mem_singleton.mp hmem)
    exact absurd (h.1.symm.trans h.2) (by decide)
  change (mapOf 4 _).lookup role = (mapOf 4 _).lookup role
  rw [lookup_mapOf, lookup_mapOf, hself]

/-- The fourth party contradicts itself. The verification fails, and nothing is recorded. -/
theorem verifySharing_stalls :
    ∃ state, (verifySharing (F := GF8) LagrangeStore.empty .single 1 (fun _ _ => [0])
        (fun _ _ => partyRoles 4) ⟨⟨1, 4, 1, ∅⟩, .new⟩ [contradictedLayer 4 {(4, 4)} 1] :
        LargeProg (GaloisRing BaseRing.z64.bits .three) _).run
          (fun _ => contradictedRound 4 {(4, 4)}) = .ok state ∧
      state.ok = false ∧ state.session = ⟨⟨1, 4, 1, ∅⟩, .new⟩ := by
  have hexceeding : exceeding 4 1 .new {((4, 4) : Role × Role)} = ∅ := by decide
  have horderly : Orderly 4 1 .new {((4, 4) : Role × Role)} := by
    refine ⟨by decide, ?_⟩
    rintro p ⟨a, ha, h⟩ -
    obtain rfl := Finset.mem_singleton.mp ha
    obtain rfl : 4 = p := h.elim id id
    decide
  obtain ⟨state, hrun, hfailed, hrec⟩ := exists_run_contradictedRound (F := GF8) (e := .three)
    BaseRing.z64.bits_pos (by decide) LagrangeStore.empty (by decide) (p := 1) (by decide) (by decide)
    (Finset.singleton_ne_empty _) (by decide) horderly (by decide)
  refine ⟨state, hrun, hfailed, ?_⟩
  rw [hexceeding] at hrec
  have hnone : ∀ p, partners {((4, 4) : Role × Role)} p = ∅ := by
    intro p
    refine Finset.eq_empty_of_forall_notMem (fun q hq => ?_)
    obtain ⟨hne, h⟩ := mem_partners.mp hq
    simp only [Finset.mem_singleton, Prod.mk.injEq] at h
    rcases h with ⟨rfl, rfl⟩ | ⟨rfl, rfl⟩
    · exact hne rfl
    · exact hne rfl
  have hstart : Recorded 4 1 1 ∅ .new ∅ ∅ state.session :=
    ⟨hrec.sessionAt, fun p q => by rw [hrec.disputed, hnone]; simp [mem_partners]⟩
  exact hstart.eq_start (by simp) (Finset.empty_subset _)

end ThresholdKms
