import ThresholdKms.LocalShareAgreement

/-!
# Agreement of dispute control

Under orderly disagreements the honest parties end the verification of local sharings with the same
result, corrupt parties and disputes; no honest party is corrupt, and no two are in dispute.
-/

open Polynomial

namespace ThresholdKms

open Outcome

open GaloisRing LargeSession Lockstep

section Repetition

variable {w : ℕ} {e : ExtensionDegree} {F : Type} [Field F] [DecidableEq F] [G2p e F]
  {honest corrupt : Finset Role} {n t l : ℕ} {disputes : DisputeSet} {kind : LocalShare}
  {poly : ℕ → Role → (GaloisRing w e)[X]}
  {received : Role → BroadcastValue (LargeValue (GaloisRing w e))}

/-- The disagreements and new corrupt parties of a repetition; there are none if it passes. -/
structure Findings (honest : Finset Role) (n : ℕ) (done : Finset (Role × Role))
    (found : Finset Role) (ok : Bool) : Prop where
  none_of_ok : ok = true → done = ∅ ∧ found = ∅
  subset : found ⊆ otherRoles honest n
  apart : ∀ p ∈ honest, ∀ q ∈ honest, q ∉ partners done p

open Classical in
/-- The senders whose broadcast does not hold sharings of one secret. -/
noncomputable def badSenders (n t : ℕ) (disputes : DisputeSet) (kind : LocalShare)
    (received : Role → BroadcastValue (LargeValue (GaloisRing w e))) : List Role :=
  (partyRoles n).filter fun role =>
    ¬ GoodSender n (kind.degrees t) (disputes.get role) (kind.parse (received role))

theorem mem_badSenders {role : Role} :
    role ∈ badSenders n t disputes kind received ↔ role ∈ partyRoles n ∧
      ¬ GoodSender n (kind.degrees t) (disputes.get role) (kind.parse (received role)) := by
  simp only [badSenders, List.mem_filter, decide_eq_true_eq]

/-- The senders that fail the check of a party. -/
def corruptSenders (store : LagrangeStore F) (kind : LocalShare) (session : LargeSession)
    (received : Role → BroadcastValue (LargeValue (GaloisRing w e))) : Outcome (List Role) :=
  (sessionRoles session).filterM (fun role =>
    senderIsCorrupt store session (kind.degrees (threshold session)) role (kind.parse (received role)))

/-- Unless a bad sender is new, all others have sent what there is to compare. -/
theorem allPresent_of_subset
    (hsub : (badSenders n t disputes kind received).toFinset ⊆ corrupt) {i : ℕ}
    (hi : i < (kind.degrees t).length) : AllPresent n corrupt (layerData kind received i) := by
  intro role hrole hcorrupt
  have hgood : GoodSender n (kind.degrees t) (disputes.get role) (kind.parse (received role)) := by
    by_contra hnot
    exact hcorrupt (hsub (List.mem_toFinset.mpr (mem_badSenders.mpr ⟨hrole, hnot⟩)))
  obtain ⟨maps, v, hparse, hshares⟩ := hgood
  have hi' : i < maps.length := (LocalShare.length_of_parse hparse t).symm ▸ hi
  refine ⟨maps[i], ?_, ?_⟩
  · rw [layerData, hparse, Option.bind_some, List.getElem?_eq_getElem hi']
  · obtain ⟨f, hf, -⟩ := hshares (maps[i], (kind.degrees t)[i])
      (List.mem_iff_getElem.mpr ⟨i, by rw [List.length_zip]; exact lt_min hi' hi, List.getElem_zip⟩)
    exact hf.keys

variable {p : Role}

theorem addCorrupts_of_notMem {roles : List Role} (hp : p ∉ roles) :
    addCorrupts (⟨⟨p, n, t, corrupt⟩, disputes⟩ : LargeSession) roles =
      (markCorrupt (⟨⟨p, n, t, corrupt⟩, disputes⟩ : LargeSession) roles,
        decide (∃ r ∈ roles, r ∉ corrupt)) := by
  rw [addCorrupts, addCorrupts_eq]
  congr 1
  apply decide_eq_decide.mpr
  constructor
  · rintro ⟨r, hr, -, hnew⟩
    exact ⟨r, hr, hnew⟩
  · rintro ⟨r, hr, hnew⟩
    exact ⟨r, hr, fun heq => hp ((show r = p from heq) ▸ hr), hnew⟩

theorem recorded_markCorrupt {roles : List Role} (hp : p ∉ roles)
    (hroles : ∀ r ∈ roles, r ∈ partyRoles n) :
    Recorded n t p corrupt disputes ∅ roles.toFinset
      (markCorrupt (⟨⟨p, n, t, corrupt⟩, disputes⟩ : LargeSession) roles) := by
  have := (recorded_start n t p corrupt disputes).markCorrupt hp hroles
  rwa [Finset.empty_union] at this

variable (hhonest : HonestMajority honest n t) (hstate : DisputeState honest n corrupt disputes)
  (hchecks : HonestChecks honest n t disputes kind poly received)

include hhonest hchecks

theorem apart_accusations {i : ℕ} (hi : i < (kind.degrees t).length) {p q : Role} (hp : p ∈ honest)
    (hq : q ∈ honest) :
    q ∉ partners (accusations n corrupt disputes (layerData kind received i)) p := by
  intro hmem
  rcases (mem_partners.mp hmem).2 with hacc | hacc
  · exact hchecks.not_disagree hhonest.mem_roles hi hq hp (mem_accusations.mp hacc).2.2.2.2
  · exact hchecks.not_disagree hhonest.mem_roles hi hp hq (mem_accusations.mp hacc).2.2.2.2

include hstate

theorem exceeding_subset_otherRoles {i : ℕ} (hi : i < (kind.degrees t).length) :
    exceeding n t disputes (accusations n corrupt disputes (layerData kind received i)) ⊆
      otherRoles honest n := by
  intro p hp
  obtain ⟨hrole, -, hlt⟩ := Finset.mem_filter.mp hp
  refine mem_otherRoles.mpr ⟨List.mem_toFinset.mp hrole, fun hhon => ?_⟩
  have hsub : disputes.get p ∪
      partners (accusations n corrupt disputes (layerData kind received i)) p ⊆
        otherRoles honest n := by
    intro q hq
    rcases Finset.mem_union.mp hq with hq | hq
    · exact mem_otherRoles.mpr ⟨List.mem_toFinset.mp (hstate.roles p hq),
        fun hqhon => hstate.apart p hhon q hqhon hq⟩
    · have hqrole : q ∈ partyRoles n := by
        rcases (mem_partners.mp hq).2 with hacc | hacc
        · exact (mem_accusations.mp hacc).1.1
        · exact (mem_accusations.mp hacc).1.2
      exact mem_otherRoles.mpr ⟨hqrole,
        fun hqhon => apart_accusations hhonest hchecks hi hhon hqhon hq⟩
  have := Finset.card_le_card hsub
  have := hhonest.card_otherRoles_le
  omega

omit hstate hchecks in
theorem degrees_lt : ∀ d ∈ kind.degrees t, d < n := by
  have := hhonest.lt
  cases kind with
  | single =>
    intro d hd
    rw [List.mem_singleton.mp hd]
    omega
  | double =>
    intro d hd
    rcases List.mem_pair.mp hd with rfl | rfl <;> omega

theorem corruptSenders_eq (hw : 0 < w) (hn : n < 2 ^ e.deg) (store : LagrangeStore F)
    (hp : p ∈ honest) :
    corruptSenders store kind ⟨⟨p, n, t, corrupt⟩, disputes⟩ received =
      .ok (badSenders n t disputes kind received) := by
  classical
  apply filterM_eq_ok
  intro role _
  by_cases hme : role = p
  · -- the own broadcast is not checked, but it would pass
    subst hme
    have hgood := hchecks.goodSender hstate.roles hp
    obtain ⟨maps, hparse, -⟩ := hchecks.maps role hp
    rw [decide_eq_false (not_not.mpr hgood), hparse]
    exact if_pos rfl
  · exact (senderIsCorrupt_eq hw hn store rfl (degrees_lt hhonest) (hstate.roles role) hme _).trans
      (by congr)

variable {order : Role → ℕ → List Role}
  (horder : ∀ p ∈ honest, ∀ i, (order p i).Perm (partyRoles n))
  (horderly : ∀ i < (kind.degrees t).length,
    Orderly n t disputes (accusations n corrupt disputes (layerData kind received i)))
include horder horderly

theorem lookInLayers_agreed
    (hpresent : ∀ i < (kind.degrees t).length, AllPresent n corrupt (layerData kind received i))
    {count : ℕ} (hcount : count ≤ (kind.degrees t).length) :
    ∃ done found ok, Findings honest n done found ok ∧ ∀ p ∈ honest, ∃ session',
      lookInLayers (order p) count (fun role => kind.parse (received role))
        ⟨⟨p, n, t, corrupt⟩, disputes⟩ = .ok (session', ok) ∧
      Recorded n t p corrupt disputes done found session' := by
  induction count with
  | zero =>
    exact ⟨∅, ∅, true, ⟨fun _ => ⟨rfl, rfl⟩, Finset.empty_subset _, by simp [mem_partners]⟩,
      fun p _ => ⟨_, rfl, recorded_start n t p corrupt disputes⟩⟩
  | succ i ih =>
    have hi : i < (kind.degrees t).length := hcount
    obtain ⟨done, found, ok, hfindings, hlook⟩ := ih hi.le
    cases ok with
    | false =>
      refine ⟨done, found, false, hfindings, fun p hp => ?_⟩
      obtain ⟨session', hrun, hrec⟩ := hlook p hp
      refine ⟨session', ?_, hrec⟩
      unfold lookInLayers at hrun ⊢
      rw [List.range_succ, List.foldlM_append, hrun]
      rfl
    | true =>
      obtain ⟨rfl, rfl⟩ := hfindings.none_of_ok rfl
      have hothers := exceeding_subset_otherRoles hhonest hstate hchecks hi
      refine ⟨accusations n corrupt disputes (layerData kind received i),
        exceeding n t disputes (accusations n corrupt disputes (layerData kind received i)),
        decide (accusations n corrupt disputes (layerData kind received i) = ∅),
        ⟨fun hok => ?_, hothers, fun p hp q hq => apart_accusations hhonest hchecks hi hp hq⟩,
        fun p hp => ?_⟩
      · have hnone := of_decide_eq_true hok
        refine ⟨hnone, Finset.eq_empty_of_forall_notMem (fun q hq => ?_)⟩
        obtain ⟨-, ⟨a, ha, -⟩, -⟩ := Finset.mem_filter.mp hq
        rw [hnone] at ha
        exact Finset.notMem_empty a ha
      · obtain ⟨session', hrun, hrec⟩ := hlook p hp
        rw [hrec.eq_start hstate.closed (Finset.empty_subset _)] at hrun
        have hme : p ∉ exceeding n t disputes
            (accusations n corrupt disputes (layerData kind received i)) :=
          fun hmem => (mem_otherRoles.mp (hothers hmem)).2 hp
        obtain ⟨session'', hlookup, hrec'⟩ := lookForDisputes_of_orderly
          ⟨⟨p, n, t, corrupt⟩, disputes⟩ ⟨rfl, rfl, rfl, rfl⟩ (horderly i hi) hme
          (hpresent i hi) (horder p hp i)
        refine ⟨session'', ?_, hrec'⟩
        unfold lookInLayers at hrun ⊢
        rw [List.range_succ, List.foldlM_append, hrun, ok_bind, List.foldlM_cons]
        change (lookForDisputes (order p i) (layerData kind received i) _ >>= _) = _
        rw [hlookup]
        rfl

/-- The honest parties end a repetition with the same findings. -/
theorem verifyBroadcast_agreed (hw : 0 < w) (hn : n < 2 ^ e.deg) (store : LagrangeStore F)
    (layers : Role → List (Layer (GaloisRing w e))) :
    ∃ bad done found ok, Findings honest n done found ok ∧ (∀ p ∈ honest, p ∉ bad) ∧
      ∀ p ∈ honest, ∃ session',
        verifyBroadcast store kind l (order p) ⟨⟨p, n, t, corrupt⟩, disputes⟩ (layers p) received =
          .ok ⟨session', (layers p).map (zeroShares l bad), ok⟩ ∧
        Recorded n t p corrupt disputes done found session' := by
  have hgood : ∀ p ∈ honest, p ∉ badSenders n t disputes kind received :=
    fun p hp hbad => (mem_badSenders.mp hbad).2 (hchecks.goodSender hstate.roles hp)
  have hmark := fun p hp => @recorded_markCorrupt corrupt n t disputes p _ (hgood p hp)
    (fun r hr => (mem_badSenders.mp hr).1)
  by_cases hnew : ∃ r ∈ badSenders n t disputes kind received, r ∉ corrupt
  · refine ⟨badSenders n t disputes kind received, ∅, _, false, ⟨fun h => (by cases h),
      fun r hr => ?_, by simp [mem_partners]⟩, hgood, fun p hp => ⟨_, ?_, hmark p hp⟩⟩
    · have hr' := mem_badSenders.mp (List.mem_toFinset.mp hr)
      exact mem_otherRoles.mpr ⟨hr'.1, fun hhon => hgood r hhon (List.mem_toFinset.mp hr)⟩
    · change (corruptSenders store kind ⟨⟨p, n, t, corrupt⟩, disputes⟩ received >>= _) = _
      rw [corruptSenders_eq hhonest hstate hchecks hw hn store hp, ok_bind,
        addCorrupts_of_notMem (hgood p hp), decide_eq_true hnew]
      rfl
  · have hsub : (badSenders n t disputes kind received).toFinset ⊆ corrupt := by
      intro r hr
      by_contra hnot
      exact hnew ⟨r, List.mem_toFinset.mp hr, hnot⟩
    obtain ⟨done, found, ok, hfindings, hlook⟩ := lookInLayers_agreed hhonest hstate hchecks horder
      horderly (fun i hi => allPresent_of_subset hsub hi) (Nat.le_refl (kind.degrees t).length)
    refine ⟨_, done, found, ok, hfindings, hgood, fun p hp => ?_⟩
    obtain ⟨session', hrun, hrec⟩ := hlook p hp
    refine ⟨session', ?_, hrec⟩
    change (corruptSenders store kind ⟨⟨p, n, t, corrupt⟩, disputes⟩ received >>= _) = _
    rw [corruptSenders_eq hhonest hstate hchecks hw hn store hp, ok_bind,
      addCorrupts_of_notMem (hgood p hp), decide_eq_false hnew,
      (hmark p hp).eq_start hstate.closed hsub]
    change (lookInLayers (order p) (kind.degrees t).length _ _ >>= _) = _
    rw [hrun]
    rfl

end Repetition

end ThresholdKms
