import ThresholdKms.LocalShare

/-!
# Progress of dispute control

The corrupt parties and the disputes of a session only grow. A repetition that fails leaves the
session with a corrupt party or a dispute that it did not have before, if no party contradicts itself:
that would be a dispute with itself, which is not recorded.
-/

namespace ThresholdKms

open Lockstep Outcome

namespace LargeSession

/-- The session has grown by a corrupt party or by a dispute. -/
structure Lt (s s' : LargeSession) : Prop where
  le : Le s s'
  new : (∃ r ∈ corruptRoles s', r ∉ corruptRoles s) ∨ ∃ p q, s'.Disputed p q ∧ ¬ s.Disputed p q

theorem Le.trans_lt {s s' s'' : LargeSession} (h : Le s s') (h' : Lt s' s'') : Lt s s'' where
  le := h.trans h'.le
  new := by
    rcases h'.new with ⟨r, hr, hnot⟩ | ⟨p, q, hpq, hnot⟩
    · exact Or.inl ⟨r, hr, fun hmem => hnot (h.corruptRoles hmem)⟩
    · exact Or.inr ⟨p, q, hpq, fun hdis => hnot (h.disputed p q hdis)⟩

theorem le_markCorrupt (s : LargeSession) (roles : List Role) : Le s (markCorrupt s roles) := by
  induction roles generalizing s with
  | nil => exact Le.refl s
  | cons role roles ih => exact (le_addCorrupt s role).trans (ih _)

theorem lt_of_corruptRoles_ne {s s' : LargeSession} (h : Le s s')
    (hne : corruptRoles s' ≠ corruptRoles s) : Lt s s' := by
  refine ⟨h, Or.inl ?_⟩
  by_contra hnone
  apply hne
  apply Finset.Subset.antisymm _ h.corruptRoles
  intro r hr
  by_contra hnot
  exact hnone ⟨r, hr, hnot⟩

end LargeSession

open LargeSession

theorem addCorrupts_eq (session : LargeSession) (roles : List Role) (flag : Bool) :
    roles.foldl (fun (session, shouldReturn) role =>
      let (session, added) := addCorrupt session role
      (session, shouldReturn || added)) (session, flag) =
    (markCorrupt session roles, flag || decide (∃ r ∈ roles, r ≠ myRole session ∧
      r ∉ corruptRoles session)) := by
  induction roles generalizing session flag with
  | nil => simp [markCorrupt]
  | cons role roles ih =>
    rw [List.foldl_cons, ih, LawfulSession.addCorrupt_snd, LawfulSession.corruptRoles_addCorrupt]
    congr 1
    rw [Bool.or_assoc]
    congr 1
    rw [← Bool.decide_or]
    apply decide_eq_decide.mpr
    by_cases hnew : role ≠ myRole session ∧ role ∉ corruptRoles session
    · simp [hnew]
    · have hset : (if role = myRole session then corruptRoles session
          else insert role (corruptRoles session)) = corruptRoles session := by
        by_cases hme : role = myRole session
        · rw [if_pos hme]
        · rw [if_neg hme]
          exact Finset.insert_eq_of_mem (by simpa [hme] using hnew)
      rw [hset]
      simp [hnew]

theorem addCorrupts_fst (session : LargeSession) (roles : List Role) :
    (addCorrupts session roles).1 = markCorrupt session roles := by
  rw [addCorrupts, addCorrupts_eq]

variable {session : LargeSession}

theorem lt_addCorrupts {roles : List Role}
    (h : (addCorrupts session roles).2 = true) : Lt session (addCorrupts session roles).1 := by
  rw [addCorrupts_fst]
  rw [addCorrupts, addCorrupts_eq] at h
  obtain ⟨r, hr, hme, hnot⟩ := of_decide_eq_true h
  refine ⟨le_markCorrupt session roles, Or.inl ⟨r, ?_, hnot⟩⟩
  rw [corruptRoles_markCorrupt]
  exact Finset.mem_union_right _ (Finset.mem_erase.mpr ⟨hme, List.mem_toFinset.mpr hr⟩)

variable {session' : LargeSession}

section Look

variable {Z : Type}

/-- As a receiver a party has the value that it claims as a dealer to have given itself. -/
def AgreesWithItself (role : Role) (maps : MapsSharesChallenges Z) : Prop :=
  maps.checksForAll.lookup role = maps.checksForMine.lookup role

variable [DecidableEq Z] {bcastData : Role → Option (MapsSharesChallenges Z)}

/-- The session has grown since `session`, if there was a disagreement. -/
def GrownSince (session : LargeSession) (state : LargeSession × Bool) : Prop :=
  Le session state.1 ∧ (state.2 = false → Lt session state.1)

variable {state state' : LargeSession × Bool}

theorem GrownSince.compareChecks {roleSender roleReceiver : Role} {maps : MapsSharesChallenges Z}
    {disputes : Finset Role} (h : GrownSince session state)
    (hmaps : bcastData roleSender = some maps) (hself : AgreesWithItself roleSender maps)
    (hdisputes : session.disputedRoles.get roleSender ⊆ disputes)
    (hstep : compareChecks bcastData roleSender maps.checksForMine disputes state roleReceiver =
      .ok state') : GrownSince session state' := by
  unfold ThresholdKms.compareChecks at hstep
  split at hstep
  · rename_i hvoice
    split at hstep
    · cases hstep
    · rename_i receiverValue hvalue
      split at hstep
      · cases hstep
        exact h
      · rename_i hdiffer
        cases hstep
        have hne : roleReceiver ≠ roleSender := by
          rintro rfl
          rw [hmaps] at hvalue
          cases hvalue
          exact hdiffer hself
        have hle := h.1.trans (le_addDispute state.1 roleReceiver roleSender)
        exact ⟨hle, fun _ => ⟨hle, Or.inr ⟨roleSender, roleReceiver, disputed_addDispute hne,
          fun hdis => hvoice.2 (hdisputes hdis)⟩⟩⟩
  · cases hstep
    exact h

theorem GrownSince.compareSender {roleSender : Role} (h : GrownSince session state)
    (hself : ∀ maps, roleSender ∉ corruptRoles session → bcastData roleSender = some maps →
      AgreesWithItself roleSender maps)
    (hstep : compareSender bcastData state roleSender = .ok state') : GrownSince session state' := by
  unfold ThresholdKms.compareSender at hstep
  split at hstep
  · cases hstep
    exact h
  · rename_i maps hmaps
    split_ifs at hstep with hcorrupt
    · cases hstep
      exact h
    · have hself' := hself maps (fun hmem => hcorrupt (h.1.corruptRoles hmem)) hmaps
      refine foldlM_of_ok (GrownSince session) ?_ h hstep
      intro roleReceiver _ s s' hs hs'
      exact hs.compareChecks hmaps hself' (fun q hq => h.1.disputed roleSender q hq) hs'

theorem grownSince_lookForDisputes {ok : Bool} {order : List Role}
    (hself : ∀ role maps, role ∉ corruptRoles session → bcastData role = some maps →
      AgreesWithItself role maps)
    (h : lookForDisputes order bcastData session = .ok (session', ok)) :
    GrownSince session (session', ok) := by
  refine foldlM_of_ok (GrownSince session) ?_ ⟨Le.refl session, fun hf => by cases hf⟩ h
  intro roleSender _ s s' hs hs'
  exact hs.compareSender (fun maps => hself roleSender maps) hs'

end Look

section Runs

variable {w : ℕ} {e : ExtensionDegree} {F : Type} [Field F] [DecidableEq F] [G2p e F]
  {store : LagrangeStore F} {kind : LocalShare} {l : ℕ}

/-- No party that is not known to be corrupt contradicts itself. -/
def NoSelfContradiction (kind : LocalShare) (corrupt : Finset Role)
    (received : Role → BroadcastValue (LargeValue (GaloisRing w e))) : Prop :=
  ∀ role ∉ corrupt, ∀ maps, kind.parse (received role) = some maps →
    ∀ m ∈ maps, AgreesWithItself role m

variable {received : Role → BroadcastValue (LargeValue (GaloisRing w e))}

section

variable (hself : NoSelfContradiction kind (corruptRoles session) received)
include hself

theorem grownSince_lookInLayers {ok : Bool} {order : ℕ → List Role} {count : ℕ}
    (h : lookInLayers order count (fun role => kind.parse (received role)) session =
      .ok (session', ok)) : GrownSince session (session', ok) := by
  refine foldlM_of_ok (GrownSince session) ?_ ⟨Le.refl session, fun hf => by cases hf⟩ h
  intro i _ s s' hs hstep
  split_ifs at hstep with hok
  · have hgrown := grownSince_lookForDisputes (fun role maps hrole hmaps => ?_) hstep
    · exact ⟨hs.1.trans hgrown.1, fun hf => hs.1.trans_lt (hgrown.2 hf)⟩
    · obtain ⟨all, hall, hm⟩ := Option.bind_eq_some_iff.mp hmaps
      exact hself role (fun hmem => hrole (hs.1.corruptRoles hmem)) all hall maps
        (List.mem_of_getElem? hm)
  · cases hstep
    exact hs

theorem grownSince_verifyBroadcast {layers : List (Layer (GaloisRing w e))} {order : ℕ → List Role}
    {state : VerifyState w e}
    (h : verifyBroadcast store kind l order session layers received = .ok state) :
    GrownSince session (state.session, state.ok) := by
  obtain ⟨roles, -, h⟩ := bind_eq_ok.mp h
  have hle : Le session (addCorrupts session roles).1 := by
    rw [addCorrupts_fst]
    exact le_markCorrupt session roles
  simp only at h
  split_ifs at h with hreturn
  · cases h
    exact ⟨hle, fun _ => lt_addCorrupts hreturn⟩
  · obtain ⟨⟨session', ok⟩, hlook, h⟩ := bind_eq_ok.mp h
    cases h
    have hgrown := grownSince_lookInLayers (fun role hrole => hself role
      (fun hmem => hrole (hle.corruptRoles hmem))) hlook
    exact ⟨hle.trans hgrown.1, fun hf => hle.trans_lt (hgrown.2 hf)⟩

end

theorem NoSelfContradiction.visible {corrupt corrupt' : Finset Role} (hsub : corrupt ⊆ corrupt')
    (h : NoSelfContradiction kind corrupt received) :
    NoSelfContradiction kind corrupt' (visible corrupt' received) := by
  intro role hrole maps hmaps
  rw [ThresholdKms.visible, if_neg hrole] at hmaps
  exact h role (fun hmem => hrole (hsub hmem)) maps hmaps

theorem grownSince_verifyRepetition {challenges : ℕ → Role → List (GaloisRing w e)}
    {order : ℕ → ℕ → List Role} {state state' : VerifyState w e} {g : ℕ} {corrupt : Finset Role}
    (hsub : corrupt ⊆ corruptRoles state.session)
    {rounds : ℕ → Role → BroadcastValue (LargeValue (GaloisRing w e))}
    (hself : ∀ k, NoSelfContradiction kind corrupt (rounds k))
    (h : (verifyRepetition store kind l challenges order state g).run rounds = .ok state') :
    GrownSince state.session (state'.session, state'.ok) := by
  obtain ⟨maps, -, h⟩ := Prog.run_ofExcept_bind h
  generalize hsilent : (sessionRoles state.session).filter (fun role =>
    decide (role ∉ corruptRoles state.session ∧
      visible (corruptRoles state.session) (rounds 0) role = .bot)) = silent
  have hle := le_markCorrupt state.session silent
  change Prog.run (if corruptRoles (markCorrupt state.session ((sessionRoles state.session).filter
    (fun role => decide (role ∉ corruptRoles state.session ∧
      visible (corruptRoles state.session) (rounds 0) role = .bot)))) ≠ _ then _ else _) _ = _ at h
  rw [hsilent] at h
  split_ifs at h with hne
  · cases h
    exact ⟨hle, fun _ => lt_of_corruptRoles_ne hle hne⟩
  · rw [not_not] at hne
    have hok : verifyBroadcast store kind l (order g) (markCorrupt state.session silent) state.layers
        (visible (corruptRoles state.session) (rounds 0)) = .ok state' := by
      cases hv : verifyBroadcast store kind l (order g) (markCorrupt state.session silent)
          state.layers (visible (corruptRoles state.session) (rounds 0)) with
      | ok s =>
        rw [hv] at h
        cases h
        rfl
      | error err =>
        rw [hv] at h
        cases h
    have hgrown := grownSince_verifyBroadcast (hne.symm ▸ (hself 0).visible hsub) hok
    exact ⟨hle.trans hgrown.1, fun hf => hle.trans_lt (hgrown.2 hf)⟩

end Runs

end ThresholdKms
