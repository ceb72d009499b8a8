import ThresholdKms.InactiveSessions

/-!
# The tracker of inactive sessions

Each event changes the status of at most one session, so the number of a sender's inactive sessions
changes by what that session contributes. The tracker follows exactly when a session that becomes
active or is removed gives back what its senders were charged for it.
-/

namespace ThresholdKms.NetworkingManager

variable {m m' : NetworkingManager} {sessionId : ℕ} {maxOpened : ℕ} {sender : MpcIdentity}

theorem mem_inactiveSessions :
    sessionId ∈ m.inactiveSessions sender ↔
      holdsChannel sender (m.sessionStore.lookup sessionId) = true := by
  rw [inactiveSessions, Finset.mem_filter, List.mem_toFinset, and_iff_right_iff_imp]
  intro h
  by_contra hkey
  rw [AList.lookup_eq_none.mpr hkey] at h
  cases h

theorem opened_setOpened (sender sender' : MpcIdentity) (count : ℕ) :
    (m.setOpened sender count).opened sender' = if sender' = sender then count else m.opened sender' := by
  rw [opened, setOpened, Tally.lookup_insert_eq]
  split_ifs <;> rfl

theorem card_inactiveSessions_eq (m : NetworkingManager) (sessionId : ℕ) (sender : MpcIdentity) :
    (m.inactiveSessions sender).card = ((m.inactiveSessions sender).erase sessionId).card +
      (holdsChannel sender (m.sessionStore.lookup sessionId)).toNat := by
  cases h : holdsChannel sender (m.sessionStore.lookup sessionId) with
  | true => exact (Finset.card_erase_add_one (mem_inactiveSessions.mpr h)).symm
  | false =>
    rw [Finset.erase_eq_of_notMem]
    · rfl
    · rw [mem_inactiveSessions, h]
      exact Bool.false_ne_true

theorem card_inactiveSessions_of_lookup (m m' : NetworkingManager) {sessionId : ℕ}
    (h : ∀ sessionId', sessionId' ≠ sessionId →
      m'.sessionStore.lookup sessionId' = m.sessionStore.lookup sessionId') (sender : MpcIdentity) :
    (m'.inactiveSessions sender).card +
        (holdsChannel sender (m.sessionStore.lookup sessionId)).toNat =
      (m.inactiveSessions sender).card +
        (holdsChannel sender (m'.sessionStore.lookup sessionId)).toNat := by
  have herase : (m'.inactiveSessions sender).erase sessionId =
      (m.inactiveSessions sender).erase sessionId := by
    ext sessionId'
    rw [Finset.mem_erase, Finset.mem_erase]
    refine and_congr_right (fun hne => ?_)
    rw [mem_inactiveSessions, mem_inactiveSessions, h sessionId' hne]
  rw [m'.card_inactiveSessions_eq sessionId, m.card_inactiveSessions_eq sessionId, herase]
  omega

theorem TracksInactive.of_holds (h : m.TracksInactive) (sessionId : ℕ)
    (hopened : ∀ sender, m'.opened sender = m.opened sender)
    (hlookup : ∀ sessionId', sessionId' ≠ sessionId →
      m'.sessionStore.lookup sessionId' = m.sessionStore.lookup sessionId')
    (hholds : ∀ sender, holdsChannel sender (m'.sessionStore.lookup sessionId) =
      holdsChannel sender (m.sessionStore.lookup sessionId)) : m'.TracksInactive := by
  intro sender
  have hcard := card_inactiveSessions_of_lookup m m' hlookup sender
  rw [hholds] at hcard
  rw [hopened, h sender]
  omega

variable {status : SessionStatus}

theorem lookup_setStatus_ne {sessionId' : ℕ} (h : sessionId' ≠ sessionId) :
    (m.setStatus sessionId status).sessionStore.lookup sessionId' =
      m.sessionStore.lookup sessionId' :=
  AList.lookup_insert_ne h

theorem lookup_setStatus (status : SessionStatus) :
    (m.setStatus sessionId status).sessionStore.lookup sessionId = some status :=
  AList.lookup_insert _

theorem lookup_addChannel (tag : Tag) (channels : Finset MpcIdentity) :
    (m.addChannel tag channels).sessionStore.lookup tag.sessionId =
      some (.inactive (insert tag.sender channels)) :=
  lookup_setStatus _

theorem opened_addChannel (tag : Tag) (channels : Finset MpcIdentity) (sender : MpcIdentity) :
    (m.addChannel tag channels).opened sender =
      m.opened sender + (decide (sender = tag.sender)).toNat := by
  rw [addChannel, opened_setOpened]
  by_cases heq : sender = tag.sender
  · rw [if_pos heq, decide_eq_true heq, heq]
    rfl
  · rw [if_neg heq, decide_eq_false heq]
    rfl

section

variable (h : m.TracksInactive)
include h

theorem TracksInactive.openChannel (has : String) {tag : Tag}
    {channels : Finset MpcIdentity}
    (hchannels : ∀ sender, holdsChannel sender (m.sessionStore.lookup tag.sessionId) =
      decide (sender ∈ channels)) (hnew : tag.sender ∉ channels) :
    (openChannel maxOpened has m tag channels).1.TracksInactive := by
  rw [NetworkingManager.openChannel]
  split_ifs with hfull
  · refine h.of_holds 0 (fun sender => ?_) (fun _ _ => rfl) (fun _ => rfl)
    rw [opened_setOpened]
    split_ifs with heq
    · rw [heq]
    · rfl
  · intro sender
    change (m.addChannel tag channels).opened sender =
      ((m.addChannel tag channels).inactiveSessions sender).card
    have hcard := card_inactiveSessions_of_lookup m (m.addChannel tag channels)
      (fun _ hne => lookup_setStatus_ne hne) sender
    rw [lookup_addChannel, hchannels, holdsChannel] at hcard
    simp only [Finset.mem_insert] at hcard
    rw [opened_addChannel, h sender]
    by_cases heq : sender = tag.sender
    · simp only [heq, hnew, or_false, decide_true, decide_false, Bool.toNat_true,
        Bool.toNat_false] at hcard ⊢
      omega
    · simp only [heq, false_or, decide_false, Bool.toNat_false] at hcard ⊢
      omega

theorem TracksInactive.sendValue (tag : Tag) (queueFull : Bool) :
    (sendValue maxOpened m tag queueFull).1.TracksInactive := by
  change (findOrOpen maxOpened m tag).1.TracksInactive
  rw [findOrOpen]
  cases hlookup : m.sessionStore.lookup tag.sessionId with
  | none =>
    refine h.openChannel "Got" (fun sender => ?_) (Finset.notMem_empty _)
    rw [hlookup]
    rfl
  | some status =>
    cases status with
    | completed => exact h
    | inactive channels =>
      change (if tag.sender ∈ channels then (m, .ok (some ()))
        else NetworkingManager.openChannel maxOpened "Have" m tag channels).1.TracksInactive
      split_ifs with hmem
      · exact h
      · refine h.openChannel "Have" (fun sender => ?_) hmem
        rw [hlookup]
        rfl
    | active senders alive =>
      have hsame : (fetchTxChannel maxOpened m (.active senders alive) tag).1 = m := by
        unfold fetchTxChannel
        dsimp only
        split_ifs <;> rfl
      change (fetchTxChannel maxOpened m (.active senders alive) tag).1.TracksInactive
      rwa [hsame]

/-- A sender below the limit gets its queue in a new session. -/
theorem TracksInactive.keepsQuota : m.KeepsQuota maxOpened where
  tracks := h
  opens := by
    intro tag hcard hlookup
    rw [← h tag.sender] at hcard
    have hfind : findOrOpen maxOpened m tag = (m.addChannel tag ∅, .ok (some ())) := by
      rw [findOrOpen, hlookup]
      exact if_neg (not_le.mpr hcard)
    rw [NetworkingManager.sendValue, hfind]
    refine ⟨rfl, mem_inactiveSessions.mpr ?_⟩
    change holdsChannel _ ((m.addChannel tag ∅).sessionStore.lookup tag.sessionId) = true
    rw [lookup_addChannel]
    exact decide_eq_true (Finset.mem_insert_self _ _)

end

variable (channels : Finset MpcIdentity) (others : List MpcIdentity)

theorem sessionStore_foldl_initQueue (m : NetworkingManager) :
    (others.foldl (initQueue channels) m).sessionStore = m.sessionStore := by
  induction others generalizing m with
  | nil => rfl
  | cons identity others ih =>
    rw [List.foldl_cons, ih, initQueue]
    split_ifs <;> rfl

theorem opened_initQueue (identity sender : MpcIdentity) :
    (initQueue channels m identity).opened sender =
      if sender ∈ channels ∧ sender = identity then m.opened sender - 1 else m.opened sender := by
  by_cases hmem : identity ∈ channels
  · rw [initQueue, if_pos hmem, opened_setOpened]
    by_cases heq : sender = identity
    · rw [if_pos heq, if_pos ⟨heq ▸ hmem, heq⟩, heq]
    · rw [if_neg heq, if_neg (fun h => heq h.2)]
  · rw [initQueue, if_neg hmem, if_neg]
    rintro ⟨hsender, rfl⟩
    exact hmem hsender

theorem opened_foldl_initQueue
    (m : NetworkingManager) (sender : MpcIdentity) :
    (others.foldl (initQueue channels) m).opened sender =
      if sender ∈ channels then m.opened sender - others.count sender else m.opened sender := by
  induction others generalizing m with
  | nil => simp
  | cons identity others ih =>
    rw [List.foldl_cons, ih, opened_initQueue, List.count_cons]
    by_cases hmem : sender ∈ channels
    · by_cases heq : sender = identity
      · subst heq
        simp only [hmem, and_self, if_true, beq_self_eq_true]
        omega
      · simp [hmem, heq, Ne.symm heq]
    · simp [hmem]

theorem eq_singleton_iff_card (h : sessionId ∈ m.inactiveSessions sender) :
    m.inactiveSessions sender = {sessionId} ↔ (m.inactiveSessions sender).card = 1 := by
  constructor
  · intro heq
    rw [heq, Finset.card_singleton]
  · intro hcard
    obtain ⟨only, honly⟩ := Finset.card_eq_one.mp hcard
    rw [honly, Finset.mem_singleton] at h
    rw [honly, h]

variable (h : m.TracksInactive)
include h

theorem TracksInactive.activateInactive_iff {channels : Finset MpcIdentity}
    (hlookup : m.sessionStore.lookup sessionId = some (.inactive channels))
    (others : List MpcIdentity) :
    ((others.foldl (initQueue channels) m).setStatus sessionId
        (.active others.toFinset true)).TracksInactive ↔
      ∀ sender, sessionId ∈ m.inactiveSessions sender → others.count sender = 1 ∨
        0 < others.count sender ∧ m.inactiveSessions sender = {sessionId} := by
  refine forall_congr' (fun sender => ?_)
  have hcard := card_inactiveSessions_of_lookup m
    ((others.foldl (initQueue channels) m).setStatus sessionId (.active others.toFinset true))
    (fun sessionId' hne => by rw [lookup_setStatus_ne hne, sessionStore_foldl_initQueue]) sender
  rw [lookup_setStatus, hlookup] at hcard
  have hopened : ((others.foldl (initQueue channels) m).setStatus sessionId
      (.active others.toFinset true)).opened sender = _ := opened_foldl_initQueue channels others m sender
  have hmem : sessionId ∈ m.inactiveSessions sender ↔ sender ∈ channels := by
    rw [mem_inactiveSessions, hlookup]
    exact decide_eq_true_iff
  rw [hopened, h sender]
  by_cases hsender : sender ∈ channels
  · simp only [holdsChannel, hsender, decide_true, Bool.toNat_true, Bool.toNat_false] at hcard
    rw [if_pos hsender, imp_iff_right (hmem.mpr hsender), eq_singleton_iff_card (hmem.mpr hsender)]
    omega
  · simp only [holdsChannel, hsender, decide_false, Bool.toNat_false] at hcard
    rw [if_neg hsender]
    refine iff_of_true (by omega) (fun hin => absurd (hmem.mp hin) hsender)

theorem TracksInactive.activate_iff (sessionId : ℕ) (owner : String)
    (others : List MpcIdentity) (connected : Outcome Unit) :
    (m.makeNetworkSession sessionId owner others connected).1.TracksInactive ↔
      m.Counted (.activate sessionId owner others connected) := by
  have hvacuous : (∀ sender, holdsChannel sender (m.sessionStore.lookup sessionId) = false) →
      m.Counted (.activate sessionId owner others connected) := by
    intro hnone _ sender hmem
    rw [mem_inactiveSessions, hnone] at hmem
    cases hmem
  unfold makeNetworkSession
  cases connected with
  | error fault => exact iff_of_true h nofun
  | ok done =>
    cases hlookup : m.sessionStore.lookup sessionId with
    | none =>
      refine iff_of_true (h.of_holds sessionId (fun _ => rfl) (fun _ => lookup_setStatus_ne)
        (fun sender => ?_)) (hvacuous (fun sender => by rw [hlookup]; rfl))
      rw [lookup_setStatus, hlookup]
      rfl
    | some status =>
      cases status with
      | completed | active senders alive =>
        exact iff_of_true h (hvacuous (fun sender => by rw [hlookup]; rfl))
      | inactive channels =>
        rw [Counted, imp_iff_right rfl]
        exact h.activateInactive_iff hlookup others

theorem TracksInactive.removeNext_iff :
    m.removeNext.TracksInactive ↔ m.Counted .removeNext := by
  rw [removeNext, Counted]
  cases htoRemove : m.toRemove with
  | nil => exact iff_of_true h nofun
  | cons sessionId rest =>
    simp only [List.head?_cons, Option.some.injEq, forall_eq']
    refine forall_congr' (fun sender => ?_)
    set m' : NetworkingManager :=
      { m with sessionStore := m.sessionStore.erase sessionId, toRemove := rest }
    have hcard := card_inactiveSessions_of_lookup m m'
      (fun sessionId' hne => AList.lookup_erase_ne hne) sender
    rw [show m'.sessionStore.lookup sessionId = none from AList.lookup_erase _ _] at hcard
    have hopened : m'.opened sender = m.opened sender := rfl
    rw [hopened, h sender, mem_inactiveSessions]
    cases hholds : holdsChannel sender (m.sessionStore.lookup sessionId) with
    | true =>
      rw [hholds] at hcard
      simp only [holdsChannel, Bool.toNat_true, Bool.toNat_false] at hcard
      simp only [not_true, iff_false]
      omega
    | false =>
      rw [hholds] at hcard
      simp only [holdsChannel, Bool.toNat_false] at hcard
      exact iff_of_true (by omega) Bool.false_ne_true

theorem TracksInactive.setStatus {senders : Finset MpcIdentity} {alive : Bool}
    (hlookup : m.sessionStore.lookup sessionId = some (.active senders alive))
    (hstatus : ∀ sender, holdsChannel sender (some status) = false) :
    (m.setStatus sessionId status).TracksInactive := by
  refine h.of_holds sessionId (fun _ => rfl) (fun _ => lookup_setStatus_ne) (fun sender => ?_)
  rw [lookup_setStatus, hlookup, hstatus]
  rfl

theorem TracksInactive.step_iff (event : NetworkEvent) :
    (m.step maxOpened event).TracksInactive ↔ m.Counted event := by
  cases event with
  | message tag queueFull => exact iff_of_true (h.sendValue tag queueFull) trivial
  | activate sessionId owner others connected =>
    exact h.activate_iff sessionId owner others connected
  | drop sessionId =>
    refine iff_of_true ?_ trivial
    rw [step, dropSession]
    split
    · next senders alive hlookup => exact h.setStatus hlookup (fun _ => rfl)
    · exact h
  | inspect sessionId expired =>
    refine iff_of_true ?_ trivial
    rw [step, NetworkingManager.inspect]
    split
    · exact h
    · next senders hlookup => exact h.setStatus hlookup (fun _ => rfl)
    · split_ifs
      · exact h
      · exact h
  | removeNext => exact h.removeNext_iff

omit h

theorem tracksInactive_initial : initial.TracksInactive := fun _ => rfl

/-- After every event of a run the quota is kept, exactly when no session with a queue is removed
while it is inactive and the senders of every session that becomes active take part in it. -/
theorem along_keepsQuota_iff (maxOpened : ℕ) (events : List NetworkEvent) :
    Along (step maxOpened) (fun m event => (m.step maxOpened event).KeepsQuota maxOpened) initial
        events ↔ Along (step maxOpened) Counted initial events := by
  constructor
  · intro h
    refine Along.of_invariant ?_ ?_ tracksInactive_initial h
    · exact fun m event _ hquota => hquota.tracks
    · exact fun m event htracks hquota => (htracks.step_iff event).mp hquota.tracks
  · intro h
    refine Along.of_invariant ?_ ?_ tracksInactive_initial h
    · exact fun m event htracks hcounted => (htracks.step_iff event).mpr hcounted
    · exact fun m event htracks hcounted => ((htracks.step_iff event).mpr hcounted).keepsQuota

/-- A session that a sender has opened is discarded, and the sender stays charged for it. -/
theorem not_keepsQuota_discarded :
    ¬ Along (step 1) (fun m event => (m.step 1 event).KeepsQuota 1) initial
      [.message ⟨1, "party2", 0⟩ false, .inspect 1 true, .removeNext] := by
  rintro ⟨-, -, h, -⟩
  exact absurd (h.tracks "party2") (by decide)

end ThresholdKms.NetworkingManager
