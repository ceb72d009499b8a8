import ThresholdKms.SessionIds

/-!
# Fresh sessions

A session is run twice only if two accepted requests use the same label: the identifier of a request,
of the epoch that is reshared from, or of the new epoch. If the labels of accepted requests do not
clash, then no session is ever run twice, whatever the meta stores and the network forget.
-/

namespace ThresholdKms

variable {ρ : Type} {request : SessionRequest ρ} {attempt : ℕ} {s : SessionState ρ}

inductive LabelFamily where
  | request | lift | reshare
  deriving DecidableEq, Repr

/-- What the sessions of a request are derived from. -/
structure SessionLabel where
  epochId : Identifier
  id : Identifier
  family : LabelFamily

def SessionRequest.labels : SessionRequest ρ → List SessionLabel
  | .service r => [⟨r.epochId, r.requestId, .request⟩]
  | .newEpoch r =>
    match r.previousEpochId with
    | none => []
    | some previous =>
      (if r.inOldSet then [⟨previous, previous, .lift⟩] else []) ++
      (if r.inNewSet then [⟨r.newEpochId, r.newEpochId, .reshare⟩] else [])

/-- The counters for lifting and those for resharing differ; a request may use all of them. -/
def SessionLabel.Clash (l l' : SessionLabel) : Prop :=
  l.epochId = l'.epochId ∧ l.id = l'.id ∧
    (l.family = l'.family ∨ l.family = .request ∨ l'.family = .request)

instance (l l' : SessionLabel) : Decidable (l.Clash l') :=
  inferInstanceAs (Decidable (_ ∧ _ ∧ _))

def SessionRequest.Compatible (r r' : SessionRequest ρ) : Prop :=
  ∀ l ∈ r.labels, ∀ l' ∈ r'.labels, ¬ l.Clash l'

instance (r r' : SessionRequest ρ) : Decidable (r.Compatible r') :=
  inferInstanceAs (Decidable (∀ l ∈ r.labels, ∀ l' ∈ r'.labels, ¬ l.Clash l'))

/-- The counters that a family of labels may use. -/
def LabelFamily.Uses : LabelFamily → ℕ → Prop
  | .request, _ => True
  | .lift, counter => counter = 1 ∨ counter = 2
  | .reshare, counter => counter = 3 ∨ counter = 4

variable {session : EpochSession}

theorem exists_label (h : session ∈ request.smallSessions) :
    ∃ l ∈ request.labels, l.epochId = session.epochId ∧ l.id = session.id ∧
      l.family.Uses session.counter := by
  cases request with
  | service r =>
    obtain ⟨counter, -, rfl⟩ := List.mem_map.mp h
    exact ⟨_, List.mem_singleton.mpr rfl, rfl, rfl, trivial⟩
  | newEpoch r =>
    simp only [SessionRequest.smallSessions, SessionRequest.labels] at h ⊢
    cases hprevious : r.previousEpochId with
    | none => simp [hprevious] at h
    | some previous =>
      simp only [hprevious] at h ⊢
      rcases List.mem_append.mp h with hold | hnew
      · split_ifs at hold with hset
        · refine ⟨⟨previous, previous, .lift⟩, List.mem_append_left _ (by simp [hset]), ?_⟩
          simp only [List.mem_cons, List.not_mem_nil, or_false] at hold
          rcases hold with rfl | rfl
          · exact ⟨rfl, rfl, Or.inr rfl⟩
          · exact ⟨rfl, rfl, Or.inl rfl⟩
        · exact absurd hold List.not_mem_nil
      · split_ifs at hnew with hset
        · refine ⟨⟨r.newEpochId, r.newEpochId, .reshare⟩,
            List.mem_append_right _ (by simp [hset]), ?_⟩
          simp only [List.mem_cons, List.not_mem_nil, or_false] at hnew
          rcases hnew with rfl | rfl
          · exact ⟨rfl, rfl, Or.inr rfl⟩
          · exact ⟨rfl, rfl, Or.inl rfl⟩
        · exact absurd hnew List.not_mem_nil

/-- Requests with compatible labels have no session in common. -/
theorem SessionRequest.Compatible.disjoint {r r' : SessionRequest ρ} (h : r.Compatible r')
    (hmem : session ∈ r.smallSessions) : session ∉ r'.smallSessions := by
  intro hmem'
  obtain ⟨l, hl, hepoch, hid, huses⟩ := exists_label hmem
  obtain ⟨l', hl', hepoch', hid', huses'⟩ := exists_label hmem'
  refine h l hl l' hl' ⟨hepoch.trans hepoch'.symm, hid.trans hid'.symm, ?_⟩
  cases hfamily : l.family with
  | request => exact Or.inr (Or.inl rfl)
  | lift =>
    cases hfamily' : l'.family with
    | request => exact Or.inr (Or.inr rfl)
    | lift => exact Or.inl rfl
    | reshare =>
      rw [hfamily] at huses
      rw [hfamily'] at huses'
      simp only [LabelFamily.Uses] at huses huses'
      omega
  | reshare =>
    cases hfamily' : l'.family with
    | request => exact Or.inr (Or.inr rfl)
    | reshare => exact Or.inl rfl
    | lift =>
      rw [hfamily] at huses
      rw [hfamily'] at huses'
      simp only [LabelFamily.Uses] at huses huses'
      omega

theorem nodup_counters (r : ServiceRequest ρ) : r.counters.Nodup := by
  rw [ServiceRequest.counters]
  split
  · decide
  · exact List.nodup_range

theorem nodup_smallSessions (request : SessionRequest ρ) : request.smallSessions.Nodup := by
  cases request with
  | service r =>
    refine (nodup_counters r).map ?_
    intro counter counter' h
    exact (EpochSession.mk.inj h).2.2
  | newEpoch r =>
    simp only [SessionRequest.smallSessions]
    cases r.previousEpochId with
    | none => exact List.nodup_nil
    | some previous =>
      cases r.inOldSet with
      | true =>
        cases r.inNewSet <;> simp [liftZ128SessionCounter, liftZ64SessionCounter,
          reshareZ128SessionCounter, reshareZ64SessionCounter]
      | false =>
        cases r.inNewSet <;> simp [reshareZ128SessionCounter, reshareZ64SessionCounter]

/-- The sessions that were run, newest first. -/
def SessionState.ran (s : SessionState ρ) : List EpochSession := s.log.map SessionRun.session

/-- The log grew by some of the listed sessions. -/
structure RanSome (sessions : List EpochSession) (s s' : SessionState ρ) : Prop where
  accepted_eq : s'.accepted = s.accepted
  ran_eq : ∃ new : List EpochSession, s'.ran = new ++ s.ran ∧ new.reverse.Sublist sessions

theorem ranSome_nil : RanSome [] s s := ⟨rfl, [], rfl, List.Sublist.slnil⟩

variable {sessions : List EpochSession} {s' : SessionState ρ}

theorem RanSome.skip
    (h : RanSome sessions s s') (session : EpochSession) : RanSome (session :: sessions) s s' := by
  obtain ⟨new, hran, hsub⟩ := h.ran_eq
  exact ⟨h.accepted_eq, new, hran, hsub.cons _⟩

theorem makeSmallSession_cases (session : EpochSession) :
    (makeSmallSession request attempt session s).2 = s ∨
      ((makeSmallSession request attempt session s).2.accepted = s.accepted ∧
        (makeSmallSession request attempt session s).2.ran = session :: s.ran) := by
  rw [makeSmallSession]
  cases deriveSessionIdWithCounter session.id session.counter with
  | none => exact Or.inl rfl
  | some sessionId =>
    simp only
    split_ifs
    · exact Or.inl rfl
    · exact Or.inr ⟨rfl, rfl⟩

theorem RanSome.after
    (h : RanSome sessions (makeSmallSession request attempt session s).2 s') :
    RanSome (session :: sessions) s s' := by
  rcases @makeSmallSession_cases _ request attempt s session with hsame | ⟨haccepted, hran⟩
  · rw [hsame] at h
    exact h.skip session
  · obtain ⟨new, hnew, hsub⟩ := h.ran_eq
    refine ⟨h.accepted_eq.trans haccepted, new ++ [session], ?_, ?_⟩
    · rw [hnew, hran, List.append_assoc]
      rfl
    · rw [List.reverse_append]
      exact hsub.cons_cons _

variable (sessions)

theorem ranSome_foldl (s : SessionState ρ) :
    RanSome sessions s
      (sessions.foldl (fun s session => (makeSmallSession request attempt session s).2) s) := by
  induction sessions generalizing s with
  | nil => exact ranSome_nil
  | cons session sessions ih => exact (ih _).after

theorem ranSome_untilFailure (s : SessionState ρ) :
    RanSome sessions s (UntilFailure.run (makeSmallSession request attempt) sessions s).2 := by
  induction sessions generalizing s with
  | nil => exact ranSome_nil
  | cons session sessions ih =>
    have hafter := @RanSome.after _ request attempt s
    rw [UntilFailure.run]
    cases hstep : makeSmallSession request attempt session s with
    | mk ok s₁ =>
      cases ok with
      | true =>
        refine hafter ?_
        rw [hstep]
        exact ih s₁
      | false =>
        refine hafter ?_
        rw [hstep]
        refine ⟨rfl, [], rfl, List.nil_sublist _⟩

theorem ranSome_runSessions (request : SessionRequest ρ) (attempt : ℕ) (s : SessionState ρ) :
    RanSome request.smallSessions s (runSessions request attempt s) := by
  rw [runSessions]
  split_ifs
  · exact ranSome_foldl _ s
  · exact ranSome_untilFailure _ s

/-- Every session that was run belongs to an accepted request, and none was run twice. -/
structure FreshSessions (s : SessionState ρ) : Prop where
  nodup : s.ran.Nodup
  accepted : ∀ session ∈ s.ran, ∃ request ∈ s.accepted, session ∈ request.smallSessions

/-- The labels of an accepted request do not clash with those of an earlier one. -/
def SessionEvent.Safe (s : SessionState ρ) : SessionEvent ρ → Prop
  | .request r => admits s r = true → ∀ earlier ∈ s.accepted, r.Compatible earlier
  | _ => True

theorem FreshSessions.accept (hs : FreshSessions s)
    (hsafe : admits s request = true → ∀ earlier ∈ s.accepted, request.Compatible earlier) :
    FreshSessions (acceptRequest request s) := by
  rw [acceptRequest]
  by_cases hadmits : admits s request = true
  · rw [if_pos hadmits]
    have hran := ranSome_runSessions request
      (s.accepted.countP fun earlier => earlier.metaKey = request.metaKey)
      { s with
        metaStore := s.metaStore.insert request.metaKey .pending
        accepted := request :: s.accepted }
    obtain ⟨new, hnew, hsub⟩ := hran.ran_eq
    have hmem : ∀ session ∈ new, session ∈ request.smallSessions :=
      fun session h => hsub.subset (List.mem_reverse.mpr h)
    refine ⟨?_, ?_⟩
    · rw [hnew, List.nodup_append]
      refine ⟨?_, hs.nodup, ?_⟩
      · exact List.nodup_reverse.mp (hsub.nodup (nodup_smallSessions request))
      · rintro session hsession _ hold rfl
        obtain ⟨earlier, hearlier, hbelongs⟩ := hs.accepted session hold
        exact (hsafe hadmits earlier hearlier).disjoint (hmem session hsession) hbelongs
    · intro session hsession
      rw [hran.accepted_eq]
      rw [hnew, List.mem_append] at hsession
      rcases hsession with hsession | hold
      · exact ⟨request, List.mem_cons_self, hmem session hsession⟩
      · obtain ⟨earlier, hearlier, hbelongs⟩ := hs.accepted session hold
        exact ⟨earlier, List.mem_cons_of_mem _ hearlier, hbelongs⟩
  · rw [if_neg hadmits]
    exact hs

/-- Finishing, evicting and cleaning up run nothing. -/
theorem FreshSessions.next (hs : FreshSessions s) {event : SessionEvent ρ} (hsafe : event.Safe s) :
    FreshSessions (event.next s) := by
  cases event with
  | request r => exact hs.accept hsafe
  | finish key succeeded =>
    rw [SessionEvent.next, finishRequest]
    by_cases hpending : s.metaStore.lookup key = some .pending
    · rw [if_pos hpending]
      exact ⟨hs.nodup, hs.accepted⟩
    · rw [if_neg hpending]
      exact hs
  | evict key =>
    simp only [SessionEvent.next, evictRequest]
    split_ifs
    · exact hs
    · exact ⟨hs.nodup, hs.accepted⟩
  | complete sessionId =>
    simp only [SessionEvent.next, completeSession]
    split_ifs
    · exact ⟨hs.nodup, hs.accepted⟩
    · exact hs
  | cleanUp sessionId =>
    simp only [SessionEvent.next, cleanUpSession]
    split_ifs
    · exact ⟨hs.nodup, hs.accepted⟩
    · exact hs

/-- In a history whose accepted requests have labels that do not clash, no small session is run
twice. -/
theorem sessions_fresh_along {events : List (SessionEvent ρ)} (hs : FreshSessions s)
    (hsafe : Along SessionEvent.next SessionEvent.Safe s events) :
    Along SessionEvent.next (fun s event => (event.next s).ran.Nodup) s events :=
  Along.of_invariant (fun _ _ hinv h => hinv.next h) (fun _ _ hinv h => (hinv.next h).nodup) hs hsafe

section Retry

def retriedId : Identifier := .ofByte 1

def retriedEpoch : Identifier := .ofByte 2

/-- A public decryption of one ciphertext. -/
def decryptionOf (content : ℕ) : SessionRequest ℕ :=
  .service ⟨.publicDecryption, retriedId, retriedEpoch, 1, content⟩

def emptySessions : SessionState ℕ := ⟨∅, ∅, [], []⟩

theorem freshSessions_empty : FreshSessions emptySessions :=
  ⟨List.nodup_nil, fun _ h => absurd h List.not_mem_nil⟩

/-- A failed decryption is tried again with another ciphertext, after the network has forgotten the
first session. -/
def retriedEvents : List (SessionEvent ℕ) :=
  [.request (decryptionOf 5), .finish (some .publicDecryption, retriedId) false,
    .complete (retriedId, 0), .cleanUp (retriedId, 0), .request (decryptionOf 6)]

/-- Both ciphertexts are decrypted in the same session. -/
theorem retried_session_reused : (retriedEvents.foldl SessionEvent.next emptySessions).log =
      [⟨⟨retriedEpoch, retriedId, 0⟩, decryptionOf 6, 1⟩,
        ⟨⟨retriedEpoch, retriedId, 0⟩, decryptionOf 5, 0⟩] := by
  rfl

def nextEpoch : Identifier := .ofByte 3

/-- After a decryption, the epoch is reshared, and the next epoch decrypts under the same request
identifier. -/
def resharedEvents : List (SessionEvent ℕ) :=
  [.request (decryptionOf 5), .complete (retriedId, 0), .cleanUp (retriedId, 0),
    .request (.newEpoch ⟨nextEpoch, some retriedEpoch, true, true, 0⟩),
    .request (.service ⟨.userDecryption, retriedId, nextEpoch, 2, 6⟩)]

/-- All three requests run their sessions: one, four and two of them. -/
theorem sessions_fresh_along_reshared :
    (resharedEvents.foldl SessionEvent.next emptySessions).ran.length = 7 ∧
    Along SessionEvent.next (fun s event => (event.next s).ran.Nodup) emptySessions
      resharedEvents := by
  refine ⟨by rfl, sessions_fresh_along freshSessions_empty ?_⟩
  exact ⟨fun _ => by decide, trivial, trivial, fun _ => by decide, fun _ => by decide, trivial⟩

end Retry

end ThresholdKms
