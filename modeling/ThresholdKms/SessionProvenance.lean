import ThresholdKms.GaloisField
import ThresholdKms.PrssConsistency
import ThresholdKms.SessionParties

/-!
# Sessions with the setup of their own parties

A small session takes its parties from a context and its pseudorandom sharing from an epoch. In every
state that registrations can lead to, it is sound exactly if the setup of the epoch was generated in a
session with the same parties in the same roles, its own among them. Neither the number of parties nor
the threshold that an epoch records could tell this.
-/

namespace ThresholdKms.SessionMaker

/-- The session has the parties `1, …, 3t + 1` of the context, and a pseudorandom sharing that was
generated by the same parties, with the same own role and threshold. -/
structure SmallSession.Sound (F : Type) [Field F] [DecidableEq F] [G2p .four F] {z : BaseRing}
    (session : SmallSession z) (context origin : Context) : Prop where
  roles : session.parameters.roles = Finset.Icc 1 (3 * session.parameters.threshold.toNat + 1)
  sorted : session.parameters.allSortedRoles =
    partyRoles (3 * session.parameters.threshold.toNat + 1)
  parties : ∀ role, origin.roleAssignment.lookup role = context.roleAssignment.lookup role
  myRole : origin.myRole = some session.parameters.myRole
  threshold : origin.threshold = session.parameters.threshold
  setup : ∃ ars, prssInit F session.parameters.allSortedRoles session.parameters.threshold.toNat
    session.parameters.myRole ars = .ok session.prssState.prssSetup

variable {χ ε α : Type} [DecidableEq χ] [DecidableEq ε] [ToString χ] [ToString ε]
  {env : SessionEnv ε α} {s : SessionMaker χ ε} {F : Type} [Field F] [DecidableEq F] [G2p .four F]
  {networking : Outcome Unit} {sessionId : SessionId}

/-- `context` is registered, and the setup of the epoch was generated in a session of `origin`. -/
def History.Named (h : History χ ε) (contextId : χ) (epochId : ε) (context origin : Context) : Prop :=
  h.maker.contextMap.lookup contextId = some context ∧ h.epochOrigins epochId = some origin

/-- The parties of the context, with the own role, are those that generated the setup. -/
def History.SameParties (h : History χ ε) (contextId : χ) (epochId : ε) : Prop :=
  ∃ context origin, h.Named contextId epochId context origin ∧ origin.myRole = context.myRole ∧
    ∀ role, origin.roleAssignment.lookup role = context.roleAssignment.lookup role

theorem makeSmallSession_eq_ok {z : BaseRing} {setupOf : PRSSSetupCombined → PRSSSetup z.bits .four}
    {contextId : χ} {epochId : ε}
    {session : SmallSession z} :
    s.makeSmallSession env setupOf networking sessionId contextId epochId = .ok session ↔
      ∃ parameters prss, s.makeBaseSession networking sessionId contextId = .ok parameters ∧
        s.epochMap.lookup epochId = some prss ∧
        session = ⟨parameters, (setupOf prss).newPrssSessionState env.aes128 sessionId⟩ := by
  constructor
  · intro h
    obtain ⟨parameters, hparameters, h⟩ := Outcome.bind_eq_ok.mp h
    split at h
    · cases h
    · rename_i prss hprss
      exact ⟨parameters, prss, hparameters, hprss, (Except.ok.inj h).symm⟩
  · rintro ⟨parameters, prss, hparameters, hprss, rfl⟩
    rw [makeSmallSession, hparameters, hprss]
    rfl

theorem keys_toFinset_congr {m m' : HashMap Role PartyIdentity}
    (h : ∀ role, m.lookup role = m'.lookup role) : m.keys.toFinset = m'.keys.toFinset := by
  ext role
  rw [List.mem_toFinset, List.mem_toFinset, ← AList.mem_keys, ← AList.mem_keys,
    ← AList.lookup_isSome, ← AList.lookup_isSome, h]

theorem History.SoundMaps.sound_iff {h : History χ ε} (hs : h.SoundMaps F) {z : BaseRing}
    {setupOf : PRSSSetupCombined → PRSSSetup z.bits .four} {contextId : χ} {epochId : ε}
    (hsetup : ∀ origin prss, h.epochOrigins epochId = some origin →
      h.maker.epochMap.lookup epochId = some prss → GeneratedIn F origin (setupOf prss))
    {session : SmallSession z}
    (hsession : h.maker.makeSmallSession env setupOf networking sessionId contextId epochId =
      .ok session) :
    (∃ context origin, h.Named contextId epochId context origin ∧ session.Sound F context origin) ↔
      h.SameParties contextId epochId := by
  obtain ⟨parameters, prss, hparameters, hprss, rfl⟩ := makeSmallSession_eq_ok.mp hsession
  obtain ⟨context, myRole, hlookup, hmyRole, -, -, -, rfl⟩ := makeBaseSession_eq_ok.mp hparameters
  constructor
  · rintro ⟨context', origin, hnamed, hsound⟩
    obtain rfl := Option.some.inj (hnamed.1.symm.trans hlookup)
    exact ⟨context', origin, hnamed, hsound.myRole.trans hmyRole.symm, hsound.parties⟩
  · rintro ⟨context', origin, hnamed, hown, hparties⟩
    obtain rfl := Option.some.inj (hnamed.1.symm.trans hlookup)
    obtain ⟨origin', horigin, horiginSound, -⟩ := hs.epochs epochId prss hprss
    obtain rfl := Option.some.inj (horigin.symm.trans hnamed.2)
    have hgenerated := hsetup origin' prss hnamed.2 hprss
    have hkeys := keys_toFinset_congr hparties
    have hroles := horiginSound.threshold_eq hgenerated
    have hsame := horiginSound.threshold_congr (hs.contexts contextId context' hlookup) hkeys
    rw [hkeys, hsame] at hroles
    obtain ⟨myRole', ars, hmyRole', hinit⟩ := hgenerated
    obtain rfl := Option.some.inj (hmyRole'.symm.trans (hown.trans hmyRole))
    refine ⟨context', origin', hnamed, hroles, ?_, hparties, hmyRole', hsame, ars, ?_⟩
    · dsimp only
      rw [hroles, sort_Icc_eq_partyRoles]
    · rw [hkeys, hsame] at hinit
      exact hinit

variable [DecidableEq α]

/-- After any registrations, exactly the sessions are sound whose epoch was set up by the parties of
their context. -/
theorem smallSessions_sound_iff (events : List (SessionMakerEvent χ ε α)) (networking : Outcome Unit)
    (sessionId : SessionId) (contextId : χ) (epochId : ε) (h : History χ ε)
    (hrun : h = events.foldl (History.next F env) .empty) :
    (∀ session, h.maker.makeSmallSessionZ64 env networking sessionId contextId epochId = .ok session →
      ((∃ context origin, h.Named contextId epochId context origin ∧
        session.Sound F context origin) ↔ h.SameParties contextId epochId)) ∧
    ∀ session, h.maker.makeSmallSessionZ128 env networking sessionId contextId epochId = .ok session →
      ((∃ context origin, h.Named contextId epochId context origin ∧
        session.Sound F context origin) ↔ h.SameParties contextId epochId) := by
  have hmaps : h.SoundMaps F := hrun ▸ History.soundMaps_run events
  have hsetup : ∀ origin prss, h.epochOrigins epochId = some origin →
      h.maker.epochMap.lookup epochId = some prss →
      GeneratedIn F origin prss.prssSetupZ64 ∧ GeneratedIn F origin prss.prssSetupZ128 := by
    intro origin prss horigin hprss
    obtain ⟨origin', horigin', -, hgenerated⟩ := hmaps.epochs epochId prss hprss
    obtain rfl := Option.some.inj (horigin'.symm.trans horigin)
    exact hgenerated
  exact ⟨fun session hsession => hmaps.sound_iff (fun o p ho hp => (hsetup o p ho hp).1) hsession,
    fun session hsession => hmaps.sound_iff (fun o p ho hp => (hsetup o p ho hp).2) hsession⟩

section TwoCommittees

/-- A URL always parses, and the own node is the first of each context. -/
def twoCommitteesEnv : SessionEnv ℕ ℕ where
  parseUrl := fun _ => .ok ⟨some "host", some 443⟩
  parsePem := fun _ => .ok ()
  coreAddress := .ok 0
  prssSessionId := fun _ => .ok xorKeys.sid
  aes128 := xorKeys.aes128

def committee (contextId numNodes threshold : ℕ) : ContextInfo ℕ ℕ where
  mpcNodes := (List.range numNodes).map (fun i =>
    ⟨toString i, UInt32.ofNat (i + 1), some i, "url", none⟩)
  contextId := contextId
  threshold := UInt32.ofNat threshold

/-- Context 1 has four nodes and context 2 has seven. -/
def registrations : List (SessionMakerEvent ℕ ℕ ℕ) :=
  [.newContext (committee 1 4 1) (.ok ()), .newContext (committee 2 7 2) (.ok ())]

def setupRun : PrssRun :=
  ⟨.ok (), (partySets 4 1 1).map xorKeys.key, (partySets 4 1 1).map xorKeys.key, .succeeds, ""⟩

def twoCommittees : SessionMaker ℕ ℕ :=
  registrations.foldl (fun s event => s.next twoCommitteesEnv GF16 event) empty

/-- Epoch 9 is created under context 1. -/
def epochOfFirst : History ℕ ℕ :=
  (registrations ++ [SessionMakerEvent.initPrss 1 9 setupRun]).foldl
    (History.next GF16 twoCommitteesEnv) .empty

/-- The first of `n` parties has registered the context. -/
def Registered (contextId n : ℕ) (threshold : UInt8) : Prop :=
  (twoCommittees.contextMap.lookup contextId).map (fun context =>
    (context.myRole, context.roleAssignment.keys.toFinset, context.threshold)) =
      some (some 1, Finset.Icc 1 n, threshold)

instance (contextId n : ℕ) (threshold : UInt8) : Decidable (Registered contextId n threshold) :=
  inferInstanceAs (Decidable (_ = _))

theorem twoCommittees_contexts : Registered 1 4 1 ∧ Registered 2 7 2 := by
  decide +kernel

section Registered

variable {contextId n : ℕ} {threshold : UInt8} (h : Registered contextId n threshold)
include h

theorem exists_context :
    ∃ context, twoCommittees.contextMap.lookup contextId = some context ∧ context.myRole = some 1 ∧
      context.roleAssignment.keys.toFinset = Finset.Icc 1 n ∧ context.threshold = threshold := by
  obtain ⟨context, hlookup, heq⟩ := Option.map_eq_some_iff.mp h
  simp only [Prod.mk.injEq] at heq
  exact ⟨context, hlookup, heq⟩

theorem exists_makeBaseSession (hthreshold : threshold.toNat < n) (sessionId : SessionId) :
    twoCommittees.makeBaseSession (.ok ()) sessionId contextId =
      .ok ⟨threshold, sessionId, 1, Finset.Icc 1 n, partyRoles n⟩ := by
  obtain ⟨context, hlookup, hmyRole, hroles, rfl⟩ := exists_context h
  rw [← sort_Icc_eq_partyRoles, ← hroles]
  refine makeBaseSession_eq_ok.mpr ⟨context, 1, hlookup, hmyRole, ?_, ?_, rfl, rfl⟩
  · rwa [hroles, Nat.card_Icc]
  · rw [hroles]
    exact Finset.mem_Icc.mpr ⟨le_rfl, Nat.one_le_of_lt hthreshold⟩

end Registered

theorem generatePrss_twoCommittees :
    ∃ prss, twoCommittees.generatePrss twoCommitteesEnv GF16 1 9 setupRun = .ok prss := by
  obtain ⟨context, hlookup, hmyRole, hroles, -⟩ := exists_context twoCommittees_contexts.1
  have hsession := exists_makeBaseSession twoCommittees_contexts.1 (by decide) xorKeys.sid
  have hsetup : ∀ z : BaseRing, prssInit GF16 (partyRoles 4) 1 1 ((partySets 4 1 1).map xorKeys.key) =
      .ok (partySetup xorKeys 4 1 1 : PRSSSetup z.bits .four) := fun z =>
    (prssInit_eq_ok_iff xorKeys GF16 z (by decide) 1 _).mpr ⟨by decide, by decide, rfl⟩
  have hidentity : (context.roleAssignment.lookup 1).isSome = true := by
    rw [AList.lookup_isSome, AList.mem_keys, ← List.mem_toFinset, hroles]
    decide
  obtain ⟨identity, hidentity⟩ := Option.isSome_iff_exists.mp hidentity
  have hcontext : twoCommittees.getContext 1 = .ok context := by rw [getContext, hlookup]
  have hthreshold : (1 : UInt8).toNat = 1 := rfl
  refine ⟨⟨partySetup xorKeys 4 1 1, partySetup xorKeys 4 1 1, 4, 1⟩, ?_⟩
  have hfresh : 9 ∉ twoCommittees.epochMap := by decide +kernel
  rw [generatePrss, hcontext, Outcome.ok_bind, hmyRole, Option.bind_some, hidentity]
  dsimp only [twoCommitteesEnv, setupRun]
  rw [Outcome.ok_bind, hsession, Outcome.ok_bind]
  rw [hthreshold, hsetup .z128, hsetup .z64]
  rfl

theorem epochOfFirst_maps :
    epochOfFirst.maker.contextMap = twoCommittees.contextMap ∧
      (∃ prss, epochOfFirst.maker.epochMap.lookup 9 = some prss) ∧
      epochOfFirst.epochOrigins 9 = twoCommittees.contextMap.lookup 1 := by
  obtain ⟨prss, hprss⟩ := generatePrss_twoCommittees
  have hmaker : (registrations.foldl (History.next GF16 twoCommitteesEnv) .empty).maker =
      twoCommittees := History.maker_run GF16 registrations .empty
  have hrun : epochOfFirst.maker =
      (twoCommittees.internalInitPrss twoCommitteesEnv GF16 1 9 setupRun).1 := by
    rw [epochOfFirst, List.foldl_append, ← hmaker]
    rfl
  have horigins : epochOfFirst.epochOrigins 9 = History.originate twoCommittees.epochMap
      (twoCommittees.contextMap.lookup 1) 9
      (registrations.foldl (History.next GF16 twoCommitteesEnv) .empty).epochOrigins 9 := by
    rw [epochOfFirst, List.foldl_append, ← hmaker]
    rfl
  have hfresh : 9 ∉ twoCommittees.prssStorage ∧ 9 ∉ twoCommittees.epochMap := by decide +kernel
  rw [horigins, History.originate, if_neg hfresh.2, Function.update_self, hrun, internalInitPrss,
    hprss]
  dsimp only
  exact ⟨rfl, ⟨prss, AList.lookup_insert _⟩, rfl⟩

theorem exists_smallSession {contextId n : ℕ} {threshold : UInt8}
    (h : Registered contextId n threshold) (hthreshold : threshold.toNat < n) :
    ∃ session, epochOfFirst.maker.makeSmallSessionZ64 twoCommitteesEnv (.ok ()) 0 contextId 9 =
      .ok session := by
  obtain ⟨hcontexts, ⟨prss, hprss⟩, -⟩ := epochOfFirst_maps
  have hsession := exists_makeBaseSession h hthreshold 0
  rw [makeBaseSession, getContext, ← hcontexts] at hsession
  exact ⟨_, makeSmallSession_eq_ok.mpr ⟨_, prss, hsession, hprss, rfl⟩⟩

/-- The parties that created the epoch get a sound session. -/
theorem smallSessions_sound_own_epoch :
    ∃ session, epochOfFirst.maker.makeSmallSessionZ64 twoCommitteesEnv (.ok ()) 0 1 9 = .ok session ∧
      ∃ context origin, epochOfFirst.Named 1 9 context origin ∧
        session.Sound GF16 context origin := by
  obtain ⟨session, hsession⟩ := exists_smallSession twoCommittees_contexts.1 (by decide)
  obtain ⟨hcontexts, -, horigin⟩ := epochOfFirst_maps
  obtain ⟨context, hlookup, -⟩ := exists_context twoCommittees_contexts.1
  refine ⟨session, hsession, ((smallSessions_sound_iff (registrations ++ [.initPrss 1 9 setupRun])
    (.ok ()) 0 1 9 epochOfFirst rfl).1 session hsession).mpr ⟨context, context, ⟨?_, ?_⟩, rfl,
      fun _ => rfl⟩⟩
  · rw [hcontexts, hlookup]
  · rw [horigin, hlookup]

/-- Seven parties get a session with the setup of four. -/
theorem not_sound_foreign_epoch :
    ¬ ∀ session, epochOfFirst.maker.makeSmallSessionZ64 twoCommitteesEnv (.ok ()) 0 2 9 = .ok session →
      ∃ context origin, epochOfFirst.Named 2 9 context origin ∧
        session.Sound GF16 context origin := by
  intro h
  obtain ⟨session, hsession⟩ := exists_smallSession twoCommittees_contexts.2 (by decide)
  obtain ⟨context, origin, ⟨hcontext, horigin⟩, hsound⟩ := h session hsession
  obtain ⟨hcontexts, -, horigins⟩ := epochOfFirst_maps
  obtain ⟨four, hfour, -, hfourRoles, -⟩ := exists_context twoCommittees_contexts.1
  obtain ⟨seven, hseven, -, hsevenRoles, -⟩ := exists_context twoCommittees_contexts.2
  rw [hcontexts, hseven, Option.some_inj] at hcontext
  rw [horigins, hfour, Option.some_inj] at horigin
  subst hcontext horigin
  have hkeys := keys_toFinset_congr hsound.parties
  rw [hfourRoles, hsevenRoles] at hkeys
  exact absurd hkeys (by decide)

end TwoCommittees

end ThresholdKms.SessionMaker
