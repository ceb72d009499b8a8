import ThresholdKms.PrssRange
import ThresholdKms.SessionMaker
import ThresholdKms.Tally

/-!
# The parties of a session and of its pseudorandom sharing

A registered context has the parties `1, …, 3t + 1`, and its threshold is `t` up to the truncation to
a byte. An epoch does not record for whom its setup was generated; a history of the session maker does,
beside the state that the code has. Every registered epoch was set up by the parties of a context with
this own role, where the number of exceptional points leaves no room for a truncation.
-/

namespace ThresholdKms

open Outcome

theorem sort_Icc_eq_partyRoles (n : ℕ) : (Finset.Icc 1 n).sort (· ≤ ·) = partyRoles n := by
  have hIcc : Finset.Icc 1 n = (List.range' 1 n).toFinset := by
    ext k
    rw [Finset.mem_Icc, List.mem_toFinset, List.mem_range'_1]
    omega
  rw [hIcc, ← range'_one_eq]
  exact (List.toFinset_sort (· ≤ ·) List.nodup_range').mpr List.pairwise_le_range'

section Nodes

variable {χ ε α : Type} [ToString χ] [DecidableEq α] {env : SessionEnv ε α}
  {info : ContextInfo χ α}

namespace ContextInfo

theorem length_of_verify {myRole : Option Role} (h : info.verify env = .ok myRole) :
    info.mpcNodes.length = 3 * info.threshold.toNat + 1 := by
  obtain ⟨coreAddress, -, h⟩ := bind_eq_ok.mp h
  obtain ⟨-, h⟩ := guard_eq_ok.mp h
  obtain ⟨_, -, h⟩ := bind_eq_ok.mp h
  obtain ⟨_, hthreshold, -⟩ := bind_eq_ok.mp h
  unfold checkThreshold at hthreshold
  split_ifs at hthreshold with hsingle hzero hmulti
  · cases hthreshold
  · omega
  · cases hthreshold
  · omega

variable {assignment assignment' : HashMap Role PartyIdentity}

omit [DecidableEq α] in
theorem addNode_eq_ok {node : NodeInfo α} (h : info.addNode env assignment node = .ok assignment') :
    1 ≤ node.partyId.toNat ∧ node.partyId.toNat ≤ info.mpcNodes.length ∧
      node.partyId.toNat ∉ assignment ∧
      ∃ identity, assignment' = assignment.insert node.partyId.toNat identity := by
  obtain ⟨⟨hostname, port⟩, -, h⟩ := bind_eq_ok.mp h
  obtain ⟨hrange, h⟩ := guard_eq_ok.mp h
  obtain ⟨hfresh, h⟩ := guard_eq_ok.mp h
  refine ⟨by omega, by omega, hfresh, ⟨hostname, port, node.mpcIdentity⟩, ?_⟩
  split at h
  · cases h
  · exact (Except.ok.inj h).symm

omit [DecidableEq α] in
theorem keys_of_foldlM_addNode {nodes : List (NodeInfo α)}
    (h : nodes.foldlM (info.addNode env) assignment = .ok assignment')
    (hkeys : ∀ k ∈ assignment.keys, k ∈ Finset.Icc 1 info.mpcNodes.length) :
    assignment'.keys.length = assignment.keys.length + nodes.length ∧
      ∀ k ∈ assignment'.keys, k ∈ Finset.Icc 1 info.mpcNodes.length := by
  induction nodes generalizing assignment with
  | nil =>
    obtain rfl := Except.ok.inj h
    exact ⟨rfl, hkeys⟩
  | cons node nodes ih =>
    obtain ⟨added, hadd, h⟩ := foldlM_cons_eq_ok.mp h
    obtain ⟨hpos, hle, hfresh, identity, rfl⟩ := addNode_eq_ok hadd
    have hinsert : (assignment.insert node.partyId.toNat identity).keys =
        node.partyId.toNat :: assignment.keys := by
      rw [AList.keys_insert, List.erase_of_not_mem (fun hmem => hfresh (AList.mem_keys.mpr hmem))]
    obtain ⟨hlength, hrange⟩ := ih h (by
      rw [hinsert]
      rintro k (_ | ⟨_, hk⟩)
      · exact Finset.mem_Icc.mpr ⟨hpos, hle⟩
      · exact hkeys k hk)
    rw [hinsert, List.length_cons] at hlength
    rw [List.length_cons]
    exact ⟨by omega, hrange⟩

omit [DecidableEq α] in
theorem roles_of_foldlM_addNode {assignment : HashMap Role PartyIdentity}
    (h : info.mpcNodes.foldlM (info.addNode env) ∅ = .ok assignment) :
    assignment.keys.toFinset = Finset.Icc 1 info.mpcNodes.length := by
  obtain ⟨hlength, hrange⟩ := keys_of_foldlM_addNode h nofun
  refine Finset.eq_of_subset_of_card_le (fun k hk => hrange k (List.mem_toFinset.mp hk)) ?_
  rw [List.toFinset_card_of_nodup assignment.keys_nodup, hlength, Nat.card_Icc]
  simp

end ContextInfo

end Nodes

/-- The setup was assembled in a session of the context, with its parties, own role and threshold. -/
def GeneratedIn (F : Type) [Field F] [DecidableEq F] [G2p .four F] {w : ℕ} (context : Context)
    (setup : PRSSSetup w .four) : Prop :=
  ∃ myRole ars, context.myRole = some myRole ∧
    prssInit F (context.roleAssignment.keys.toFinset.sort (· ≤ ·)) context.threshold.toNat myRole ars =
      .ok setup

namespace SessionMaker

/-- The parties of a context and the threshold, which is truncated to a byte. -/
def SoundContext (context : Context) : Prop :=
  ∃ t, context.roleAssignment.keys.toFinset = Finset.Icc 1 (3 * t + 1) ∧
    context.threshold = UInt8.ofNat t

/-- The number of parties decides the threshold. -/
theorem SoundContext.threshold_congr {context context' : Context} (h : SoundContext context)
    (h' : SoundContext context')
    (hkeys : context.roleAssignment.keys.toFinset = context'.roleAssignment.keys.toFinset) :
    context.threshold = context'.threshold := by
  obtain ⟨t, hroles, hthreshold⟩ := h
  obtain ⟨t', hroles', hthreshold'⟩ := h'
  have hcard := congrArg Finset.card (hroles.symm.trans (hkeys.trans hroles'))
  rw [Nat.card_Icc, Nat.card_Icc] at hcard
  rw [hthreshold, hthreshold', show t = t' by omega]

theorem SoundContext.threshold_eq {context : Context} (h : SoundContext context) {F : Type} [Field F]
    [DecidableEq F] [G2p .four F] {w : ℕ} {setup : PRSSSetup w .four}
    (hsetup : GeneratedIn F context setup) : context.roleAssignment.keys.toFinset =
      Finset.Icc 1 (3 * context.threshold.toNat + 1) := by
  obtain ⟨t, hroles, hthreshold⟩ := h
  obtain ⟨myRole, ars, -, hinit⟩ := hsetup
  have hsmall := (prssSets_bounds F (guard_eq_ok.mp hinit).2).1
  rw [Finset.length_sort, hroles, Nat.card_Icc] at hsmall
  have hsixteen : 2 ^ ExtensionDegree.four.deg = 16 := rfl
  have hbyte : context.threshold.toNat = t := by
    rw [hthreshold]
    exact UInt8.toNat_ofNat_of_lt (by norm_num; omega)
  rw [hbyte, hroles]

variable {χ ε α : Type} [DecidableEq χ] [DecidableEq ε] [ToString χ] [ToString ε]
  {env : SessionEnv ε α} {s : SessionMaker χ ε}

omit [DecidableEq ε] [ToString ε] in
theorem makeBaseSession_eq_ok {networking : Outcome Unit} {sessionId : SessionId} {contextId : χ}
    {parameters : SessionParameters} :
    s.makeBaseSession networking sessionId contextId = .ok parameters ↔
      ∃ context myRole, s.contextMap.lookup contextId = some context ∧
        context.myRole = some myRole ∧
        context.threshold.toNat < context.roleAssignment.keys.toFinset.card ∧
        myRole ∈ context.roleAssignment.keys.toFinset ∧ networking = .ok () ∧
        parameters = ⟨context.threshold, sessionId, myRole, context.roleAssignment.keys.toFinset,
          context.roleAssignment.keys.toFinset.sort (· ≤ ·)⟩ := by
  constructor
  · intro h
    obtain ⟨context, hcontext, h⟩ := bind_eq_ok.mp h
    rw [getContext] at hcontext
    split at hcontext
    · cases hcontext
    · rename_i found hlookup
      obtain rfl := Except.ok.inj hcontext
      split at h
      · cases h
      · rename_i myRole hmyRole
        obtain ⟨new, hnew, h⟩ := bind_eq_ok.mp h
        obtain ⟨_, hnetworking, h⟩ := bind_eq_ok.mp h
        obtain rfl := Except.ok.inj h
        obtain ⟨hthreshold, hnew⟩ := guard_eq_ok.mp hnew
        obtain ⟨hrole, hnew⟩ := guard_eq_ok.mp hnew
        exact ⟨found, myRole, hlookup, hmyRole, not_not.mp hthreshold, not_not.mp hrole, hnetworking,
          (Except.ok.inj hnew).symm⟩
  · rintro ⟨context, myRole, hlookup, hmyRole, hthreshold, hrole, rfl, rfl⟩
    have hcontext : s.getContext contextId = .ok context := by rw [getContext, hlookup]
    rw [makeBaseSession, hcontext, ok_bind, hmyRole]
    dsimp only
    rw [SessionParameters.new, if_neg (not_not.mpr hthreshold), if_neg (not_not.mpr hrole)]
    rfl

/-- A state, with the contexts in whose sessions the setups were generated that are registered and
those that are stored. What is kept of other epochs does not matter. -/
structure History (χ ε : Type) where
  maker : SessionMaker χ ε
  epochOrigins : ε → Option Context
  storedOrigins : ε → Option Context

namespace History

def empty : History χ ε := ⟨SessionMaker.empty, fun _ => none, fun _ => none⟩

/-- The origins when a setup is generated in the context, unless the epoch has one. -/
def originate {ν : Type} (m : HashMap ε ν) (context : Option Context) (epochId : ε)
    (origins : ε → Option Context) : ε → Option Context :=
  if epochId ∈ m then origins else Function.update origins epochId context

variable (F : Type) [Field F] [DecidableEq F] [G2p .four F]

def next [DecidableEq α] (env : SessionEnv ε α) (h : History χ ε) (event : SessionMakerEvent χ ε α) :
    History χ ε :=
  let maker := h.maker.next env F event
  match event with
  | .initPrss contextId epochId _ =>
    let context := h.maker.contextMap.lookup contextId
    ⟨maker, originate h.maker.epochMap context epochId h.epochOrigins,
      originate h.maker.prssStorage context epochId h.storedOrigins⟩
  | .restart => ⟨maker, h.storedOrigins, h.storedOrigins⟩
  | _ => { h with maker }

variable (events : List (SessionMakerEvent χ ε α))

theorem maker_run [DecidableEq α] (h : History χ ε) :
    (events.foldl (next F env) h).maker = events.foldl (fun s event => s.next env F event) h.maker := by
  induction events generalizing h with
  | nil => rfl
  | cons event events ih =>
    rw [List.foldl_cons, List.foldl_cons, ih]
    cases event with
    | initPrss | restart | newContext | loadContext | removeContext | removeEpoch | deletePrss => rfl

/-- Both setups were generated in the context that the origins name. -/
def Originates (origins : ε → Option Context) (epochId : ε) (prss : PRSSSetupCombined) : Prop :=
  ∃ origin, origins epochId = some origin ∧ SoundContext origin ∧
    GeneratedIn F origin prss.prssSetupZ64 ∧ GeneratedIn F origin prss.prssSetupZ128

structure SoundMaps (h : History χ ε) : Prop where
  contexts : ∀ contextId context, h.maker.contextMap.lookup contextId = some context →
    SoundContext context
  epochs : ∀ epochId prss, h.maker.epochMap.lookup epochId = some prss →
    Originates F h.epochOrigins epochId prss
  stored : ∀ epochId prss, h.maker.prssStorage.lookup epochId = some prss →
    Originates F h.storedOrigins epochId prss

variable {F}

variable {h : History χ ε}

omit [ToString ε] in
/-- Origins of epochs that are there are kept. -/
theorem forall_originate {m : HashMap ε PRSSSetupCombined} {origins : ε → Option Context}
    (hm : ∀ epochId prss, m.lookup epochId = some prss → Originates F origins epochId prss)
    (context : Option Context) (epochId : ε) :
    ∀ other prss, m.lookup other = some prss →
      Originates F (originate m context epochId origins) other prss := by
  intro other prss hlookup
  have hkept : originate m context epochId origins other = origins other := by
    rw [originate]
    split_ifs with hmem
    · rfl
    · refine Function.update_of_ne ?_ _ _
      rintro rfl
      exact hmem (mem_of_lookup_eq_some hlookup)
  obtain ⟨origin, horigin, hsound⟩ := hm other prss hlookup
  exact ⟨origin, hkept.trans horigin, hsound⟩

omit [ToString ε] in
theorem SoundMaps.addContextInfo (hs : h.SoundMaps F) {info : ContextInfo χ α}
    (hlength : info.mpcNodes.length = 3 * info.threshold.toNat + 1) (verifier : Outcome Unit)
    (myRole : Option Role) :
    SoundMaps F { h with maker := (h.maker.addContextInfo env verifier myRole info).1 } := by
  rw [SessionMaker.addContextInfo]
  split
  · exact hs
  · rename_i assignment hassignment
    have hroles := ContextInfo.roles_of_foldlM_addNode hassignment
    rw [hlength] at hroles
    exact ⟨forall_lookup_insert hs.contexts ⟨info.threshold.toNat, hroles, rfl⟩, hs.epochs, hs.stored⟩

variable {prss : PRSSSetupCombined}

/-- A generated epoch has its setups from the session of the registered context. -/
theorem SoundMaps.generatePrss (hs : h.SoundMaps F) {contextId : χ} {epochId : ε} {run : PrssRun}
    (hprss : h.maker.generatePrss env F contextId epochId run = .ok prss) :
    Originates F (fun _ => h.maker.contextMap.lookup contextId) epochId prss := by
  obtain ⟨-, hprss⟩ := guard_eq_ok.mp hprss
  obtain ⟨context, -, hprss⟩ := bind_eq_ok.mp hprss
  split at hprss
  · cases hprss
  · obtain ⟨sessionId, -, hprss⟩ := bind_eq_ok.mp hprss
    obtain ⟨session, hsession, hprss⟩ := bind_eq_ok.mp hprss
    obtain ⟨setupZ128, hz128, hprss⟩ := bind_eq_ok.mp hprss
    obtain ⟨setupZ64, hz64, hprss⟩ := bind_eq_ok.mp hprss
    obtain rfl := Except.ok.inj hprss
    obtain ⟨origin, myRole, hlookup, hmyRole, -, -, -, rfl⟩ := makeBaseSession_eq_ok.mp hsession
    exact ⟨origin, hlookup, hs.contexts contextId origin hlookup, ⟨myRole, _, hmyRole, hz64⟩,
      ⟨myRole, _, hmyRole, hz128⟩⟩

omit [ToString ε] in
theorem originates_originate {m : HashMap ε PRSSSetupCombined} {context : Option Context}
    {epochId : ε} (hfresh : epochId ∉ m)
    (hprss : Originates F (fun _ => context) epochId prss) (origins : ε → Option Context) :
    Originates F (originate m context epochId origins) epochId prss := by
  obtain ⟨origin, horigin, hsound⟩ := hprss
  exact ⟨origin, by rw [originate, if_neg hfresh, Function.update_self]; exact horigin, hsound⟩

theorem SoundMaps.initPrss [DecidableEq α] (hs : h.SoundMaps F) (contextId : χ) (epochId : ε)
    (run : PrssRun) : (h.next F env (.initPrss contextId epochId run)).SoundMaps F := by
  have hepochs := forall_originate hs.epochs (h.maker.contextMap.lookup contextId) epochId
  have hstored := forall_originate hs.stored (h.maker.contextMap.lookup contextId) epochId
  simp only [next, SessionMaker.next, internalInitPrss]
  split
  · exact ⟨hs.contexts, hepochs, hstored⟩
  · rename_i prss hprss
    have hsound := hs.generatePrss hprss
    have hfresh : epochId ∉ h.maker.epochMap := (guard_eq_ok.mp hprss).1
    split_ifs with hwrite
    · exact ⟨hs.contexts, hepochs, hstored⟩
    · exact ⟨hs.contexts, hepochs, forall_lookup_insert hstored
        (originates_originate (fun hmem => hwrite (Or.inl hmem)) hsound _)⟩
    · exact ⟨hs.contexts, forall_lookup_insert hepochs (originates_originate hfresh hsound _),
        forall_lookup_insert hstored
          (originates_originate (fun hmem => hwrite (Or.inl hmem)) hsound _)⟩

variable [DecidableEq α]

theorem SoundMaps.next (hs : h.SoundMaps F) (event : SessionMakerEvent χ ε α) :
    (h.next F env event).SoundMaps F := by
  cases event with
  | newContext info verifier =>
    simp only [History.next, SessionMaker.next]
    split
    · rename_i myRole hverify
      exact hs.addContextInfo (ContextInfo.length_of_verify hverify) verifier myRole
    · exact hs
  | loadContext myId info verifier =>
    simp only [History.next, SessionMaker.next]
    split
    · rename_i myRole hverify
      exact hs.addContextInfo (ContextInfo.length_of_verify hverify) verifier myId
    · exact hs
  | removeContext contextId => exact ⟨forall_lookup_erase hs.contexts contextId, hs.epochs, hs.stored⟩
  | initPrss contextId epochId run => exact hs.initPrss contextId epochId run
  | removeEpoch epochId => exact ⟨hs.contexts, forall_lookup_erase hs.epochs epochId, hs.stored⟩
  | deletePrss epochId => exact ⟨hs.contexts, hs.epochs, forall_lookup_erase hs.stored epochId⟩
  | restart => exact ⟨nofun, hs.stored, hs.stored⟩

theorem soundMaps_run :
    (events.foldl (History.next F env) (empty : History χ ε)).SoundMaps F :=
  List.foldlRecOn events _ ⟨nofun, nofun, nofun⟩ (fun _ hs event _ => hs.next event)

end History

end SessionMaker

end ThresholdKms
