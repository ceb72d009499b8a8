import ThresholdKms.ContextRegistry
import ThresholdKms.Prss

/-!
# Sessions of a context and an epoch

The session maker has a map of contexts, from which the parties and the threshold of a session come,
and a map of epochs, from which its pseudorandom secret sharing comes. A request names both by
identifiers that have nothing to do with each other. The setup of an epoch is generated in a session
of the context that was named when the epoch was created.
-/

namespace ThresholdKms

structure NodeInfo (α : Type) where
  mpcIdentity : String
  partyId : UInt32
  signerAddress : Option α
  externalUrl : String
  caCert : Option String

structure ContextInfo (χ α : Type) where
  mpcNodes : List (NodeInfo α)
  contextId : χ
  threshold : UInt32

structure ParsedUrl where
  host : Option String
  port : Option UInt16

structure PartyIdentity where
  hostname : String
  port : UInt16
  mpcIdentity : String

/-- The parsers, the own signing key and the sessions of the setups. -/
structure SessionEnv (ε α : Type) where
  parseUrl : String → Except String ParsedUrl
  parsePem : String → Except String Unit
  coreAddress : Outcome α
  prssSessionId : ε → Outcome SessionId
  aes128 : PrfKey → AesBlock → AesBlock

def errDuplicatePartyIds : String := "Duplicate party_ids found in context"

def errDuplicateNames : String := "Duplicate names found in context"

def errInvalidThresholdSingleNode : String := "Invalid threshold for centralized context"

def errInvalidThresholdMultiNode : String := "Invalid threshold for threshold context"

section Nodes

variable {χ ε α : Type} [ToString χ] [DecidableEq α] (env : SessionEnv ε α)

/-- The host and the port of a URL; the text of a failure to parse it differs between the callers. -/
def endpoint (failure url : String) : Outcome (String × UInt16) :=
  match env.parseUrl url with
  | .error e => .err s!"{failure}{e}"
  | .ok parsed =>
    match parsed.host, parsed.port with
    | none, _ => .err "missing host"
    | some _, none => .err "missing port"
    | some host, some port => .ok (host, port)

namespace ContextInfo

variable (info : ContextInfo χ α)

def checkPartyId (node : NodeInfo α) : Outcome Unit :=
  if ¬ (1 ≤ node.partyId ∧ node.partyId ≤ UInt32.ofNat info.mpcNodes.length) then
    .err s!"Party ID {node.partyId} out of range in context {info.contextId}"
  else .ok ()

def checkThreshold : Outcome Unit :=
  if info.mpcNodes.length = 1 then
    if info.threshold.toNat ≠ 0 then
      .err s!"{errInvalidThresholdSingleNode} {info.contextId}"
    else .ok ()
  else if info.mpcNodes.length ≠ 3 * info.threshold.toNat + 1 then
    .err (s!"{errInvalidThresholdMultiNode} (context={info.contextId}, " ++
      s!"threshold={info.threshold}, nodes={info.mpcNodes.length})")
  else .ok ()

def checkNames : Outcome Unit :=
  if (info.mpcNodes.map NodeInfo.mpcIdentity).toFinset.card ≠ info.mpcNodes.length then
    .err s!"{errDuplicateNames} {info.contextId}"
  else .ok ()

def verify : Outcome (Option Role) := do
  let coreAddress ← env.coreAddress
  let myNode := info.mpcNodes.find? (fun node => decide (node.signerAddress = some coreAddress))
  if (info.mpcNodes.map NodeInfo.partyId).toFinset.card ≠ info.mpcNodes.length then
    Outcome.err s!"{errDuplicatePartyIds} {info.contextId}"
  else
    info.mpcNodes.forM info.checkPartyId
    info.checkThreshold
    info.checkNames
    info.mpcNodes.forM (fun node => do
      let _ ← endpoint env "url parsing failed " node.externalUrl
      return ())
    return myNode.map (fun node => node.partyId.toNat)

/-- One round of the loop of `add_context_info`, without the certificates for the verifier. -/
def addNode (assignment : HashMap Role PartyIdentity) (node : NodeInfo α) :
    Outcome (HashMap Role PartyIdentity) := do
  let (hostname, port) ← endpoint env "url parsing error for party: " node.externalUrl
  let partyId := node.partyId.toNat
  if partyId < 1 ∨ info.mpcNodes.length < partyId then
    Outcome.err (s!"party_id {node.partyId} out of range 1..={info.mpcNodes.length} " ++
      s!"in context {info.contextId}")
  else if partyId ∈ assignment then
    Outcome.err s!"duplicate party_id {node.partyId} in context {info.contextId}"
  else
    match node.caCert.map env.parsePem with
    | some (.error e) => Outcome.err s!"x509 parsing error for party: {e}"
    | _ => return assignment.insert partyId ⟨hostname, port, node.mpcIdentity⟩

end ContextInfo

end Nodes

structure Context where
  myRole : Option Role
  roleAssignment : HashMap Role PartyIdentity
  threshold : UInt8

structure PRSSSetupCombined where
  prssSetupZ64 : PRSSSetup BaseRing.z64.bits .four
  prssSetupZ128 : PRSSSetup BaseRing.z128.bits .four
  numParties : UInt8
  threshold : UInt8

structure SessionParameters where
  threshold : UInt8
  sessionId : SessionId
  myRole : Role
  roles : Finset Role
  allSortedRoles : List Role

def SessionParameters.new (threshold : UInt8) (sessionId : SessionId) (myRole : Role)
    (roles : Finset Role) : Outcome SessionParameters :=
  let allSortedRoles := roles.sort (· ≤ ·)
  if ¬ threshold.toNat < roles.card then
    .err (s!"Threshold {threshold} cannot be bigger than the amount of parties (for all sets), " ++
      s!"{allSortedRoles}")
  else if myRole ∉ roles then
    .err s!"My role {myRole} is not in the set of roles: {allSortedRoles}"
  else
    .ok ⟨threshold, sessionId, myRole, roles, allSortedRoles⟩

/-- `prssStorage` has what the private storage keeps of the epochs over a restart. -/
structure SessionMaker (χ ε : Type) where
  contextMap : HashMap χ Context
  epochMap : HashMap ε PRSSSetupCombined
  prssStorage : HashMap ε PRSSSetupCombined

/-- How the parts of `internal_init_prss` end that the session maker does not decide. -/
structure PrssRun where
  networking : Outcome Unit
  keysZ128 : List PrfKey
  keysZ64 : List PrfKey
  write : Fate
  writeError : String

/-- `newContext` is a request; `loadContext` reads a context back that a request has stored, with the
role of the configuration. -/
inductive SessionMakerEvent (χ ε α : Type) where
  | newContext (info : ContextInfo χ α) (verifier : Outcome Unit)
  | loadContext (myId : Option Role) (info : ContextInfo χ α) (verifier : Outcome Unit)
  | removeContext (contextId : χ)
  | initPrss (contextId : χ) (epochId : ε) (run : PrssRun)
  | removeEpoch (epochId : ε)
  | deletePrss (epochId : ε)
  | restart

namespace SessionMaker

structure SmallSession (z : BaseRing) where
  parameters : SessionParameters
  prssState : PRSSState z.bits .four

variable {χ ε α : Type} [DecidableEq χ] [DecidableEq ε] [ToString χ] [ToString ε] [DecidableEq α]

def empty : SessionMaker χ ε := ⟨∅, ∅, ∅⟩

section Functions

variable (env : SessionEnv ε α) (s : SessionMaker χ ε)

/-- A context stays registered when the verifier refuses it. -/
def addContextInfo (verifier : Outcome Unit) (myRole : Option Role) (info : ContextInfo χ α) :
    SessionMaker χ ε × Outcome Unit :=
  match info.mpcNodes.foldlM (info.addNode env) ∅ with
  | .error fault => (s, .error fault)
  | .ok assignment =>
    ({ s with
      contextMap := s.contextMap.insert info.contextId
        ⟨myRole, assignment, UInt8.ofNat info.threshold.toNat⟩ }, verifier)

def getContext (contextId : χ) : Outcome Context :=
  match s.contextMap.lookup contextId with
  | none => .err s!"Context {contextId} not found in context map"
  | some context => .ok context

variable (networking : Outcome Unit) (sessionId : SessionId)

/-- The result of `get_networking` is looked at last. -/
def makeBaseSession (contextId : χ) :
    Outcome SessionParameters := do
  let context ← s.getContext contextId
  match context.myRole with
  | none => Outcome.err s!"My role is not defined for context {contextId}"
  | some myRole =>
    let parameters ← SessionParameters.new context.threshold sessionId myRole
      context.roleAssignment.keys.toFinset
    networking
    return parameters

def makeSmallSession {z : BaseRing} (setupOf : PRSSSetupCombined → PRSSSetup z.bits .four)
    (networking : Outcome Unit) (sessionId : SessionId) (contextId : χ) (epochId : ε) :
    Outcome (SmallSession z) := do
  let parameters ← s.makeBaseSession networking sessionId contextId
  match s.epochMap.lookup epochId with
  | none => Outcome.err s!"Epoch ID {epochId} not found in epoch map"
  | some prss => return ⟨parameters, (setupOf prss).newPrssSessionState env.aes128 sessionId⟩

def makeSmallSessionZ128 (contextId : χ)
    (epochId : ε) : Outcome (SmallSession .z128) :=
  s.makeSmallSession env PRSSSetupCombined.prssSetupZ128 networking sessionId contextId epochId

def makeSmallSessionZ64 (contextId : χ)
    (epochId : ε) : Outcome (SmallSession .z64) :=
  s.makeSmallSession env PRSSSetupCombined.prssSetupZ64 networking sessionId contextId epochId

variable (F : Type) [Field F] [DecidableEq F] [G2p .four F]

/-- The part of `internal_init_prss` before the storage. -/
def generatePrss (contextId : χ) (epochId : ε) (run : PrssRun) : Outcome PRSSSetupCombined := do
  if epochId ∈ s.epochMap then
    Outcome.err s!"Epoch ID {epochId} already exists, cannot initialize PRSS for this epoch."
  else
    let context ← s.getContext contextId
    match context.myRole.bind context.roleAssignment.lookup with
    | none => Outcome.err s!"own identity not found in context {contextId}"
    | some _ =>
      let sessionId ← env.prssSessionId epochId
      let session ← s.makeBaseSession run.networking sessionId contextId
      let threshold := session.threshold.toNat
      let setupZ128 ← prssInit F session.allSortedRoles threshold session.myRole run.keysZ128
      let setupZ64 ← prssInit F session.allSortedRoles threshold session.myRole run.keysZ64
      return ⟨setupZ64, setupZ128, UInt8.ofNat session.roles.card, session.threshold⟩

/-- A setup that was stored without its backup is not registered. -/
def internalInitPrss (contextId : χ) (epochId : ε) (run : PrssRun) :
    SessionMaker χ ε × Outcome Unit :=
  match s.generatePrss env F contextId epochId run with
  | .error fault => (s, .error fault)
  | .ok prss =>
    if epochId ∈ s.prssStorage ∨ run.write = .fails then
      (s, .err s!"Storing PRSS failed with error: {run.writeError}")
    else
      let stored := { s with prssStorage := s.prssStorage.insert epochId prss }
      if run.write = .failsAfterwards then
        (stored, .err s!"Storing PRSS failed with error: {run.writeError}")
      else
        ({ stored with epochMap := s.epochMap.insert epochId prss }, .ok ())

def next : SessionMakerEvent χ ε α → SessionMaker χ ε
  | .newContext info verifier =>
    match info.verify env with
    | .ok myRole => (s.addContextInfo env verifier myRole info).1
    | .error _ => s
  | .loadContext myId info verifier =>
    match info.verify env with
    | .ok _ => (s.addContextInfo env verifier myId info).1
    | .error _ => s
  | .removeContext contextId => { s with contextMap := s.contextMap.erase contextId }
  | .initPrss contextId epochId run => (s.internalInitPrss env F contextId epochId run).1
  | .removeEpoch epochId => { s with epochMap := s.epochMap.erase epochId }
  | .deletePrss epochId => { s with prssStorage := s.prssStorage.erase epochId }
  | .restart => { s with contextMap := ∅, epochMap := s.prssStorage }

end Functions

end SessionMaker

end ThresholdKms
