import ThresholdKms.Along
import ThresholdKms.Identifiers
import ThresholdKms.UntilFailure

/-!
# Small sessions of the service

A small session takes its PRSS values from the setup of an epoch and from the session identifier,
which is derived from the identifier of a request or an epoch and a counter. A meta store for each
kind of request decides which requests run, and the network refuses an identifier as long as it
remembers a session with it.
-/

namespace ThresholdKms

inductive RequestKind where
  | preprocessing | keyGeneration | publicDecryption | userDecryption
  deriving DecidableEq, Repr

/-- `ρ` is the type of request contents. `sessions` is the number of preprocessing sessions or of
ciphertexts of a decryption. -/
structure ServiceRequest (ρ : Type) where
  kind : RequestKind
  requestId : Identifier
  epochId : Identifier
  sessions : ℕ
  content : ρ

/-- A new epoch, and the epoch it reshares from; the party may belong to the old set, to the new
one, or to both. -/
structure EpochRequest (ρ : Type) where
  newEpochId : Identifier
  previousEpochId : Option Identifier
  inOldSet : Bool
  inNewSet : Bool
  content : ρ

inductive SessionRequest (ρ : Type) where
  | service (request : ServiceRequest ρ)
  | newEpoch (request : EpochRequest ρ)

/-- Derived identifiers differ if the identifiers or the counters do. -/
abbrev DerivedSessionId := Identifier × ℕ

def deriveSessionIdWithCounter (id : Identifier) (counter : ℕ) : Option DerivedSessionId :=
  if id.isValid then some (id, counter) else none

def dkgZ64SessionCounter : ℕ := 1
def dkgZ128SessionCounter : ℕ := 2
def liftZ64SessionCounter : ℕ := 1
def liftZ128SessionCounter : ℕ := 2
def reshareZ64SessionCounter : ℕ := 3
def reshareZ128SessionCounter : ℕ := 4

/-- The counters of the small sessions that a request runs. -/
def ServiceRequest.counters {ρ : Type} (request : ServiceRequest ρ) : List ℕ :=
  match request.kind with
  | .keyGeneration => [dkgZ64SessionCounter, dkgZ128SessionCounter]
  | _ => List.range request.sessions

/-- A small session to be run: its epoch, and the identifier and counter of its session. -/
structure EpochSession where
  epochId : Identifier
  id : Identifier
  counter : ℕ
  deriving DecidableEq

variable {ρ : Type}

/-- The sessions for lifting are labelled with the previous epoch, those for resharing with the new
one. -/
def SessionRequest.smallSessions : SessionRequest ρ → List EpochSession
  | .service request =>
    request.counters.map fun counter => ⟨request.epochId, request.requestId, counter⟩
  | .newEpoch request =>
    match request.previousEpochId with
    | none => []
    | some previous =>
      (if request.inOldSet then
        [⟨previous, previous, liftZ128SessionCounter⟩, ⟨previous, previous, liftZ64SessionCounter⟩]
      else []) ++
      (if request.inNewSet then
        [⟨request.newEpochId, request.newEpochId, reshareZ128SessionCounter⟩,
          ⟨request.newEpochId, request.newEpochId, reshareZ64SessionCounter⟩]
      else [])

inductive MetaStatus where
  | pending | succeeded | failed
  deriving DecidableEq, Repr

/-- The network remembers sessions that are active, and completed ones until they are cleaned up. -/
inductive NetworkStatus where
  | active | completed
  deriving DecidableEq, Repr

/-- A session that was run, and for what. -/
structure SessionRun (ρ : Type) where
  session : EpochSession
  request : SessionRequest ρ
  attempt : ℕ

structure SessionState (ρ : Type) where
  metaStore : HashMap (Option RequestKind × Identifier) MetaStatus
  network : HashMap DerivedSessionId NetworkStatus
  accepted : List (SessionRequest ρ)
  log : List (SessionRun ρ)

/-- New epochs have a meta store of their own. -/
def SessionRequest.metaKey : SessionRequest ρ → Option RequestKind × Identifier
  | .service request => (some request.kind, request.requestId)
  | .newEpoch request => (none, request.newEpochId)

/-- Failed decryptions can be tried again. -/
def admits (s : SessionState ρ) (request : SessionRequest ρ) : Bool :=
  match s.metaStore.lookup request.metaKey with
  | none => true
  | some .failed => request.metaKey.1 = some .publicDecryption ∨
      request.metaKey.1 = some .userDecryption
  | some _ => false

variable (request : SessionRequest ρ)

/-- A session is run unless the network refuses its identifier. -/
def makeSmallSession (attempt : ℕ) (session : EpochSession)
    (s : SessionState ρ) : Bool × SessionState ρ :=
  match deriveSessionIdWithCounter session.id session.counter with
  | none => (false, s)
  | some sessionId =>
    if sessionId ∈ s.network then (false, s)
    else
      (true,
        { s with
          network := s.network.insert sessionId .active
          log := ⟨session, request, attempt⟩ :: s.log })

/-- The ciphertexts of a public decryption are independent; in every other request the first session
that is refused ends it. -/
def SessionRequest.independent : SessionRequest ρ → Bool
  | .service request => request.kind = .publicDecryption
  | .newEpoch _ => false

def runSessions (attempt : ℕ) (s : SessionState ρ) : SessionState ρ :=
  if request.independent then
    request.smallSessions.foldl (fun s session => (makeSmallSession request attempt session s).2) s
  else (UntilFailure.run (makeSmallSession request attempt) request.smallSessions s).2

def acceptRequest (s : SessionState ρ) : SessionState ρ :=
  if admits s request then
    let attempt := s.accepted.countP fun earlier => earlier.metaKey = request.metaKey
    runSessions request attempt
      { s with
        metaStore := s.metaStore.insert request.metaKey .pending
        accepted := request :: s.accepted }
  else s

inductive SessionEvent (ρ : Type) where
  | request (request : SessionRequest ρ)
  | finish (key : Option RequestKind × Identifier) (succeeded : Bool)
  | evict (key : Option RequestKind × Identifier)
  | complete (sessionId : DerivedSessionId)
  | cleanUp (sessionId : DerivedSessionId)

variable (key : Option RequestKind × Identifier)

def finishRequest (succeeded : Bool) (s : SessionState ρ) :
    SessionState ρ :=
  if s.metaStore.lookup key = some .pending then
    { s with metaStore := s.metaStore.insert key (if succeeded then .succeeded else .failed) }
  else s

/-- Only finished entries are evicted. -/
def evictRequest (s : SessionState ρ) : SessionState ρ :=
  if s.metaStore.lookup key = some .pending then s
  else { s with metaStore := s.metaStore.erase key }

def completeSession (sessionId : DerivedSessionId) (s : SessionState ρ) : SessionState ρ :=
  if s.network.lookup sessionId = some .active then
    { s with network := s.network.insert sessionId .completed }
  else s

def cleanUpSession (sessionId : DerivedSessionId) (s : SessionState ρ) : SessionState ρ :=
  if s.network.lookup sessionId = some .completed then
    { s with network := s.network.erase sessionId }
  else s

def SessionEvent.next (s : SessionState ρ) : SessionEvent ρ → SessionState ρ
  | .request r => acceptRequest r s
  | .finish key succeeded => finishRequest key succeeded s
  | .evict key => evictRequest key s
  | .complete sessionId => completeSession sessionId s
  | .cleanUp sessionId => cleanUpSession sessionId s

end ThresholdKms
