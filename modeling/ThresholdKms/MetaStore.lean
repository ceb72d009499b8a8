import Mathlib.Data.Finmap

/-!
# The store of request states

The store holds the state of each request, the queue of the completed ones and the set of the deleted
ones. Whether an entry is locked is read off the reference count of its claim: a claim is a number
here, and `live` lists the claims of the permits that exist. Beside the store, a system has the
permits, those that are being dropped, and the reaper with its channel. A dropped permit releases its
claim before it informs the reaper, and the reaper takes a message before it gets the lock.
-/

namespace ThresholdKms

inductive MetaStoreError (K : Type) where
  | alreadyExists (reqId : K)
  | capacityFull (reqId : K)
  | notFound (reqId : K)
  | locked (reqId : K)
  | cannotUpdate (reqId : K)
  | invariant (msg : String)

inductive EntryState (T : Type) where
  | pending
  | done (result : Except String T)
  | deleted

inductive EntryStatus where
  | pending
  | done
  | deleted
deriving DecidableEq, Repr

structure StoredEntry (T : Type) where
  claim : ℕ
  state : EntryState T

structure MetaStorePermit (K : Type) where
  reqId : K
  claim : ℕ
deriving DecidableEq

structure MetaStore (K T : Type) where
  capacity : ℕ
  minCache : ℕ
  storage : Finmap (fun _ : K => StoredEntry T)
  completeQueue : List K
  deletedSet : Finset K

variable {K T : Type}

namespace StoredEntry

def newPending (claim : ℕ) : StoredEntry T := ⟨claim, .pending⟩

def newDone (claim : ℕ) (value : Except String T) : StoredEntry T := ⟨claim, .done value⟩

variable (entry : StoredEntry T)

def status : EntryStatus :=
  match entry.state with
  | .pending => .pending
  | .done _ => .done
  | .deleted => .deleted

def setComplete (result : Except String T) : StoredEntry T :=
  { entry with state := .done result }

def setDeleted : StoredEntry T := { entry with state := .deleted }

@[simp]
theorem status_setComplete (result : Except String T) :
    (entry.setComplete result).status = .done := rfl

@[simp]
theorem status_setDeleted : entry.setDeleted.status = .deleted := rfl

def isPermitHeld (live : List ℕ) (entry : StoredEntry T) : Bool := decide (entry.claim ∈ live)

/-- Only a request that failed may be retried. -/
def hasFailed : Bool :=
  match entry.state with
  | .done (.error _) => true
  | _ => false

end StoredEntry

namespace MetaStore

variable [DecidableEq K] [ToString K] (s : MetaStore K T)

def getTotalCount : ℕ := s.storage.keys.card

def getProcessingCount : ℕ :=
  s.getTotalCount - s.completeQueue.length - s.deletedSet.card

def status (id : K) : Option EntryStatus :=
  (s.storage.lookup id).map StoredEntry.status

/-- A completed entry may be evicted unless a permit holds it. -/
def evictable (live : List ℕ) (s : MetaStore K T) (id : K) : Bool :=
  match s.storage.lookup id with
  | some entry => decide (entry.status = .done) && !entry.isPermitHeld live
  | none => false

/-- Makes room for a request in a full store. -/
def evictOldest (live : List ℕ) (requestId : K) (s : MetaStore K T) :
    Except (MetaStoreError K) (MetaStore K T) :=
  if s.completeQueue.length ≤ s.minCache then .error (.capacityFull requestId)
  else
    match s.completeQueue.findIdx? (s.evictable live) with
    | none => .error (.capacityFull requestId)
    | some pos =>
      match s.completeQueue[pos]? with
      | none =>
        .error (.invariant s!"complete_queue index {pos} vanished while inserting {requestId}")
      | some oldRequestId =>
        if oldRequestId ∈ s.storage then
          .ok { s with
            storage := s.storage.erase oldRequestId
            completeQueue := s.completeQueue.eraseIdx pos }
        else
          .error (.invariant (s!"failed to remove old element {oldRequestId} from storage " ++
            s!"while inserting {requestId}"))

def addPending (id : K) (claim : ℕ) : MetaStore K T :=
  { s with storage := s.storage.insert id (.newPending claim) }

def insert (live : List ℕ) (fresh : ℕ) (requestId : K) (s : MetaStore K T) :
    Except (MetaStoreError K) (MetaStore K T × MetaStorePermit K) :=
  if requestId ∈ s.storage then .error (.alreadyExists requestId)
  else do
    let s ← if s.capacity ≤ s.getTotalCount then s.evictOldest live requestId else .ok s
    .ok (s.addPending requestId fresh, ⟨requestId, fresh⟩)

def lockEntry (live : List ℕ) (requestId : K) (s : MetaStore K T) :
    Except (MetaStoreError K) (MetaStorePermit K) :=
  match s.storage.lookup requestId with
  | none => .error (.notFound requestId)
  | some entry =>
    match entry.status with
    | .pending | .done =>
      if entry.isPermitHeld live then .error (.locked requestId) else .ok ⟨requestId, entry.claim⟩
    | .deleted => .error (.cannotUpdate requestId)

def complete (id : K) (entry : StoredEntry T) (result : Except String T) :
    MetaStore K T :=
  { s with
    storage := s.storage.insert id (entry.setComplete result)
    completeQueue := s.completeQueue ++ [id] }

def update (result : Except String T) (permit : MetaStorePermit K) (s : MetaStore K T) :
    Except (MetaStoreError K) (MetaStore K T) :=
  match s.storage.lookup permit.reqId with
  | none => .error (.notFound permit.reqId)
  | some entry =>
    if entry.status ≠ .pending then .error (.cannotUpdate permit.reqId)
    else .ok (s.complete permit.reqId entry result)

def finalize (permit : MetaStorePermit K) (value : T) (s : MetaStore K T) :
    Except (MetaStoreError K) (MetaStore K T) :=
  match s.storage.lookup permit.reqId with
  | none => .error (.notFound permit.reqId)
  | some entry =>
    match entry.status with
    | .deleted => .error (.cannotUpdate permit.reqId)
    | .pending => .ok (s.complete permit.reqId entry (.ok value))
    | .done =>
      .ok { s with storage := s.storage.insert permit.reqId (entry.setComplete (.ok value)) }

def abortReservation (permit : MetaStorePermit K) (s : MetaStore K T) : MetaStore K T :=
  match s.storage.lookup permit.reqId with
  | some entry =>
    if entry.status = .pending then { s with storage := s.storage.erase permit.reqId } else s
  | none => s

def tombstone (id : K) (entry : StoredEntry T) : MetaStore K T :=
  { s with
    storage := s.storage.insert id entry.setDeleted
    deletedSet := Insert.insert id s.deletedSet
    completeQueue :=
      if entry.status = .done then s.completeQueue.filter (fun other => decide (other ≠ id))
      else s.completeQueue }

def delete (permit : MetaStorePermit K) (s : MetaStore K T) :
    Except (MetaStoreError K) (MetaStore K T × EntryState T) :=
  match s.storage.lookup permit.reqId with
  | none => .error (.notFound permit.reqId)
  | some entry =>
    if entry.status = .deleted then .error (.cannotUpdate permit.reqId)
    else .ok (s.tombstone permit.reqId entry, entry.state)

def tryDelete (live : List ℕ) (requestId : K) (s : MetaStore K T) :
    Except (MetaStoreError K) (MetaStore K T × EntryState T) :=
  match s.storage.lookup requestId with
  | none => .error (.notFound requestId)
  | some entry =>
    match entry.status with
    | .pending | .done =>
      if entry.isPermitHeld live then .error (.locked requestId)
      else .ok (s.tombstone requestId entry, entry.state)
    | .deleted => .error (.cannotUpdate requestId)

def failIfOrphaned (live : List ℕ) (reqId : K) (reason : String) (s : MetaStore K T) :
    MetaStore K T × Bool :=
  match s.storage.lookup reqId with
  | none => (s, false)
  | some entry =>
    if entry.status = .pending ∧ entry.isPermitHeld live = false then
      (s.complete reqId entry (.error reason), true)
    else (s, false)

def redoFailed (live : List ℕ) (fresh : ℕ) (reqId : K) (s : MetaStore K T) :
    Except (MetaStoreError K) (MetaStore K T × MetaStorePermit K) :=
  match s.storage.lookup reqId with
  | none => .error (.notFound reqId)
  | some entry =>
    match entry.status with
    | .deleted => .error (.cannotUpdate reqId)
    | .pending => .error (.locked reqId)
    | .done =>
      if entry.hasFailed = false then .error (.cannotUpdate reqId)
      else if entry.isPermitHeld live then .error (.locked reqId)
      else
        .ok (({ s with
          completeQueue := s.completeQueue.filter (fun other => decide (other ≠ reqId)) }
          : MetaStore K T).addPending reqId fresh, ⟨reqId, fresh⟩)

end MetaStore

/-- A store with the permits, the permits being dropped and the reaper. -/
structure MetaStoreSystem (K T : Type) where
  store : MetaStore K T
  permits : List (MetaStorePermit K)
  released : List K
  reaperChannel : List K
  received : Option K
  nextClaim : ℕ

/-- What can happen under the lock, in a drop and in the reaper. -/
inductive MetaStoreOp (K T : Type) where
  | insert (id : K)
  | lockEntry (id : K)
  | update (permit : MetaStorePermit K) (result : Except String T)
  | finalize (permit : MetaStorePermit K) (value : T)
  | abortReservation (permit : MetaStorePermit K)
  | delete (permit : MetaStorePermit K)
  | tryDelete (id : K)
  | redoFailed (id : K)
  | failIfOrphaned (id : K) (reason : String)
  | release (permit : MetaStorePermit K)
  | notify (id : K)
  | receive
  | reap

/-- The permit that a step takes from its holder. -/
def MetaStoreOp.permit? : MetaStoreOp K T → Option (MetaStorePermit K)
  | .update permit _ | .finalize permit _ | .abortReservation permit | .delete permit
  | .release permit => some permit
  | _ => none

namespace MetaStoreSystem

variable [DecidableEq K] [ToString K]

def new (capacity minCache : ℕ) : MetaStoreSystem K T where
  store := ⟨capacity, minCache, ∅, [], ∅⟩
  permits := []
  released := []
  reaperChannel := []
  received := none
  nextClaim := 0

variable (s : MetaStoreSystem K T)

def addDone (kv : K × T) : MetaStoreSystem K T :=
  { s with
    store := { s.store with
      storage := s.store.storage.insert kv.1 (.newDone s.nextClaim (.ok kv.2))
      completeQueue := s.store.completeQueue ++ [kv.1] }
    nextClaim := s.nextClaim + 1 }

/-- The entries of the map, in the order in which it is iterated. -/
def newFromMap (usizeMax : ℕ) (map : List (K × T)) : MetaStoreSystem K T :=
  map.foldl addDone (new usizeMax usizeMax)

def live : List ℕ := s.permits.map (·.claim)

/-- A call that creates an entry hands out its permit. -/
def grant :
    Except (MetaStoreError K) (MetaStore K T × MetaStorePermit K) → MetaStoreSystem K T
  | .ok (store, permit) =>
    { s with store := store, permits := permit :: s.permits, nextClaim := s.nextClaim + 1 }
  | .error _ => s

/-- A call that is given a permit uses it up, also when it fails. -/
def consume (permit : MetaStorePermit K)
    (result : Except (MetaStoreError K) (MetaStore K T)) : MetaStoreSystem K T :=
  if permit ∈ s.permits then
    { s with
      store := (match result with
        | .ok store => store
        | .error _ => s.store)
      permits := s.permits.erase permit }
  else s

def reason : String :=
  "request abandoned: meta store permit dropped before an outcome was recorded"

def step : MetaStoreOp K T → MetaStoreSystem K T
  | .insert id => s.grant (s.store.insert s.live s.nextClaim id)
  | .lockEntry id =>
    match s.store.lockEntry s.live id with
    | .ok permit => { s with permits := permit :: s.permits }
    | .error _ => s
  | .update permit result => s.consume permit (s.store.update result permit)
  | .finalize permit value => s.consume permit (s.store.finalize permit value)
  | .abortReservation permit => s.consume permit (.ok (s.store.abortReservation permit))
  | .delete permit => s.consume permit ((s.store.delete permit).map Prod.fst)
  | .tryDelete id =>
    match s.store.tryDelete s.live id with
    | .ok (store, _) => { s with store := store }
    | .error _ => s
  | .redoFailed id => s.grant (s.store.redoFailed s.live s.nextClaim id)
  | .failIfOrphaned id reason => { s with store := (s.store.failIfOrphaned s.live id reason).1 }
  | .release permit =>
    if permit ∈ s.permits then
      { s with permits := s.permits.erase permit, released := s.released ++ [permit.reqId] }
    else s
  | .notify id =>
    if id ∈ s.released then
      { s with released := s.released.erase id, reaperChannel := s.reaperChannel ++ [id] }
    else s
  | .receive =>
    match s.received, s.reaperChannel with
    | none, id :: ids => { s with received := some id, reaperChannel := ids }
    | _, _ => s
  | .reap =>
    match s.received with
    | some id => { s with store := (s.store.failIfOrphaned s.live id reason).1, received := none }
    | none => s

def run (ops : List (MetaStoreOp K T)) : MetaStoreSystem K T :=
  ops.foldl step s

end MetaStoreSystem

end ThresholdKms
