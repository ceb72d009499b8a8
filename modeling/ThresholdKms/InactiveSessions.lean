import ThresholdKms.Along
import ThresholdKms.Share
import ThresholdKms.Tally

/-!
# Sessions that others have opened

A message for an unknown session opens an inactive session with a queue for its sender, up to a
number of inactive sessions for each sender. A session becomes active when the party hears of it
itself. A background task forgets sessions after some time. The tracker counts the inactive sessions
of each sender, but is only decreased when a session becomes active.
-/

namespace ThresholdKms

abbrev MpcIdentity := String

/-- An inactive session has the senders with a queue, an active one those that take part and whether
its network session still exists. -/
inductive SessionStatus where
  | completed
  | inactive (channels : Finset MpcIdentity)
  | active (senders : Finset MpcIdentity) (alive : Bool)
  deriving DecidableEq

/-- The status of the session in the response to a message. -/
inductive ResponseStatus where
  | completed
  | inactive
  | active
  deriving DecidableEq

def SessionStatus.response : SessionStatus → ResponseStatus
  | .completed => .completed
  | .inactive _ => .inactive
  | .active _ _ => .active

structure Tag where
  sessionId : ℕ
  sender : MpcIdentity
  roundCounter : ℕ

/-- `toRemove` has the sessions that the background task has found to be over. -/
structure NetworkingManager where
  sessionStore : HashMap ℕ SessionStatus
  openedSessionsTracker : HashMap MpcIdentity ℕ
  toRemove : List ℕ

variable (maxOpened : ℕ) (m : NetworkingManager) (sender : MpcIdentity)

namespace NetworkingManager

def initial : NetworkingManager := ⟨∅, ∅, []⟩

def opened : ℕ :=
  (m.openedSessionsTracker.lookup sender).getD 0

def setOpened (count : ℕ) : NetworkingManager :=
  { m with openedSessionsTracker := m.openedSessionsTracker.insert sender count }

variable (sessionId : ℕ) (status : SessionStatus)

def setStatus :
    NetworkingManager :=
  { m with sessionStore := m.sessionStore.insert sessionId status }

variable (tag : Tag) (channels : Finset MpcIdentity)

/-- The sender gets a queue in the session and is charged for it. -/
def addChannel :
    NetworkingManager :=
  (m.setStatus tag.sessionId (.inactive (insert tag.sender channels))).setOpened tag.sender
    (m.opened tag.sender + 1)

/-- There is no new queue for a sender that has too many already. -/
def openChannel (has : String) (m : NetworkingManager) (tag : Tag)
    (channels : Finset MpcIdentity) : NetworkingManager × Outcome (Option Unit) :=
  let sender := tag.sender
  let count := m.opened sender
  if maxOpened ≤ count then
    (m.setOpened sender count,
      Outcome.err (s!"Too many inactive sessions opened by MpcIdentity(\"{sender}\"). " ++
        s!"{has} {count}, Max allowed: {maxOpened}"))
  else
    (m.addChannel tag channels, .ok (some ()))

/-- `some` stands for the sending end of the queue, and `none` for a message that is not needed. -/
def fetchTxChannel :
    NetworkingManager × Outcome (Option Unit) :=
  let sender := tag.sender
  let sessionId := tag.sessionId
  match status with
  | .completed => (m, .ok none)
  | .inactive channels =>
    if sender ∈ channels then (m, .ok (some ()))
    else openChannel maxOpened "Have" m tag channels
  | .active senders alive =>
    if alive = false then (m, .ok none)
    else if sender ∈ senders then (m, .ok (some ()))
    else (m, Outcome.err
      s!"Sender MpcIdentity(\"{sender}\") not found in session SessionId({sessionId})")

def findOrOpen :
    NetworkingManager × Outcome (Option Unit) :=
  match m.sessionStore.lookup tag.sessionId with
  | some status => fetchTxChannel maxOpened m status tag
  | none => openChannel maxOpened "Got" m tag ∅

/-- The server's part of a message: find or open the queue, and wait for a place in it. -/
def sendValue (queueFull : Bool) :
    NetworkingManager × Outcome ResponseStatus :=
  let sender := tag.sender
  let sessionId := tag.sessionId
  let round := tag.roundCounter
  let fetched := findOrOpen maxOpened m tag
  (fetched.1, do
    match ← fetched.2 with
    | none => return ((m.sessionStore.lookup tag.sessionId).map SessionStatus.response).getD .active
    | some _ =>
      if queueFull then
        Outcome.err (s!"Failed to process value for session SessionId({sessionId}), " ++
          s!"sender MpcIdentity(\"{sender}\"), round {round}: Elapsed(())")
      else
        return .active)

/-- A queue that the sender has opened before is taken over, and no longer counted. -/
def initQueue (m : NetworkingManager) (identity : MpcIdentity) :
    NetworkingManager :=
  if identity ∈ channels then m.setOpened identity (m.opened identity - 1) else m

/-- `owner` is the own host and port, `others` are the other parties of the session, and `connected`
is what connecting to them returns. -/
def makeNetworkSession (owner : String) (others : List MpcIdentity)
    (connected : Outcome Unit) : NetworkingManager × Outcome Unit :=
  match connected with
  | .error fault => (m, .error fault)
  | .ok _ =>
    match m.sessionStore.lookup sessionId with
    | some (.inactive channels) =>
      ((others.foldl (initQueue channels) m).setStatus sessionId
        (.active others.toFinset true), .ok ())
    | some _ => (m, Outcome.err
        s!"Session SessionId({sessionId}) already exists and is not inactive for {owner}")
    | none => (m.setStatus sessionId (.active others.toFinset true), .ok ())

/-- The background task looks at a session, whose time may be over. -/
def inspect (expired : Bool) : NetworkingManager :=
  match m.sessionStore.lookup sessionId with
  | none => m
  | some (.active _ false) => m.setStatus sessionId .completed
  | some _ => if expired then { m with toRemove := m.toRemove ++ [sessionId] } else m

def removeNext : NetworkingManager :=
  match m.toRemove with
  | [] => m
  | sessionId :: rest =>
    { m with sessionStore := m.sessionStore.erase sessionId, toRemove := rest }

/-- The network session of an active session ends with the protocol that uses it. -/
def dropSession : NetworkingManager :=
  match m.sessionStore.lookup sessionId with
  | some (.active senders _) => m.setStatus sessionId (.active senders false)
  | _ => m

end NetworkingManager

inductive NetworkEvent where
  | message (tag : Tag) (queueFull : Bool)
  | activate (sessionId : ℕ) (owner : String) (others : List MpcIdentity) (connected : Outcome Unit)
  | drop (sessionId : ℕ)
  | inspect (sessionId : ℕ) (expired : Bool)
  | removeNext

namespace NetworkingManager

def step : NetworkEvent → NetworkingManager
  | .message tag queueFull => (sendValue maxOpened m tag queueFull).1
  | .activate sessionId owner others connected =>
    (m.makeNetworkSession sessionId owner others connected).1
  | .drop sessionId => m.dropSession sessionId
  | .inspect sessionId expired => m.inspect sessionId expired
  | .removeNext => m.removeNext

/-- The sender has a queue in an inactive session. -/
def holdsChannel : Option SessionStatus → Bool
  | some (.inactive channels) => decide (sender ∈ channels)
  | _ => false

def inactiveSessions : Finset ℕ :=
  m.sessionStore.keys.toFinset.filter
    (fun sessionId => holdsChannel sender (m.sessionStore.lookup sessionId) = true)

/-- The tracker counts the inactive sessions of every sender. -/
def TracksInactive : Prop :=
  ∀ sender, m.opened sender = (m.inactiveSessions sender).card

/-- The tracker is right, and a sender with few inactive sessions can open another one. -/
structure KeepsQuota (maxOpened : ℕ) (m : NetworkingManager) : Prop where
  tracks : m.TracksInactive
  opens : ∀ tag : Tag, (m.inactiveSessions tag.sender).card < maxOpened →
    m.sessionStore.lookup tag.sessionId = none → (sendValue maxOpened m tag false).2 = .ok .active ∧
      tag.sessionId ∈ (sendValue maxOpened m tag false).1.inactiveSessions tag.sender

/-- Every sender with a queue in a session that becomes active takes part once, or has no other
inactive session and takes part; and no session with a queue is removed while it is inactive. -/
def Counted : NetworkEvent → Prop
  | .activate sessionId _ others connected => connected = .ok () →
      ∀ sender, sessionId ∈ m.inactiveSessions sender → others.count sender = 1 ∨
        0 < others.count sender ∧ m.inactiveSessions sender = {sessionId}
  | .removeNext => ∀ sessionId, m.toRemove.head? = some sessionId →
      ∀ sender, sessionId ∉ m.inactiveSessions sender
  | _ => True

end NetworkingManager

end ThresholdKms
