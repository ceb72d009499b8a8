import Mathlib.Data.List.TakeWhile
import ThresholdKms.Along
import ThresholdKms.Share

/-!
# Rounds of a network session

The messages of a sender wait in one queue, each with the round in which it was sent. A receive
drops the messages of earlier rounds and returns the next one; it does not look at whether that one
belongs to the current round. A message of a later round is therefore returned too early exactly
when it is the first in the queue that is not of an earlier round.
-/

namespace ThresholdKms

structure NetworkRoundValue (V : Type) where
  value : V
  roundCounter : ℕ
  deriving DecidableEq

/-- `sendingChannels` has what was sent to the other parties, and `queues` the receiving channels. A
sender is in `waiting` while a receive waits for its next message; that receive holds the channel,
and the round counter cannot change. -/
structure NetworkSession (V : Type) where
  roundCounter : ℕ
  sendingChannels : Role → Option (List (NetworkRoundValue V))
  queues : Role → Option (List (NetworkRoundValue V))
  waiting : Finset Role

/-- `deliver` is a message that the server puts into the queue, and `giveUp` the end of a receive
that waits, by its own time limit or by that of its caller. -/
inductive NetworkCall (V : Type) where
  | increaseRoundCounter
  | send (value : V) (receiver : Role)
  | deliver (sender : Role) (message : NetworkRoundValue V)
  | receive (sender : Role)
  | giveUp (sender : Role)

/-- What becomes of the messages in a step. -/
structure Received (V : Type) where
  returned : Option (NetworkRoundValue V)
  dropped : List (NetworkRoundValue V)

namespace NetworkSession

variable {V : Type} (s : NetworkSession V) (sender : Role)

def queue : List (NetworkRoundValue V) :=
  (s.queues sender).getD []

variable (queue : List (NetworkRoundValue V))

def setQueue :
    NetworkSession V :=
  { s with queues := Function.update s.queues sender (some queue) }

/-- The message is tagged with the round in which it is sent. -/
def send (value : V) (receiver : Role) : NetworkSession V × Outcome Unit :=
  match s.sendingChannels receiver with
  | some sent =>
    let sent := sent ++ [⟨value, s.roundCounter⟩]
    ({ s with sendingChannels := Function.update s.sendingChannels receiver (some sent) }, .ok ())
  | none => (s, Outcome.err s!"Missing local channel for Role({receiver})")

variable (message : NetworkRoundValue V)

def isOld : Bool :=
  decide (message.roundCounter < s.roundCounter)

/-- The loop of a receive over the messages that are there; it waits when there are none left. -/
def takeMessage :
    NetworkSession V × Received V :=
  match queue.dropWhile s.isOld with
  | [] => ({ s.setQueue sender [] with waiting := insert sender s.waiting },
      ⟨none, queue.takeWhile s.isOld⟩)
  | message :: rest => ({ s.setQueue sender rest with waiting := s.waiting.erase sender },
      ⟨some message, queue.takeWhile s.isOld⟩)

def perform : NetworkCall V → NetworkSession V × Received V
  | .increaseRoundCounter =>
    (if s.waiting = ∅ then { s with roundCounter := s.roundCounter + 1 } else s, ⟨none, []⟩)
  | .send value receiver => ((s.send value receiver).1, ⟨none, []⟩)
  | .deliver sender message =>
    match s.queues sender with
    | none => (s, ⟨none, []⟩)
    | some queue =>
      if sender ∈ s.waiting then s.takeMessage sender (queue ++ [message])
      else (s.setQueue sender (queue ++ [message]), ⟨none, []⟩)
  | .receive sender =>
    match s.queues sender with
    | none => (s, ⟨none, []⟩)
    | some queue =>
      if sender ∈ s.waiting then (s, ⟨none, []⟩) else s.takeMessage sender queue
  | .giveUp sender => ({ s with waiting := s.waiting.erase sender }, ⟨none, []⟩)

def step (call : NetworkCall V) : NetworkSession V := (s.perform call).1

/-- What a step has to do with the messages: it returns those of the current round, drops those of
earlier rounds, and leaves those of later rounds in their queues. -/
structure KeepsRounds (s : NetworkSession V) (call : NetworkCall V) : Prop where
  returned : ∀ message, (s.perform call).2.returned = some message →
    message.roundCounter = s.roundCounter
  dropped : ∀ message ∈ (s.perform call).2.dropped, message.roundCounter < s.roundCounter
  later : ∀ sender, ((s.queue sender).filter
    (fun message => decide (s.roundCounter < message.roundCounter))).Sublist
      ((s.step call).queue sender)

/-- The messages that a step looks at, if it receives from a sender. -/
def incoming : NetworkCall V → List (NetworkRoundValue V)
  | .receive sender => if sender ∈ s.waiting then [] else s.queue sender
  | .deliver sender message =>
    if sender ∈ s.waiting ∧ (s.queues sender).isSome then s.queue sender ++ [message] else []
  | _ => []

/-- The first message that is not of an earlier round is of the current one. -/
def InStep (call : NetworkCall V) : Prop :=
  ∀ message, (s.incoming call).find? (fun message => !s.isOld message) = some message →
    message.roundCounter = s.roundCounter

theorem queue_setQueue (sender sender' : Role) (queue : List (NetworkRoundValue V)) :
    (s.setQueue sender queue).queue sender' = if sender' = sender then queue else s.queue sender' := by
  unfold NetworkSession.queue setQueue
  dsimp only
  rw [Function.update_apply]
  split_ifs <;> rfl

theorem queue_send (value : V) (receiver sender : Role) :
    (s.send value receiver).1.queue sender = s.queue sender := by
  rw [send]
  cases s.sendingChannels receiver <;> rfl

theorem takeMessage_returned :
    (s.takeMessage sender queue).2.returned = queue.find? (fun message => !s.isOld message) := by
  rw [List.find?_not_eq_head?_dropWhile, takeMessage]
  cases queue.dropWhile s.isOld <;> rfl

theorem takeMessage_dropped :
    (s.takeMessage sender queue).2.dropped = queue.takeWhile s.isOld := by
  rw [takeMessage]
  cases queue.dropWhile s.isOld <;> rfl

theorem queue_takeMessage (sender sender' : Role) (queue : List (NetworkRoundValue V)) :
    (s.takeMessage sender queue).1.queue sender' =
      if sender' = sender then (queue.dropWhile s.isOld).tail else s.queue sender' := by
  rw [takeMessage]
  cases queue.dropWhile s.isOld with
  | nil => exact s.queue_setQueue sender sender' []
  | cons message rest => exact s.queue_setQueue sender sender' rest

variable {queue}

/-- Once the first message that is not old is of the current round, the later ones stay behind it. -/
theorem filter_later_sublist
    (h : ∀ message, queue.find? (fun message => !s.isOld message) = some message →
      message.roundCounter = s.roundCounter) :
    (queue.filter (fun message => decide (s.roundCounter < message.roundCounter))).Sublist
      (queue.dropWhile s.isOld).tail := by
  induction queue with
  | nil => exact List.Sublist.refl _
  | cons message queue ih =>
    by_cases hold : s.isOld message = true
    · have hround : ¬ s.roundCounter < message.roundCounter :=
        not_lt.mpr (of_decide_eq_true hold).le
      rw [List.find?_cons_of_neg (by simpa using hold)] at h
      rw [List.dropWhile_cons_of_pos hold, List.filter_cons_of_neg (by simpa using hround)]
      exact ih h
    · have hround := h message (List.find?_cons_of_pos (by simpa using hold))
      rw [List.dropWhile_cons_of_neg hold, List.filter_cons_of_neg (by simp [hround])]
      exact List.filter_sublist

variable {call : NetworkCall V}

/-- A step that looks at no message keeps the rounds. -/
theorem keepsRounds_iff_of_unchanged {s s' : NetworkSession V}
    (hperform : s.perform call = (s', ⟨none, []⟩))
    (hqueue : ∀ sender, (s.queue sender).Sublist (s'.queue sender)) (hincoming : s.incoming call = []) :
    s.KeepsRounds call ↔ s.InStep call := by
  refine iff_of_true ⟨?_, ?_, fun sender => ?_⟩ ?_
  · rw [hperform]
    nofun
  · rw [hperform]
    nofun
  · rw [step, hperform]
    exact List.filter_sublist.trans (hqueue sender)
  · rw [InStep, hincoming]
    nofun

/-- A step that takes messages keeps the rounds exactly when the message that it returns, if there
is one, is of the current round. -/
theorem keepsRounds_iff_of_takeMessage {s : NetworkSession V} {sender : Role}
    (hperform : s.perform call = s.takeMessage sender queue)
    (hqueue : (s.queue sender).Sublist queue) :
    s.KeepsRounds call ↔ ∀ message, queue.find? (fun message => !s.isOld message) = some message →
      message.roundCounter = s.roundCounter := by
  constructor
  · intro h message hfind
    refine h.returned message ?_
    rw [hperform, takeMessage_returned, hfind]
  · intro h
    refine ⟨?_, ?_, fun sender' => ?_⟩
    · rw [hperform, takeMessage_returned]
      exact h
    · rw [hperform, takeMessage_dropped]
      intro message hmessage
      have hold : s.isOld message = true := List.mem_takeWhile_imp hmessage
      exact of_decide_eq_true hold
    · rw [step, hperform, queue_takeMessage]
      split_ifs with heq
      · subst heq
        exact (hqueue.filter _).trans (s.filter_later_sublist h)
      · exact List.filter_sublist

theorem keepsRounds_deliver_iff :
    s.KeepsRounds (.deliver sender message) ↔ s.InStep (.deliver sender message) := by
  rcases Option.eq_none_or_eq_some (s.queues sender) with hnone | ⟨queue, hsome⟩
  · refine @keepsRounds_iff_of_unchanged _ _ s s ?_ (fun _ => .refl _) ?_
    · rw [perform, hnone]
    · rw [incoming, hnone]
      exact if_neg (fun h => Bool.false_ne_true h.2)
  · have hqueue : s.queue sender = queue := by rw [NetworkSession.queue, hsome]; rfl
    by_cases hwaiting : sender ∈ s.waiting
    · have hperform : s.perform (.deliver sender message) =
          s.takeMessage sender (queue ++ [message]) := by
        rw [perform, hsome]
        exact if_pos hwaiting
      rw [keepsRounds_iff_of_takeMessage hperform (hqueue ▸ List.sublist_append_left _ _), InStep,
        incoming, if_pos ⟨hwaiting, by rw [hsome]; rfl⟩, hqueue]
    · have hperform : s.perform (.deliver sender message) =
          (s.setQueue sender (queue ++ [message]), ⟨none, []⟩) := by
        rw [perform, hsome]
        exact if_neg hwaiting
      refine keepsRounds_iff_of_unchanged hperform (fun sender' => ?_)
        (if_neg (fun h => hwaiting h.1))
      rw [queue_setQueue]
      split_ifs with heq
      · subst heq
        exact hqueue ▸ List.sublist_append_left _ _
      · exact List.Sublist.refl _

theorem keepsRounds_receive_iff :
    s.KeepsRounds (.receive sender) ↔ s.InStep (.receive sender) := by
  rcases Option.eq_none_or_eq_some (s.queues sender) with hnone | ⟨queue, hsome⟩
  · refine @keepsRounds_iff_of_unchanged _ _ s s ?_ (fun _ => .refl _) ?_
    · rw [perform, hnone]
    · rw [incoming, NetworkSession.queue, hnone]
      exact ite_self _
  · have hqueue : s.queue sender = queue := by rw [NetworkSession.queue, hsome]; rfl
    by_cases hwaiting : sender ∈ s.waiting
    · have hperform : s.perform (.receive sender) = (s, ⟨none, []⟩) := by
        rw [perform, hsome]
        exact if_pos hwaiting
      exact keepsRounds_iff_of_unchanged hperform (fun _ => .refl _) (if_pos hwaiting)
    · have hperform : s.perform (.receive sender) = s.takeMessage sender queue := by
        rw [perform, hsome]
        exact if_neg hwaiting
      rw [keepsRounds_iff_of_takeMessage hperform (hqueue ▸ List.Sublist.refl _), InStep,
        incoming, if_neg hwaiting, hqueue]

theorem keepsRounds_iff (call : NetworkCall V) :
    s.KeepsRounds call ↔ s.InStep call := by
  cases call with
  | increaseRoundCounter =>
    refine keepsRounds_iff_of_unchanged rfl (fun sender => ?_) rfl
    split_ifs <;> exact List.Sublist.refl _
  | send value receiver =>
    refine keepsRounds_iff_of_unchanged rfl (fun sender => ?_) rfl
    rw [queue_send]
  | giveUp sender => exact keepsRounds_iff_of_unchanged rfl (fun _ => .refl _) rfl
  | deliver sender message => exact s.keepsRounds_deliver_iff sender message
  | receive sender => exact s.keepsRounds_receive_iff sender

/-- In a sequence of calls the rounds are kept exactly when every receive finds a message of the
current round in front of those of later rounds. -/
theorem along_keepsRounds_iff (calls : List (NetworkCall V)) :
    Along step KeepsRounds s calls ↔ Along step InStep s calls :=
  ⟨Along.imp (fun s call => (keepsRounds_iff s call).mp),
    Along.imp (fun s call => (keepsRounds_iff s call).mpr)⟩

/-- The message of round 0 is lost, and that of round 1 is returned in its place. -/
theorem not_keepsRounds_lost_message :
    ¬ Along step KeepsRounds
      (⟨0, fun receiver => if receiver = 2 then some [] else none,
        fun sender => if sender = 2 then some [⟨7, 1⟩] else none, ∅⟩ : NetworkSession ℕ)
      [.receive 2] := by
  rintro ⟨h, -⟩
  exact absurd (h.returned ⟨7, 1⟩ (by decide)) (by decide)

end NetworkSession

end ThresholdKms
