import Mathlib.Tactic
import ThresholdKms.Along

/-!
# The contexts in memory and in the storage

Creating and destroying a context are sequences of steps that wait for the storage or for a lock, so
the steps of several calls interleave. Each step looks at and changes the entries of its own context
only. The threshold manager keeps the contexts in the session maker, the centralized one keeps their
identifiers in a cache.
-/

namespace ThresholdKms

inductive ManagerKind where
  | threshold
  | centralized
  deriving DecidableEq

/-- How an access to the storage, to the certificates or to the verifier ends. -/
inductive Fate where
  | succeeds
  | fails
  | failsAfterwards
  deriving DecidableEq

/-- What is stored and what is registered under one identifier. -/
structure ContextEntry (κ : Type) where
  stored : Option κ
  registered : Option κ
  deriving DecidableEq

/-- Where a call is; `written` tells whether `write_context_info` returned `Ok`. -/
inductive ContextStep (κ : Type) where
  | readStored (info : κ)
  | readRegistry (info : κ)
  | checkDuplicate (info : κ)
  | write (info : κ)
  | purge (info : κ)
  | backup (info : κ)
  | register (info : κ) (written : Bool)
  | addToVerifier (info : κ) (written : Bool)
  | rollbackStored
  | rollbackRegistry
  | unregister
  | delete

inductive CallResult (κ : Type) where
  | created (info : κ)
  | destroyed
  | failed

namespace ContextStep

variable {κ : Type}

def run (kind : ManagerKind) (fate : Fate) (entry : ContextEntry κ) :
    ContextStep κ → ContextEntry κ × (ContextStep κ ⊕ CallResult κ)
  | .readStored info =>
    -- A context that cannot be read counts as one that does not exist.
    if fate = .succeeds ∧ entry.stored.isSome then (entry, .inr .failed)
    else (entry, .inl (match kind with
      | .threshold => .readRegistry info
      | .centralized => .checkDuplicate info))
  | .readRegistry info =>
    if entry.registered.isSome then (entry, .inr .failed) else (entry, .inl (.checkDuplicate info))
  | .checkDuplicate info =>
    if fate ≠ .succeeds ∨ entry.stored.isSome then (entry, .inl (.register info false))
    else (entry, .inl (.write info))
  | .write info =>
    -- Data that exists is kept, and the write succeeds.
    (if fate = .fails then entry else { entry with stored := some (entry.stored.getD info) },
      .inl (if fate = .succeeds then .backup info else .purge info))
  | .purge info =>
    (if fate = .fails then entry else { entry with stored := none }, .inl (.register info false))
  | .backup info => (entry, .inl (.register info (decide (fate = .succeeds))))
  | .register info written =>
    match kind with
    | .threshold =>
      if fate = .fails then (entry, .inl .rollbackStored)
      else ({ entry with registered := some info }, .inl (.addToVerifier info written))
    | .centralized =>
      ({ entry with registered := some info }, .inr (if written then .created info else .failed))
  | .addToVerifier info written =>
    (entry, if fate = .succeeds ∧ written then .inr (.created info) else .inl .rollbackStored)
  | .rollbackStored =>
    (if fate = .fails then entry else { entry with stored := none }, .inl .rollbackRegistry)
  | .rollbackRegistry => ({ entry with registered := none }, .inr .failed)
  | .unregister =>
    ({ entry with registered := none }, match kind with
      | .threshold => .inl .delete
      | .centralized => .inr .destroyed)
  | .delete =>
    (if fate = .fails then entry else { entry with stored := none },
      if fate = .succeeds then
        match kind with
        | .threshold => .inr .destroyed
        | .centralized => .inl .unregister
      else .inr .failed)

end ContextStep

structure ContextCall (χ κ : Type) where
  contextId : χ
  step : ContextStep κ

/-- `kept` has the contexts whose creation returned `Ok` and whose destruction has not started. -/
structure ContextRegistry (χ κ : Type) where
  entry : χ → ContextEntry κ
  calls : ℕ → Option (ContextCall χ κ)
  kept : χ → Option κ

inductive ContextEvent (χ κ : Type) where
  | newContext (call : ℕ) (contextId : χ) (info : κ)
  | destroyContext (call : ℕ) (contextId : χ)
  | advance (call : ℕ) (fate : Fate)

namespace ContextRegistry

variable {χ κ : Type} [DecidableEq χ]

def destroyStart : ManagerKind → ContextStep κ
  | .threshold => .unregister
  | .centralized => .delete

/-- A call that has returned is forgotten. -/
def finish (r : ContextRegistry χ κ) (call : ℕ) (contextId : χ) :
    ContextStep κ ⊕ CallResult κ → ContextRegistry χ κ
  | .inl step => { r with calls := Function.update r.calls call (some ⟨contextId, step⟩) }
  | .inr (.created info) =>
    { r with
      calls := Function.update r.calls call none
      kept := Function.update r.kept contextId (some info) }
  | .inr _ => { r with calls := Function.update r.calls call none }

def step (kind : ManagerKind) (r : ContextRegistry χ κ) : ContextEvent χ κ → ContextRegistry χ κ
  | .newContext call contextId info =>
    if r.calls call = none then
      { r with calls := Function.update r.calls call (some ⟨contextId, .readStored info⟩) }
    else r
  | .destroyContext call contextId =>
    if r.calls call = none then
      { r with
        calls := Function.update r.calls call (some ⟨contextId, destroyStart kind⟩)
        kept := Function.update r.kept contextId none }
    else r
  | .advance call fate =>
    match r.calls call with
    | none => r
    | some current =>
      let result := current.step.run kind fate (r.entry current.contextId)
      { r with entry := Function.update r.entry current.contextId result.1 }.finish call
        current.contextId result.2

/-- What is registered is what is stored; the cache has no more than the identifiers. -/
def Agrees : ManagerKind → ContextEntry κ → Prop
  | .threshold, entry => entry.registered = entry.stored
  | .centralized, entry => entry.registered.isSome = entry.stored.isSome

def RegisteredAs (kind : ManagerKind) (info : κ) (entry : ContextEntry κ) : Prop :=
  match kind with
  | .threshold => entry.registered = some info
  | .centralized => entry.registered.isSome

/-- Memory and storage agree when no call is in progress, and contexts stay until their destruction
starts. -/
structure Consistent (kind : ManagerKind) (r : ContextRegistry χ κ) : Prop where
  agrees : (∀ call, r.calls call = none) → ∀ contextId, Agrees kind (r.entry contextId)
  keeps : ∀ contextId info, r.kept contextId = some info →
    RegisteredAs kind info (r.entry contextId)

/-- The accesses that may not fail: deletions, and in the centralized manager also the write. -/
def Undisturbed : ManagerKind → ContextStep κ → Fate → Prop
  | .threshold, .rollbackStored, fate => fate ≠ .fails
  | .threshold, .delete, fate => fate ≠ .fails
  | .centralized, .checkDuplicate _, fate => fate = .succeeds
  | .centralized, .write _, fate => fate = .succeeds
  | .centralized, .delete, fate => fate = .succeeds
  | _, _, _ => True

/-- No call starts while another one for the same context is in progress. -/
def Orderly (kind : ManagerKind) (r : ContextRegistry χ κ) : ContextEvent χ κ → Prop
  | .newContext _ contextId _ =>
    ∀ other current, r.calls other = some current → current.contextId ≠ contextId
  | .destroyContext _ contextId =>
    ∀ other current, r.calls other = some current → current.contextId ≠ contextId
  | .advance call fate =>
    ∀ current, r.calls call = some current → Undisturbed kind current.step fate

end ContextRegistry

end ThresholdKms
