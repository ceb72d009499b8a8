import ThresholdKms.ContextRegistry

/-!
# Epochs in memory, in the storage and in the key cache

Creating an epoch stores and registers its setup and then, much later, the reshared keys, in a task of
its own. Key generations of the epoch are tasks as well. A destruction looks at the registry first and
deletes what it finds in the storage at that moment. The steps of all of these interleave; each one
changes the data of its own epoch only.
-/

namespace ThresholdKms

/-- Private data that is stored under an epoch. -/
inductive EpochItem (κ : Type) where
  | key (id : κ)
  | crs (id : κ)
  deriving DecidableEq

/-- `known` tells whether the meta store of new epochs has the identifier, and `erased` whether a
destruction has returned `Ok` since the last creation was admitted. -/
structure EpochEntry (κ : Type) where
  prss : Bool
  registered : Bool
  items : Finset (EpochItem κ)
  cached : Finset κ
  known : Bool
  erased : Bool

/-- What a step does not decide itself: how its access ends, which of the concurrent writes goes on,
and in a destruction the items that are not deleted and whether listing or deleting reports an error. -/
structure Chance (κ : Type) where
  fate : Fate
  writer : ℕ
  kept : Finset (EpochItem κ)
  reported : Bool

/-- Where the storing of one item is; `stored` tells whether `write_all` returned `Ok`. -/
inductive WriterStep where
  | check
  | write
  | purge
  | backup
  | cache (stored : Bool)

namespace WriterStep

variable {κ : Type} [DecidableEq κ]

def cacheItem (item : EpochItem κ) (cached : Finset κ) : Finset κ :=
  match item with
  | .key id => insert id cached
  | .crs _ => cached

/-- A generated key has public parts as well: the check also wants these to exist before it reports a
duplicate, and only a generated key is backed up at once. -/
def run (generated : Bool) (item : EpochItem κ) (fate : Fate) (entry : EpochEntry κ) :
    WriterStep → EpochEntry κ × (WriterStep ⊕ Bool)
  | .check =>
    (entry, if fate ≠ .succeeds ∨ (generated = false ∧ item ∈ entry.items) then .inr false
      else .inl .write)
  | .write =>
    (if fate = .fails then entry else { entry with items := insert item entry.items },
      .inl (if fate ≠ .succeeds then .purge else if generated then .backup else .cache true))
  | .purge =>
    (if fate = .fails then entry else { entry with items := entry.items.erase item }, .inr false)
  | .backup => (entry, .inl (.cache (decide (fate = .succeeds))))
  | .cache stored => ({ entry with cached := cacheItem item entry.cached }, .inr stored)

end WriterStep

/-- Where a call is. The `plan` of a creation has the items to be reshared into the epoch, and the
`original` of a key generation is the key that it replaces. -/
inductive EpochStep (κ : Type) where
  | initPrss (plan : Option (List (EpochItem κ)))
  | checkPrss (plan : Option (List (EpochItem κ)))
  | writePrss (plan : Option (List (EpochItem κ)))
  | purgePrss
  | backupPrss (plan : Option (List (EpochItem κ)))
  | registerEpoch (plan : Option (List (EpochItem κ)))
  | reshare (items : List (EpochItem κ))
  | store (items : List (EpochItem κ)) (writers : List (EpochItem κ × WriterStep)) (failed : Bool)
  | rollback (items : List (EpochItem κ))
  | uncache (id : κ) (items : List (EpochItem κ))
  | generate (key : κ) (original : Option κ)
  | writeKey (key : κ) (original : Option κ) (step : WriterStep)
  | copyKey (original : κ)
  | cacheCopy (original : κ)
  | destroyCheck
  | destroyData
  | unregister
  | purgeCache (destroyed : Bool)

namespace EpochStep

variable {κ : Type} [DecidableEq κ]

/-- One round of `join_all` over the writes of a resharing. -/
def runStore (chance : Chance κ) (entry : EpochEntry κ) (items : List (EpochItem κ))
    (writers : List (EpochItem κ × WriterStep)) (failed : Bool) :
    EpochEntry κ × Option (EpochStep κ) :=
  match writers[chance.writer]? with
  | some (item, step) =>
    let result := step.run false item chance.fate entry
    (result.1, some (match result.2 with
      | .inl next => .store items (writers.set chance.writer (item, next)) failed
      | .inr stored => .store items (writers.eraseIdx chance.writer) (failed || !stored)))
  | none =>
    (entry, if writers.length ≠ 0 then some (.store items writers failed)
      else if failed then some (.rollback items) else none)

/-- The storage is locked, so that nothing comes between the deletions. The setup goes last. -/
def runDestroyData (chance : Chance κ) (entry : EpochEntry κ) : EpochEntry κ × Option (EpochStep κ) :=
  let items := entry.items ∩ chance.kept
  if chance.reported ∨ items ≠ ∅ then ({ entry with items := items }, some (.purgeCache false))
  else
    ({ entry with items := items, prss := entry.prss && decide (chance.fate = .fails) },
      some (if chance.fate = .succeeds then .unregister else .purgeCache false))

def run (chance : Chance κ) (entry : EpochEntry κ) :
    EpochStep κ → EpochEntry κ × Option (EpochStep κ)
  | .initPrss plan =>
    (entry, if entry.registered ∨ chance.fate ≠ .succeeds then none else some (.checkPrss plan))
  | .checkPrss plan =>
    (entry, if chance.fate ≠ .succeeds ∨ entry.prss then none else some (.writePrss plan))
  | .writePrss plan =>
    (if chance.fate = .fails then entry else { entry with prss := true },
      some (if chance.fate = .succeeds then .backupPrss plan else .purgePrss))
  | .purgePrss => (if chance.fate = .fails then entry else { entry with prss := false }, none)
  | .backupPrss plan =>
    -- Without its backup the setup stays stored, and the epoch is not registered.
    (entry, if chance.fate = .succeeds then some (.registerEpoch plan) else none)
  | .registerEpoch plan => ({ entry with registered := true }, plan.map .reshare)
  | .reshare items =>
    (entry, if entry.registered ∧ chance.fate = .succeeds then
      some (.store items (items.map (fun item => (item, .check))) false) else none)
  | .store items writers failed => runStore chance entry items writers failed
  | .rollback [] => (entry, none)
  | .rollback (item :: items) =>
    (if chance.fate = .fails then entry else { entry with items := entry.items.erase item },
      some (match item with
        | .key id => .uncache id items
        | .crs _ => .rollback items))
  | .uncache id items => ({ entry with cached := entry.cached.erase id }, some (.rollback items))
  | .generate key original =>
    -- A generation that is aborted purges its key.
    (entry, match chance.fate with
      | .succeeds => some (.writeKey key original .check)
      | .fails => none
      | .failsAfterwards => some (.rollback [.key key]))
  | .writeKey key original step =>
    let result := step.run true (.key key) chance.fate entry
    (result.1, match result.2 with
      | .inl next => some (.writeKey key original next)
      | .inr stored => if stored then original.map .copyKey else none)
  | .copyKey original =>
    -- The key is deleted and stored again.
    if .key original ∈ entry.items then
      match chance.fate with
      | .succeeds => (entry, some (.cacheCopy original))
      | .fails => (entry, none)
      | .failsAfterwards => ({ entry with items := entry.items.erase (.key original) }, none)
    else (entry, none)
  | .cacheCopy original => ({ entry with cached := insert original entry.cached }, none)
  | .destroyCheck => (entry, some (if entry.registered then .destroyData else .purgeCache false))
  | .destroyData => runDestroyData chance entry
  | .unregister => ({ entry with registered := false }, some (.purgeCache true))
  | .purgeCache destroyed =>
    ({ entry with cached := ∅, erased := entry.erased || destroyed }, none)

end EpochStep

structure EpochCall (ε κ : Type) where
  epochId : ε
  step : EpochStep κ

structure EpochRegistry (ε κ : Type) where
  entry : ε → EpochEntry κ
  calls : ℕ → Option (EpochCall ε κ)

/-- `readKey` is what every use of a key does; it keeps the storage locked until the key is cached. -/
inductive EpochEvent (ε κ : Type) where
  | newEpoch (call : ℕ) (epochId : ε) (plan : Option (List (EpochItem κ)))
  | keyGen (call : ℕ) (epochId : ε) (key : κ) (original : Option κ)
  | destroyEpoch (call : ℕ) (epochId : ε)
  | advance (call : ℕ) (chance : Chance κ)
  | readKey (epochId : ε) (key : κ) (fate : Fate)
  | restart

namespace EpochRegistry

variable {ε κ : Type} [DecidableEq ε] [DecidableEq κ]

def read (key : κ) (fate : Fate) (entry : EpochEntry κ) : EpochEntry κ :=
  if fate = .succeeds ∧ .key key ∈ entry.items then
    { entry with cached := insert key entry.cached }
  else entry

/-- The registry is built again from the setups that are stored. -/
def reload (entry : EpochEntry κ) : EpochEntry κ :=
  { entry with registered := entry.prss, cached := ∅, known := false }

variable (r : EpochRegistry ε κ)

def change (call : ℕ) (epochId : ε) (entry : EpochEntry κ)
    (next : Option (EpochStep κ)) : EpochRegistry ε κ where
  entry := Function.update r.entry epochId entry
  calls := Function.update r.calls call (next.map (fun step => ⟨epochId, step⟩))

def step : EpochEvent ε κ → EpochRegistry ε κ
  | .newEpoch call epochId plan =>
    let entry := r.entry epochId
    if (r.calls call).isSome ∨ entry.registered ∨ entry.known then r
    else r.change call epochId { entry with known := true, erased := false } (some (.initPrss plan))
  | .keyGen call epochId key original =>
    if (r.calls call).isSome ∨ ¬ (r.entry epochId).registered then r
    else r.change call epochId (r.entry epochId) (some (.generate key original))
  | .destroyEpoch call epochId =>
    if (r.calls call).isSome then r
    else r.change call epochId (r.entry epochId) (some .destroyCheck)
  | .advance call chance =>
    match r.calls call with
    | none => r
    | some current =>
      let result := current.step.run chance (r.entry current.epochId)
      r.change call current.epochId result.1 result.2
  | .readKey epochId key fate =>
    { r with entry := Function.update r.entry epochId (read key fate (r.entry epochId)) }
  | .restart => ⟨fun epochId => reload (r.entry epochId), fun _ => none⟩

/-- Something of the epoch is stored or cached. -/
def Held (entry : EpochEntry κ) : Prop := entry.items ≠ ∅ ∨ entry.cached ≠ ∅

structure Covered (entry : EpochEntry κ) : Prop where
  held : Held entry → entry.prss = true
  registered : entry.registered = entry.prss

/-- No share is orphaned when no call is in progress, and nothing is left of a destroyed epoch. -/
structure Accounted (r : EpochRegistry ε κ) : Prop where
  covered : (∀ call, r.calls call = none) → ∀ epochId, Covered (r.entry epochId)
  erased : ∀ epochId, (r.entry epochId).erased = true →
    (r.entry epochId).prss = false ∧ ¬ Held (r.entry epochId)

/-- The accesses that may not fail: the clean-up after a failed write of a setup, its backup, and a
deletion of a setup that deletes it. -/
def Harmless (chance : Chance κ) : EpochStep κ → Prop
  | .purgePrss => chance.fate ≠ .fails
  | .backupPrss _ => chance.fate = .succeeds
  | .destroyData => chance.fate ≠ .failsAfterwards
  | _ => True

def Destroying : EpochStep κ → Prop
  | .destroyCheck => True
  | .destroyData => True
  | .unregister => True
  | .purgeCache _ => True
  | _ => False

/-- A destruction does not overlap with another call for its epoch. -/
def Separate : EpochEvent ε κ → Prop
  | .newEpoch _ epochId _ => ∀ call current, r.calls call = some current →
      current.epochId = epochId → ¬ Destroying current.step
  | .keyGen _ epochId _ _ => ∀ call current, r.calls call = some current →
      current.epochId = epochId → ¬ Destroying current.step
  | .destroyEpoch _ epochId => ∀ call current, r.calls call = some current →
      current.epochId ≠ epochId
  | .advance call chance => ∀ current, r.calls call = some current → Harmless chance current.step
  | .readKey _ _ _ => True
  | .restart => True

end EpochRegistry

end ThresholdKms
