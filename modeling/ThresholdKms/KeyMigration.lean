import ThresholdKms.Identifiers
import ThresholdKms.Interruptible

/-!
# Start-up migration of the private storage

FHE keys were first stored without an epoch, then under a legacy epoch, and are now under the default
epoch. At every start-up four passes copy the keys that are missing at the next place and remove the
copies that are no longer needed; between them the PRSS setup and the MPC context are moved too. The
passes look at existing files only by name. `leaves bytes part` says that a write of `bytes` may leave
`part` in the file when it is interrupted.

Identifiers of keys are not those of epochs, so no path is both a key and the directory of an epoch.
-/

namespace ThresholdKms

inductive KMSType where
  | centralized | threshold
  deriving DecidableEq, Repr

/-- The types of private data with FHE keys. -/
inductive FheDataType where
  | fhePrivateKey | fheKeyInfo
  deriving DecidableEq, Repr

structure KeyPath where
  dataType : FheDataType
  epoch : Option Identifier
  id : Identifier
  deriving DecidableEq

inductive OtherPath where
  | prssSetup (id : Identifier)
  | prssSetupCombined (id : Identifier)
  | contextInfo (id : Identifier)
  deriving DecidableEq

structure PrivStorage where
  keys : HashMap KeyPath Bytes
  others : HashMap OtherPath Bytes

def legacyDefaultMpcContext : Identifier := ⟨List.replicate 29 1 ++ [2, 3, 4], rfl⟩

def legacyDefaultEpochId : Identifier := ⟨List.replicate 31 0 ++ [1], rfl⟩

def defaultMpcContext : Identifier := ⟨7 :: List.replicate 30 0 ++ [1], rfl⟩

def defaultEpochId : Identifier := ⟨8 :: List.replicate 30 0 ++ [1], rfl⟩

/-- The versioned encodings of the elements that are moved besides the keys. -/
structure MigrationCodec where
  Context : Type
  Prss128 : Type
  Prss64 : Type
  Combined : Type
  readContext : Bytes → Option Context
  writeContext : Context → Bytes
  withContextId : Context → Identifier → Context
  threshold : Context → UInt8
  numParties : Context → ℕ
  readPrss128 : Bytes → Option Prss128
  readPrss64 : Bytes → Option Prss64
  combine : Prss128 → Prss64 → UInt8 → UInt8 → Combined
  readCombined : Bytes → Option Combined
  writeCombined : Combined → Bytes
  prss128LegacyId : Identifier → ℕ → UInt8 → Identifier
  prss64LegacyId : Identifier → ℕ → UInt8 → Identifier

namespace PrivStorage

def allDataIds (s : PrivStorage) (dataType : FheDataType) (epoch : Option Identifier) :
    List Identifier :=
  (s.keys.keys.filter (fun path => path.dataType = dataType ∧ path.epoch = epoch)).map (·.id)

def deleteKey (path : KeyPath) : Interruptible PrivStorage :=
  .atomic (fun s => { s with keys := s.keys.erase path })

def deleteData (path : OtherPath) : Interruptible PrivStorage :=
  .atomic (fun s => { s with others := s.others.erase path })

/-- Existing data is kept; the file appears as a whole. -/
def storeVersioned (path : OtherPath) (data : Bytes) : Interruptible PrivStorage :=
  .read (fun s =>
    if path ∈ s.others then .skip
    else .atomic (fun s => { s with others := s.others.insert path data }))

variable (leaves : Bytes → Bytes → Prop)

def writeBytes (path : KeyPath) (bytes : Bytes) : Interruptible PrivStorage :=
  .change (fun s => { s with keys := s.keys.insert path bytes })
    (fun s s' => ∃ part, leaves bytes part ∧ s' = { s with keys := s.keys.insert path part })

def storeBytes (path : KeyPath) (bytes : Bytes) : Interruptible PrivStorage :=
  .read (fun s => if path ∈ s.keys then .skip else writeBytes leaves path bytes)

end PrivStorage

open PrivStorage

variable (leaves : Bytes → Bytes → Prop) (codec : MigrationCodec)

def KMSType.dataType : KMSType → FheDataType
  | .centralized => .fhePrivateKey
  | .threshold => .fheKeyInfo

variable (dataType : FheDataType) (source target : Option Identifier)

/-- Copies one key unless there is one at the target. A listed key can be loaded. -/
def copyKey (keyId : Identifier) :
    Interruptible PrivStorage :=
  .read (fun s =>
    if ⟨dataType, target, keyId⟩ ∈ s.keys then .skip
    else
      match s.keys.lookup ⟨dataType, source, keyId⟩ with
      | none => .skip
      | some data => storeBytes leaves ⟨dataType, target, keyId⟩ data)

def copyKeys :
    Interruptible PrivStorage :=
  .read (fun s =>
    .forEach (copyKey leaves dataType source target) (s.allDataIds dataType source))

/-- Removes one key if there is one at the other place. -/
def removeKey (keyId : Identifier) :
    Interruptible PrivStorage :=
  .read (fun s =>
    if ⟨dataType, target, keyId⟩ ∈ s.keys then deleteKey ⟨dataType, source, keyId⟩ else .skip)

def removeKeys :
    Interruptible PrivStorage :=
  .read (fun s => .forEach (removeKey dataType source target) (s.allDataIds dataType source))

variable (kmsType : KMSType)

def migrateFheKeysV012ToV013 : Interruptible PrivStorage :=
  copyKeys leaves kmsType.dataType none (some legacyDefaultEpochId)

def migrateFheKeys013xTo01310 : Interruptible PrivStorage :=
  copyKeys leaves kmsType.dataType (some legacyDefaultEpochId) (some defaultEpochId)

def migrateFheKeysAfter013x : Interruptible PrivStorage :=
  removeKeys kmsType.dataType none (some legacyDefaultEpochId)

def removeOldKeysFor01320 : Interruptible PrivStorage :=
  removeKeys kmsType.dataType (some legacyDefaultEpochId) (some defaultEpochId)

def readContextAt (s : PrivStorage) (id : Identifier) : Option codec.Context :=
  (s.others.lookup (.contextInfo id)).bind codec.readContext

/-- The two halves of the PRSS setup, joined under the legacy epoch. -/
def migrateLegacyPrss : Interruptible PrivStorage :=
  .read (fun s =>
    match readContextAt codec s legacyDefaultMpcContext with
    | none => .skip
    | some context =>
      if .prssSetupCombined legacyDefaultEpochId ∈ s.others then .skip
      else
        let numParties := codec.numParties context
        let threshold := codec.threshold context
        let id128 := codec.prss128LegacyId legacyDefaultEpochId numParties threshold
        let id64 := codec.prss64LegacyId legacyDefaultEpochId numParties threshold
        match (s.others.lookup (.prssSetup id128)).bind codec.readPrss128,
            (s.others.lookup (.prssSetup id64)).bind codec.readPrss64 with
        | some prss128, some prss64 =>
          (storeVersioned (.prssSetupCombined legacyDefaultEpochId) (codec.writeCombined
            (codec.combine prss128 prss64 (UInt8.ofNat numParties) threshold))).seq
            ((deleteData (.prssSetup id128)).seq (deleteData (.prssSetup id64)))
        | _, _ => .skip)

def migrateCombinedPrssTo01310 : Interruptible PrivStorage :=
  .read (fun s =>
    match (s.others.lookup (.prssSetupCombined legacyDefaultEpochId)).bind codec.readCombined with
    | none => .skip
    | some prss =>
      (storeVersioned (.prssSetupCombined defaultEpochId) (codec.writeCombined prss)).seq
        (deleteData (.prssSetupCombined legacyDefaultEpochId)))

def migrateContextBefore01310 : Interruptible PrivStorage :=
  .read (fun s =>
    match readContextAt codec s legacyDefaultMpcContext with
    | none => .skip
    | some context =>
      (storeVersioned (.contextInfo defaultMpcContext)
        (codec.writeContext (codec.withContextId context defaultMpcContext))).seq
        (deleteData (.contextInfo legacyDefaultMpcContext)))

/-- What only a threshold KMS does. -/
def whenThreshold (p : Interruptible PrivStorage) : Interruptible PrivStorage :=
  match kmsType with
  | .threshold => p
  | .centralized => .skip

def migrateTo013x : Interruptible PrivStorage :=
  (migrateFheKeysV012ToV013 leaves kmsType).seq (whenThreshold kmsType (migrateLegacyPrss codec))

def migrateTo01310 : Interruptible PrivStorage :=
  (migrateTo013x leaves codec kmsType).seq <|
    (whenThreshold kmsType (migrateCombinedPrssTo01310 codec)).seq <|
      (migrateContextBefore01310 codec).seq <|
        (migrateFheKeys013xTo01310 leaves kmsType).seq (migrateFheKeysAfter013x kmsType)

def migrateTo01320 : Interruptible PrivStorage :=
  (migrateTo01310 leaves codec kmsType).seq (removeOldKeysFor01320 kmsType)

/-!
## No key is lost by the migration

`Intact` says that every key of the first storage still has a copy with its bytes at one of the three
places. Each change keeps it, and so does every interruption of a write that leaves no partial file.
A run that ends has moved the first copy that it finds to the default epoch.
-/

open Interruptible

/-- The places from which keys are migrated, and the one to which they are. -/
def keyPlaces : List (Option Identifier) := [none, some legacyDefaultEpochId, some defaultEpochId]

/-- The bytes of the key at the default epoch, or else at the legacy epoch, or else without epoch. -/
def firstCopy (dataType : FheDataType) (s : PrivStorage) (id : Identifier) : Option Bytes :=
  (s.keys.lookup ⟨dataType, some defaultEpochId, id⟩).or
    ((s.keys.lookup ⟨dataType, some legacyDefaultEpochId, id⟩).or
      (s.keys.lookup ⟨dataType, none, id⟩))

theorem legacy_ne_default :
    (some legacyDefaultEpochId : Option Identifier) ≠ some defaultEpochId := by
  decide +kernel

variable {leaves codec dataType source target} {s : PrivStorage}

section Passes

theorem mem_allDataIds {id : Identifier} :
    id ∈ s.allDataIds dataType source ↔ ⟨dataType, source, id⟩ ∈ s.keys := by
  rw [allDataIds, List.mem_map]
  constructor
  · rintro ⟨⟨dt, e, i⟩, hmem, rfl⟩
    obtain ⟨hkey, heq⟩ := List.mem_filter.mp hmem
    obtain ⟨rfl, rfl⟩ := of_decide_eq_true heq
    exact hkey
  · intro hmem
    exact ⟨⟨dataType, source, id⟩, List.mem_filter.mpr ⟨hmem, by simp⟩, rfl⟩

theorem lookup_eq_none_of_notMem {id : Identifier} (h : id ∉ s.allDataIds dataType source) :
    s.keys.lookup ⟨dataType, source, id⟩ = none := by
  rw [mem_allDataIds] at h
  exact AList.lookup_eq_none.mpr h

theorem lookup_copyKey (id : Identifier) (path : KeyPath) :
    ((copyKey leaves dataType source target id).run s).keys.lookup path =
      if path = ⟨dataType, target, id⟩ then
        (s.keys.lookup path).or (s.keys.lookup ⟨dataType, source, id⟩)
      else s.keys.lookup path := by
  simp only [copyKey, Interruptible.read]
  by_cases hmem : (⟨dataType, target, id⟩ : KeyPath) ∈ s.keys
  · split_ifs with hpath
    · obtain ⟨bytes, hbytes⟩ := exists_lookup_of_mem hmem
      rw [hpath, hbytes]
      exact hbytes
    · rfl
  · rw [if_neg hmem]
    cases hload : s.keys.lookup ⟨dataType, source, id⟩ with
    | none =>
      rw [Option.or_none, ite_self]
      rfl
    | some data =>
      simp only [storeBytes, Interruptible.read, if_neg hmem, writeBytes, change]
      split_ifs with hpath
      · rw [hpath, AList.lookup_insert, AList.lookup_eq_none.mpr hmem]
        rfl
      · exact AList.lookup_insert_ne hpath

/-- A pass whose steps each replace the key at one place by what `f` makes of it and of the key at
another place; keys that the pass does not visit are not changed by `f`. -/
theorem lookup_pass {body : Identifier → Interruptible PrivStorage} {place other : Option Identifier}
    (hne : place ≠ other) {f : Option Bytes → Option Bytes → Option Bytes}
    (hbody : ∀ s id path, ((body id).run s).keys.lookup path = if path = ⟨dataType, place, id⟩ then
        f (s.keys.lookup path) (s.keys.lookup ⟨dataType, other, id⟩)
      else s.keys.lookup path)
    (hf : ∀ a b, f (f a b) b = f a b) {ids : List Identifier}
    (hrest : ∀ id ∉ ids, f (s.keys.lookup ⟨dataType, place, id⟩)
      (s.keys.lookup ⟨dataType, other, id⟩) = s.keys.lookup ⟨dataType, place, id⟩)
    (path : KeyPath) :
    ((forEach body ids).run s).keys.lookup path =
      if path.dataType = dataType ∧ path.epoch = place then
        f (s.keys.lookup path) (s.keys.lookup ⟨dataType, other, path.id⟩)
      else s.keys.lookup path := by
  have hother : ∀ s id i, ((body id).run s).keys.lookup ⟨dataType, other, i⟩ =
      s.keys.lookup ⟨dataType, other, i⟩ := fun s id i => by
    rw [hbody, if_neg (fun h => hne (congrArg KeyPath.epoch h).symm)]
  induction ids generalizing s with
  | nil =>
    split_ifs with hplace
    · obtain ⟨dt, epoch, i⟩ := path
      obtain ⟨rfl, rfl⟩ := hplace
      exact (hrest i List.not_mem_nil).symm
    · rfl
  | cons id ids ih =>
    rw [forEach, Interruptible.seq, ih]
    · rw [hother, hbody]
      split_ifs with hplace hid hid
      · rw [hid, hf]
      · rfl
      · exact absurd ⟨congrArg KeyPath.dataType hid, congrArg KeyPath.epoch hid⟩ hplace
      · rfl
    · intro i hi
      rw [hother, hbody]
      split_ifs with hid
      · obtain rfl : i = id := congrArg KeyPath.id hid
        exact hf _ _
      · exact hrest i (List.not_mem_cons_of_ne_of_not_mem (fun h => hid (h ▸ rfl)) hi)

/-- After a copying pass the target has its own copy, or else the one of the source. -/
theorem lookup_copyKeys (hne : source ≠ target) (path : KeyPath) :
    ((copyKeys leaves dataType source target).run s).keys.lookup path =
      if path.dataType = dataType ∧ path.epoch = target then
        (s.keys.lookup path).or (s.keys.lookup ⟨dataType, source, path.id⟩)
      else s.keys.lookup path := by
  refine lookup_pass hne.symm (fun s => @lookup_copyKey _ _ _ _ s) ?_ ?_ path
  · intro a b
    rw [Option.or_assoc, Option.or_self]
  · intro id hid
    rw [lookup_eq_none_of_notMem hid, Option.or_none]

theorem lookup_removeKey (id : Identifier) (path : KeyPath) :
    ((removeKey dataType source target id).run s).keys.lookup path =
      if path = ⟨dataType, source, id⟩ then
        if (s.keys.lookup ⟨dataType, target, id⟩).isSome then none else s.keys.lookup path
      else s.keys.lookup path := by
  simp only [removeKey, Interruptible.read]
  by_cases hmem : (⟨dataType, target, id⟩ : KeyPath) ∈ s.keys
  · simp only [if_pos hmem, AList.lookup_isSome.mpr hmem, if_true, deleteKey, atomic, change]
    split_ifs with hpath
    · rw [hpath, AList.lookup_erase]
    · exact AList.lookup_erase_ne hpath
  · rw [if_neg hmem, if_neg (fun h => hmem (AList.lookup_isSome.mp h)), ite_self]
    rfl

theorem lookup_removeKeys (hne : source ≠ target) (path : KeyPath) :
    ((removeKeys dataType source target).run s).keys.lookup path =
      if path.dataType = dataType ∧ path.epoch = source then
        if (s.keys.lookup ⟨dataType, target, path.id⟩).isSome then none else s.keys.lookup path
      else s.keys.lookup path := by
  refine lookup_pass hne (f := fun a b => if b.isSome then none else a)
    (fun s => @lookup_removeKey _ _ _ s) ?_ ?_ path
  · intro a b
    split_ifs
    · rfl
    · rfl
  · intro id hid
    rw [lookup_eq_none_of_notMem hid, ite_self]

end Passes

section Frames

variable (keys : HashMap KeyPath Bytes)

theorem keeps_keys_storeVersioned (path : OtherPath) (data : Bytes) :
    Keeps (fun s : PrivStorage => s.keys = keys) (storeVersioned path data) :=
  keeps_read_of_keeps (fun _ => keeps_ite keeps_skip (keeps_atomic (fun _ h => h)))

theorem keeps_keys_deleteData (path : OtherPath) :
    Keeps (fun s : PrivStorage => s.keys = keys) (deleteData path) :=
  keeps_atomic (fun _ h => h)

theorem keeps_keys_migrateLegacyPrss :
    Keeps (fun s : PrivStorage => s.keys = keys) (migrateLegacyPrss codec) := by
  refine keeps_read_of_keeps (fun s => ?_)
  cases readContextAt codec s legacyDefaultMpcContext with
  | none => exact keeps_skip
  | some context =>
    refine keeps_ite keeps_skip ?_
    dsimp only
    split
    · exact (keeps_keys_storeVersioned _ _ _).seq
        ((keeps_keys_deleteData _ _).seq (keeps_keys_deleteData _ _))
    · exact keeps_skip

theorem keeps_keys_migrateCombinedPrss :
    Keeps (fun s : PrivStorage => s.keys = keys) (migrateCombinedPrssTo01310 codec) := by
  refine keeps_read_of_keeps (fun s => ?_)
  split
  · exact keeps_skip
  · exact (keeps_keys_storeVersioned _ _ _).seq (keeps_keys_deleteData _ _)

theorem keeps_keys_migrateContext :
    Keeps (fun s : PrivStorage => s.keys = keys) (migrateContextBefore01310 codec) := by
  refine keeps_read_of_keeps (fun s => ?_)
  split
  · exact keeps_skip
  · exact (keeps_keys_storeVersioned _ _ _).seq (keeps_keys_deleteData _ _)

theorem keeps_whenThreshold {inv : PrivStorage → Prop} {p : Interruptible PrivStorage}
    (h : Keeps inv p) (kmsType : KMSType) : Keeps inv (whenThreshold kmsType p) := by
  cases kmsType with
  | centralized => exact keeps_skip
  | threshold => exact h

/-- The part of the migration that only moves the PRSS setup and the context. -/
def migrateOthers (codec : MigrationCodec) (kmsType : KMSType) : Interruptible PrivStorage :=
  (whenThreshold kmsType (migrateLegacyPrss codec)).seq
    ((whenThreshold kmsType (migrateCombinedPrssTo01310 codec)).seq (migrateContextBefore01310 codec))

theorem keeps_keys_migrateOthers (kmsType : KMSType) :
    Keeps (fun s : PrivStorage => s.keys = keys) (migrateOthers codec kmsType) :=
  (keeps_whenThreshold (keeps_keys_migrateLegacyPrss keys) kmsType).seq
    ((keeps_whenThreshold (keeps_keys_migrateCombinedPrss keys) kmsType).seq
      (keeps_keys_migrateContext keys))

end Frames

section Run

variable (leaves codec) (kmsType : KMSType) (s)

/-- The storage before the two removing passes. -/
def copied : PrivStorage :=
  (migrateFheKeys013xTo01310 leaves kmsType).run ((migrateOthers codec kmsType).run
    ((migrateFheKeysV012ToV013 leaves kmsType).run s))

theorem keys_migrateOthers : ((migrateOthers codec kmsType).run s).keys = s.keys :=
  (keeps_keys_migrateOthers s.keys kmsType).run s rfl

/-- The two copying passes collect the first copy under the default epoch. -/
theorem lookup_copied (epoch : Option Identifier) (id : Identifier) :
    (copied leaves codec s kmsType).keys.lookup ⟨kmsType.dataType, epoch, id⟩ =
      if epoch = some defaultEpochId then firstCopy kmsType.dataType s id
      else if epoch = some legacyDefaultEpochId then
        (s.keys.lookup ⟨kmsType.dataType, some legacyDefaultEpochId, id⟩).or
          (s.keys.lookup ⟨kmsType.dataType, none, id⟩)
      else s.keys.lookup ⟨kmsType.dataType, epoch, id⟩ := by
  rw [copied, migrateFheKeys013xTo01310, lookup_copyKeys legacy_ne_default, keys_migrateOthers,
    migrateFheKeysV012ToV013, lookup_copyKeys (by simp), lookup_copyKeys (by simp)]
  simp only [true_and, if_true]
  split_ifs with hdefault hlegacy hlegacy
  · exact absurd (hlegacy.symm.trans hdefault) legacy_ne_default
  · rw [hdefault]
    rfl
  · rw [hlegacy]
  · rfl

/-- The storage before the last pass. -/
def unepochedRemoved : PrivStorage :=
  (migrateFheKeysAfter013x kmsType).run (copied leaves codec s kmsType)

theorem run_eq_removeOldKeys : (migrateTo01320 leaves codec kmsType).run s =
    (removeOldKeysFor01320 kmsType).run (unepochedRemoved leaves codec s kmsType) := by
  simp only [migrateTo01320, migrateTo01310, migrateTo013x, unepochedRemoved, copied, migrateOthers,
    run_seq]

/-- A run moves the first copy to the default epoch and leaves no other. -/
theorem lookup_run (epoch : Option Identifier) (id : Identifier) :
    ((migrateTo01320 leaves codec kmsType).run s).keys.lookup ⟨kmsType.dataType, epoch, id⟩ =
      if epoch = some defaultEpochId then firstCopy kmsType.dataType s id
      else if epoch = some legacyDefaultEpochId ∨ epoch = none then none
      else s.keys.lookup ⟨kmsType.dataType, epoch, id⟩ := by
  rw [run_eq_removeOldKeys, removeOldKeysFor01320, lookup_removeKeys legacy_ne_default,
    unepochedRemoved, migrateFheKeysAfter013x, lookup_removeKeys (by simp),
    lookup_removeKeys (by simp)]
  simp only [lookup_copied, true_and, reduceCtorEq, if_false, if_true, legacy_ne_default]
  by_cases hdefault : epoch = some defaultEpochId
  · have hlegacy : epoch ≠ some legacyDefaultEpochId := hdefault ▸ legacy_ne_default.symm
    simp [hdefault, hdefault ▸ hlegacy]
  rw [if_neg hdefault, if_neg hdefault]
  by_cases hlegacy : epoch = some legacyDefaultEpochId
  · have hsome : epoch ≠ none := hlegacy ▸ Option.some_ne_none _
    rw [if_pos hlegacy, if_pos (Or.inl hlegacy), if_neg hsome, if_pos hlegacy]
    cases hfirst : firstCopy kmsType.dataType s id with
    | some bytes => rfl
    | none =>
      rw [firstCopy, Option.or_eq_none_iff] at hfirst
      rw [hfirst.2, ite_self]
  rw [if_neg hlegacy, if_neg hlegacy]
  by_cases hnone : epoch = none
  · rw [if_pos hnone, if_pos (Or.inr hnone)]
    split_ifs with hsome
    · rfl
    · rw [hnone]
      exact (Option.or_eq_none_iff.mp (Option.not_isSome_iff_eq_none.mp hsome)).2
  · rw [if_neg hnone, if_neg (not_or.mpr ⟨hlegacy, hnone⟩)]

end Run

end ThresholdKms
