import ThresholdKms.Identifiers
import ThresholdKms.UntilFailure

/-!
# Backup vault

The vault holds encrypted copies of private data, under the identifier of the backup that its
keychain currently uses. An update visits the private data type by type; it either skips what the
vault already has, or replaces it. Restoring copies what the private storage lacks. Every storage
access may fail, which ends the update or the restore and keeps what was done before.
-/

namespace ThresholdKms

inductive EpochedType where
  | fheKeyInfo | crsInfo | fhePrivateKey
  deriving DecidableEq, Repr

inductive PlainType where
  | signingKey | prssSetup | prssSetupCombined | contextInfo
  deriving DecidableEq, Repr

inductive PrivDataType where
  | epoched (dataType : EpochedType)
  | plain (dataType : PlainType)
  deriving DecidableEq, Repr

/-- In the order in which the code visits them. -/
def PrivDataType.iter : List PrivDataType :=
  [.plain .signingKey, .epoched .fheKeyInfo, .epoched .crsInfo, .epoched .fhePrivateKey,
    .plain .prssSetup, .plain .prssSetupCombined, .plain .contextInfo]

def PrivDataType.hasEpochs : PrivDataType → Bool
  | .epoched _ => true
  | .plain _ => false

/-- Where an item is stored. Any type may have items under an epoch and items without one. -/
structure DataKey where
  dataType : PrivDataType
  id : Identifier
  epoch : Option Identifier
  deriving DecidableEq

abbrev DataKey.epoched (dataType : EpochedType) (id epoch : Identifier) : DataKey :=
  ⟨.epoched dataType, id, some epoch⟩

abbrev DataKey.plain (dataType : PlainType) (id : Identifier) : DataKey :=
  ⟨.plain dataType, id, none⟩

/-- The accesses that may fail. -/
inductive BackupOp where
  | listing (dataType : PrivDataType)
  | existence (key : DataKey)
  | reading (key : DataKey)
  | deletion (key : DataKey)
  | writing (key : DataKey)
  deriving DecidableEq

/-- `ν` identifies a backup, `κ` is the type of encryption keys and `δ` that of the data. -/
abbrev VaultEntries (ν κ δ : Type) [DecidableEq ν] := HashMap (ν × DataKey) (κ × δ)

variable {ν κ δ : Type} [DecidableEq ν]

/-- The key is listed for the type: under the epochs, or outside them if the type has none. -/
def DataKey.ListedFor (dataType : PrivDataType) (key : DataKey) : Prop :=
  key.dataType = dataType ∧ key.epoch.isSome = dataType.hasEpochs

instance (dataType : PrivDataType) (key : DataKey) : Decidable (key.ListedFor dataType) :=
  inferInstanceAs (Decidable (_ ∧ _))

variable (priv : HashMap DataKey δ)

/-- The data of one type in the storage. -/
def keysOf (dataType : PrivDataType) : List DataKey :=
  priv.keys.filter (fun key => key.ListedFor dataType)

/-- Storing keeps what is there. -/
def storeNew (entries : VaultEntries ν κ δ) (path : ν × DataKey) (entry : κ × δ) :
    VaultEntries ν κ δ :=
  if path ∈ entries then entries else entries.insert path entry

/-- The identifiers of the two halves of the deprecated PRSS setup. -/
structure LegacyPrssIds where
  prss128Id : Identifier
  prss64Id : Identifier

section Update

variable (fails : BackupOp → Bool) (overwrite : Bool) (backupId : ν) (encKey : κ)
  (priv : HashMap DataKey δ)

/-- One entry of `updateSpecificBackupVault`; the flag says whether the call went on. -/
def backupKey (key : DataKey) (entries : VaultEntries ν κ δ) : Bool × VaultEntries ν κ δ :=
  if fails (.existence key) then (false, entries)
  else if (backupId, key) ∈ entries ∧ overwrite = false then (true, entries)
  else
    match priv.lookup key with
    | none => (false, entries)
    | some data =>
      if fails (.reading key) then (false, entries)
      else if overwrite ∧ fails (.deletion key) then (false, entries)
      else
        let entries := if overwrite then entries.erase (backupId, key) else entries
        if fails (.writing key) then (false, entries)
        else (true, storeNew entries (backupId, key) (encKey, data))

def updateSpecificBackupVault (dataType : PrivDataType) (entries : VaultEntries ν κ δ) :
    Bool × VaultEntries ν κ δ :=
  if fails (.listing dataType) then (false, entries)
  else
    UntilFailure.run (backupKey fails overwrite backupId encKey priv) (keysOf priv dataType) entries

/-- Reading for the deprecated PRSS setup, whose failure is only logged. -/
def readPrss (key : DataKey) : Option δ := if fails (.reading key) then none else priv.lookup key

variable (first second : DataKey)

def deleteBoth (entries : VaultEntries ν κ δ) :
    Bool × VaultEntries ν κ δ :=
  if fails (.deletion first) then (false, entries)
  else
    let entries := entries.erase (backupId, first)
    if fails (.deletion second) then (false, entries)
    else (true, entries.erase (backupId, second))

def storeBoth (data₁ data₂ : δ) (entries : VaultEntries ν κ δ) :
    Bool × VaultEntries ν κ δ :=
  if fails (.writing first) then (false, entries)
  else
    let entries := storeNew entries (backupId, first) (encKey, data₁)
    if fails (.writing second) then (false, entries)
    else (true, storeNew entries (backupId, second) (encKey, data₂))

/-- The deprecated PRSS setup, of which only the two halves for 13 parties are known. -/
def updateLegacyPrss134 (ids : LegacyPrssIds) (entries : VaultEntries ν κ δ) :
    Bool × VaultEntries ν κ δ :=
  let first : DataKey := .plain .prssSetup ids.prss128Id
  let second : DataKey := .plain .prssSetup ids.prss64Id
  match readPrss fails priv first, readPrss fails priv second with
  | some data₁, some data₂ =>
    let deleted := if overwrite then deleteBoth fails backupId first second entries
      else (true, entries)
    if deleted.1 then storeBoth fails backupId encKey first second data₁ data₂ deleted.2
    else (false, deleted.2)
  | _, _ => (true, entries)

def updateType (ids : LegacyPrssIds) (dataType : PrivDataType) (entries : VaultEntries ν κ δ) :
    Bool × VaultEntries ν κ δ :=
  if dataType = .plain .prssSetup then
    updateLegacyPrss134 fails overwrite backupId encKey priv ids entries
  else updateSpecificBackupVault fails overwrite backupId encKey priv dataType entries

end Update

/-- The update under the current backup and key of the keychain, which is skipped while it has none. -/
def innerUpdateBackupVault (fails : BackupOp → Bool) (overwrite : Bool) (keychain : Option (ν × κ))
    (priv : HashMap DataKey δ) (ids : LegacyPrssIds) (entries : VaultEntries ν κ δ) :
    Bool × VaultEntries ν κ δ :=
  match keychain with
  | none => (true, entries)
  | some (backupId, encKey) =>
    UntilFailure.run (updateType fails overwrite backupId encKey priv ids) PrivDataType.iter
      entries

section Restore

variable [DecidableEq κ] (fails : BackupOp → Bool) (backupId : ν) (decKey : κ)
  (entries : VaultEntries ν κ δ)

/-- Decryption with the key that belongs to `decKey`. -/
def readVault (key : DataKey) : Option δ :=
  match entries.lookup (backupId, key) with
  | none => none
  | some (encKey, data) => if fails (.reading key) ∨ encKey ≠ decKey then none else some data

def restoreKey (key : DataKey) (priv : HashMap DataKey δ) : Bool × HashMap DataKey δ :=
  if fails (.existence key) then (false, priv)
  else if key ∈ priv then (true, priv)
  else
    match readVault fails backupId decKey entries key with
    | none => (false, priv)
    | some data => if fails (.writing key) then (false, priv) else (true, priv.insert key data)

/-- The entries of one type under the current backup. -/
def vaultKeysOf (dataType : PrivDataType) : List DataKey :=
  (entries.keys.filter (fun path => path.1 = backupId ∧ path.2.ListedFor dataType)).map (·.2)

def restoreDataType (dataType : PrivDataType) (priv : HashMap DataKey δ) :
    Bool × HashMap DataKey δ :=
  if fails (.listing dataType) then (false, priv)
  else
    UntilFailure.run (restoreKey fails backupId decKey entries)
      (vaultKeysOf backupId entries dataType) priv

def storeNewData (key : DataKey) (data : δ) : HashMap DataKey δ :=
  if key ∈ priv then priv else priv.insert key data

def restoreLegacyPrss134 (ids : LegacyPrssIds) (priv : HashMap DataKey δ) :
    Bool × HashMap DataKey δ :=
  let first : DataKey := .plain .prssSetup ids.prss128Id
  let second : DataKey := .plain .prssSetup ids.prss64Id
  match readVault fails backupId decKey entries first,
      readVault fails backupId decKey entries second with
  | some data₁, some data₂ =>
    if fails (.writing first) then (false, priv)
    else
      let priv := storeNewData priv first data₁
      if fails (.writing second) then (false, priv)
      else (true, storeNewData priv second data₂)
  | _, _ => (true, priv)

def restoreType (ids : LegacyPrssIds) (dataType : PrivDataType) (priv : HashMap DataKey δ) :
    Bool × HashMap DataKey δ :=
  if dataType = .plain .prssSetup then
    restoreLegacyPrss134 fails backupId decKey entries ids priv
  else restoreDataType fails backupId decKey entries dataType priv

def restoreData (ids : LegacyPrssIds) (priv : HashMap DataKey δ) : Bool × HashMap DataKey δ :=
  UntilFailure.run (restoreType fails backupId decKey entries ids) PrivDataType.iter priv

end Restore

end ThresholdKms
