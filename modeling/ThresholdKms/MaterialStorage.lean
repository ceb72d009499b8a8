import ThresholdKms.BackupVault

/-!
# Storing and purging key material

Public items have no epoch, private items of keys and CRSs have one. A write is refused only if all
its items exist, and a write that fails purges all its items. The clean-up after a failed resharing
and after an aborted generation deletes every public item of the key or CRS, also those that earlier
epochs share.
-/

namespace ThresholdKms

inductive PubDataType where
  | serverKey | publicKey | publicKeyMetadata | crs | verfKey | verfAddress | decompressionKey
  | caCert | recoveryMaterial | compressedXofKeySet
  deriving DecidableEq, Repr

/-- Where an item is stored; private items of earlier versions have no epoch. -/
inductive ItemPath where
  | pub (dataType : PubDataType) (id : Identifier)
  | priv (dataType : PrivDataType) (id : Identifier) (epoch : Option Identifier)
  deriving DecidableEq

inductive ItemAccess where
  | existence | writing | deletion
  deriving DecidableEq, Repr

/-- The accesses that fail. -/
abbrev ItemFaults := ItemAccess → ItemPath → Bool

inductive StorageError where
  | duplicate | reading | writing | purging | other
  deriving DecidableEq, Repr

abbrev StoredItems (δ : Type) := HashMap ItemPath δ

variable {δ : Type}

/-- Whether all items exist; the first one that is missing answers. -/
def allExist (fails : ItemFaults) (items : StoredItems δ) : List ItemPath → Option Bool
  | [] => some true
  | path :: paths =>
    if fails .existence path then none
    else if path ∉ items then some false
    else allExist fails items paths

/-- Storing keeps what is there. -/
def storeItem (fails : ItemFaults) (item : ItemPath × δ) (items : StoredItems δ) :
    Bool × StoredItems δ :=
  if fails .writing item.1 then (false, items)
  else (true, if item.1 ∈ items then items else items.insert item.1 item.2)

/-- All items are tried. -/
def storeItems (fails : ItemFaults) : List (ItemPath × δ) → StoredItems δ → Bool × StoredItems δ
  | [], items => (true, items)
  | item :: rest, items =>
    let stored := storeItem fails item items
    let others := storeItems fails rest stored.2
    (stored.1 && others.1, others.2)

def deleteItem (fails : ItemFaults) (path : ItemPath) (items : StoredItems δ) :
    Bool × StoredItems δ :=
  if fails .existence path then (false, items)
  else if path ∈ items then
    if fails .deletion path then (false, items) else (true, items.erase path)
  else (true, items)

/-- All items are tried. -/
def purgeMaterial (fails : ItemFaults) : List ItemPath → StoredItems δ → Bool × StoredItems δ
  | [], items => (true, items)
  | path :: rest, items =>
    let deleted := deleteItem fails path items
    let others := purgeMaterial fails rest deleted.2
    (deleted.1 && others.1, others.2)

/-- The path of the item without its epoch, which is looked up as well. -/
def ItemPath.unepoched : ItemPath → ItemPath
  | .pub dataType id => .pub dataType id
  | .priv dataType id _ => .priv dataType id none

/-- Writing at an epoch; `purge` are the failures of the clean-up. The update of the backup does not
touch the items. -/
def writeAll (fails purge : ItemFaults) (data : List (ItemPath × δ)) (items : StoredItems δ) :
    Option StorageError × StoredItems δ :=
  let paths := data.map Prod.fst
  match allExist fails items paths, allExist fails items (paths.map ItemPath.unepoched) with
  | none, _ => (some .reading, items)
  | some true, _ => (some .duplicate, items)
  | some false, none => (some .other, items)
  | some false, some true => (some .duplicate, items)
  | some false, some false =>
    let stored := storeItems fails data items
    if stored.1 then (none, stored.2)
    else
      let purged := purgeMaterial purge paths stored.2
      (some (if purged.1 then .writing else .purging), purged.2)

variable (keyId crsId epoch : Identifier)

def fheKeyPath : ItemPath :=
  .priv (.epoched .fheKeyInfo) keyId (some epoch)

def crsInfoPath : ItemPath :=
  .priv (.epoched .crsInfo) crsId (some epoch)

def fheKeyPaths : List ItemPath :=
  [.pub .publicKey keyId, .pub .serverKey keyId, .pub .compressedXofKeySet keyId,
    fheKeyPath keyId epoch]

def crsPaths : List ItemPath :=
  [.pub .crs crsId, crsInfoPath crsId epoch]

def purgeFheKeys (fails : ItemFaults) (keyId epoch : Identifier) (items : StoredItems δ) :
    Bool × StoredItems δ :=
  purgeMaterial fails (fheKeyPaths keyId epoch) items

def purgeCrsMaterial (fails : ItemFaults) (crsId epoch : Identifier) (items : StoredItems δ) :
    Bool × StoredItems δ :=
  purgeMaterial fails (crsPaths crsId epoch) items

/-- The writes of a resharing, all of which are tried; only private items are written. -/
def reshareWrites (fails purge : ItemFaults) :
    List (ItemPath × δ) → StoredItems δ → Bool × StoredItems δ
  | [], items => (true, items)
  | item :: rest, items =>
    let written := writeAll fails purge [item] items
    let others := reshareWrites fails purge rest written.2
    (written.1.isNone && others.1, others.2)

def purgeReshared (fails : ItemFaults) (epoch : Identifier) (keys crss : List Identifier)
    (items : StoredItems δ) : StoredItems δ :=
  crss.foldl (fun items crsId => (purgeCrsMaterial fails crsId epoch items).2)
    (keys.foldl (fun items keyId => (purgeFheKeys fails keyId epoch items).2) items)

/-- `fails` and `purge` are the failures of the writes and `cleanup` those of the clean-up. -/
def storeResharedKeys (fails purge cleanup : ItemFaults) (epoch : Identifier)
    (keys crss : List (Identifier × δ)) (items : StoredItems δ) : Bool × StoredItems δ :=
  let written := reshareWrites fails purge
    (keys.map (fun key => (fheKeyPath key.1 epoch, key.2)) ++
      crss.map (fun crs => (crsInfoPath crs.1 epoch, crs.2))) items
  if written.1 then (true, written.2)
  else (false, purgeReshared cleanup epoch (keys.map Prod.fst) (crss.map Prod.fst) written.2)

/-- The public material of a key: the server key or the compressed keys, and the public key. -/
structure PublicKeySet (δ : Type) where
  compressed : Bool
  special : δ
  publicKey : δ

def PublicKeySet.specialType (keySet : PublicKeySet δ) : PubDataType :=
  if keySet.compressed then .compressedXofKeySet else .serverKey

def handleFheKeys (first second purge cleanup : ItemFaults) (keyId epoch : Identifier) (priv : δ)
    (keySet : PublicKeySet δ) (items : StoredItems δ) : Bool × StoredItems δ :=
  let special : ItemPath := .pub keySet.specialType keyId
  match writeAll first purge [(special, keySet.special)] items with
  | (some _, items) => (false, items)
  | (none, items) =>
    match writeAll second purge
        [(.pub .publicKey keyId, keySet.publicKey), (fheKeyPath keyId epoch, priv)] items with
    | (some _, items) => (false, (purgeMaterial cleanup [special] items).2)
    | (none, items) => (true, items)

/-- Without an epoch only the second check is made, which for a public item is the same. -/
def writeDecompressionKey (fails purge : ItemFaults) (keyId : Identifier) (key : δ)
    (items : StoredItems δ) : Bool × StoredItems δ :=
  let written := writeAll fails purge [(.pub .decompressionKey keyId, key)] items
  (written.1.isNone, written.2)

/-- A request that stores material, with the failures it meets. A failed or aborted CRS generation
and an aborted generation of a key or a decompression key only clean up; one of these keys that
fails otherwise stores nothing. -/
inductive MaterialRequest (δ : Type) where
  | reshare (fails purge cleanup : ItemFaults) (epoch : Identifier)
      (keys crss : List (Identifier × δ))
  | keyGenerationAborted (cleanup : ItemFaults) (keyId epoch : Identifier)
  | keyGenerationFailed
  | keyGenerationStored (first second purge cleanup : ItemFaults) (keyId epoch : Identifier)
      (priv : δ) (keySet : PublicKeySet δ)
  | decompressionKeyStored (fails purge : ItemFaults) (keyId : Identifier) (key : δ)
  | crsGenerationFailed (cleanup : ItemFaults) (crsId epoch : Identifier)
  | crsGenerationStored (fails purge : ItemFaults) (crsId epoch : Identifier) (crs info : δ)

/-- Whether the request succeeded, and the items after it. -/
def MaterialRequest.exec (items : StoredItems δ) : MaterialRequest δ → Bool × StoredItems δ
  | .reshare fails purge cleanup epoch keys crss =>
    storeResharedKeys fails purge cleanup epoch keys crss items
  | .keyGenerationAborted cleanup keyId epoch => (false, (purgeFheKeys cleanup keyId epoch items).2)
  | .keyGenerationFailed => (false, items)
  | .keyGenerationStored first second purge cleanup keyId epoch priv keySet =>
    handleFheKeys first second purge cleanup keyId epoch priv keySet items
  | .decompressionKeyStored fails purge keyId key =>
    writeDecompressionKey fails purge keyId key items
  | .crsGenerationFailed cleanup crsId epoch =>
    (false, (purgeCrsMaterial cleanup crsId epoch items).2)
  | .crsGenerationStored fails purge crsId epoch crs info =>
    let written := writeAll fails purge [(.pub .crs crsId, crs), (crsInfoPath crsId epoch, info)]
      items
    (written.1.isNone, written.2)

/-- A generation is admitted if the existence check of its material answers no. -/
def fheKeysExists (fails : ItemFaults) (keyId epoch : Identifier) (items : StoredItems δ) :
    Option Bool :=
  match allExist fails items
      [.pub .compressedXofKeySet keyId, .pub .publicKey keyId, fheKeyPath keyId epoch] with
  | some false => allExist fails items
      [.pub .publicKey keyId, .pub .serverKey keyId, fheKeyPath keyId epoch]
  | answer => answer

end ThresholdKms
