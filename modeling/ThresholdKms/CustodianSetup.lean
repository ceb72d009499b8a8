import ThresholdKms.BackupSharing

/-!
# Setting up an operator with its custodians

The operator keeps the keys of the custodians whose setup messages pass the checks; a message that
does not is skipped. So the kept roles are any set of roles up to the amount of custodians, as long
as there are more of them than the threshold.
-/

namespace ThresholdKms

/-- What a custodian keeps for an operator. -/
structure BackupMaterial (VerfKey : Type) where
  backupId : Bytes
  mpcContextId : Bytes
  custodianPk : VerfKey
  custodianRole : Role
  operatorPk : VerfKey
  shares : List (Share BackupRing)
  deriving DecidableEq

inductive PkeSchemeType
  | mlKem512
  | mlKem1024
  deriving DecidableEq

/-- The libraries a backup relies on. A signcryption is made with the sender's signing key, the
receiver's encryption key and identifier. The keys, identifiers and shares in a material have a fixed
size, so the size of its serialization depends on the number of shares. -/
structure BackupCrypto where
  EncKey : Type
  DecKey : Type
  VerfKey : Type
  SigKey : Type
  Signcryption : Type
  Digest : Type
  Coins : Type
  decEqVerfKey : DecidableEq VerfKey
  decEqDigest : DecidableEq Digest
  verfKey : SigKey → VerfKey
  verfKeyId : VerfKey → Bytes
  encryptionSchemeType : EncKey → PkeSchemeType
  serializedLength : List (Share BackupRing) → ℕ
  materialSize : ℕ → ℕ
  sizeLimitError : String
  signcryptMlKem512 : Coins → SigKey → EncKey → Bytes → BackupMaterial VerfKey → Outcome Signcryption
  unsigncrypt : DecKey → EncKey → VerfKey → Bytes → Signcryption → Outcome (BackupMaterial VerfKey)
  digest : BackupMaterial VerfKey → Digest

/-- In bytes. -/
def safeSerSizeLimit : ℕ := 1024 * 1024 * 1024 * 2

namespace BackupCrypto

variable (crypto : BackupCrypto)

def signcrypt (coins : crypto.Coins) (sk : crypto.SigKey) (encPk : crypto.EncKey) (id : Bytes)
    (material : BackupMaterial crypto.VerfKey) : Outcome crypto.Signcryption :=
  if safeSerSizeLimit < crypto.materialSize material.shares.length then
    let e := crypto.sizeLimitError
    Outcome.err s!"serialization error: Could not serialize message for signcryption: {e}"
  else
    match crypto.encryptionSchemeType encPk with
    | .mlKem512 => crypto.signcryptMlKem512 coins sk encPk id material
    | .mlKem1024 => Outcome.err "ML-KEM 1024 is no longer supported"

def hashVersioned (material : BackupMaterial crypto.VerfKey) : Outcome crypto.Digest :=
  if safeSerSizeLimit < crypto.materialSize material.shares.length then
    Outcome.err crypto.sizeLimitError
  else .ok (crypto.digest material)

/-- The documented behaviour of the libraries: a message within the limit is signed and encrypted
under an ML-KEM-512 key, and a share takes its 32 bytes and 8 for the role, next to 8 bytes for the
length of the vector. -/
structure Reliable : Prop where
  signcryptMlKem512_ok : ∀ coins sk encPk id material,
    crypto.encryptionSchemeType encPk = .mlKem512 →
      crypto.materialSize material.shares.length ≤ safeSerSizeLimit →
        ∃ ct, crypto.signcryptMlKem512 coins sk encPk id material = .ok ct
  le_serializedLength : ∀ shares, shares.length * (32 + 8) + 8 ≤ crypto.serializedLength shares

/-- Different materials have different digests. -/
def CollisionFree : Prop :=
  ∀ m m' digest, crypto.hashVersioned m = .ok digest → crypto.hashVersioned m' = .ok digest → m = m'

variable {crypto}

theorem signcrypt_eq_ok_iff {coins : crypto.Coins} {sk : crypto.SigKey} {encPk : crypto.EncKey}
    {id : Bytes} {material : BackupMaterial crypto.VerfKey} {ct : crypto.Signcryption} :
    crypto.signcrypt coins sk encPk id material = .ok ct ↔
      crypto.encryptionSchemeType encPk = .mlKem512 ∧
        crypto.materialSize material.shares.length ≤ safeSerSizeLimit ∧
        crypto.signcryptMlKem512 coins sk encPk id material = .ok ct := by
  unfold signcrypt
  split_ifs with hsize
  · exact iff_of_false (fun h => by cases h) (fun h => absurd h.2.1 (not_le.mpr hsize))
  · cases crypto.encryptionSchemeType encPk with
    | mlKem512 => exact ⟨fun h => ⟨rfl, not_lt.mp hsize, h⟩, fun h => h.2.2⟩
    | mlKem1024 => exact iff_of_false (fun h => by cases h) (fun h => by cases h.1)

end BackupCrypto

structure CustodianSetupMessage (crypto : BackupCrypto) where
  header : String
  custodianRole : Role
  role_pos : 1 ≤ custodianRole
  timestamp : ℤ
  publicEncKey : crypto.EncKey
  publicVerfKey : crypto.VerfKey

def setupHeader : String := "ZAMA TKMS SETUP TEST OPERATORS-CUSTODIAN"

/-- In seconds. -/
def timestampValidationWindow : ℤ := 24 * 60 * 60

def verifyNT (n t : ℕ) : BackupOutcome Unit :=
  if n = 0 then BackupOutcome.err (.setupError "n cannot be 0")
  else if t = 0 then BackupOutcome.err (.setupError "t cannot be 0")
  else if n ≤ t * 2 then
    BackupOutcome.err (.setupError s!"t < n/2 is not satisfied, t is {t} and n is {n}")
  else .ok ()

section maps

variable {κ ν ν' : Type}

theorem length_keys_of_mem_iff {m : HashMap κ ν} {m' : HashMap κ ν'}
    (h : ∀ k, k ∈ m ↔ k ∈ m') : m.keys.length = m'.keys.length :=
  ((List.perm_ext_iff_of_nodup m.nodupKeys m'.nodupKeys).mpr h).length_eq

theorem length_keys_of_roles {m : HashMap Role ν} {n : ℕ}
    (h : ∀ role, role ∈ m ↔ 1 ≤ role ∧ role ≤ n) : m.keys.length = n := by
  have hperm := (List.perm_ext_iff_of_nodup m.nodupKeys (nodup_partyRoles n)).mpr
    fun role => (h role).trans mem_partyRoles_iff.symm
  exact hperm.length_eq.trans (length_partyRoles n)

end maps

variable {crypto : BackupCrypto}

/-- The keys of the custodians. -/
abbrev CustodianKeys (crypto : BackupCrypto) := HashMap Role (crypto.EncKey × crypto.VerfKey)

variable (amountCustodians : ℕ) (validateTimestamps : Bool)

/-- One message of the loop; `now` is the clock when the message is looked at. -/
def validateMessage (now : ℕ → ℤ)
    (state : CustodianKeys crypto × List SetupSkipReason) (msg : CustodianSetupMessage crypto × ℕ) :
    CustodianKeys crypto × List SetupSkipReason :=
  let (keys, skipReasons) := state
  let (msg, i) := msg
  if validateTimestamps ∧ ¬ (now i - timestampValidationWindow < msg.timestamp ∧
      msg.timestamp < now i + timestampValidationWindow) then
    (keys, skipReasons ++ [.invalidTimestamp])
  else if msg.header ≠ setupHeader then
    (keys, skipReasons ++ [.invalidHeader])
  else if amountCustodians < msg.custodianRole then
    (keys, skipReasons ++ [.invalidRole])
  else
    let inserted := keys.insert msg.custodianRole (msg.publicEncKey, msg.publicVerfKey)
    match keys.lookup msg.custodianRole with
    | some oldVal => (inserted.insert msg.custodianRole oldVal, skipReasons ++ [.duplicateRole])
    | none => (inserted, skipReasons)

variable (custodianMessages : List (CustodianSetupMessage crypto))

def validateCustodianMessages
    (threshold amountCustodians : ℕ) (validateTimestamps : Bool) (now : ℕ → ℤ) :
    BackupOutcome (CustodianKeys crypto) := do
  verifyNT amountCustodians threshold
  let expected := threshold + 1
  let count := custodianMessages.length
  if count ≠ amountCustodians ∧ count < expected then
    BackupOutcome.err (.setupError
      s!"Not enough custodian setup messages: expected at least {expected} but got {count}")
  else
    let (keys, skipReasons) := custodianMessages.zipIdx.foldl
      (validateMessage amountCustodians validateTimestamps now) (∅, [])
    if keys.keys.length < expected then
      BackupOutcome.err (.setupValidationFailed expected keys.keys.length skipReasons)
    else
      return keys

structure Operator (crypto : BackupCrypto) where
  custodianKeys : CustodianKeys crypto
  signingKey : Option crypto.SigKey
  verificationKey : crypto.VerfKey
  threshold : ℕ

def Operator.newForSharing
    (signingKey : crypto.SigKey) (threshold amountCustodians : ℕ) (now : ℕ → ℤ) :
    BackupOutcome (Operator crypto) := do
  let keys ← validateCustodianMessages custodianMessages threshold amountCustodians true now
  return ⟨keys, some signingKey, crypto.verfKey signingKey, threshold⟩

def Operator.newForValidating
    (verfKey : crypto.VerfKey) (threshold amountCustodians : ℕ) (now : ℕ → ℤ) :
    BackupOutcome (Operator crypto) := do
  let keys ← validateCustodianMessages custodianMessages threshold amountCustodians false now
  return ⟨keys, none, verfKey, threshold⟩

theorem pos_of_mem_validateMessage (now : ℕ → ℤ)
    (l : List (CustodianSetupMessage crypto × ℕ)) {state : CustodianKeys crypto × List SetupSkipReason}
    (hstate : ∀ role ∈ state.1, 1 ≤ role) {role : Role}
    (h : role ∈ (l.foldl (validateMessage amountCustodians validateTimestamps now) state).1) :
    1 ≤ role := by
  induction l generalizing state with
  | nil => exact hstate role h
  | cons msg l ih =>
    refine ih (fun role hrole => ?_) h
    unfold validateMessage at hrole
    dsimp only at hrole
    split_ifs at hrole
    · exact hstate role hrole
    · exact hstate role hrole
    · exact hstate role hrole
    · cases hlookup : state.1.lookup msg.1.custodianRole with
      | some old =>
        rw [hlookup] at hrole
        rcases (AList.mem_insert _).mp hrole with rfl | hrole
        · exact msg.1.role_pos
        · rcases (AList.mem_insert _).mp hrole with rfl | hrole
          · exact msg.1.role_pos
          · exact hstate role hrole
      | none =>
        rw [hlookup] at hrole
        rcases (AList.mem_insert _).mp hrole with rfl | hrole
        · exact msg.1.role_pos
        · exact hstate role hrole

variable {custodianMessages amountCustodians} {threshold : ℕ}

theorem validateCustodianMessages_eq_ok {validateTimestamps : Bool} {now : ℕ → ℤ}
    {keys : CustodianKeys crypto}
    (h : validateCustodianMessages custodianMessages threshold amountCustodians validateTimestamps
      now = .ok keys) : threshold < keys.keys.length ∧ ∀ role ∈ keys, 1 ≤ role := by
  unfold validateCustodianMessages at h
  cases hnt : verifyNT amountCustodians threshold with
  | error fault =>
    rw [hnt] at h
    cases h
  | ok u =>
    rw [hnt] at h
    change (if _ then _ else _) = _ at h
    split_ifs at h with hcount hkeys
    · cases h
    · cases h
    · obtain rfl := Except.ok.inj h
      refine ⟨by omega, fun role hrole => ?_⟩
      exact pos_of_mem_validateMessage _ _ _ _
        (fun role hrole => absurd hrole (AList.notMem_empty role)) hrole

theorem Operator.newForSharing_eq_ok {signingKey : crypto.SigKey} {now : ℕ → ℤ}
    {op : Operator crypto}
    (h : Operator.newForSharing custodianMessages signingKey threshold amountCustodians now =
      .ok op) :
    op.signingKey = some signingKey ∧ op.threshold = threshold ∧
      threshold < op.custodianKeys.keys.length ∧ ∀ role ∈ op.custodianKeys, 1 ≤ role := by
  unfold Operator.newForSharing at h
  cases hkeys : validateCustodianMessages custodianMessages threshold amountCustodians true now with
  | error fault =>
    rw [hkeys] at h
    cases h
  | ok keys =>
    rw [hkeys] at h
    obtain rfl := Except.ok.inj h
    exact ⟨rfl, rfl, validateCustodianMessages_eq_ok hkeys⟩

end ThresholdKms
