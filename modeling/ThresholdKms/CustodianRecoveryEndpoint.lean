import ThresholdKms.BackupUpdate
import ThresholdKms.ExactRecovery

/-!
# The custodian recovery endpoint

The outputs of the custodians are filtered, the backup decryption key is reconstructed from them and
handed to the keychain of the vault, and the vault is restored. An output with an unknown scheme
number ends the call; every other bad output is skipped.
-/

namespace ThresholdKms

section Model

variable {crypto : BackupCrypto} {κ δ : Type}

/-- The only encryption scheme that is still accepted. -/
def pkeSchemeType (value : ℤ) : Outcome Unit :=
  if value = 0 then .ok ()
  else if value = 1 then Outcome.err "ML-KEM 1024 is no longer supported"
  else Outcome.err s!"Unsupported PkeSchemeType: {value}"

def signingSchemeType (value : ℤ) : Outcome Unit :=
  if value = 0 then .ok () else Outcome.err s!"Unsupported SigningSchemeType: {value}"

/-- A signcryption with the numbers of its schemes, as it is sent. -/
structure OperatorBackupOutput (crypto : BackupCrypto) where
  signcryption : crypto.Signcryption
  pkeType : ℤ
  signingType : ℤ

def OperatorBackupOutput.toSigncryption (output : OperatorBackupOutput crypto) :
    Outcome crypto.Signcryption := do
  pkeSchemeType output.pkeType
  signingSchemeType output.signingType
  return output.signcryption

structure SentRecoveryOutput (crypto : BackupCrypto) where
  custodianRole : ℕ
  backupOutput : Option (OperatorBackupOutput crypto)

structure CustodianRecoveryRequest (crypto : BackupCrypto) where
  custodianContextId : Option Bytes
  custodianRecoveryOutputs : List (SentRecoveryOutput crypto)

/-- Recovery material as it is stored, with the setup messages of its custodian context. -/
structure StoredRecoveryMaterial (crypto : BackupCrypto) where
  material : RecoveryValidationMaterial crypto
  custodianNodes : List (CustodianSetupMessage crypto)
  signatureValid : Bool

/-- One output of the loop of `filter_custodian_data`; why an output is skipped is only logged. -/
def filterStep (op : Operator crypto) (recovery : RecoveryValidationMaterial crypto)
    (decKey : crypto.DecKey) (encKey : crypto.EncKey) (outputsLen : ℕ)
    (state : Operator.Validated crypto) (output : SentRecoveryOutput crypto) :
    Outcome (Operator.Validated crypto) :=
  if output.custodianRole = 0 ∨ outputsLen < output.custodianRole then .ok state
  else
    match output.backupOutput with
    | none => .ok state
    | some out => do
        let signcryption ← out.toSigncryption
        return op.validateStep recovery decKey encKey state ⟨signcryption, output.custodianRole⟩

def filterCustodianData (op : Operator crypto) (stored : StoredRecoveryMaterial crypto)
    (decKey : crypto.DecKey) (encKey : crypto.EncKey)
    (outputs : List (SentRecoveryOutput crypto)) : Outcome (Operator.Validated crypto) := do
  let state ← outputs.foldlM
    (filterStep op stored.material decKey encKey stored.custodianNodes.length) (∅, [])
  if state.1.keys.length < stored.material.threshold + 1 then
    Outcome.err "Cannot recover the backup decryption key: not enough valid recovery outputs"
  else return state

/-- What the endpoint reads and never changes: the public storage, its own verification key, the
current backup of the keychain and the vault. -/
structure RecoverySetting (crypto : BackupCrypto) (F κ δ : Type) [Field F]
    [DecidableEq F] where
  publicStorage : HashMap Bytes (StoredRecoveryMaterial crypto)
  verfKey : crypto.VerfKey
  now : ℕ → ℤ
  lagrangeStore : LagrangeStore F
  deserialize : Bytes → Outcome κ
  backupId : Bytes
  entries : VaultEntries Bytes κ δ
  legacyIds : LegacyPrssIds
  fails : BackupOp → Bool

structure RecoveryState (crypto : BackupCrypto) (κ δ : Type) where
  ephemeralKeys : Option (crypto.DecKey × crypto.EncKey)
  decKey : Option κ
  priv : HashMap DataKey δ

variable {F : Type} [Field F] [DecidableEq F] [G2p .four F] (setting : RecoverySetting crypto F κ δ)
  (decKey : crypto.DecKey) (encKey : crypto.EncKey) (request : CustodianRecoveryRequest crypto)

/-- The only use of the stored material in these checks that can fail. -/
def loadRecoveryValidationMaterial (contextId : Option Bytes) :
    Outcome (StoredRecoveryMaterial crypto) :=
  match contextId with
  | none => Outcome.err "Missing custodian context ID"
  | some id =>
    if idIsValid id = false then Outcome.err "Invalid custodian context ID"
    else
      match setting.publicStorage.lookup id with
      | none => Outcome.err "Could not read the recovery material"
      | some stored =>
        if stored.material.contextId ≠ id then
          Outcome.err
            "The custodian context associated with the provided context ID is invalid"
        else if stored.signatureValid = false then
          Outcome.err "Could not verify the signature on the recovery material"
        else .ok stored

def validateCustodianBackupRecoveryRequest :
    Outcome (Operator.Validated crypto × Operator crypto) := do
  let stored ← loadRecoveryValidationMaterial setting request.custodianContextId
  if idIsValid stored.material.mpcContext = false then
    Outcome.err "Invalid MPC context ID in recovery validation material"
  else
    match Operator.newForValidating stored.custodianNodes setting.verfKey
        stored.material.threshold stored.custodianNodes.length setting.now with
    | .error _ => Outcome.err "Could not set up the operator"
    | .ok op => do
        let validated ← filterCustodianData op stored decKey encKey
          request.custodianRecoveryOutputs
        return (validated, op)

/-- The reconstructed key, if the request is valid. -/
def recoverBackupDecKey : Outcome κ := do
  let (validated, op) ← validateCustodianBackupRecoveryRequest setting decKey encKey request
  match recoverFromValidated setting.lagrangeStore op.threshold
      (validated.1.entries.map fun entry => entry.2.shares) with
  | .error _ => Outcome.err "Failed to reconstruct the backup decryption key"
  | .ok serialized => setting.deserialize serialized

/-- The decryption key stays in the keychain whatever the restore does; the ephemeral keys are
dropped after a successful restore. -/
def custodianBackupRecovery [DecidableEq κ] (s : RecoveryState crypto κ δ) :
    Bool × RecoveryState crypto κ δ :=
  match s.ephemeralKeys with
  | none => (false, s)
  | some (ephemeralDecKey, ephemeralEncKey) =>
    match recoverBackupDecKey setting ephemeralDecKey ephemeralEncKey request with
    | .error _ => (false, s)
    | .ok backupDecKey =>
      let restored := restoreData setting.fails setting.backupId backupDecKey setting.entries
        setting.legacyIds s.priv
      (restored.1,
        { ephemeralKeys := if restored.1 then none else s.ephemeralKeys
          decKey := some backupDecKey
          priv := restored.2 })

end Model

end ThresholdKms
