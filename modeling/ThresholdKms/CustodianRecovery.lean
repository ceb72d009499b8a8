import ThresholdKms.BackupUsable

/-!
# Recovering a backup

The operator accepts a custodian's output only if the material in it is the one it committed to when
it made the backup. So the accepted materials are the original ones, and the secret is recovered
just when more custodians than the threshold sent theirs.
-/

namespace ThresholdKms

variable {crypto : BackupCrypto}

/-- An identifier is valid unless it is all zero; its length and encoding are fixed by its type. -/
def idIsValid (id : Bytes) : Bool := !id.all (· = 0)

/-- The parts of the material and its custodian context that recovery reads. -/
structure RecoveryValidationMaterial (crypto : BackupCrypto) where
  commitments : HashMap Role crypto.Digest
  threshold : ℕ
  contextId : Bytes
  mpcContext : Bytes

/-- The commitment of a role. -/
def RecoveryValidationMaterial.get (recovery : RecoveryValidationMaterial crypto) (role : Role) :
    Outcome crypto.Digest :=
  if recovery.commitments.keys.length < role then
    Outcome.err s!"Role {role} is out of bounds for commitments"
  else
    match recovery.commitments.lookup role with
    | some commitment => .ok commitment
    | none => Outcome.err s!"No commitment found for role {role}"

/-- The material for a custodian context of the given number of custodians; the signature on it is
left out. -/
def RecoveryValidationMaterial.new (result : SigncryptResult crypto) (custodianNodes threshold : ℕ)
    (contextId mpcContext : Bytes) : Outcome (RecoveryValidationMaterial crypto) :=
  let cts := result.ctShares.keys.length
  if custodianNodes ≠ cts then
    Outcome.err s!"Mismatch between number of custodian nodes ({custodianNodes}) and number of backup signcrypted shares ({cts})"
  else
    match (partyRoles custodianNodes).find? (· ∉ result.ctShares) with
    | some role => Outcome.err s!"Missing backup signcrypted share for custodian role {role}"
    | none => .ok ⟨result.commitments, threshold, contextId, mpcContext⟩

structure CustodianRecoveryOutput (crypto : BackupCrypto) where
  signcryption : crypto.Signcryption
  custodianRole : Role

def checkExpectedMetadata (material : BackupMaterial crypto.VerfKey)
    (custodianVerfKey : crypto.VerfKey) (custodianRole : Role) (operatorPkId : Bytes) :
    Except RecoverySkipReason Unit :=
  have := crypto.decEqVerfKey
  if material.custodianRole ≠ custodianRole then .error .custodianRoleMismatchInPayload
  else if material.custodianPk ≠ custodianVerfKey then .error .custodianKeyMismatchInPayload
  else if crypto.verfKeyId material.operatorPk ≠ operatorPkId then .error .operatorMismatchInPayload
  else .ok ()

namespace Operator

/-- The checks on material that could be unsigncrypted. -/
def validateMaterial (op : Operator crypto) (recovery : RecoveryValidationMaterial crypto)
    (role : Role) (custodianVerfKey : crypto.VerfKey) (material : BackupMaterial crypto.VerfKey) :
    Except RecoverySkipReason (BackupMaterial crypto.VerfKey) :=
  have := crypto.decEqDigest
  if ¬ idIsValid material.backupId then .error .backupIdMalformed
  else if ¬ idIsValid material.mpcContextId then .error .mpcContextIdMalformed
  else if material.backupId ≠ recovery.contextId then .error .backupIdMismatch
  else if material.mpcContextId ≠ recovery.mpcContext then .error .mpcContextIdMismatch
  else do
    checkExpectedMetadata material custodianVerfKey role (crypto.verfKeyId op.verificationKey)
    match crypto.hashVersioned material with
    | .error _ => .error .parseError
    | .ok actualCommitment =>
      match recovery.get role with
      | .error _ => .error .missingCommitment
      | .ok expectedCommitment =>
        if actualCommitment ≠ expectedCommitment then .error .commitmentMismatch
        else .ok material

def validateOneRecoveryOutput (op : Operator crypto) (output : CustodianRecoveryOutput crypto)
    (recovery : RecoveryValidationMaterial crypto) (decKey : crypto.DecKey)
    (encKey : crypto.EncKey) : Except RecoverySkipReason (BackupMaterial crypto.VerfKey) :=
  match op.custodianKeys.lookup output.custodianRole with
  | none => .error .missingVerificationKey
  | some (_, custodianVerfKey) =>
    match crypto.unsigncrypt decKey encKey custodianVerfKey
        (crypto.verfKeyId op.verificationKey) output.signcryption with
    | .error _ => .error .invalidSigncryption
    | .ok material => op.validateMaterial recovery output.custodianRole custodianVerfKey material

/-- The materials that were accepted, one for each role, and the reasons for the others. -/
abbrev Validated (crypto : BackupCrypto) :=
  HashMap Role (BackupMaterial crypto.VerfKey) × List RecoverySkipReason

def validateStep (op : Operator crypto) (recovery : RecoveryValidationMaterial crypto)
    (decKey : crypto.DecKey) (encKey : crypto.EncKey) (state : Validated crypto)
    (output : CustodianRecoveryOutput crypto) : Validated crypto :=
  match op.validateOneRecoveryOutput output recovery decKey encKey with
  | .ok material =>
    match state.1.lookup output.custodianRole with
    | some _ => (state.1, state.2 ++ [.duplicateRole])
    | none => (state.1.insert output.custodianRole material, state.2)
  | .error reason => (state.1, state.2 ++ [reason])

def verifyAndRecover {F : Type} [Field F] [DecidableEq F] [G2p .four F] (op : Operator crypto)
    (store : LagrangeStore F) (outputs : List (CustodianRecoveryOutput crypto))
    (recovery : RecoveryValidationMaterial crypto) (decKey : crypto.DecKey)
    (encKey : crypto.EncKey) : BackupOutcome Bytes :=
  let (validated, skipReasons) := outputs.foldl (op.validateStep recovery decKey encKey) (∅, [])
  let requiredMin := recovery.threshold + 1
  if validated.keys.length < requiredMin then
    BackupOutcome.err (.recoveryThresholdNotMet requiredMin validated.keys.length recovery.threshold
      skipReasons)
  else
    recoverFromValidated store op.threshold
      (validated.entries.map fun entry => entry.2.shares)

end Operator

end ThresholdKms
