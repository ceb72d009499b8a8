import ThresholdKms.Along
import ThresholdKms.BackupUpdate
import ThresholdKms.KeyMigration

/-!
# Custodian contexts

A new custodian context comes with a fresh backup encryption key. The keychain of the vault is
switched to it first, then everything is encrypted again, and at last the recovery material, with
which the custodians can reconstruct the decryption key, is stored publicly. A call that fails after
the switch leaves the keychain on a backup whose recovery material may be missing.
-/

namespace ThresholdKms

variable {κ δ : Type}

/-- The parts of a KMS with a secret-sharing vault that the calls use. A custodian meta store entry
is `true` if its request succeeded, and recovery material is represented by its encryption key. -/
structure CustodianKms (κ δ : Type) where
  keychain : Option (Identifier × κ)
  recoveryMaterial : HashMap Identifier κ
  entries : VaultEntries Identifier κ δ
  priv : HashMap DataKey δ
  metaStore : HashMap Identifier Bool

/-- The storage accesses of a call that fail. -/
structure CustodianFaults where
  contextLookup : Bool
  reencryption : BackupOp → Bool
  materialLookup : Bool
  materialWrite : Bool
  update : BackupOp → Bool
  purge : BackupOp → Bool

/-- A request, with the key generated for it. `prepared` says whether the custodians' messages are
valid, so that there is recovery material, and whether the meta store accepts the request. -/
structure CustodianRequest (κ : Type) where
  contextId : Identifier
  mpcContextId : Identifier
  encKey : κ
  prepared : Bool

def PlainType.iter : List PlainType := [.signingKey, .prssSetup, .prssSetupCombined, .contextInfo]

/-- Deletes the un-epoched entries of a request, type by type. The public types come after them; the
vault does not know these, so that the call never succeeds. -/
def deleteAllAtRequestId (fails : BackupOp → Bool) (backupId requestId : Identifier)
    (entries : VaultEntries Identifier κ δ) : Bool × VaultEntries Identifier κ δ :=
  let purged := UntilFailure.run (fun (t : PlainType) (m : VaultEntries Identifier κ δ) =>
    let key : DataKey := .plain t requestId
    if fails (.existence key) then (false, m)
    else if (backupId, key) ∈ m ∧ fails (.deletion key) then (false, m)
    else (true, m.erase (backupId, key))) PlainType.iter entries
  (false, purged.2)

variable (faults : CustodianFaults) (ids : LegacyPrssIds) (contextId : Identifier) (encKey : κ)
  (request : CustodianRequest κ) (s : CustodianKms κ δ)

/-- The material is stored, and the vault updated once more. -/
def writeAllRecoveryMaterial : Bool × CustodianKms κ δ :=
  if faults.materialLookup then (false, s)
  else if contextId ∈ s.recoveryMaterial then (false, s)
  else if faults.materialWrite then (false, s)
  else
    let updated :=
      innerUpdateBackupVault faults.update false s.keychain s.priv ids s.entries
    (updated.1,
      { s with
        recoveryMaterial := s.recoveryMaterial.insert contextId encKey
        entries := updated.2 })

def writeBackupKeys : Bool × CustodianKms κ δ :=
  let written := writeAllRecoveryMaterial faults ids contextId encKey s
  let result : Bool × CustodianKms κ δ :=
    if written.1 then written
    else
      let purged := deleteAllAtRequestId faults.purge contextId contextId written.2.entries
      (purged.1, { written.2 with entries := purged.2 })
  (result.1, { result.2 with metaStore := result.2.metaStore.insert contextId result.1 })

/-- The request is refused before the keychain is touched. -/
def Refused : Prop :=
  faults.contextLookup = true ∨ .plain .contextInfo request.mpcContextId ∉ s.priv ∨
    request.contextId ∈ s.metaStore ∨ request.prepared = false

instance : Decidable (Refused faults request s) :=
  inferInstanceAs (Decidable (_ ∨ _ ∨ _ ∨ _))

/-- The keychain is already on the requested context. -/
def OnContext : Prop :=
  s.keychain.map Prod.fst = some contextId

instance : Decidable (OnContext contextId s) :=
  inferInstanceAs (Decidable (_ = _))

def newCustodianContext : Bool × CustodianKms κ δ :=
  if Refused faults request s then (false, s)
  else if OnContext request.contextId s then
    (false, { s with metaStore := s.metaStore.insert request.contextId false })
  else
    let keychain := some (request.contextId, request.encKey)
    let updated := innerUpdateBackupVault faults.reencryption true keychain s.priv ids s.entries
    let switched : CustodianKms κ δ := { s with keychain := keychain, entries := updated.2 }
    if updated.1 then writeBackupKeys faults ids request.contextId request.encKey switched
    else
      (false, { switched with metaStore := s.metaStore.insert request.contextId false })

/-- The entries of an old backup are listed type by type, without those under an epoch, and deleted
one by one. -/
def removeOldBackup (fails : BackupOp → Bool) (backupId : Identifier)
    (entries : VaultEntries Identifier κ δ) : Bool × VaultEntries Identifier κ δ :=
  UntilFailure.run (fun t m =>
    if fails (.listing t) then (false, m)
    else
      UntilFailure.run (fun key m =>
        if fails (.deletion key) then (false, m) else (true, m.erase (backupId, key)))
        ((m.keys.filter (fun path => path.1 = backupId ∧ path.2.dataType = t ∧
          path.2.epoch = none)).map Prod.snd) m)
    PrivDataType.iter entries

def deleteCustodianContextAtId (backupId : Identifier) : Bool × CustodianKms κ δ :=
  if s.keychain = none ∨ OnContext backupId s then (false, s)
  else
    let removed := removeOldBackup faults.purge backupId s.entries
    if removed.1 = false ∨ faults.materialLookup = true ∨
        (faults.materialWrite = true ∧ backupId ∈ s.recoveryMaterial) then
      (false, { s with entries := removed.2 })
    else
      (true,
        { s with
          entries := removed.2
          recoveryMaterial := s.recoveryMaterial.erase backupId })

def successfulIds : List Identifier :=
  s.metaStore.keys.filter (fun id => s.metaStore.lookup id = some true)

def destroyCustodianContext : Bool × CustodianKms κ δ :=
  if contextId ∉ s.metaStore ∨ (successfulIds s).length < 2 then (false, s)
  else
    let deleted := deleteCustodianContextAtId faults s contextId
    if deleted.1 then (true, { deleted.2 with metaStore := s.metaStore.erase contextId })
    else deleted

/-- Private data change, and the vault is updated. -/
def writePrivateData (priv : HashMap DataKey δ)
    (s : CustodianKms κ δ) : Bool × CustodianKms κ δ :=
  let updated := innerUpdateBackupVault faults.update false s.keychain priv ids s.entries
  (updated.1, { s with priv := priv, entries := updated.2 })

inductive CustodianCall (κ δ : Type) where
  | newContext (faults : CustodianFaults) (request : CustodianRequest κ)
  | destroyContext (faults : CustodianFaults) (contextId : Identifier)
  | privateWrite (faults : CustodianFaults) (priv : HashMap DataKey δ)

def CustodianCall.exec :
    CustodianCall κ δ → Bool × CustodianKms κ δ
  | .newContext faults request => newCustodianContext faults ids request s
  | .destroyContext faults contextId => destroyCustodianContext faults contextId s
  | .privateWrite faults priv => writePrivateData faults ids priv s

/-!
## Backups stay recoverable

In a run in which no storage access fails once a new custodian context has switched the keychain,
and in which every such context has a fresh identifier, the current backup always has its recovery
material.
-/

variable {faults ids request s}

/-- The material for the key of the current backup is stored. -/
def Recoverable (s : CustodianKms κ δ) : Prop :=
  ∀ backupId encKey, s.keychain = some (backupId, encKey) →
    s.recoveryMaterial.lookup backupId = some encKey

/-- Every private item is in the vault under the backup and the key. -/
def FullyBackedUp (backupId : Identifier) (encKey : κ) (s : CustodianKms κ δ) : Prop :=
  ∀ key data, s.priv.lookup key = some data →
    s.entries.lookup (backupId, key) = some (encKey, data)

/-- What a call is to guarantee. -/
def CustodianCall.Sound (ids : LegacyPrssIds) (s : CustodianKms κ δ) (call : CustodianCall κ δ) :
    Prop :=
  Recoverable (call.exec ids s).2 ∧
    ((call.exec ids s).1 = false → (call.exec ids s).2.keychain = s.keychain) ∧
    ∀ faults request, call = .newContext faults request → (call.exec ids s).1 = true →
      (call.exec ids s).2.recoveryMaterial.lookup request.contextId = some request.encKey ∧
      FullyBackedUp request.contextId request.encKey (call.exec ids s).2

/-- No access after the switch of the keychain fails. -/
structure CustodianFaults.Quiet (faults : CustodianFaults) : Prop where
  reencryption : ∀ op, faults.reencryption op = false
  materialLookup : faults.materialLookup = false
  materialWrite : faults.materialWrite = false
  update : ∀ op, faults.update op = false

/-- A new context is refused before the switch, or no access fails after it, its identifier has no
recovery material and all private items are current. -/
def CustodianCall.Safe (s : CustodianKms κ δ) : CustodianCall κ δ → Prop
  | .newContext faults request =>
    Refused faults request s ∨ OnContext request.contextId s ∨
      (faults.Quiet ∧ request.contextId ∉ s.recoveryMaterial ∧ OnlyCurrent s.priv)
  | _ => True

variable {entries entries' : VaultEntries Identifier κ δ} {fails : BackupOp → Bool}
  {priv : HashMap DataKey δ} {backupId : Identifier}

theorem fullyBackedUp_reencrypted {encKey : κ}
    (hcurrent : OnlyCurrent priv)
    (h : innerUpdateBackupVault fails true (some (backupId, encKey)) priv ids entries =
      (true, entries')) {key : DataKey} {data : δ} (hdata : priv.lookup key = some data) :
    entries'.lookup (backupId, key) = some (encKey, data) := by
  have hmem : key ∈ priv := mem_of_lookup_eq_some hdata
  rw [(filled_innerUpdateBackupVault hcurrent h).copied (backupId, key) ⟨rfl, hmem⟩ (Or.inl rfl),
    vaultSource, hdata]
  rfl

theorem lookup_incremental {encKey : κ}
    (hcurrent : OnlyCurrent priv)
    (h : innerUpdateBackupVault fails false (some (backupId, encKey)) priv ids entries =
      (true, entries')) {path : Identifier × DataKey} {entry : κ × δ}
    (hentry : entries.lookup path = some entry) : entries'.lookup path = some entry := by
  have hmem : path ∈ entries := mem_of_lookup_eq_some hentry
  rw [(filled_innerUpdateBackupVault hcurrent h).kept path (by simp [hmem]), hentry]

theorem newCustodianContext_quiet (hrefused : ¬ Refused faults request s)
    (hon : ¬ OnContext request.contextId s) (hquiet : faults.Quiet)
    (hfresh : request.contextId ∉ s.recoveryMaterial) (hcurrent : OnlyCurrent s.priv) :
    ∃ s', newCustodianContext faults ids request s = (true, s') ∧
      s'.keychain = some (request.contextId, request.encKey) ∧
      s'.recoveryMaterial.lookup request.contextId = some request.encKey ∧
      FullyBackedUp request.contextId request.encKey s' := by
  obtain ⟨entries₁, hfirst⟩ : ∃ entries₁, innerUpdateBackupVault faults.reencryption true
      (some (request.contextId, request.encKey)) s.priv ids s.entries = (true, entries₁) :=
    ⟨_, Prod.ext (innerUpdateBackupVault_succeeds hquiet.reencryption _ _) rfl⟩
  obtain ⟨entries₂, hsecond⟩ : ∃ entries₂, innerUpdateBackupVault faults.update false
      (some (request.contextId, request.encKey)) s.priv ids entries₁ = (true, entries₂) :=
    ⟨_, Prod.ext (innerUpdateBackupVault_succeeds hquiet.update _ _) rfl⟩
  refine ⟨{ s with
    keychain := some (request.contextId, request.encKey)
    recoveryMaterial := s.recoveryMaterial.insert request.contextId request.encKey
    entries := entries₂
    metaStore := s.metaStore.insert request.contextId true }, ?_, rfl, ?_, ?_⟩
  · rw [newCustodianContext, if_neg hrefused, if_neg hon]
    simp only [hfirst, if_true, writeBackupKeys, writeAllRecoveryMaterial, hquiet.materialLookup,
      hquiet.materialWrite, if_neg hfresh, Bool.false_eq_true, if_false, hsecond]
  · exact AList.lookup_insert _
  · intro key data hdata
    exact lookup_incremental hcurrent hsecond (fullyBackedUp_reencrypted hcurrent hfirst hdata)

theorem newCustodianContext_sound (hs : Recoverable s)
    (hsafe : (CustodianCall.newContext faults request).Safe s) :
    (CustodianCall.newContext faults request).Sound ids s := by
  rw [CustodianCall.Sound, CustodianCall.exec]
  by_cases hrefused : Refused faults request s
  · rw [newCustodianContext, if_pos hrefused]
    exact ⟨hs, fun _ => rfl, fun _ _ _ h => by cases h⟩
  by_cases hon : OnContext request.contextId s
  · rw [newCustodianContext, if_neg hrefused, if_pos hon]
    exact ⟨hs, fun _ => rfl, fun _ _ _ h => by cases h⟩
  · obtain ⟨hquiet, hfresh, hcurrent⟩ := (hsafe.resolve_left hrefused).resolve_left hon
    obtain ⟨s', hcall, hkeychain, hmaterial, hbacked⟩ :=
      newCustodianContext_quiet hrefused hon hquiet hfresh hcurrent
    rw [hcall]
    refine ⟨?_, nofun, ?_⟩
    · intro backupId encKey h
      rw [hkeychain] at h
      cases h
      exact hmaterial
    · intro faults' request' heq _
      cases heq
      exact ⟨hmaterial, hbacked⟩

/-- The current backup is never deleted. -/
theorem deleteCustodianContextAtId_recoverable (hs : Recoverable s) (backupId : Identifier) :
    Recoverable (deleteCustodianContextAtId faults s backupId).2 ∧
      (deleteCustodianContextAtId faults s backupId).2.keychain = s.keychain := by
  simp only [deleteCustodianContextAtId]
  split_ifs with hcurrent
  · exact ⟨hs, rfl⟩
  · exact ⟨hs, rfl⟩
  · refine ⟨fun backupId' encKey hkeychain => ?_, rfl⟩
    have hne : backupId' ≠ backupId := by
      rintro rfl
      exact hcurrent (Or.inr (by rw [OnContext, show s.keychain = _ from hkeychain]; rfl))
    exact (AList.lookup_erase_ne hne).trans (hs backupId' encKey hkeychain)

theorem destroyCustodianContext_recoverable (hs : Recoverable s) (contextId : Identifier) :
    Recoverable (destroyCustodianContext faults contextId s).2 ∧
      (destroyCustodianContext faults contextId s).2.keychain = s.keychain := by
  have hdeleted := @deleteCustodianContextAtId_recoverable _ _ faults _ hs contextId
  simp only [destroyCustodianContext]
  split_ifs
  · exact ⟨hs, rfl⟩
  · exact hdeleted
  · exact hdeleted

theorem CustodianCall.Safe.sound {call : CustodianCall κ δ} (hs : Recoverable s)
    (hsafe : call.Safe s) : call.Sound ids s := by
  cases call with
  | newContext faults request => exact newCustodianContext_sound hs hsafe
  | destroyContext faults contextId =>
    have hkept := @destroyCustodianContext_recoverable _ _ faults _ hs contextId
    exact ⟨hkept.1, fun _ => hkept.2, fun _ _ h => by cases h⟩
  | privateWrite faults priv => exact ⟨hs, fun _ => rfl, fun _ _ h => by cases h⟩

/-- Runs of calls. -/
def CustodianCall.next (ids : LegacyPrssIds) (s : CustodianKms κ δ) (call : CustodianCall κ δ) :
    CustodianKms κ δ :=
  (call.exec ids s).2

theorem custodian_calls_sound {calls : List (CustodianCall κ δ)} (hs : Recoverable s)
    (hsafe : Along (CustodianCall.next ids) CustodianCall.Safe s calls) :
    Along (CustodianCall.next ids) (CustodianCall.Sound ids) s calls :=
  Along.of_invariant (fun _ _ hinv h => (h.sound hinv).1) (fun _ _ hinv h => h.sound hinv) hs hsafe

section TwoContexts

def firstContext : Identifier := .ofByte 1

def secondContext : Identifier := .ofByte 2

/-- One custodian context is in use, and the private storage has the default MPC context. -/
def oneContext : CustodianKms ℕ ℕ where
  keychain := some (firstContext, 1)
  recoveryMaterial := (∅ : HashMap Identifier ℕ).insert firstContext 1
  entries := (∅ : VaultEntries Identifier ℕ ℕ).insert
    (firstContext, .plain .contextInfo defaultMpcContext) (1, 5)
  priv := (∅ : HashMap DataKey ℕ).insert (.plain .contextInfo defaultMpcContext) 5
  metaStore := (∅ : HashMap Identifier Bool).insert firstContext true

def secondRequest : CustodianRequest ℕ := ⟨secondContext, defaultMpcContext, 2, true⟩

def noFaults : CustodianFaults :=
  ⟨false, fun _ => false, false, false, fun _ => false, fun _ => false⟩

/-- The first access of the re-encryption fails. -/
def listingFaults : CustodianFaults :=
  { noFaults with reencryption := fun op => decide (op = .listing (.plain .signingKey)) }

theorem recoverable_oneContext : Recoverable oneContext := by
  intro backupId encKey h
  cases h
  exact AList.lookup_insert _

/-- The call fails and leaves the keychain on a backup without recovery material. -/
theorem newCustodianContext_strands_keychain :
    let result := newCustodianContext listingFaults ⟨firstContext, secondContext⟩ secondRequest
      oneContext
    Recoverable oneContext ∧ result.1 = false ∧ result.2.keychain = some (secondContext, 2) ∧
      result.2.recoveryMaterial.lookup secondContext = none := by
  exact ⟨recoverable_oneContext, rfl, rfl, by decide +kernel⟩

theorem custodian_calls_sound_second :
    Along (CustodianCall.next ⟨firstContext, secondContext⟩)
      (CustodianCall.Sound ⟨firstContext, secondContext⟩) oneContext
      [.newContext noFaults secondRequest] := by
  refine custodian_calls_sound recoverable_oneContext ⟨Or.inr (Or.inr ⟨?_, ?_, ?_⟩), trivial⟩
  · exact ⟨fun _ => rfl, rfl, rfl, fun _ => rfl⟩
  · decide +kernel
  · intro key hmem
    obtain rfl := ((AList.mem_insert _).mp hmem).resolve_right (AList.notMem_empty _)
    exact ⟨nofun, rfl, rfl⟩

end TwoContexts

/-!
## Removing the backup of a context

The entries to delete are listed type by type, and a listing does not look into the directories of
the epochs. So what an old backup has under an epoch stays in the vault.
-/

/-- The loops delete the entries of the backup that are not under an epoch. -/
theorem filled_removeOldBackup {fails : BackupOp → Bool}
    (h : removeOldBackup fails backupId entries = (true, entries')) :
    Filled (fun _ => none) true (fun path => path.1 = backupId ∧ path.2.epoch = none) entries
      entries' := by
  refine (@filled_run _ _ _ _ _ _ _ _ _
    (fun t path => path.1 = backupId ∧ path.2.dataType = t ∧ path.2.epoch = none)
    (fun t m m' ht => ?_) _ h).congr (fun path => by simp [mem_iter])
  split_ifs at ht with hlist
  · cases ht
  have hrun := @filled_run _ _ _ (fun _ => none) true _ _ _ _ (fun key path => path = (backupId, key))
    (fun key m m' hkey => by
      split_ifs at hkey
      · cases hkey
      · cases hkey
        refine ⟨?_, fun path hpath => AList.lookup_erase_ne (fun h => hpath ⟨h, Or.inl rfl⟩)⟩
        rintro path rfl -
        exact AList.lookup_erase _ _) _ ht
  have hmem : ∀ path, (∃ key ∈ (m.keys.filter (fun path => path.1 = backupId ∧
      path.2.dataType = t ∧ path.2.epoch = none)).map Prod.snd,
      path = (backupId, key)) ↔ path ∈ m ∧ path.1 = backupId ∧ path.2.dataType = t ∧
        path.2.epoch = none := by
    rintro ⟨b, key⟩
    simp only [List.mem_map, List.mem_filter, decide_eq_true_eq, AList.mem_keys]
    grind
  refine ⟨fun path hpath _ => ?_, fun path hpath => hrun.kept path (fun h => ?_)⟩
  · by_cases hin : path ∈ m
    · exact hrun.copied path ((hmem path).mpr ⟨hin, hpath⟩) (Or.inl rfl)
    · rw [hrun.kept path (fun h => hin ((hmem path).mp h.1).1), AList.lookup_eq_none.mpr hin]
  · exact hpath ⟨((hmem path).mp h.1).2, h.2⟩

/-- An old backup is gone exactly if nothing of it was stored under an epoch. -/
theorem deleteCustodianContextAtId_removes_iff (hpurge : ∀ op, faults.purge op = false)
    (hlookup : faults.materialLookup = false) (hwrite : faults.materialWrite = false)
    {current : Identifier × κ} (hkeychain : s.keychain = some current) (backupId : Identifier) :
    (backupId = current.1 → deleteCustodianContextAtId faults s backupId = (false, s)) ∧
    (backupId ≠ current.1 → ∃ s', deleteCustodianContextAtId faults s backupId = (true, s') ∧
      s'.recoveryMaterial = s.recoveryMaterial.erase backupId ∧
      (∀ path, path.1 ≠ backupId → s'.entries.lookup path = s.entries.lookup path) ∧
      ((∀ key, (backupId, key) ∉ s'.entries) ↔
        ∀ key : DataKey, key.epoch ≠ none → (backupId, key) ∉ s.entries)) := by
  have hon : OnContext backupId s ↔ backupId = current.1 := by
    rw [OnContext, hkeychain, Option.map_some, Option.some.injEq, eq_comm]
  refine ⟨fun hb => if_pos (Or.inr (hon.mpr hb)), fun hb => ?_⟩
  have hremoved : (removeOldBackup faults.purge backupId s.entries).1 = true := by
    refine UntilFailure.run_fst (fun t _ m => ?_) _
    simp only [hpurge]
    exact UntilFailure.run_fst (fun _ _ _ => rfl) _
  have hfilled := filled_removeOldBackup (Prod.ext hremoved rfl :
    removeOldBackup faults.purge backupId s.entries = (true, _))
  refine ⟨{ s with entries := _, recoveryMaterial := s.recoveryMaterial.erase backupId }, ?_, rfl,
    fun path hpath => hfilled.kept path (fun h => hpath h.1.1), ?_⟩
  · rw [deleteCustodianContextAtId, if_neg (by simp [hkeychain, hon, hb])]
    simp [hremoved, hlookup, hwrite]
  · simp only [← AList.lookup_eq_none]
    constructor
    · intro h key hkey
      rw [← hfilled.kept (backupId, key) (fun hp => hkey hp.1.2)]
      exact h key
    · intro h key
      by_cases hkey : key.epoch = none
      · exact hfilled.copied _ ⟨rfl, hkey⟩ (Or.inl rfl)
      · rw [hfilled.kept (backupId, key) (fun hp => hkey hp.1.2), h key hkey]

section Examples

/-- The second context is in use, and the backup of the first one has the given entry. -/
def oldBackup (key : DataKey) : CustodianKms ℕ ℕ :=
  { oneContext with
    keychain := some (secondContext, 2)
    entries := (∅ : VaultEntries Identifier ℕ ℕ).insert (firstContext, key) (1, 5) }

/-- A key of the default epoch stays. -/
theorem deleteCustodianContextAtId_keeps_epoched :
    let key : DataKey := .epoched .fheKeyInfo firstContext defaultEpochId
    let result := deleteCustodianContextAtId noFaults (oldBackup key) firstContext
    result.1 = true ∧ (firstContext, key) ∈ result.2.entries := by
  decide +kernel

theorem deleteCustodianContextAtId_removes_signingKey :
    ∃ s', deleteCustodianContextAtId noFaults (oldBackup (.plain .signingKey firstContext))
        firstContext = (true, s') ∧
      ∀ key, (firstContext, key) ∉ s'.entries := by
  obtain ⟨s', hdeleted, -, -, hiff⟩ := (@deleteCustodianContextAtId_removes_iff _ _ noFaults
    (oldBackup (.plain .signingKey firstContext)) (fun _ => rfl) rfl rfl _ rfl firstContext).2
    (by decide)
  refine ⟨s', hdeleted, hiff.mpr (fun key hkey hmem => hkey ?_)⟩
  obtain ⟨-, rfl⟩ := Prod.mk.inj (((AList.mem_insert _).mp hmem).resolve_right (AList.notMem_empty _))
  rfl

end Examples

/-!
## The keychain after a restart

A restart finds the contexts whose recovery material is in the public storage and takes the one with
the largest identifier. In memory it is the one that was created last.
-/

/-- Identifiers are compared byte by byte. -/
def Identifier.rank (id : Identifier) : List ℕ := id.bytes.map UInt8.toNat

theorem Identifier.rank_injective : Function.Injective Identifier.rank := by
  intro a b h
  obtain ⟨bytes, ha⟩ := a
  obtain ⟨bytes', hb⟩ := b
  obtain rfl : bytes = bytes' := List.map_injective_iff.mpr (fun _ _ => UInt8.toNat_inj.mp) h
  rfl

variable (recoveryMaterial : HashMap Identifier κ)

def sortedIds : List Identifier :=
  recoveryMaterial.keys.insertionSort fun a b => a.rank ≤ b.rank

/-- `SecretShareKeychain::new` on the recovery material in the public storage. -/
def keychainOf : Option (Identifier × κ) :=
  (sortedIds recoveryMaterial).getLast?.bind fun id =>
    (recoveryMaterial.lookup id).map (Prod.mk id)

theorem keychainOf_eq_some {material : HashMap Identifier κ} {id : Identifier} {encKey : κ}
    (h : material.lookup id = some encKey) :
    keychainOf material = some (id, encKey) ↔ ∀ id' ∈ material, id'.rank ≤ id.rank := by
  have : Std.Total (fun a b : Identifier => a.rank ≤ b.rank) := ⟨fun _ _ => le_total _ _⟩
  have : IsTrans Identifier (fun a b => a.rank ≤ b.rank) := ⟨fun _ _ _ => le_trans⟩
  have hmem : id ∈ material.keys := mem_of_lookup_eq_some h
  obtain ⟨last, hlastmem, hlast, hle⟩ := exists_getLast?_insertionSort
    (fun a b : Identifier => a.rank ≤ b.rank) (List.ne_nil_of_mem hmem)
  rw [keychainOf, sortedIds, hlast, Option.bind_some]
  constructor
  · intro hsome
    obtain ⟨key, -, heq⟩ := Option.map_eq_some_iff.mp hsome
    cases heq
    exact hle
  · intro hmax
    obtain rfl := Identifier.rank_injective (le_antisymm (hmax last hlastmem) (hle id hmem))
    rw [h]
    rfl

/-- A context that is created successfully is the current one, and its material is stored. -/
theorem newCustodianContext_success (h : (newCustodianContext faults ids request s).1 = true) :
    (newCustodianContext faults ids request s).2.keychain =
        some (request.contextId, request.encKey) ∧
      (newCustodianContext faults ids request s).2.recoveryMaterial =
        s.recoveryMaterial.insert request.contextId request.encKey := by
  simp only [newCustodianContext] at h ⊢
  split_ifs at h ⊢ with hrefused hon hupdated
  simp only [writeBackupKeys, writeAllRecoveryMaterial] at h ⊢
  split_ifs at h ⊢
  all_goals first | exact ⟨rfl, rfl⟩ | cases h

/-- The current context is stored, and while there is none nothing is. -/
def Stored (s : CustodianKms κ δ) : Prop :=
  Recoverable s ∧ (s.keychain = none → s.recoveryMaterial = ∅)

theorem Stored.next (hs : Stored s) {call : CustodianCall κ δ} (h : (call.exec ids s).1 = true) :
    Stored (call.next ids s) := by
  cases call with
  | newContext faults request =>
    obtain ⟨hkeychain, hmaterial⟩ := newCustodianContext_success h
    refine ⟨fun backupId encKey hcurrent => ?_, fun hnone => ?_⟩
    · cases hkeychain.symm.trans hcurrent
      exact (congrArg (AList.lookup _) hmaterial).trans (AList.lookup_insert _)
    · cases hkeychain.symm.trans hnone
  | destroyContext faults contextId =>
    obtain ⟨hrecoverable, hkeychain⟩ :=
      @destroyCustodianContext_recoverable _ _ faults _ hs.1 contextId
    refine ⟨hrecoverable, fun hnone => ?_⟩
    have hcurrent : s.keychain = none := hkeychain.symm.trans hnone
    simp [CustodianCall.exec, destroyCustodianContext, deleteCustodianContextAtId, hcurrent] at h
  | privateWrite faults priv => exact hs

variable {calls : List (CustodianCall κ δ)}

theorem Stored.run (hs : Stored s)
    (h : Along (CustodianCall.next ids) (fun s call => (call.exec ids s).1 = true) s calls) :
    Stored (calls.foldl (CustodianCall.next ids) s) := by
  induction calls generalizing s with
  | nil => exact hs
  | cons call calls ih => exact ih (hs.next h.1) h.2

/-- After successful calls a restart is transparent exactly if the current context has the largest
identifier of those that are stored. -/
theorem restart_transparent_iff (hkeychain : s.keychain = none) (hmaterial : s.recoveryMaterial = ∅)
    (h : Along (CustodianCall.next ids) (fun s call => (call.exec ids s).1 = true) s calls) :
    keychainOf (calls.foldl (CustodianCall.next ids) s).recoveryMaterial =
        (calls.foldl (CustodianCall.next ids) s).keychain ↔
      ∀ current ∈ (calls.foldl (CustodianCall.next ids) s).keychain,
        ∀ id ∈ (calls.foldl (CustodianCall.next ids) s).recoveryMaterial.keys,
          id.rank ≤ current.1.rank := by
  have hs : Stored s := by
    refine ⟨fun _ _ hsome => ?_, fun _ => hmaterial⟩
    rw [hkeychain] at hsome
    cases hsome
  obtain ⟨hrecoverable, hempty⟩ := hs.run h
  generalize calls.foldl (CustodianCall.next ids) s = s' at *
  cases hcurrent : s'.keychain with
  | none =>
    rw [hempty hcurrent]
    exact iff_of_true rfl nofun
  | some current =>
    rw [keychainOf_eq_some (hrecoverable current.1 current.2 hcurrent)]
    simp only [Option.mem_some_iff, forall_eq', AList.mem_keys]

section TwoContexts

def noContext : CustodianKms ℕ ℕ :=
  { oneContext with keychain := none, recoveryMaterial := ∅, entries := ∅, metaStore := ∅ }

def firstRequest : CustodianRequest ℕ := ⟨firstContext, defaultMpcContext, 1, true⟩

/-- The contexts are created in the order of their identifiers. -/
theorem restart_transparent_two_contexts :
    keychainOf ([CustodianCall.newContext noFaults firstRequest,
        .newContext noFaults secondRequest].foldl
      (CustodianCall.next ⟨firstContext, secondContext⟩) noContext).recoveryMaterial =
      some (secondContext, 2) :=
  (@restart_transparent_iff _ _ ⟨firstContext, secondContext⟩ noContext
    [.newContext noFaults firstRequest, .newContext noFaults secondRequest] rfl rfl
    ⟨by decide +kernel, by decide +kernel, trivial⟩).mpr (by decide +kernel)

/-- The second context is created before the first one, and a restart goes back to it. -/
theorem restart_switches_backup :
    let created := newCustodianContext noFaults ⟨firstContext, secondContext⟩ secondRequest noContext
    let current := newCustodianContext noFaults ⟨firstContext, secondContext⟩ firstRequest created.2
    created.1 = true ∧ current.1 = true ∧ current.2.keychain = some (firstContext, 1) ∧
      keychainOf current.2.recoveryMaterial = some (secondContext, 2) := by
  decide +kernel

end TwoContexts

end ThresholdKms
