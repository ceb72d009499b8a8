import ThresholdKms.CustodianRecoveryEndpoint

/-!
# What the recovery endpoint achieves

With the outputs of more custodians than the threshold, the call succeeds and restores the vault
exactly if no output in range carries an unknown scheme number. The ephemeral keys are then gone,
but the decryption key of the backup is kept.
-/

namespace ThresholdKms

open Operator Outcome

section Validating

variable {crypto : BackupCrypto}

theorem length_keys_insert_of_notMem {κ ν : Type} [DecidableEq κ] {m : HashMap κ ν} {k : κ} {v : ν}
    (h : k ∉ m) : (m.insert k v).keys.length = m.keys.length + 1 := by
  rw [AList.keys_insert, List.length_cons, List.erase_of_not_mem h]

theorem length_validateMessage_le {n : ℕ} {checked : Bool} {now : ℕ → ℤ}
    {state : CustodianKeys crypto × List SetupSkipReason} {msg : CustodianSetupMessage crypto × ℕ} :
    (validateMessage n checked now state msg).1.keys.length ≤ state.1.keys.length ∨
      ((validateMessage n checked now state msg).1.keys.length = state.1.keys.length + 1 ∧
        ∀ now', validateMessage n false now' state msg = validateMessage n checked now state msg) := by
  simp only [validateMessage]
  by_cases htime : checked = true ∧ ¬ (now msg.2 - timestampValidationWindow < msg.1.timestamp ∧
      msg.1.timestamp < now msg.2 + timestampValidationWindow)
  · rw [if_pos htime]
    exact Or.inl le_rfl
  rw [if_neg htime]
  simp only [Bool.false_eq_true, false_and, if_false]
  by_cases hheader : msg.1.header ≠ setupHeader
  · rw [if_pos hheader]
    exact Or.inl le_rfl
  rw [if_neg hheader]
  by_cases hrole : n < msg.1.custodianRole
  · rw [if_pos hrole]
    exact Or.inl le_rfl
  rw [if_neg hrole]
  cases hlookup : state.1.lookup msg.1.custodianRole with
  | some old =>
    have hmem := mem_of_lookup_eq_some hlookup
    refine Or.inl (le_of_eq (length_keys_of_mem_iff fun role => ?_))
    simp only [AList.mem_insert]
    constructor
    · rintro (rfl | rfl | h)
      · exact hmem
      · exact hmem
      · exact h
    · exact fun h => Or.inr (Or.inr h)
  | none =>
    exact Or.inr ⟨length_keys_insert_of_notMem (AList.lookup_eq_none.mp hlookup), fun _ => trivial⟩

/-- If every message adds a custodian, then the time stamps do not matter. -/
theorem foldl_validateMessage_eq {n : ℕ} {now now' : ℕ → ℤ}
    (l : List (CustodianSetupMessage crypto × ℕ))
    (state : CustodianKeys crypto × List SetupSkipReason) :
    (l.foldl (validateMessage n true now) state).1.keys.length ≤ state.1.keys.length + l.length ∧
      ((l.foldl (validateMessage n true now) state).1.keys.length = state.1.keys.length + l.length →
        l.foldl (validateMessage n false now') state =
          l.foldl (validateMessage n true now) state) := by
  induction l generalizing state with
  | nil => exact ⟨le_rfl, fun _ => rfl⟩
  | cons msg l ih =>
    obtain ⟨hle, heq⟩ := ih (validateMessage n true now state msg)
    simp only [List.foldl_cons, List.length_cons]
    rcases @length_validateMessage_le _ n true now state msg with hsame | ⟨hnew, hstep⟩
    · refine ⟨by omega, fun h => ?_⟩
      omega
    · refine ⟨by omega, fun h => ?_⟩
      rw [hstep now']
      exact heq (by omega)

/-- The operator of a backup for as many custodians as there are messages is set up again without
the time stamps. -/
theorem newForValidating_of_newForSharing {messages : List (CustodianSetupMessage crypto)}
    {sk : crypto.SigKey} {t : ℕ} {now : ℕ → ℤ} {op : Operator crypto}
    (h : newForSharing messages sk t messages.length now = .ok op)
    (hlength : op.custodianKeys.keys.length = messages.length) (now' : ℕ → ℤ) :
    newForValidating messages (crypto.verfKey sk) t messages.length now' =
      .ok { op with signingKey := none } := by
  unfold newForSharing at h
  unfold newForValidating
  unfold validateCustodianMessages at h ⊢
  cases hnt : verifyNT messages.length t with
  | error fault =>
    rw [hnt] at h
    cases h
  | ok u =>
    rw [hnt] at h
    by_cases hcount : messages.length ≠ messages.length ∧ messages.length < t + 1
    · exact absurd rfl hcount.1
    have hfold := (@foldl_validateMessage_eq _ messages.length now now' messages.zipIdx
      (∅, [])).2
    simp only [bind, Except.bind, if_neg hcount] at h ⊢
    split_ifs at h with hfew
    · cases h
    · obtain rfl := Except.ok.inj h
      have hfull := hfold (by simpa using hlength)
      rw [hfull, if_neg hfew]
      rfl

end Validating

section Filter

variable {crypto : BackupCrypto} {op : Operator crypto} {stored : StoredRecoveryMaterial crypto}
  {decKey : crypto.DecKey} {encKey : crypto.EncKey}

def SentRecoveryOutput.InRange (n : ℕ) (output : SentRecoveryOutput crypto) : Prop :=
  ¬ (output.custodianRole = 0 ∨ n < output.custodianRole)

/-- The scheme numbers of every output in range are known. -/
def WellNumbered (n : ℕ) (outputs : List (SentRecoveryOutput crypto)) : Prop :=
  ∀ output ∈ outputs, output.InRange n → ∀ out, output.backupOutput = some out →
    out.pkeType = 0 ∧ out.signingType = 0

/-- The signcryptions that are looked at. -/
def received (n : ℕ) (outputs : List (SentRecoveryOutput crypto)) :
    List (CustodianRecoveryOutput crypto) :=
  outputs.filterMap fun output =>
    if output.custodianRole = 0 ∨ n < output.custodianRole then none
    else output.backupOutput.map fun out => ⟨out.signcryption, output.custodianRole⟩

variable {out : OperatorBackupOutput crypto}

theorem toSigncryption_of_zero
    (h : out.pkeType = 0 ∧ out.signingType = 0) : out.toSigncryption = .ok out.signcryption := by
  rw [OperatorBackupOutput.toSigncryption, pkeSchemeType, signingSchemeType, if_pos h.1, if_pos h.2]
  rfl

theorem toSigncryption_of_ne_zero
    (h : ¬ (out.pkeType = 0 ∧ out.signingType = 0)) : ∃ e, out.toSigncryption = .error e := by
  rw [OperatorBackupOutput.toSigncryption, pkeSchemeType, signingSchemeType]
  split_ifs with hpke hsign
  · exact absurd ⟨hpke, hsign⟩ h
  · exact ⟨_, rfl⟩
  · exact ⟨_, rfl⟩
  · exact ⟨_, rfl⟩
  · exact ⟨_, rfl⟩
  · exact ⟨_, rfl⟩

variable {recovery : RecoveryValidationMaterial crypto} {outputs : List (SentRecoveryOutput crypto)}

theorem foldlM_filterStep_eq {n : ℕ} (h : WellNumbered n outputs) (state : Validated crypto) :
    outputs.foldlM (filterStep op recovery decKey encKey n) state =
      .ok ((received n outputs).foldl (op.validateStep recovery decKey encKey) state) := by
  induction outputs generalizing state with
  | nil => rfl
  | cons output outputs ih =>
    obtain ⟨hhead, htail⟩ := List.forall_mem_cons.mp h
    replace htail := ih htail
    rw [List.foldlM_cons, filterStep, received, List.filterMap_cons]
    by_cases hrange : output.custodianRole = 0 ∨ n < output.custodianRole
    · rw [if_pos hrange, if_pos hrange]
      exact htail state
    · rw [if_neg hrange, if_neg hrange]
      cases hout : output.backupOutput with
      | none => exact htail state
      | some out =>
        simp only [toSigncryption_of_zero (hhead hrange out hout)]
        exact htail _

theorem foldlM_filterStep_error {n : ℕ} (h : ¬ WellNumbered n outputs) (state : Validated crypto) :
    ∃ e, outputs.foldlM (filterStep op recovery decKey encKey n) state = .error e := by
  induction outputs generalizing state with
  | nil => exact absurd (fun _ ho => absurd ho List.not_mem_nil) h
  | cons output outputs ih =>
    rw [List.foldlM_cons]
    cases hstep : filterStep op recovery decKey encKey n state output with
    | error e => exact ⟨e, rfl⟩
    | ok state' =>
      refine ih (fun hrest => h ?_) state'
      rw [WellNumbered, List.forall_mem_cons]
      refine ⟨fun hrange out hout => ?_, hrest⟩
      by_contra hbad
      obtain ⟨e, he⟩ := toSigncryption_of_ne_zero hbad
      rw [filterStep, if_neg hrange, hout] at hstep
      simp [he] at hstep

/-- Outputs of more custodians than `t` are among those sent, unaltered. -/
def EnoughSent (op : Operator crypto) (decKey : crypto.DecKey) (encKey : crypto.EncKey)
    (material : Role → BackupMaterial crypto.VerfKey) (t : ℕ)
    (outputs : List (SentRecoveryOutput crypto)) : Prop :=
  ∃ roles : List Role, roles.Nodup ∧ t < roles.length ∧ ∀ role ∈ roles,
    ∃ output ∈ outputs, output.custodianRole = role ∧ ∃ out, output.backupOutput = some out ∧
      Unaltered op decKey encKey material ⟨out.signcryption, role⟩

theorem EnoughSent.received {material : Role → BackupMaterial crypto.VerfKey} {t n : ℕ}
    (hkeys : ∀ role, role ∈ op.custodianKeys ↔ 1 ≤ role ∧ role ≤ n)
    (h : EnoughSent op decKey encKey material t outputs) :
    EnoughUnaltered op decKey encKey material t (received n outputs) := by
  obtain ⟨roles, hnodup, ht, hroles⟩ := h
  refine ⟨roles, hnodup, ht, fun role hrole => ?_⟩
  obtain ⟨output, hmem, rfl, out, hout, hunaltered⟩ := hroles role hrole
  refine ⟨⟨out.signcryption, output.custodianRole⟩, ?_, hunaltered, rfl⟩
  obtain ⟨encPk, verfKey, hkey, -⟩ := hunaltered
  obtain ⟨hpos, hle⟩ := (hkeys _).mp (mem_of_lookup_eq_some hkey)
  refine List.mem_filterMap.mpr ⟨output, hmem, ?_⟩
  have hrange : ¬ (output.custodianRole = 0 ∨ n < output.custodianRole) := by
    rintro (hzero | hlt)
    · exact absurd (hpos.trans_eq hzero) (by decide)
    · exact absurd hle (Nat.not_le.mpr hlt)
  rw [if_neg hrange, hout]
  rfl

end Filter

section Outcome

variable {crypto : BackupCrypto} {F κ δ : Type} [Field F] [DecidableEq F] [G2p .four F]
  [DecidableEq κ] {setting : RecoverySetting crypto F κ δ} {op : Operator crypto}
  {sk : crypto.SigKey} {material : Role → BackupMaterial crypto.VerfKey} {key : κ} {n t : ℕ}

/-- The current backup of the vault was made for `n` custodians with threshold `t`, under the key,
and is intact. -/
structure IntactBackup (setting : RecoverySetting crypto F κ δ) (op : Operator crypto)
    (sk : crypto.SigKey) (material : Role → BackupMaterial crypto.VerfKey) (key : κ) (n t : ℕ) :
    Prop where
  collisionFree : crypto.CollisionFree
  majority : 2 * t < n
  backupId_valid : idIsValid setting.backupId
  verfKey_eq : setting.verfKey = crypto.verfKey sk
  mem_keys : ∀ role, role ∈ op.custodianKeys ↔ 1 ≤ role ∧ role ≤ n
  made : ∃ messages now rng secret mpcContextId result recovery,
    messages.length = n ∧ newForSharing messages sk t n now = .ok op ∧
    idIsValid mpcContextId ∧
    op.secretShareAndSigncrypt rng secret setting.backupId mpcContextId = .ok result ∧
    RecoveryValidationMaterial.new result n t setting.backupId mpcContextId = .ok recovery ∧
    SigncryptedFor op sk rng result material ∧
    setting.publicStorage.lookup setting.backupId = some ⟨recovery, messages, true⟩ ∧
    setting.deserialize secret = .ok key
  encrypted : EncryptedUnder setting.backupId key setting.entries
  current : OnlyCurrentIn setting.backupId setting.entries
  available : ∀ access, setting.fails access = false

omit [G2p .four F] [DecidableEq κ] in
theorem loadRecoveryValidationMaterial_eq {messages : List (CustodianSetupMessage crypto)}
    (hvalid : idIsValid setting.backupId) (hid : recovery.contextId = setting.backupId)
    (hlookup : setting.publicStorage.lookup setting.backupId = some ⟨recovery, messages, true⟩) :
    loadRecoveryValidationMaterial setting (some setting.backupId) =
      .ok ⟨recovery, messages, true⟩ := by
  simp only [loadRecoveryValidationMaterial, hvalid, hlookup, hid]
  simp

omit [DecidableEq κ] in
/-- The key is reconstructed exactly if the scheme numbers are known. -/
theorem recoverBackupDecKey_eq (h : IntactBackup setting op sk material key n t)
    {decKey : crypto.DecKey} {encKey : crypto.EncKey}
    (henough : EnoughSent op decKey encKey material t outputs) :
    (WellNumbered n outputs → recoverBackupDecKey setting decKey encKey
        ⟨some setting.backupId, outputs⟩ = .ok key) ∧
      (¬ WellNumbered n outputs → ∃ e, recoverBackupDecKey setting decKey encKey
        ⟨some setting.backupId, outputs⟩ = .error e) := by
  obtain ⟨messages, now, rng, secret, mpcContextId, result, recovery, hlength, hsharing, hmpc, hshare,
    hnew, hmaterial, hlookup, hdeserialize⟩ := h.made
  subst hlength
  have hrecovery := recovery_eq_of_new hnew
  have hload := loadRecoveryValidationMaterial_eq h.backupId_valid (by rw [hrecovery]) hlookup
  obtain ⟨hsk, hthreshold, -, -⟩ := newForSharing_eq_ok hsharing
  have hvalidating := newForValidating_of_newForSharing hsharing (length_keys_of_roles h.mem_keys)
    setting.now
  obtain ⟨hcommitted, hrecovers⟩ := committed_and_recovers F h.collisionFree h.majority h.mem_keys
    hthreshold hsk h.backupId_valid hmpc hshare hnew hmaterial
  have hrecoveryThreshold : recovery.threshold = t := by rw [hrecovery]
  have hmpcContext : idIsValid recovery.mpcContext = true := by
    rw [hrecovery]
    exact hmpc
  have hvalidate : validateCustodianBackupRecoveryRequest setting decKey encKey
      ⟨some setting.backupId, outputs⟩ =
        (filterCustodianData { op with signingKey := none } ⟨recovery, messages, true⟩ decKey encKey
          outputs >>= fun validated => .ok (validated, { op with signingKey := none })) := by
    simp only [validateCustodianBackupRecoveryRequest, hload, ok_bind, hmpcContext,
      hrecoveryThreshold, h.verfKey_eq, hvalidating]
    rfl
  constructor
  · intro hnumbered
    have hcollected : Collected op decKey encKey material (received messages.length outputs)
        ((received messages.length outputs).foldl (op.validateStep recovery decKey encKey) (∅, [])) :=
      Collected.start.run hcommitted
    have hcount := (hcollected.enough_iff t).mp (henough.received h.mem_keys)
    have hfilter : filterCustodianData { op with signingKey := none } ⟨recovery, messages, true⟩
        decKey encKey outputs = .ok ((received messages.length outputs).foldl
          (op.validateStep recovery decKey encKey) (∅, [])) := by
      rw [filterCustodianData, foldlM_filterStep_eq hnumbered, ok_bind]
      refine if_neg ?_
      rw [hrecoveryThreshold]
      exact Nat.not_lt.mpr hcount
    rw [recoverBackupDecKey, hvalidate, hfilter]
    simp only [ok_bind]
    rw [hrecovers _ _ _ _ _ hcollected (hthreshold.trans_lt hcount)]
    exact hdeserialize
  · intro hbad
    obtain ⟨e, he⟩ := @foldlM_filterStep_error _ { op with signingKey := none } decKey encKey
      recovery _ _ hbad (∅, [])
    refine ⟨e, ?_⟩
    rw [recoverBackupDecKey, hvalidate, filterCustodianData]
    simp only [he, error_bind]

/-- The vault was restored, present items are unchanged and the ephemeral keys are gone. -/
structure Recovered (setting : RecoverySetting crypto F κ δ) (s : RecoveryState crypto κ δ)
    (result : Bool × RecoveryState crypto κ δ) : Prop where
  returned : result.1 = true
  restored : ∀ k entry, setting.entries.lookup (setting.backupId, k) = some entry → k ∉ s.priv →
    result.2.priv.lookup k = some entry.2
  unchanged : ∀ k ∈ s.priv, result.2.priv.lookup k = s.priv.lookup k
  ephemeralKeys_eq : result.2.ephemeralKeys = none

variable (h : IntactBackup setting op sk material key n t) {s : RecoveryState crypto κ δ}
  {decKey : crypto.DecKey} {encKey : crypto.EncKey} {outputs : List (SentRecoveryOutput crypto)}
  (hephemeral : s.ephemeralKeys = some (decKey, encKey))
include h hephemeral

theorem recovered_of_key {request : CustodianRecoveryRequest crypto}
    (hkey : recoverBackupDecKey setting decKey encKey request = .ok key) :
    Recovered setting s (custodianBackupRecovery setting request s) ∧
      (custodianBackupRecovery setting request s).2.decKey = some key := by
  obtain ⟨priv', hrestore⟩ : ∃ priv', restoreData setting.fails setting.backupId key setting.entries
      setting.legacyIds s.priv = (true, priv') :=
    ⟨_, Prod.ext (restoreData_succeeds h.available h.encrypted s.priv) rfl⟩
  have hcall : custodianBackupRecovery setting request s = (true, ⟨none, some key, priv'⟩) := by
    simp only [custodianBackupRecovery, hephemeral, hkey, hrestore]
    rfl
  have hfilled := filled_restoreData h.current hrestore
  rw [hcall]
  refine ⟨⟨rfl, ?_, ?_, rfl⟩, rfl⟩
  · intro k entry hentry hnot
    have hmem : (setting.backupId, k) ∈ setting.entries := mem_of_lookup_eq_some hentry
    rw [hfilled.copied k hmem (Or.inr hnot), readVault_eq h.available h.encrypted, hentry]
    rfl
  · intro k hk
    exact hfilled.kept k (fun hfresh => hfresh.2.elim nofun (fun hnot => hnot hk))

/-- Enough unaltered outputs recover the vault exactly if no output in range has an unknown scheme
number, and a call that recovers it leaves the decryption key in the keychain. -/
theorem custodianBackupRecovery_recovers_iff
    (henough : EnoughSent op decKey encKey material t outputs) :
    let result := custodianBackupRecovery setting ⟨some setting.backupId, outputs⟩ s
    (Recovered setting s result ↔ WellNumbered n outputs) ∧
      (Recovered setting s result → result.2.decKey = some key) := by
  intro result
  obtain ⟨hgood, hbad⟩ := recoverBackupDecKey_eq h henough
  have hiff : Recovered setting s result ↔ WellNumbered n outputs := by
    constructor
    · intro hrecovered
      by_contra hnumbered
      obtain ⟨e, he⟩ := hbad hnumbered
      have hreturned := hrecovered.returned
      simp only [result, custodianBackupRecovery, hephemeral, he] at hreturned
      cases hreturned
    · intro hnumbered
      exact (recovered_of_key h hephemeral (hgood hnumbered)).1
  refine ⟨hiff, fun hrecovered => ?_⟩
  exact (recovered_of_key h hephemeral (hgood (hiff.mp hrecovered))).2

end Outcome

section ThreeCustodians

/-- The recovery material of three custodians is stored, and the vault has one item. -/
def plainSetting (recovery : RecoveryValidationMaterial plainCrypto) :
    RecoverySetting plainCrypto GF16 Bytes ℕ where
  publicStorage := (∅ : HashMap Bytes (StoredRecoveryMaterial plainCrypto)).insert [3]
    ⟨recovery, [plainMessage 0, plainMessage 1, plainMessage 2], true⟩
  verfKey := (0 : ℕ)
  now := fun _ => 0
  lagrangeStore := LagrangeStore.empty
  deserialize := fun bytes => .ok bytes
  backupId := [3]
  entries := (∅ : VaultEntries Bytes Bytes ℕ).insert ([3], .plain .contextInfo ⟨List.replicate 32 1,
    rfl⟩) ([1, 2], 5)
  legacyIds := ⟨⟨List.replicate 32 1, rfl⟩, ⟨List.replicate 32 2, rfl⟩⟩
  fails := fun _ => false

def plainState : RecoveryState plainCrypto Bytes ℕ := ⟨some ((), ()), none, ∅⟩

theorem intactBackup_plain : ∃ recovery material,
    IntactBackup (plainSetting recovery) (plainOperator [0, 1, 2]) (0 : ℕ) material [1, 2] 3 1 := by
  obtain ⟨result, material, hshare, hnew, hfor⟩ := usable_plain_three
  refine ⟨_, material, collisionFree_plain, by decide, rfl, rfl,
    mem_plainKeys_three, ⟨_, fun _ => 0, plainRng, [1, 2], [4], result, _, rfl,
      newForSharing_plain_three, by decide, hshare, hnew, hfor, AList.lookup_insert _, rfl⟩, ?_, ?_,
    fun _ => rfl⟩
  · intro k entry hentry
    by_cases hk : ([3], k) = (([3], .plain .contextInfo ⟨List.replicate 32 1, rfl⟩) : Bytes × DataKey)
    · obtain rfl := (Prod.mk.inj hk).2
      obtain rfl := Option.some.inj ((AList.lookup_insert _).symm.trans hentry)
      rfl
    · exact absurd ((AList.lookup_insert_ne hk).symm.trans hentry) (by simp)
  · intro key hmem
    obtain ⟨-, rfl⟩ := Prod.mk.inj
      (((AList.mem_insert _).mp hmem).resolve_right (AList.notMem_empty _))
    exact ⟨nofun, rfl, rfl⟩

/-- The outputs of the custodians two and one, and one more. -/
def plainOutputs (material : Role → BackupMaterial plainCrypto.VerfKey) (pkeType : ℤ) :
    List (SentRecoveryOutput plainCrypto) :=
  [⟨3, some ⟨material 3, pkeType, 0⟩⟩, ⟨2, some ⟨material 2, 0, 0⟩⟩, ⟨1, some ⟨material 1, 0, 0⟩⟩]

variable (material : Role → BackupMaterial plainCrypto.VerfKey)

theorem enoughSent_plain (pkeType : ℤ) :
    EnoughSent (plainOperator [0, 1, 2]) () () material 1 (plainOutputs material pkeType) := by
  refine ⟨[2, 1], by decide, by decide, fun role hrole => ?_⟩
  rcases List.mem_cons.mp hrole with rfl | hrole
  · exact ⟨⟨2, some ⟨material 2, 0, 0⟩⟩, List.mem_cons_of_mem _ List.mem_cons_self, rfl,
      ⟨material 2, 0, 0⟩, rfl, (), (2 : ℕ), rfl, rfl⟩
  · obtain rfl := List.mem_singleton.mp hrole
    exact ⟨⟨1, some ⟨material 1, 0, 0⟩⟩,
      List.mem_cons_of_mem _ (List.mem_cons_of_mem _ List.mem_cons_self), rfl, ⟨material 1, 0, 0⟩,
      rfl, (), (1 : ℕ), rfl, rfl⟩

theorem wellNumbered_plain :
    WellNumbered 3 (plainOutputs material 0) := by
  intro output houtput _ out hout
  simp only [plainOutputs, List.mem_cons, List.not_mem_nil, or_false] at houtput
  rcases houtput with rfl | rfl | rfl
  · cases hout
    exact ⟨rfl, rfl⟩
  · cases hout
    exact ⟨rfl, rfl⟩
  · cases hout
    exact ⟨rfl, rfl⟩

theorem not_wellNumbered_plain :
    ¬ WellNumbered 3 (plainOutputs material 9) := by
  intro h
  have hzero : (9 : ℤ) = 0 := (h _ List.mem_cons_self (by simp [SentRecoveryOutput.InRange])
    ⟨material 3, 9, 0⟩ rfl).1
  exact absurd hzero (by decide)

/-- An unknown scheme number stops the recovery, and without one the decryption key is kept. -/
theorem custodianBackupRecovery_stops_or_keeps_key : ∃ recovery material,
    IntactBackup (plainSetting recovery) (plainOperator [0, 1, 2]) (0 : ℕ) material [1, 2] 3 1 ∧
      (custodianBackupRecovery (plainSetting recovery) ⟨some [3], plainOutputs material 9⟩
        plainState).1 = false ∧
      (custodianBackupRecovery (plainSetting recovery) ⟨some [3], plainOutputs material 0⟩
        plainState).2.decKey = some [1, 2] := by
  obtain ⟨recovery, material, hintact⟩ := intactBackup_plain
  refine ⟨recovery, material, hintact, ?_, ?_⟩
  · obtain ⟨e, he⟩ := (recoverBackupDecKey_eq hintact (enoughSent_plain material 9)).2
      (not_wellNumbered_plain material)
    simp only [custodianBackupRecovery, plainState]
    rw [show recoverBackupDecKey (plainSetting recovery) () () ⟨some [3], _⟩ = .error e from he]
  · exact (recovered_of_key hintact rfl ((recoverBackupDecKey_eq hintact
      (enoughSent_plain material 0)).1 (wellNumbered_plain material))).2

theorem custodianBackupRecovery_recovers_three : ∃ recovery material,
    let result := custodianBackupRecovery (plainSetting recovery)
      ⟨some [3], plainOutputs material 0⟩ plainState
    (Recovered (plainSetting recovery) plainState result ↔
        WellNumbered 3 (plainOutputs material 0)) ∧
      (Recovered (plainSetting recovery) plainState result → result.2.decKey = some [1, 2]) := by
  obtain ⟨recovery, material, hintact⟩ := intactBackup_plain
  exact ⟨recovery, material,
    custodianBackupRecovery_recovers_iff hintact rfl (enoughSent_plain material 0)⟩

end ThreeCustodians

end ThresholdKms
