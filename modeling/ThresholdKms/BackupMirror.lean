import ThresholdKms.BackupUpdate
import ThresholdKms.KeyMigration

/-!
# The vault as a mirror of the private storage

Service operations store, replace and delete private data, and each is followed by an update of the
vault that adds what is missing there. The vault stays a mirror exactly as long as no operation
deletes or replaces data that the vault has a copy of; only the compressed-key migration replaces
the copy as well.
-/

namespace ThresholdKms

section Operations

variable {ν κ δ : Type} [DecidableEq ν]

inductive ServiceOp (δ : Type) where
  | keyGeneration (kmsType : KMSType) (keyId epochId : Identifier) (data : δ)
  | crsGeneration (crsId epochId : Identifier) (data : δ)
  | prssSetup (epochId : Identifier) (data : δ)
  | contextCreation (contextId : Identifier) (data : δ)
  | contextDestruction (contextId : Identifier)
  | defaultContextRefresh (data : δ)
  | epochDestruction (epochId : Identifier)
  | compressedKeyMigration (keyId epochId : Identifier) (data : δ)

/-- A KMS with its backup vault. -/
structure BackedUp (ν κ δ : Type) [DecidableEq ν] where
  priv : HashMap DataKey δ
  entries : VaultEntries ν κ δ

def KMSType.keyType : KMSType → EpochedType
  | .centralized => .fhePrivateKey
  | .threshold => .fheKeyInfo

variable (priv : HashMap DataKey δ)

/-- What `destroy_epoch` deletes: the keys and CRSs of the epoch, and then its PRSS setup. -/
def destroyedKeys (epochId : Identifier) : List DataKey :=
  (keysOf priv (.epoched .fheKeyInfo) ++ keysOf priv (.epoched .crsInfo)).filter
      (fun key => key.epoch = some epochId) ++ [.plain .prssSetupCombined epochId]

def deleteAll (keys : List DataKey) : HashMap DataKey δ :=
  keys.foldl (fun m key => m.erase key) priv

/-- The private storage after an operation. What exists already is never stored again. -/
def ServiceOp.onPriv : ServiceOp δ → HashMap DataKey δ
  | .keyGeneration kmsType keyId epochId data =>
    storeNewData priv (.epoched kmsType.keyType keyId epochId) data
  | .crsGeneration crsId epochId data => storeNewData priv (.epoched .crsInfo crsId epochId) data
  | .prssSetup epochId data => storeNewData priv (.plain .prssSetupCombined epochId) data
  | .contextCreation contextId data => storeNewData priv (.plain .contextInfo contextId) data
  | .contextDestruction contextId => priv.erase (.plain .contextInfo contextId)
  | .defaultContextRefresh data =>
    storeNewData (priv.erase (.plain .contextInfo defaultMpcContext))
      (.plain .contextInfo defaultMpcContext) data
  | .epochDestruction epochId => deleteAll priv (destroyedKeys priv epochId)
  | .compressedKeyMigration keyId epochId data =>
    let key : DataKey := .epoched .fheKeyInfo keyId epochId
    if key ∈ priv then storeNewData (priv.erase key) key data else priv

/-- Only the compressed-key migration writes to the vault itself. -/
def ServiceOp.onVault (backupId : ν) (encKey : κ) (priv : HashMap DataKey δ)
    (entries : VaultEntries ν κ δ) : ServiceOp δ → VaultEntries ν κ δ
  | .compressedKeyMigration keyId epochId data =>
    let key : DataKey := .epoched .fheKeyInfo keyId epochId
    if key ∈ priv then
      storeNew (entries.erase (backupId, key)) (backupId, key) (encKey, data)
    else entries
  | _ => entries

/-- The operation deletes no data, and replaces none by other data behind the vault's back. -/
def ServiceOp.Harmless : ServiceOp δ → Prop
  | .contextDestruction contextId => .plain .contextInfo contextId ∉ priv
  | .defaultContextRefresh data =>
    ∀ old, priv.lookup (.plain .contextInfo defaultMpcContext) = some old → old = data
  | .epochDestruction epochId => ∀ key ∈ destroyedKeys priv epochId, key ∉ priv
  | _ => True

end Operations

variable {ν κ δ : Type} [DecidableEq ν] {backupId : ν} {encKey : κ} {priv : HashMap DataKey δ}
  {ids : LegacyPrssIds} {entries : VaultEntries ν κ δ}

/-- An operation and the update after it, which succeeds. -/
structure Serves (ids : LegacyPrssIds) (backupId : ν) (encKey : κ) (op : ServiceOp δ)
    (s s' : BackedUp ν κ δ) : Prop where
  priv_eq : s'.priv = op.onPriv s.priv
  updated : ∃ fails, innerUpdateBackupVault fails false (some (backupId, encKey)) s'.priv ids
    (op.onVault backupId encKey s.priv s.entries) = (true, s'.entries)

/-- The operations of a run, with the state after each. -/
inductive ServiceRun (ids : LegacyPrssIds) (backupId : ν) (encKey : κ) :
    BackedUp ν κ δ → List (ServiceOp δ × BackedUp ν κ δ) → Prop where
  | nil (s : BackedUp ν κ δ) : ServiceRun ids backupId encKey s []
  | cons {s s' : BackedUp ν κ δ} {op : ServiceOp δ} {rest : List (ServiceOp δ × BackedUp ν κ δ)} :
      Serves ids backupId encKey op s s' → ServiceRun ids backupId encKey s' rest →
      ServiceRun ids backupId encKey s ((op, s') :: rest)

/-- Every operation of the run is harmless where it runs. -/
def HarmlessFrom (s : BackedUp ν κ δ) : List (ServiceOp δ × BackedUp ν κ δ) → Prop
  | [] => True
  | (op, s') :: rest => op.Harmless s.priv ∧ HarmlessFrom s' rest

/-- Restoring into an empty storage gives back the private storage. -/
def MirrorsVault [DecidableEq κ] (ids : LegacyPrssIds) (backupId : ν) (encKey : κ)
    (s : BackedUp ν κ δ) : Prop :=
  ∃ restored, restoreData (fun _ => false) backupId encKey s.entries ids ∅ = (true, restored) ∧
    ∀ key, restored.lookup key = s.priv.lookup key

variable {key : DataKey} {data : δ}

theorem keeps_storeNewData : KeepsLookups priv (storeNewData priv key data) := by
  rw [storeNewData]
  split_ifs with hmem
  · exact fun _ _ h => h
  · exact keeps_insert hmem

theorem lookup_deleteAll (keys : List DataKey) (priv : HashMap DataKey δ) (key : DataKey) :
    (deleteAll priv keys).lookup key = if key ∈ keys then none else priv.lookup key := by
  induction keys generalizing priv with
  | nil => simp [deleteAll]
  | cons head rest ih =>
    have hstep : deleteAll priv (head :: rest) = deleteAll (priv.erase head) rest := rfl
    rw [hstep, ih]
    by_cases hhead : key = head
    · subst hhead
      simp
    · simp [hhead]

theorem lookup_replace (key : DataKey) (data : δ) (key' : DataKey) :
    (storeNewData (priv.erase key) key data).lookup key' =
      if key' = key then some data else priv.lookup key' := by
  rw [storeNewData, if_neg (by simp)]
  by_cases hkey : key' = key
  · subst hkey
    rw [AList.lookup_insert, if_pos rfl]
  · rw [AList.lookup_insert_ne hkey, AList.lookup_erase_ne hkey, if_neg hkey]

theorem keeps_replace : KeepsLookups priv (storeNewData (priv.erase key) key data) ↔
      ∀ old, priv.lookup key = some old → old = data := by
  constructor
  · intro h old hold
    have hkept := h key old hold
    rw [lookup_replace, if_pos rfl] at hkept
    exact (Option.some.inj hkept).symm
  · intro h key' old hold
    rw [lookup_replace]
    split_ifs with hkey
    · subst hkey
      rw [h old hold]
    · exact hold

variable {keys : List DataKey}

theorem keeps_deleteAll :
    KeepsLookups priv (deleteAll priv keys) ↔ ∀ key ∈ keys, key ∉ priv := by
  constructor
  · intro h key hkey hmem
    obtain ⟨data, hdata⟩ := exists_lookup_of_mem hmem
    have hkept := h key data hdata
    rw [lookup_deleteAll, if_pos hkey] at hkept
    cases hkept
  · intro h key data hdata
    rw [lookup_deleteAll, if_neg, hdata]
    intro hkey
    exact h key hkey (mem_of_lookup_eq_some hdata)

/-- What the vault has a copy of, the private storage has. -/
def NoStaleCopy (backupId : ν) (priv : HashMap DataKey δ) (entries : VaultEntries ν κ δ) : Prop :=
  ∀ key entry, entries.lookup (backupId, key) = some entry → priv.lookup key = some entry.2

/-- The entries of the backup are the encrypted private data. -/
def Copies (backupId : ν) (encKey : κ) (s : BackedUp ν κ δ) : Prop :=
  ∀ key, s.entries.lookup (backupId, key) = (s.priv.lookup key).map (Prod.mk encKey)

variable {s : BackedUp ν κ δ}

/-- From a vault that mirrors the storage, an operation leaves a stale copy exactly if it is not
harmless. -/
theorem noStaleCopy_iff_harmless (hcopies : Copies backupId encKey s) (op : ServiceOp δ) :
    NoStaleCopy backupId (op.onPriv s.priv) (op.onVault backupId encKey s.priv s.entries) ↔
      op.Harmless s.priv := by
  have hkeeps : ∀ priv', NoStaleCopy backupId priv' s.entries ↔ KeepsLookups s.priv priv' := by
    intro priv'
    constructor
    · intro h key data hdata
      exact h key (encKey, data) (by rw [hcopies, hdata]; rfl)
    · intro h key entry hentry
      rw [hcopies, Option.map_eq_some_iff] at hentry
      obtain ⟨data, hdata, rfl⟩ := hentry
      exact h key data hdata
  cases op with
  | keyGeneration | crsGeneration | prssSetup | contextCreation =>
    exact (hkeeps _).trans (iff_of_true keeps_storeNewData trivial)
  | contextDestruction contextId => exact (hkeeps _).trans keeps_erase
  | defaultContextRefresh data => exact (hkeeps _).trans keeps_replace
  | epochDestruction epochId => exact (hkeeps _).trans keeps_deleteAll
  | compressedKeyMigration keyId epochId data =>
    refine iff_of_true ?_ trivial
    intro key entry hentry
    simp only [ServiceOp.onPriv, ServiceOp.onVault] at hentry ⊢
    split_ifs at hentry ⊢ with hmem
    · rw [lookup_replace]
      by_cases hkey : key = .epoched .fheKeyInfo keyId epochId
      · subst hkey
        rw [lookup_storeNew_self (by simp)] at hentry
        cases hentry
        rw [if_pos rfl]
      · have hpath : (backupId, key) ≠ (backupId, .epoched .fheKeyInfo keyId epochId) :=
          fun h => hkey (Prod.mk.inj h).2
        rw [lookup_storeNew_ne hpath, AList.lookup_erase_ne hpath] at hentry
        rw [if_neg hkey]
        exact (hkeeps _).mpr (fun _ _ h => h) key entry hentry
    · exact (hkeeps _).mpr (fun _ _ h => h) key entry hentry

/-- All items are current, and every copy is encrypted under the key. -/
structure WellKept (backupId : ν) (encKey : κ) (priv : HashMap DataKey δ)
    (entries : VaultEntries ν κ δ) : Prop where
  current : OnlyCurrent priv
  currentIn : OnlyCurrentIn backupId entries
  encrypted : EncryptedUnder backupId encKey entries

theorem mem_of_mem_storeNewData {key key' : DataKey}
    (h : key ∈ storeNewData priv key' data) : key ∈ priv ∨ key = key' := by
  rw [storeNewData] at h
  split_ifs at h
  · exact Or.inl h
  · exact ((AList.mem_insert _).mp h).symm

theorem mem_of_mem_deleteAll
    (h : key ∈ deleteAll priv keys) : key ∈ priv := by
  rw [← AList.lookup_isSome, lookup_deleteAll] at h
  split_ifs at h
  · cases h
  · exact AList.lookup_isSome.mp h

theorem current_epoched (dataType : EpochedType) (id epoch : Identifier) :
    (DataKey.epoched dataType id epoch).Current :=
  ⟨nofun, rfl, rfl⟩

theorem onlyCurrent_onPriv (hcurrent : OnlyCurrent priv) (op : ServiceOp δ) :
    OnlyCurrent (op.onPriv priv) := by
  have hadds : ∀ {priv' : HashMap DataKey δ} {key : DataKey} {data : δ},
      OnlyCurrent priv' → key.Current → OnlyCurrent (storeNewData priv' key data) := by
    intro priv' key data hpriv' hkey key' hmem
    rcases mem_of_mem_storeNewData hmem with hold | rfl
    · exact hpriv' key' hold
    · exact hkey
  have herase : ∀ key, OnlyCurrent (priv.erase key) :=
    fun key key' hmem => hcurrent key' (AList.mem_erase.mp hmem).2
  cases op with
  | keyGeneration | crsGeneration => exact hadds hcurrent (current_epoched _ _ _)
  | prssSetup | contextCreation => exact hadds hcurrent ⟨nofun, rfl, rfl⟩
  | contextDestruction contextId => exact herase _
  | defaultContextRefresh data => exact hadds (herase _) ⟨nofun, rfl, rfl⟩
  | epochDestruction epochId => exact fun key hmem => hcurrent key (mem_of_mem_deleteAll hmem)
  | compressedKeyMigration keyId epochId data =>
    simp only [ServiceOp.onPriv]
    split_ifs
    · exact hadds (herase _) (current_epoched _ _ _)
    · exact hcurrent

variable {fails : BackupOp → Bool} {entries' : VaultEntries ν κ δ}

section Updated

variable (h : innerUpdateBackupVault fails false (some (backupId, encKey)) priv ids entries =
  (true, entries'))
include h

theorem lookup_updated (hcurrent : OnlyCurrent priv) (key : DataKey) :
    entries'.lookup (backupId, key) = (entries.lookup (backupId, key)).or
      ((priv.lookup key).map (Prod.mk encKey)) := by
  have hfilled := filled_innerUpdateBackupVault hcurrent h
  by_cases hmem : (backupId, key) ∈ entries
  · rw [hfilled.kept (backupId, key) (by simp [hmem])]
    obtain ⟨entry, hentry⟩ := exists_lookup_of_mem hmem
    rw [hentry]
    rfl
  · rw [AList.lookup_eq_none.mpr hmem]
    by_cases hpriv : key ∈ priv
    · exact hfilled.copied (backupId, key) ⟨rfl, hpriv⟩ (Or.inr hmem)
    · rw [hfilled.kept (backupId, key) (fun h => hpriv h.1.2), AList.lookup_eq_none.mpr hmem,
        AList.lookup_eq_none.mpr hpriv]
      rfl

theorem wellKept_updated (hkept : WellKept backupId encKey priv entries) :
    WellKept backupId encKey priv entries' := by
  refine ⟨hkept.current, ?_, ?_⟩
  · intro key hmem
    rw [← AList.lookup_isSome, lookup_updated h hkept.current, Option.isSome_or, Bool.or_eq_true,
      AList.lookup_isSome, Option.isSome_map, AList.lookup_isSome] at hmem
    exact hmem.elim (hkept.currentIn key) (hkept.current key)
  · intro key entry hentry
    rw [lookup_updated h hkept.current, Option.or_eq_some_iff] at hentry
    rcases hentry with hold | ⟨-, hnew⟩
    · exact hkept.encrypted key entry hold
    · obtain ⟨data, -, rfl⟩ := Option.map_eq_some_iff.mp hnew
      rfl

end Updated

/-- After an update the vault copies the storage exactly if it had no stale copy. -/
theorem copies_updated_iff (hkept : WellKept backupId encKey s.priv entries)
    (h : innerUpdateBackupVault fails false (some (backupId, encKey)) s.priv ids entries =
      (true, s.entries)) :
    Copies backupId encKey s ↔ NoStaleCopy backupId s.priv entries := by
  have hlookup := lookup_updated h hkept.current
  constructor
  · intro hcopies key entry hentry
    have hcopy := hcopies key
    rw [hlookup, hentry, Option.some_or, eq_comm, Option.map_eq_some_iff] at hcopy
    obtain ⟨data, hdata, rfl⟩ := hcopy
    exact hdata
  · intro hfresh key
    rw [hlookup]
    cases hentry : entries.lookup (backupId, key) with
    | none => rfl
    | some entry =>
      obtain ⟨encKey', data⟩ := entry
      obtain rfl : encKey' = encKey := hkept.encrypted key _ hentry
      rw [hfresh key _ hentry]
      rfl

section Kept

variable {s s' : BackedUp ν κ δ} (hkept : WellKept backupId encKey s.priv s.entries)
include hkept

theorem wellKept_op (op : ServiceOp δ) :
    WellKept backupId encKey (op.onPriv s.priv)
      (op.onVault backupId encKey s.priv s.entries) := by
  have hcurrent := onlyCurrent_onPriv hkept.current op
  cases op with
  | compressedKeyMigration keyId epochId data =>
    by_cases hmem : DataKey.epoched .fheKeyInfo keyId epochId ∈ s.priv
    · have hfresh : (backupId, DataKey.epoched .fheKeyInfo keyId epochId) ∉
          s.entries.erase (backupId, .epoched .fheKeyInfo keyId epochId) := by simp
      refine ⟨hcurrent, ?_, ?_⟩
      · intro key hkey
        simp only [ServiceOp.onVault, if_pos hmem, storeNew, if_neg hfresh] at hkey
        rcases (AList.mem_insert _).mp hkey with heq | hkey
        · obtain rfl := (Prod.mk.inj heq).2
          exact current_epoched _ _ _
        · exact hkept.currentIn key (AList.mem_erase.mp hkey).2
      · intro key entry hentry
        simp only [ServiceOp.onVault, if_pos hmem] at hentry
        by_cases hkey : (backupId, key) = (backupId, .epoched .fheKeyInfo keyId epochId)
        · rw [hkey, lookup_storeNew_self hfresh] at hentry
          cases hentry
          rfl
        · rw [lookup_storeNew_ne hkey, AList.lookup_erase_ne hkey] at hentry
          exact hkept.encrypted key entry hentry
    · refine ⟨hcurrent, ?_, ?_⟩
      · simpa only [ServiceOp.onVault, if_neg hmem] using hkept.currentIn
      · simpa only [ServiceOp.onVault, if_neg hmem] using hkept.encrypted
  | _ => exact ⟨hcurrent, hkept.currentIn, hkept.encrypted⟩

theorem Serves.wellKept {op : ServiceOp δ} (h : Serves ids backupId encKey op s s') :
    WellKept backupId encKey s'.priv s'.entries := by
  obtain ⟨fails, hupdate⟩ := h.updated
  refine wellKept_updated hupdate ?_
  rw [h.priv_eq]
  exact wellKept_op hkept op

variable [DecidableEq κ]

theorem mirrors_iff_copies :
    MirrorsVault ids backupId encKey s ↔ Copies backupId encKey s := by
  obtain ⟨restored, hrestored⟩ : ∃ restored,
      restoreData (fun _ => false) backupId encKey s.entries ids ∅ = (true, restored) :=
    ⟨_, Prod.ext (restoreData_succeeds (fun _ => rfl) hkept.encrypted ∅) rfl⟩
  have hfilled := filled_restoreData hkept.currentIn hrestored
  have hlookup : ∀ key, restored.lookup key = (s.entries.lookup (backupId, key)).map Prod.snd := by
    intro key
    by_cases hmem : (backupId, key) ∈ s.entries
    · rw [hfilled.copied key hmem (Or.inr (by simp)), readVault_eq (fun _ => rfl) hkept.encrypted]
    · rw [hfilled.kept key (fun h => hmem h.1), AList.lookup_eq_none.mpr hmem]
      simp
  have hcopy : ∀ key, s.entries.lookup (backupId, key) =
      ((s.entries.lookup (backupId, key)).map Prod.snd).map (Prod.mk encKey) := by
    intro key
    cases hentry : s.entries.lookup (backupId, key) with
    | none => rfl
    | some entry =>
      obtain rfl : entry.1 = encKey := hkept.encrypted key entry hentry
      rfl
  constructor
  · rintro ⟨restored', hrestored', hsame⟩ key
    obtain rfl : restored = restored' := by
      rw [hrestored] at hrestored'
      exact (Prod.mk.inj hrestored').2
    rw [hcopy, ← hlookup, hsame]
  · intro hcopies
    refine ⟨restored, hrestored, fun key => ?_⟩
    rw [hlookup, hcopies, Option.map_map]
    exact Option.map_id'

/-- One operation keeps a mirror exactly if it is harmless. -/
theorem Serves.mirrors_iff {op : ServiceOp δ} (h : Serves ids backupId encKey op s s')
    (hmirror : MirrorsVault ids backupId encKey s) :
    MirrorsVault ids backupId encKey s' ↔ op.Harmless s.priv := by
  obtain ⟨fails, hupdate⟩ := h.updated
  have hop : WellKept backupId encKey s'.priv (op.onVault backupId encKey s.priv s.entries) := by
    rw [h.priv_eq]
    exact wellKept_op hkept op
  rw [mirrors_iff_copies (Serves.wellKept hkept h), copies_updated_iff hop hupdate, h.priv_eq]
  exact noStaleCopy_iff_harmless ((mirrors_iff_copies hkept).mp hmirror) op

end Kept

/-- From a mirrored storage, every state of a run is mirrored exactly if every operation of it is
harmless where it runs. -/
theorem mirrors_run_iff_harmless [DecidableEq κ] {s : BackedUp ν κ δ}
    {run : List (ServiceOp δ × BackedUp ν κ δ)} (hrun : ServiceRun ids backupId encKey s run)
    (hkept : WellKept backupId encKey s.priv s.entries)
    (hmirror : MirrorsVault ids backupId encKey s) :
    (∀ x ∈ run, MirrorsVault ids backupId encKey x.2) ↔ HarmlessFrom s run := by
  induction hrun with
  | nil s => simp [HarmlessFrom]
  | @cons s s' op rest hserves hrest ih =>
    have hstep := Serves.mirrors_iff hkept hserves hmirror
    rw [List.forall_mem_cons]
    constructor
    · rintro ⟨hhead, htail⟩
      exact ⟨hstep.mp hhead, (ih (Serves.wellKept hkept hserves) hhead).mp htail⟩
    · rintro ⟨hharmless, hfrom⟩
      have hhead := hstep.mpr hharmless
      exact ⟨hhead, (ih (Serves.wellKept hkept hserves) hhead).mpr hfrom⟩

section Fresh

/-- An operation and its update, none of whose accesses fails. -/
def serve (ids : LegacyPrssIds) (backupId : ν) (encKey : κ) (op : ServiceOp δ)
    (s : BackedUp ν κ δ) : BackedUp ν κ δ where
  priv := op.onPriv s.priv
  entries := (innerUpdateBackupVault (fun _ => false) false (some (backupId, encKey))
    (op.onPriv s.priv) ids (op.onVault backupId encKey s.priv s.entries)).2

theorem serves_serve (op : ServiceOp δ) (s : BackedUp ν κ δ) :
    Serves ids backupId encKey op s (serve ids backupId encKey op s) :=
  ⟨rfl, fun _ => false, Prod.ext (innerUpdateBackupVault_succeeds (fun _ => rfl) _ _) rfl⟩

theorem wellKept_empty : WellKept backupId encKey (∅ : HashMap DataKey δ) ∅ where
  current := fun _ h => absurd h (AList.notMem_empty _)
  currentIn := fun _ h => absurd h (AList.notMem_empty _)
  encrypted := fun _ _ h => by simp at h

theorem mirrors_empty [DecidableEq κ] :
    MirrorsVault ids backupId encKey (⟨∅, ∅⟩ : BackedUp ν κ δ) := by
  rw [mirrors_iff_copies wellKept_empty]
  intro key
  rfl

theorem not_harmless_destroyed_epoch {epochId : Identifier} :
    ¬ (ServiceOp.epochDestruction epochId : ServiceOp δ).Harmless
      ((ServiceOp.prssSetup epochId data).onPriv ∅) := by
  intro h
  refine h (.plain .prssSetupCombined epochId) ?_ ?_
  · exact List.mem_append_right _ (List.mem_singleton.mpr rfl)
  · exact (AList.mem_insert _).mpr (Or.inl rfl)

/-- The default epoch's PRSS setup is stored and then destroyed with the epoch; the vault still has
it. -/
theorem destroyed_epoch_not_mirrored :
    let ids : LegacyPrssIds := ⟨defaultEpochId, defaultMpcContext⟩
    let s₁ := serve ids () () (.prssSetup defaultEpochId 5) (⟨∅, ∅⟩ : BackedUp Unit Unit ℕ)
    let s₂ := serve ids () () (.epochDestruction defaultEpochId) s₁
    ServiceRun ids () () ⟨∅, ∅⟩
        [(.prssSetup defaultEpochId 5, s₁), (.epochDestruction defaultEpochId, s₂)] ∧
      ¬ MirrorsVault ids () () s₂ := by
  intro ids s₁ s₂
  have hfirst : Serves ids () () (.prssSetup defaultEpochId 5) ⟨∅, ∅⟩ s₁ := serves_serve _ _
  have hsecond : Serves ids () () (.epochDestruction defaultEpochId) s₁ s₂ := serves_serve _ _
  refine ⟨.cons hfirst (.cons hsecond (.nil s₂)), ?_⟩
  have hmirror := (hfirst.mirrors_iff wellKept_empty mirrors_empty).mpr trivial
  rw [hsecond.mirrors_iff (hfirst.wellKept wellKept_empty) hmirror]
  exact not_harmless_destroyed_epoch

/-- The setup of an epoch and then a context are stored. -/
theorem created_context_mirrored :
    let ids : LegacyPrssIds := ⟨defaultEpochId, defaultMpcContext⟩
    let s₁ := serve ids () () (.prssSetup defaultEpochId 5) (⟨∅, ∅⟩ : BackedUp Unit Unit ℕ)
    let s₂ := serve ids () () (.contextCreation defaultMpcContext 7) s₁
    MirrorsVault ids () () s₁ ∧ MirrorsVault ids () () s₂ := by
  intro ids s₁ s₂
  have hmirrors := (mirrors_run_iff_harmless (.cons (serves_serve (.prssSetup defaultEpochId 5) _)
    (.cons (serves_serve (.contextCreation defaultMpcContext 7) s₁) (.nil s₂))) wellKept_empty
    mirrors_empty).mpr ⟨trivial, trivial, trivial⟩
  exact ⟨hmirrors _ List.mem_cons_self, hmirrors _ (List.mem_cons_of_mem _ List.mem_cons_self)⟩

end Fresh

end ThresholdKms
