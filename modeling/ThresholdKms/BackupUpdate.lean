import ThresholdKms.BackupVault

/-!
# What updates and restores copy

Both fill a map from a source: an update fills the vault from the private storage, a restore the
private storage from the vault. `Filled` is the effect of filling the chosen keys, where existing
entries are replaced only if `force` is set.
-/

namespace ThresholdKms

section Filled

variable {α β : Type} [DecidableEq α] {source : α → Option β} {force : Bool} {p q : α → Prop}
  {m m₁ m₂ : HashMap α β}

structure Filled (source : α → Option β) (force : Bool) (chosen : α → Prop) (m m' : HashMap α β) :
    Prop where
  copied : ∀ a, chosen a → (force = true ∨ a ∉ m) → m'.lookup a = source a
  kept : ∀ a, ¬ (chosen a ∧ (force = true ∨ a ∉ m)) → m'.lookup a = m.lookup a

theorem filled_refl (h : ∀ a, p a → force = false ∧ a ∈ m) : Filled source force p m m where
  copied := by
    intro a ha hfresh
    obtain ⟨hforce, hmem⟩ := h a ha
    rcases hfresh with hfresh | hfresh
    · rw [hforce] at hfresh
      cases hfresh
    · exact absurd hmem hfresh
  kept := fun _ _ => rfl

theorem mem_iff_of_lookup_eq {a : α} (h : m₁.lookup a = m.lookup a) : a ∈ m₁ ↔ a ∈ m := by
  rw [← AList.lookup_isSome, ← AList.lookup_isSome, h]

theorem Filled.trans (h₁ : Filled source force p m m₁) (h₂ : Filled source force q m₁ m₂) :
    Filled source force (fun a => p a ∨ q a) m m₂ where
  copied := by
    intro a ha hfresh
    by_cases hq : q a ∧ (force = true ∨ a ∉ m₁)
    · exact h₂.copied a hq.1 hq.2
    · rw [h₂.kept a hq]
      by_cases hp : p a
      · exact h₁.copied a hp hfresh
      · -- the first part left the key alone, so the second one chose it and found it free
        have hsame := h₁.kept a (fun h => hp h.1)
        refine absurd ⟨ha.resolve_left hp, ?_⟩ hq
        rcases hfresh with hforce | hnot
        · exact Or.inl hforce
        · exact Or.inr (fun hmem => hnot ((mem_iff_of_lookup_eq hsame).mp hmem))
  kept := by
    intro a ha
    have hp : ¬ (p a ∧ (force = true ∨ a ∉ m)) := fun h => ha ⟨Or.inl h.1, h.2⟩
    have hsame := h₁.kept a hp
    have hq : ¬ (q a ∧ (force = true ∨ a ∉ m₁)) := by
      rintro ⟨hqa, hfresh⟩
      rw [mem_iff_of_lookup_eq hsame] at hfresh
      exact ha ⟨Or.inr hqa, hfresh⟩
    rw [h₂.kept a hq, hsame]

theorem Filled.congr (h : Filled source force p m m₁) (hpq : ∀ a, p a ↔ q a) :
    Filled source force q m m₁ where
  copied := fun a ha => h.copied a ((hpq a).mpr ha)
  kept := fun a ha => h.kept a (fun h' => ha ⟨(hpq a).mp h'.1, h'.2⟩)

theorem filled_run {ι : Type} {step : ι → HashMap α β → Bool × HashMap α β} {chosen : ι → α → Prop}
    (hstep : ∀ i m m', step i m = (true, m') → Filled source force (chosen i) m m') {l : List ι}
    (h : UntilFailure.run step l m = (true, m₁)) :
    Filled source force (fun a => ∃ i ∈ l, chosen i a) m m₁ := by
  refine @UntilFailure.run_rel _ _ _ _ (fun p m m' => Filled source force
    (fun a => ∃ i, p i ∧ chosen i a) m m') ?_ ?_ ?_ _ _ h
  · exact fun m => filled_refl (fun _ ⟨_, hi, _⟩ => hi.elim)
  · exact fun i m m' hi => (hstep i m m' hi).congr (fun a => by simp)
  · exact fun p q m m₁ m₂ h₁ h₂ => (h₁.trans h₂).congr (fun a => by simp [or_and_right, exists_or])

end Filled

section KeepsLookups

variable {α β : Type} [DecidableEq α] {m m₁ m₂ : HashMap α β} {a : α}

/-- Every entry is still there. -/
def KeepsLookups (m m' : HashMap α β) : Prop := ∀ a b, m.lookup a = some b → m'.lookup a = some b

theorem KeepsLookups.trans (h₁ : KeepsLookups m m₁) (h₂ : KeepsLookups m₁ m₂) : KeepsLookups m m₂ :=
  fun a b hb => h₂ a b (h₁ a b hb)

theorem keeps_insert {b : β} (h : a ∉ m) : KeepsLookups m (m.insert a b) := by
  intro a' b' hb'
  rw [AList.lookup_insert_ne, hb']
  rintro rfl
  rw [AList.lookup_eq_none.mpr h] at hb'
  cases hb'

theorem keeps_erase : KeepsLookups m (m.erase a) ↔ a ∉ m := by
  constructor
  · intro h hmem
    obtain ⟨b, hb⟩ := exists_lookup_of_mem hmem
    have hkept := h a b hb
    rw [AList.lookup_erase] at hkept
    cases hkept
  · intro hnot a' b' hb'
    rw [AList.lookup_erase_ne, hb']
    rintro rfl
    rw [AList.lookup_eq_none.mpr hnot] at hb'
    cases hb'

end KeepsLookups

variable {ν κ δ : Type} [DecidableEq ν] {fails : BackupOp → Bool} {overwrite : Bool} {backupId : ν}
  {encKey : κ} {priv priv' : HashMap DataKey δ} {ids : LegacyPrssIds}
  {entries entries' : VaultEntries ν κ δ}

/-- What the vault should hold at a path. -/
def vaultSource (encKey : κ) (priv : HashMap DataKey δ) (path : ν × DataKey) : Option (κ × δ) :=
  (priv.lookup path.2).map (Prod.mk encKey)

/-- The item is no deprecated PRSS setup, and is stored where those of its type are listed. -/
def DataKey.Current (key : DataKey) : Prop :=
  key.dataType ≠ .plain .prssSetup ∧ key.ListedFor key.dataType

/-- All private items are current. -/
def OnlyCurrent (priv : HashMap DataKey δ) : Prop := ∀ key ∈ priv, key.Current

variable {dataType : PrivDataType} {key : DataKey}

theorem mem_keysOf : key ∈ keysOf priv dataType ↔ key ∈ priv ∧ key.ListedFor dataType := by
  rw [keysOf]
  simp [AList.mem_keys]

theorem mem_iter (dataType : PrivDataType) : dataType ∈ PrivDataType.iter := by
  cases dataType with
  | epoched t => cases t <;> decide
  | plain t => cases t <;> decide

theorem DataKey.Current.exists_listedFor (h : key.Current) :
    ∃ dataType ∈ PrivDataType.iter, key.ListedFor dataType :=
  ⟨key.dataType, mem_iter _, h.2⟩

theorem lookup_storeNew_self {path : ν × DataKey} {entry : κ × δ} (h : path ∉ entries) :
    (storeNew entries path entry).lookup path = some entry := by
  rw [storeNew, if_neg h, AList.lookup_insert]

theorem lookup_storeNew_ne {path path' : ν × DataKey} {entry : κ × δ} (h : path' ≠ path) :
    (storeNew entries path entry).lookup path' = entries.lookup path' := by
  rw [storeNew]
  split_ifs
  · rfl
  · exact AList.lookup_insert_ne h

theorem filled_backupKey
    (h : backupKey fails overwrite backupId encKey priv key entries = (true, entries')) :
    Filled (vaultSource encKey priv) overwrite (fun path => path.1 = backupId ∧ path.2 = key)
      entries entries' := by
  rw [backupKey] at h
  by_cases hexists : fails (.existence key) = true
  · rw [if_pos hexists] at h
    cases h
  rw [if_neg hexists] at h
  by_cases hskip : (backupId, key) ∈ entries ∧ overwrite = false
  · rw [if_pos hskip] at h
    cases h
    refine filled_refl ?_
    rintro ⟨b, k⟩ ⟨rfl, rfl⟩
    exact ⟨hskip.2, hskip.1⟩
  rw [if_neg hskip] at h
  cases hload : priv.lookup key with
  | none => simp [hload] at h
  | some data =>
    simp only [hload] at h
    -- an old entry that is replaced is deleted first
    set start := if overwrite = true then entries.erase (backupId, key) else entries with hstart
    have hfresh : (backupId, key) ∉ start := by
      rw [hstart]
      split_ifs with hover
      · simp
      · exact fun hmem => hskip ⟨hmem, Bool.eq_false_iff.mpr hover⟩
    have hkept : ∀ path, path ≠ (backupId, key) → start.lookup path = entries.lookup path := by
      intro path hne
      rw [hstart]
      split_ifs
      · exact AList.lookup_erase_ne hne
      · rfl
    split_ifs at h
    · cases h
    · cases h
    · cases h
    · cases h
      refine ⟨?_, ?_⟩
      · rintro ⟨b, k⟩ ⟨rfl, rfl⟩ -
        rw [lookup_storeNew_self hfresh, vaultSource, hload]
        rfl
      · rintro ⟨b, k⟩ hnot
        have hne : (b, k) ≠ (backupId, key) := by
          rintro heq
          cases heq
          refine hnot ⟨⟨rfl, rfl⟩, ?_⟩
          by_contra hfree
          rw [not_or, not_not] at hfree
          exact hskip ⟨hfree.2, Bool.eq_false_iff.mpr hfree.1⟩
        rw [lookup_storeNew_ne hne, hkept _ hne]

theorem filled_updateSpecificBackupVault
    (h : updateSpecificBackupVault fails overwrite backupId encKey priv dataType entries =
      (true, entries')) :
    Filled (vaultSource encKey priv) overwrite
      (fun path => path.1 = backupId ∧ path.2 ∈ keysOf priv dataType) entries entries' := by
  rw [updateSpecificBackupVault] at h
  split_ifs at h with hlist
  · cases h
  · exact (filled_run (fun key m m' hkey => filled_backupKey hkey) h).congr
      (fun path => by simp [and_comm])

theorem filled_updateType (hcurrent : OnlyCurrent priv)
    (h : updateType fails overwrite backupId encKey priv ids dataType entries = (true, entries')) :
    Filled (vaultSource encKey priv) overwrite
      (fun path => path.1 = backupId ∧ path.2 ∈ keysOf priv dataType) entries entries' := by
  rw [updateType] at h
  split_ifs at h with hprss
  · subst hprss
    have hread : readPrss fails priv (.plain .prssSetup ids.prss128Id) = none := by
      rw [readPrss]
      split_ifs
      · rfl
      · exact AList.lookup_eq_none.mpr (fun hmem => (hcurrent _ hmem).1 rfl)
    rw [updateLegacyPrss134, hread] at h
    cases h
    refine filled_refl ?_
    rintro ⟨b, key⟩ ⟨-, hmem⟩
    obtain ⟨hmem, htype, -⟩ := mem_keysOf.mp hmem
    exact absurd htype (hcurrent key hmem).1
  · exact filled_updateSpecificBackupVault h

/-- A successful update fills the current backup from the private storage. -/
theorem filled_innerUpdateBackupVault (hcurrent : OnlyCurrent priv)
    (h : innerUpdateBackupVault fails overwrite (some (backupId, encKey)) priv ids entries =
      (true, entries')) :
    Filled (vaultSource encKey priv) overwrite
      (fun path => path.1 = backupId ∧ path.2 ∈ priv) entries entries' := by
  refine (filled_run (fun t m m' ht => filled_updateType hcurrent ht) h).congr (fun path => ?_)
  simp only [mem_keysOf]
  exact ⟨fun ⟨_, _, hid, hmem, _⟩ => ⟨hid, hmem⟩, fun ⟨hid, hmem⟩ =>
    have ⟨t, ht, hlisted⟩ := (hcurrent _ hmem).exists_listedFor
    ⟨t, ht, hid, hmem, hlisted⟩⟩

theorem backupKey_succeeds (hfails : ∀ op, fails op = false) (hkey : key ∈ priv)
    (entries : VaultEntries ν κ δ) :
    (backupKey fails overwrite backupId encKey priv key entries).1 = true := by
  obtain ⟨data, hdata⟩ := exists_lookup_of_mem hkey
  simp only [backupKey, hfails, hdata]
  split_ifs
  all_goals simp_all

theorem innerUpdateBackupVault_succeeds (hfails : ∀ op, fails op = false)
    (keychain : Option (ν × κ)) (entries : VaultEntries ν κ δ) :
    (innerUpdateBackupVault fails overwrite keychain priv ids entries).1 = true := by
  cases keychain with
  | none => rfl
  | some pair =>
    refine UntilFailure.run_fst (fun dataType _ m => ?_) entries
    rw [updateType]
    split_ifs
    · simp only [updateLegacyPrss134]
      split
      · simp only [deleteBoth, storeBoth, hfails]
        cases overwrite <;> rfl
      · rfl
    · rw [updateSpecificBackupVault, hfails]
      exact UntilFailure.run_fst
        (fun key hkey m => backupKey_succeeds hfails (mem_keysOf.mp hkey).1 m) m

section Restore

/-- All items of the current backup are current. -/
def OnlyCurrentIn (backupId : ν) (entries : VaultEntries ν κ δ) : Prop :=
  ∀ key, (backupId, key) ∈ entries → key.Current

theorem mem_vaultKeysOf : key ∈ vaultKeysOf backupId entries dataType ↔
      (backupId, key) ∈ entries ∧ key.ListedFor dataType := by
  rw [vaultKeysOf, List.mem_map]
  constructor
  · rintro ⟨⟨b, k⟩, hmem, rfl⟩
    obtain ⟨hpath, hchosen⟩ := List.mem_filter.mp hmem
    obtain ⟨rfl, htype⟩ := of_decide_eq_true hchosen
    exact ⟨hpath, htype⟩
  · rintro ⟨hmem, htype⟩
    exact ⟨(backupId, key), List.mem_filter.mpr ⟨hmem, by simp [htype]⟩, rfl⟩

variable [DecidableEq κ] {decKey : κ}

theorem readVault_eq_none (h : (backupId, key) ∉ entries) :
    readVault fails backupId decKey entries key = none := by
  rw [readVault, AList.lookup_eq_none.mpr h]

theorem filled_restoreKey (h : restoreKey fails backupId decKey entries key priv = (true, priv')) :
    Filled (readVault fails backupId decKey entries) false (· = key) priv priv' := by
  rw [restoreKey] at h
  by_cases hexists : fails (.existence key) = true
  · rw [if_pos hexists] at h
    cases h
  rw [if_neg hexists] at h
  by_cases hmem : key ∈ priv
  · rw [if_pos hmem] at h
    cases h
    exact filled_refl (fun _ hkey => ⟨rfl, hkey ▸ hmem⟩)
  rw [if_neg hmem] at h
  cases hread : readVault fails backupId decKey entries key with
  | none => simp [hread] at h
  | some data =>
    simp only [hread] at h
    split_ifs at h
    · cases h
    · cases h
      refine ⟨?_, ?_⟩
      · rintro k rfl -
        rw [AList.lookup_insert, hread]
      · intro k hnot
        refine AList.lookup_insert_ne ?_
        rintro rfl
        exact hnot ⟨rfl, Or.inr hmem⟩

theorem filled_restoreType (hcurrent : OnlyCurrentIn backupId entries)
    (h : restoreType fails backupId decKey entries ids dataType priv = (true, priv')) :
    Filled (readVault fails backupId decKey entries) false
      (fun key => key ∈ vaultKeysOf backupId entries dataType) priv priv' := by
  rw [restoreType] at h
  split_ifs at h with hprss
  · subst hprss
    rw [restoreLegacyPrss134, readVault_eq_none (fun hmem => (hcurrent _ hmem).1 rfl)] at h
    cases h
    refine filled_refl ?_
    intro key hmem
    obtain ⟨hmem, htype, -⟩ := mem_vaultKeysOf.mp hmem
    exact absurd htype (hcurrent key hmem).1
  · rw [restoreDataType] at h
    split_ifs at h with hlist
    · cases h
    · exact (filled_run (fun key m m' hkey => filled_restoreKey hkey) h).congr
        (fun key => by simp)

/-- A successful restore fills the private storage from the current backup. -/
theorem filled_restoreData (hcurrent : OnlyCurrentIn backupId entries)
    (h : restoreData fails backupId decKey entries ids priv = (true, priv')) :
    Filled (readVault fails backupId decKey entries) false
      (fun key => (backupId, key) ∈ entries) priv priv' := by
  refine (filled_run (fun t m m' ht => filled_restoreType hcurrent ht) h).congr (fun key => ?_)
  simp only [mem_vaultKeysOf]
  exact ⟨fun ⟨_, _, hmem, _⟩ => hmem, fun hmem =>
    have ⟨t, ht, hlisted⟩ := (hcurrent key hmem).exists_listedFor
    ⟨t, ht, hmem, hlisted⟩⟩

/-- Every entry of the current backup is encrypted under the key. -/
def EncryptedUnder (backupId : ν) (encKey : κ) (entries : VaultEntries ν κ δ) : Prop :=
  ∀ key entry, entries.lookup (backupId, key) = some entry → entry.1 = encKey

theorem readVault_eq (hfails : ∀ op, fails op = false)
    (hkey : EncryptedUnder backupId decKey entries) (key : DataKey) :
    readVault fails backupId decKey entries key = (entries.lookup (backupId, key)).map Prod.snd := by
  rw [readVault]
  cases hlookup : entries.lookup (backupId, key) with
  | none => rfl
  | some entry =>
    have hentry := hkey key entry hlookup
    simp [hfails, hentry]

theorem restoreData_succeeds (hfails : ∀ op, fails op = false)
    (hkey : EncryptedUnder backupId decKey entries) (priv : HashMap DataKey δ) :
    (restoreData fails backupId decKey entries ids priv).1 = true := by
  refine UntilFailure.run_fst (fun dataType _ m => ?_) priv
  rw [restoreType]
  split_ifs
  · simp only [restoreLegacyPrss134, hfails]
    split <;> rfl
  · rw [restoreDataType, hfails]
    refine UntilFailure.run_fst (fun key hmem m => ?_) m
    obtain ⟨entry, hentry⟩ := Option.isSome_iff_exists.mp
      (AList.lookup_isSome.mpr (mem_vaultKeysOf.mp hmem).1)
    simp only [restoreKey, hfails, readVault_eq hfails hkey, hentry, Bool.false_eq_true, if_false]
    split_ifs
    · rfl
    · rfl

end Restore

end ThresholdKms
