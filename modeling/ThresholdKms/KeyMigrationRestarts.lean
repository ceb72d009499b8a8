import ThresholdKms.KeyMigration

/-!
# Restarts of the migration

However often the migration is started and interrupted, a run that ends leaves every key with its
bytes under the default epoch, if interrupted writes leave no partial file. With a partial file the
next start takes the file for the key and deletes the original.
-/

namespace ThresholdKms

open Interruptible PrivStorage

variable {leaves : Bytes → Bytes → Prop} {codec : MigrationCodec} {dataType : FheDataType}
  {source target : Option Identifier} {s s' s₀ : PrivStorage} {id : Identifier} {data : Bytes}

/-- Every key of `s₀` is at one of the places, all copies have its bytes, and keys under other epochs
are as in `s₀`. -/
structure Intact (dataType : FheDataType) (s₀ s : PrivStorage) : Prop where
  same : ∀ e ∈ keyPlaces, ∀ id bytes, s.keys.lookup ⟨dataType, e, id⟩ = some bytes →
    firstCopy dataType s₀ id = some bytes
  present : ∀ id bytes, firstCopy dataType s₀ id = some bytes →
    ∃ e ∈ keyPlaces, s.keys.lookup ⟨dataType, e, id⟩ = some bytes
  others : ∀ e, some e ∉ keyPlaces → ∀ id,
    s.keys.lookup ⟨dataType, some e, id⟩ = s₀.keys.lookup ⟨dataType, some e, id⟩

variable (h : Intact dataType s₀ s)
include h

theorem Intact.congr (hkeys : s'.keys = s.keys) :
    Intact dataType s₀ s' := by
  obtain ⟨hsame, hpresent, hothers⟩ := h
  rw [← hkeys] at hsame hpresent hothers
  exact ⟨hsame, hpresent, hothers⟩

/-- Only one path changes, which still agrees with `s₀`, and the key keeps a place. -/
theorem Intact.change {place : Option Identifier} (hplace : place ∈ keyPlaces)
    (hother : ∀ path, path ≠ ⟨dataType, place, id⟩ → s'.keys.lookup path = s.keys.lookup path)
    (hsame : ∀ bytes, s'.keys.lookup ⟨dataType, place, id⟩ = some bytes →
      firstCopy dataType s₀ id = some bytes)
    (hpresent : ∃ e ∈ keyPlaces, (⟨dataType, e, id⟩ : KeyPath) ∈ s'.keys) :
    Intact dataType s₀ s' := by
  have hall : ∀ e ∈ keyPlaces, ∀ i bytes, s'.keys.lookup ⟨dataType, e, i⟩ = some bytes →
      firstCopy dataType s₀ i = some bytes := by
    intro e he i bytes hbytes
    by_cases hpath : (⟨dataType, e, i⟩ : KeyPath) = ⟨dataType, place, id⟩
    · cases hpath
      exact hsame bytes hbytes
    · rw [hother _ hpath] at hbytes
      exact h.same e he i bytes hbytes
  refine ⟨hall, ?_, ?_⟩
  · intro i bytes hbytes
    by_cases hid : i = id
    · subst hid
      obtain ⟨e, he, hmem⟩ := hpresent
      obtain ⟨copy, hcopy⟩ := exists_lookup_of_mem hmem
      exact ⟨e, he, by rw [hcopy, ← hall e he i copy hcopy, hbytes]⟩
    · obtain ⟨e, he, hlookup⟩ := h.present i bytes hbytes
      exact ⟨e, he, by rw [hother _ (fun hpath => hid (congrArg KeyPath.id hpath)), hlookup]⟩
  · intro e he i
    rw [hother, h.others e he i]
    intro hpath
    have hepoch : some e = place := congrArg KeyPath.epoch hpath
    exact he (hepoch ▸ hplace)

theorem Intact.insert (htarget : target ∈ keyPlaces)
    (hdata : firstCopy dataType s₀ id = some data) :
    Intact dataType s₀ { s with keys := s.keys.insert ⟨dataType, target, id⟩ data } := by
  refine h.change htarget (fun _ => AList.lookup_insert_ne) (fun bytes hbytes => ?_)
    ⟨target, htarget, by simp⟩
  rw [hdata, ← hbytes, AList.lookup_insert]

theorem Intact.erase (hsource : source ∈ keyPlaces) (htarget : target ∈ keyPlaces)
    (hne : source ≠ target) (hmem : (⟨dataType, target, id⟩ : KeyPath) ∈ s.keys) :
    Intact dataType s₀ { s with keys := s.keys.erase ⟨dataType, source, id⟩ } := by
  refine h.change hsource (fun _ => AList.lookup_erase_ne) (by simp) ⟨target, htarget, ?_⟩
  -- the copy that allowed the removal is still there
  exact AList.mem_erase.mpr ⟨fun hpath => hne (congrArg KeyPath.epoch hpath).symm, hmem⟩

omit h

theorem keeps_copyKeys (hleaves : ∀ bytes part, leaves bytes part → part = bytes)
    (hsource : source ∈ keyPlaces) (htarget : target ∈ keyPlaces) :
    Keeps (Intact dataType s₀) (copyKeys leaves dataType source target) := by
  refine keeps_read_of_keeps (fun _ => keeps_forEach (fun id => keeps_read (fun s h => ?_)) _)
  by_cases hmem : (⟨dataType, target, id⟩ : KeyPath) ∈ s.keys
  · rw [if_pos hmem]
    exact ⟨keeps_skip.run s h, fun s' => keeps_skip.crash s s' h⟩
  · rw [if_neg hmem]
    cases hload : s.keys.lookup ⟨dataType, source, id⟩ with
    | none => exact ⟨keeps_skip.run s h, fun s' => keeps_skip.crash s s' h⟩
    | some data =>
      have hdata := h.same source hsource id data hload
      simp only [storeBytes, Interruptible.read, if_neg hmem, writeBytes, change]
      refine ⟨h.insert htarget hdata, ?_⟩
      rintro s' (rfl | rfl | ⟨part, hpart, rfl⟩)
      · exact h
      · exact h.insert htarget hdata
      · rw [hleaves data part hpart]
        exact h.insert htarget hdata

theorem keeps_removeKeys (hsource : source ∈ keyPlaces) (htarget : target ∈ keyPlaces)
    (hne : source ≠ target) :
    Keeps (Intact dataType s₀) (removeKeys dataType source target) := by
  refine keeps_read_of_keeps (fun _ => keeps_forEach (fun id => keeps_read (fun s h => ?_)) _)
  by_cases hmem : (⟨dataType, target, id⟩ : KeyPath) ∈ s.keys
  · rw [if_pos hmem]
    have herase := h.erase hsource htarget hne hmem
    refine ⟨herase, ?_⟩
    rintro s' (rfl | rfl | hnot)
    · exact h
    · exact herase
    · exact hnot.elim
  · rw [if_neg hmem]
    exact ⟨keeps_skip.run s h, fun s' => keeps_skip.crash s s' h⟩

theorem keeps_of_keys {p : Interruptible PrivStorage}
    (hp : ∀ keys, Keeps (fun s : PrivStorage => s.keys = keys) p) :
    Keeps (Intact dataType s₀) p where
  run := fun s h => h.congr ((hp s.keys).run s rfl)
  crash := fun s s' h hcrash => h.congr ((hp s.keys).crash s s' rfl hcrash)

theorem unepoched_mem : none ∈ keyPlaces := List.mem_cons_self

theorem legacy_mem : some legacyDefaultEpochId ∈ keyPlaces :=
  List.mem_cons_of_mem _ List.mem_cons_self

theorem default_mem : some defaultEpochId ∈ keyPlaces :=
  List.mem_cons_of_mem _ (List.mem_cons_of_mem _ List.mem_cons_self)

theorem keeps_migrateTo01320 (hleaves : ∀ bytes part, leaves bytes part → part = bytes)
    (kmsType : KMSType) :
    Keeps (Intact kmsType.dataType s₀) (migrateTo01320 leaves codec kmsType) := by
  refine Keeps.seq (Keeps.seq ?_ (Keeps.seq ?_ (Keeps.seq ?_ (Keeps.seq ?_ ?_)))) ?_
  · exact (keeps_copyKeys hleaves unepoched_mem legacy_mem).seq
      (keeps_whenThreshold (keeps_of_keys keeps_keys_migrateLegacyPrss) kmsType)
  · exact keeps_whenThreshold (keeps_of_keys keeps_keys_migrateCombinedPrss) kmsType
  · exact keeps_of_keys keeps_keys_migrateContext
  · exact keeps_copyKeys hleaves legacy_mem default_mem
  · exact keeps_removeKeys unepoched_mem legacy_mem (by simp)
  · exact keeps_removeKeys legacy_mem default_mem legacy_ne_default

/-- Copies of one key at the three places are equal. -/
def Consistent (dataType : FheDataType) (s : PrivStorage) : Prop :=
  ∀ e ∈ keyPlaces, ∀ id bytes, s.keys.lookup ⟨dataType, e, id⟩ = some bytes →
    firstCopy dataType s id = some bytes

theorem firstCopy_eq_some {bytes : Bytes} (h : firstCopy dataType s id = some bytes) :
    ∃ e ∈ keyPlaces, s.keys.lookup ⟨dataType, e, id⟩ = some bytes := by
  rw [firstCopy, Option.or_eq_some_iff, Option.or_eq_some_iff] at h
  rcases h with h | ⟨-, h | ⟨-, h⟩⟩
  · exact ⟨_, default_mem, h⟩
  · exact ⟨_, legacy_mem, h⟩
  · exact ⟨_, unepoched_mem, h⟩

theorem Consistent.intact (h : Consistent dataType s) : Intact dataType s s where
  same := h
  present := fun _ _ hbytes => firstCopy_eq_some hbytes
  others := fun _ _ _ => rfl

theorem firstCopy_isSome {e : Option Identifier} (he : e ∈ keyPlaces) {bytes : Bytes}
    (h : s.keys.lookup ⟨dataType, e, id⟩ = some bytes) : (firstCopy dataType s id).isSome := by
  rw [firstCopy]
  simp only [keyPlaces, List.mem_cons, List.not_mem_nil, or_false] at he
  rcases he with rfl | rfl | rfl
  · rw [h]
    simp
  · rw [h]
    simp
  · rw [h]
    rfl

theorem Intact.firstCopy_eq (h : Intact dataType s₀ s) (id : Identifier) :
    firstCopy dataType s id = firstCopy dataType s₀ id := by
  cases hfirst : firstCopy dataType s id with
  | some bytes =>
    obtain ⟨e, he, hlookup⟩ := firstCopy_eq_some hfirst
    exact (h.same e he id bytes hlookup).symm
  | none =>
    cases hfirst₀ : firstCopy dataType s₀ id with
    | none => rfl
    | some bytes =>
      obtain ⟨e, he, hlookup⟩ := h.present id bytes hfirst₀
      have := firstCopy_isSome he hlookup
      rw [hfirst] at this
      cases this

variable {kmsType : KMSType}

section Settled

theorem lookup_storeVersioned_ne {path path' : OtherPath} (hne : path' ≠ path) :
    ((storeVersioned path data).run s).others.lookup path' = s.others.lookup path' := by
  simp only [storeVersioned, Interruptible.read]
  split_ifs
  · rfl
  · exact AList.lookup_insert_ne hne

theorem readContextAt_migrateContext :
    readContextAt codec ((migrateContextBefore01310 codec).run s) legacyDefaultMpcContext = none := by
  simp only [migrateContextBefore01310, Interruptible.read]
  cases hread : readContextAt codec s legacyDefaultMpcContext with
  | none => exact hread
  | some context =>
    simp [readContextAt, deleteData, atomic, change]

theorem readCombined_migrateCombined : (((migrateCombinedPrssTo01310 codec).run s).others.lookup
      (.prssSetupCombined legacyDefaultEpochId)).bind codec.readCombined = none := by
  simp only [migrateCombinedPrssTo01310, Interruptible.read]
  cases hread : (s.others.lookup (.prssSetupCombined legacyDefaultEpochId)).bind
    codec.readCombined with
  | none => exact hread
  | some prss =>
    simp [deleteData, atomic, change]

theorem lookup_combined_migrateContext (epoch : Identifier) :
    ((migrateContextBefore01310 codec).run s).others.lookup (.prssSetupCombined epoch) =
      s.others.lookup (.prssSetupCombined epoch) := by
  simp only [migrateContextBefore01310, Interruptible.read]
  cases readContextAt codec s legacyDefaultMpcContext with
  | none => rfl
  | some context =>
    simp only [run_seq, deleteData, atomic, change]
    rw [AList.lookup_erase_ne (by simp), lookup_storeVersioned_ne (by simp)]

/-- There is nothing left to move besides the keys. -/
structure OthersSettled (codec : MigrationCodec) (kmsType : KMSType)
    (others : HashMap OtherPath Bytes) : Prop where
  context : (others.lookup (.contextInfo legacyDefaultMpcContext)).bind codec.readContext = none
  combined : kmsType = .threshold →
    (others.lookup (.prssSetupCombined legacyDefaultEpochId)).bind codec.readCombined = none

theorem othersSettled_migrateOthers (kmsType : KMSType) (s : PrivStorage) :
    OthersSettled codec kmsType ((migrateOthers codec kmsType).run s).others where
  context := readContextAt_migrateContext
  combined := by
    rintro rfl
    simp only [migrateOthers, whenThreshold, run_seq]
    rw [lookup_combined_migrateContext]
    exact readCombined_migrateCombined

theorem OthersSettled.run_eq (h : OthersSettled codec kmsType s.others) :
    (migrateOthers codec kmsType).run s = s := by
  have hcontext : readContextAt codec s legacyDefaultMpcContext = none := h.context
  have hlast : (migrateContextBefore01310 codec).run s = s := by
    simp only [migrateContextBefore01310, Interruptible.read, hcontext, run_skip]
  cases kmsType with
  | centralized => simp only [migrateOthers, whenThreshold, run_seq, run_skip, hlast]
  | threshold =>
    have hlegacy : (migrateLegacyPrss codec).run s = s := by
      simp only [migrateLegacyPrss, Interruptible.read, hcontext, run_skip]
    have hcombined : (migrateCombinedPrssTo01310 codec).run s = s := by
      simp only [migrateCombinedPrssTo01310, Interruptible.read, h.combined rfl, run_skip]
    simp only [migrateOthers, whenThreshold, run_seq, hlegacy, hcombined, hlast]

theorem keeps_others_copyKeys (others : HashMap OtherPath Bytes) :
    Keeps (fun s : PrivStorage => s.others = others) (copyKeys leaves dataType source target) := by
  refine keeps_read_of_keeps (fun _ => keeps_forEach (fun id => keeps_read_of_keeps (fun s => ?_)) _)
  refine keeps_ite keeps_skip ?_
  cases s.keys.lookup ⟨dataType, source, id⟩ with
  | none => exact keeps_skip
  | some data =>
    refine keeps_read_of_keeps (fun _ => keeps_ite keeps_skip (keeps_change (fun _ h => h) ?_))
    rintro s s' h ⟨part, -, rfl⟩
    exact h

theorem keeps_others_removeKeys (others : HashMap OtherPath Bytes) :
    Keeps (fun s : PrivStorage => s.others = others) (removeKeys dataType source target) := by
  refine keeps_read_of_keeps (fun _ => keeps_forEach (fun id => keeps_read_of_keeps (fun s => ?_)) _)
  refine keeps_ite (keeps_atomic ?_) keeps_skip
  exact fun _ h => h

theorem othersSettled_run (kmsType : KMSType) (s : PrivStorage) :
    OthersSettled codec kmsType ((migrateTo01320 leaves codec kmsType).run s).others := by
  rw [run_eq_removeOldKeys, removeOldKeysFor01320, (keeps_others_removeKeys _).run _ rfl,
    unepochedRemoved, migrateFheKeysAfter013x, (keeps_others_removeKeys _).run _ rfl, copied,
    migrateFheKeys013xTo01310, (keeps_others_copyKeys _).run _ rfl]
  exact othersSettled_migrateOthers kmsType _

theorem copyKeys_run_of_empty (h : s.allDataIds dataType source = []) :
    (copyKeys leaves dataType source target).run s = s := by
  simp only [copyKeys, Interruptible.read, h, forEach, run_skip]

theorem removeKeys_run_of_empty (h : s.allDataIds dataType source = []) :
    (removeKeys dataType source target).run s = s := by
  simp only [removeKeys, Interruptible.read, h, forEach, run_skip]

theorem allDataIds_eq_nil (h : ∀ id, s.keys.lookup ⟨dataType, source, id⟩ = none) :
    s.allDataIds dataType source = [] := by
  rw [List.eq_nil_iff_forall_not_mem]
  intro id hid
  exact AList.lookup_eq_none.mp (h id) (mem_allDataIds.mp hid)

/-- A run after one that ended changes nothing. -/
theorem run_run (kmsType : KMSType) (s : PrivStorage) :
    (migrateTo01320 leaves codec kmsType).run ((migrateTo01320 leaves codec kmsType).run s) =
      (migrateTo01320 leaves codec kmsType).run s := by
  set s' := (migrateTo01320 leaves codec kmsType).run s with hs'
  have hunepoched : s'.allDataIds kmsType.dataType none = [] :=
    allDataIds_eq_nil (lookup_run leaves codec s kmsType none)
  have hlegacy : s'.allDataIds kmsType.dataType (some legacyDefaultEpochId) = [] :=
    allDataIds_eq_nil fun id => by
      rw [hs', lookup_run, if_neg legacy_ne_default, if_pos (Or.inl rfl)]
  have hothers : (migrateOthers codec kmsType).run s' = s' := (othersSettled_run kmsType s).run_eq
  rw [run_eq_removeOldKeys, unepochedRemoved, copied, migrateFheKeysV012ToV013,
    copyKeys_run_of_empty hunepoched, hothers, migrateFheKeys013xTo01310,
    copyKeys_run_of_empty hlegacy, migrateFheKeysAfter013x, removeKeys_run_of_empty hunepoched,
    removeOldKeysFor01320, removeKeys_run_of_empty hlegacy]

end Settled

/-- The storage `s` holds the keys of `s₀` where they belong, and a further run does nothing. -/
structure Migrated (leaves : Bytes → Bytes → Prop) (codec : MigrationCodec) (kmsType : KMSType)
    (s₀ s : PrivStorage) : Prop where
  default_eq : ∀ id, s.keys.lookup ⟨kmsType.dataType, some defaultEpochId, id⟩ =
    firstCopy kmsType.dataType s₀ id
  unepoched_eq : ∀ id, s.keys.lookup ⟨kmsType.dataType, none, id⟩ = none
  legacy_eq : ∀ id, s.keys.lookup ⟨kmsType.dataType, some legacyDefaultEpochId, id⟩ = none
  other_eq : ∀ epoch, epoch ≠ legacyDefaultEpochId → epoch ≠ defaultEpochId → ∀ id,
    s.keys.lookup ⟨kmsType.dataType, some epoch, id⟩ =
      s₀.keys.lookup ⟨kmsType.dataType, some epoch, id⟩
  stable : (migrateTo01320 leaves codec kmsType).run s = s

theorem migrated_of_restarts (hleaves : ∀ bytes part, leaves bytes part → part = bytes)
    (h₀ : Consistent kmsType.dataType s₀)
    (h : Restarts (migrateTo01320 leaves codec kmsType) s₀ s) :
    Migrated leaves codec kmsType s₀ ((migrateTo01320 leaves codec kmsType).run s) := by
  have hintact := (keeps_migrateTo01320 hleaves kmsType).restarts h h₀.intact
  refine ⟨?_, lookup_run leaves codec s kmsType none, ?_, ?_, run_run kmsType s⟩
  · intro id
    rw [lookup_run, if_pos rfl, hintact.firstCopy_eq]
  · intro id
    rw [lookup_run, if_neg legacy_ne_default, if_pos (Or.inl rfl)]
  · intro epoch hlegacy hdefault id
    have hplace : some epoch ∉ keyPlaces := by
      rw [keyPlaces, List.mem_cons, List.mem_cons, List.mem_singleton]
      rintro (h | h | h)
      · cases h
      · exact hlegacy (Option.some.inj h)
      · exact hdefault (Option.some.inj h)
    rw [lookup_run, if_neg (mt Option.some.inj hdefault),
      if_neg (not_or.mpr ⟨mt Option.some.inj hlegacy, Option.some_ne_none _⟩),
      hintact.others epoch hplace id]

/-- A storage with one key without epoch. -/
def oneKey (kmsType : KMSType) (id : Identifier) (bytes : Bytes) : PrivStorage :=
  ⟨AList.singleton ⟨kmsType.dataType, none, id⟩ bytes, ∅⟩

theorem lookup_oneKey (kmsType : KMSType) (id : Identifier) (bytes : Bytes) (path : KeyPath) :
    (oneKey kmsType id bytes).keys.lookup path =
      if path = ⟨kmsType.dataType, none, id⟩ then some bytes else none := by
  rw [oneKey, ← AList.insert_empty]
  split_ifs with h
  · rw [h, AList.lookup_insert]
  · rw [AList.lookup_insert_ne h, AList.lookup_empty]

theorem firstCopy_oneKey (kmsType : KMSType) (id : Identifier) (bytes : Bytes) :
    firstCopy kmsType.dataType (oneKey kmsType id bytes) id = some bytes := by
  simp [firstCopy, lookup_oneKey]

theorem consistent_oneKey (kmsType : KMSType) (id : Identifier) (bytes : Bytes) :
    Consistent kmsType.dataType (oneKey kmsType id bytes) := by
  intro e _ i b h
  rw [lookup_oneKey] at h
  split_ifs at h with hpath
  have hid : i = id := congrArg KeyPath.id hpath
  rw [hid, firstCopy_oneKey, h]

/-- The same after a start that was interrupted while it wrote the key under the legacy epoch. -/
def partlyWritten (kmsType : KMSType) (id : Identifier) (bytes part : Bytes) : PrivStorage :=
  ⟨(oneKey kmsType id bytes).keys.insert ⟨kmsType.dataType, some legacyDefaultEpochId, id⟩ part, ∅⟩

theorem crash_oneKey {bytes part : Bytes} (h : leaves bytes part) :
    (migrateTo01320 leaves codec kmsType).crash (oneKey kmsType id bytes)
      (partlyWritten kmsType id bytes part) := by
  have hids : (oneKey kmsType id bytes).allDataIds kmsType.dataType none = [id] := by
    simp [allDataIds, oneKey, AList.keys_singleton]
  have hnot : (⟨kmsType.dataType, some legacyDefaultEpochId, id⟩ : KeyPath) ∉
      (oneKey kmsType id bytes).keys := by
    rw [← AList.lookup_eq_none, lookup_oneKey, if_neg (by simp)]
  have hload : (oneKey kmsType id bytes).keys.lookup ⟨kmsType.dataType, none, id⟩ = some bytes := by
    rw [lookup_oneKey, if_pos rfl]
  refine Or.inl (Or.inl (Or.inl ?_))
  simp only [migrateFheKeysV012ToV013, copyKeys, Interruptible.read, hids, forEach, seq]
  refine Or.inl ?_
  simp only [copyKey, Interruptible.read, if_neg hnot, hload, storeBytes, writeBytes, change]
  exact Or.inr (Or.inr ⟨part, h, rfl⟩)

theorem firstCopy_partlyWritten (kmsType : KMSType) (id : Identifier) (bytes part : Bytes) :
    firstCopy kmsType.dataType (partlyWritten kmsType id bytes part) id = some part := by
  have hdefault : (⟨kmsType.dataType, some defaultEpochId, id⟩ : KeyPath) ≠
      ⟨kmsType.dataType, some legacyDefaultEpochId, id⟩ :=
    fun hpath => legacy_ne_default (congrArg KeyPath.epoch hpath).symm
  rw [firstCopy, partlyWritten, AList.lookup_insert_ne hdefault, lookup_oneKey, if_neg (by simp),
    AList.lookup_insert]
  rfl

/-- A storage in which no element besides the keys can be read. -/
def unreadable : MigrationCodec :=
  ⟨Unit, Unit, Unit, Unit, fun _ => none, fun _ => [], fun c _ => c, fun _ => 0, fun _ => 0,
    fun _ => none, fun _ => none, fun _ _ _ _ => (), fun _ => none, fun _ => [],
    fun id _ _ => id, fun id _ _ => id⟩

/-- Every history of starts ends well exactly when an interrupted write leaves nothing or all of the
bytes. -/
theorem migration_safe_iff (leaves : Bytes → Bytes → Prop) :
    (∀ (codec : MigrationCodec) (kmsType : KMSType) (s₀ s : PrivStorage),
      Consistent kmsType.dataType s₀ → Restarts (migrateTo01320 leaves codec kmsType) s₀ s →
      Migrated leaves codec kmsType s₀ ((migrateTo01320 leaves codec kmsType).run s)) ↔
    ∀ bytes part, leaves bytes part → part = bytes := by
  constructor
  · intro hall bytes part hleaves
    have hmigrated := hall unreadable .centralized (oneKey .centralized defaultMpcContext bytes) _
      (consistent_oneKey _ _ _) (.interrupted (crash_oneKey hleaves) (.none _))
    have hdefault := hmigrated.default_eq defaultMpcContext
    rw [lookup_run] at hdefault
    exact Option.some.inj hdefault
  · intro hleaves codec kmsType s₀ s h₀ h
    exact migrated_of_restarts hleaves h₀ h

/-- The key `[1, 2]` is written under the legacy epoch, and the start is interrupted after one byte:
the next start moves `[1]` to the default epoch and deletes the key. -/
theorem migration_loses_key :
    Consistent FheDataType.fheKeyInfo (oneKey .threshold defaultMpcContext [1, 2]) ∧
    (migrateTo01320 (fun bytes part => part <+: bytes) unreadable .threshold).crash
      (oneKey .threshold defaultMpcContext [1, 2])
      (partlyWritten .threshold defaultMpcContext [1, 2] [1]) ∧
    ((migrateTo01320 (fun bytes part => part <+: bytes) unreadable .threshold).run
        (partlyWritten .threshold defaultMpcContext [1, 2] [1])).keys.lookup
      ⟨.fheKeyInfo, some defaultEpochId, defaultMpcContext⟩ = some [1] ∧
    ((migrateTo01320 (fun bytes part => part <+: bytes) unreadable .threshold).run
        (partlyWritten .threshold defaultMpcContext [1, 2] [1])).keys.lookup
      ⟨.fheKeyInfo, none, defaultMpcContext⟩ = none := by
  refine ⟨consistent_oneKey .threshold _ _, crash_oneKey (by decide), ?_, ?_⟩
  · exact (lookup_run _ unreadable _ .threshold _ _).trans (firstCopy_partlyWritten _ _ _ _)
  · exact lookup_run _ unreadable _ .threshold none _

end ThresholdKms
