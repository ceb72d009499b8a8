import ThresholdKms.BackupUpdate
import ThresholdKms.MaterialStorage

/-!
# What failed requests destroy

A clean-up deletes exactly the accessible items at its paths, whether or not the request wrote them.
So a failed request keeps older material exactly if it does not get as far as its clean-up, or none
of the material is at these paths.
-/

namespace ThresholdKms

variable {δ : Type} {fails purge : ItemFaults} {items : StoredItems δ}

/-- The item can be looked up and deleted. -/
def ItemFaults.Reaches (fails : ItemFaults) (path : ItemPath) : Prop :=
  fails .existence path = false ∧ fails .deletion path = false

instance (path : ItemPath) : Decidable (fails.Reaches path) := inferInstanceAs (Decidable (_ ∧ _))

theorem lookup_deleteItem (path path' : ItemPath) : (deleteItem fails path items).2.lookup path' =
      if path' = path ∧ fails.Reaches path' then none else items.lookup path' := by
  rw [deleteItem]
  by_cases hpath : path' = path
  · subst hpath
    simp only [ItemFaults.Reaches, true_and]
    by_cases hmem : path' ∈ items
    · split_ifs <;> simp_all
    · have hnone := AList.lookup_eq_none.mpr hmem
      split_ifs <;> simp_all
  · simp only [hpath, false_and, if_false]
    split_ifs
    · rfl
    · rfl
    · exact AList.lookup_erase_ne hpath
    · rfl

variable (paths : List ItemPath)

theorem lookup_purgeMaterial (path : ItemPath) :
    (purgeMaterial fails paths items).2.lookup path =
      if path ∈ paths ∧ fails.Reaches path then none else items.lookup path := by
  induction paths generalizing items with
  | nil => simp [purgeMaterial]
  | cons head rest ih =>
    rw [purgeMaterial]
    simp only [ih, lookup_deleteItem, List.mem_cons]
    by_cases hreach : fails.Reaches path
    · by_cases hrest : path ∈ rest
      · simp [hreach, hrest]
      · simp [hreach, hrest]
    · simp [hreach]

/-- Older material at the paths is out of reach. -/
def OutOfReach (fails : ItemFaults) (items : StoredItems δ) (paths : List ItemPath) : Prop :=
  ∀ path ∈ paths, path ∈ items → ¬ fails.Reaches path

variable {items' : StoredItems δ}

theorem keeps_purged_iff (h : KeepsLookups items items') (paths : List ItemPath) :
    KeepsLookups items (purgeMaterial fails paths items').2 ↔ OutOfReach fails items paths := by
  constructor
  · intro hkeeps path hpath hmem hreach
    obtain ⟨data, hdata⟩ := exists_lookup_of_mem hmem
    have hkept := hkeeps path data hdata
    rw [lookup_purgeMaterial, if_pos ⟨hpath, hreach⟩] at hkept
    cases hkept
  · intro hout path data hdata
    rw [lookup_purgeMaterial, if_neg]
    · exact h path data hdata
    · rintro ⟨hpath, hreach⟩
      exact hout path hpath (mem_of_lookup_eq_some hdata) hreach

variable (item : ItemPath × δ)

theorem keeps_storeItem : KeepsLookups items (storeItem fails item items).2 := by
  rw [storeItem]
  split_ifs with hfail hmem
  · exact fun _ _ h => h
  · exact fun _ _ h => h
  · exact keeps_insert hmem

variable (data : List (ItemPath × δ))

theorem keeps_storeItems :
    KeepsLookups items (storeItems fails data items).2 := by
  induction data generalizing items with
  | nil => exact fun _ _ h => h
  | cons item rest ih => exact (keeps_storeItem item).trans ih

/-- An existence check of the items ends at one that is missing. -/
def FindsMissing (fails : ItemFaults) (items : StoredItems δ) : List ItemPath → Prop
  | [] => False
  | path :: paths => fails .existence path = false ∧ (path ∉ items ∨ FindsMissing fails items paths)

theorem allExist_eq_false_iff :
    allExist fails items paths = some false ↔ FindsMissing fails items paths := by
  induction paths with
  | nil => simp [allExist, FindsMissing]
  | cons path paths ih =>
    rw [allExist, FindsMissing]
    by_cases hfail : fails .existence path = true
    · simp [hfail]
    · by_cases hmem : path ∈ items
      · simp [hfail, hmem, ih]
      · simp [hfail, hmem]

variable {paths}

theorem findsMissing_congr (h : ∀ path ∈ paths, path ∈ items ↔ path ∈ items') :
    FindsMissing fails items paths ↔ FindsMissing fails items' paths := by
  induction paths with
  | nil => rfl
  | cons path paths ih =>
    obtain ⟨hpath, hpaths⟩ := List.forall_mem_cons.mp h
    rw [FindsMissing, FindsMissing, hpath, ih hpaths]

/-- Both existence checks of a write end at a missing item. -/
def Admits (fails : ItemFaults) (items : StoredItems δ) (paths : List ItemPath) : Prop :=
  FindsMissing fails items paths ∧ FindsMissing fails items (paths.map ItemPath.unepoched)

/-- The write is admitted and succeeds. -/
def WriteSucceeds (fails : ItemFaults) (items : StoredItems δ) (paths : List ItemPath) : Prop :=
  Admits fails items paths ∧ ∀ path ∈ paths, fails .writing path = false

/-- The write is admitted and one of the items cannot be written. -/
def WriteFails (fails : ItemFaults) (items : StoredItems δ) (paths : List ItemPath) : Prop :=
  Admits fails items paths ∧ ∃ path ∈ paths, fails .writing path = true

section WriteAll

variable (purge)

theorem storeItems_fst : (storeItems fails data items).1 = true ↔
    ∀ path ∈ data.map Prod.fst, fails .writing path = false := by
  induction data generalizing items with
  | nil => simp [storeItems]
  | cons item rest ih =>
    simp only [storeItems, Bool.and_eq_true, ih, List.map_cons, List.forall_mem_cons]
    refine and_congr_left' ?_
    cases hfail : fails .writing item.1 with
    | true => simp [storeItem, hfail]
    | false => simp [storeItem, hfail]

variable {data}

theorem writeAll_of_not_admits (h : ¬ Admits fails items (data.map Prod.fst)) :
    ∃ e, writeAll fails purge data items = (some e, items) := by
  simp only [writeAll]
  split
  · exact ⟨_, rfl⟩
  · exact ⟨_, rfl⟩
  · exact ⟨_, rfl⟩
  · exact ⟨_, rfl⟩
  · rename_i hepoch hnone
    exact absurd ⟨(allExist_eq_false_iff _).mp hepoch, (allExist_eq_false_iff _).mp hnone⟩ h

theorem writeAll_of_admits (h : Admits fails items (data.map Prod.fst)) :
    writeAll fails purge data items =
      if (storeItems fails data items).1 then (none, (storeItems fails data items).2)
      else
        let purged := purgeMaterial purge (data.map Prod.fst) (storeItems fails data items).2
        (some (if purged.1 then .writing else .purging), purged.2) := by
  simp only [writeAll]
  rw [(allExist_eq_false_iff _).mpr h.1, (allExist_eq_false_iff _).mpr h.2]

theorem WriteSucceeds.writeAll_eq (h : WriteSucceeds fails items (data.map Prod.fst)) :
    writeAll fails purge data items = (none, (storeItems fails data items).2) := by
  rw [writeAll_of_admits purge h.1, if_pos ((storeItems_fst data).mpr h.2)]

theorem writeAll_fst_ne_none (h : ¬ WriteSucceeds fails items (data.map Prod.fst)) :
    ∃ e, (writeAll fails purge data items).1 = some e := by
  by_cases hadmits : Admits fails items (data.map Prod.fst)
  · rw [writeAll_of_admits purge hadmits, if_neg (fun hstored =>
      h ⟨hadmits, (storeItems_fst data).mp hstored⟩)]
    exact ⟨_, rfl⟩
  · obtain ⟨e, he⟩ := writeAll_of_not_admits purge hadmits
    exact ⟨e, by rw [he]⟩

/-- A write keeps older material exactly if it does not come to its clean-up, or none of the
material is at its paths. -/
theorem keeps_writeAll_iff {older : StoredItems δ} (h : KeepsLookups older items) :
    KeepsLookups older (writeAll fails purge data items).2 ↔
      (WriteFails fails items (data.map Prod.fst) → OutOfReach purge older (data.map Prod.fst)) := by
  by_cases hadmits : Admits fails items (data.map Prod.fst)
  · have hstored := h.trans (@keeps_storeItems _ fails items data)
    rw [writeAll_of_admits purge hadmits]
    split_ifs with hall
    · rw [storeItems_fst] at hall
      exact iff_of_true hstored (fun ⟨_, path, hpath, hfail⟩ => by simp [hall path hpath] at hfail)
    · rw [storeItems_fst] at hall
      push Not at hall
      simp only [Bool.not_eq_false] at hall
      rw [keeps_purged_iff hstored]
      exact ⟨fun hout _ => hout, fun hout => hout ⟨hadmits, hall⟩⟩
  · obtain ⟨e, he⟩ := writeAll_of_not_admits purge hadmits
    rw [he]
    exact iff_of_true h (fun hfails => absurd hfails.1 hadmits)

end WriteAll

theorem FindsMissing.not_mem {path : ItemPath} (h : FindsMissing fails items [path]) :
    path ∉ items := by
  obtain ⟨-, hmem | hfalse⟩ := h
  · exact hmem
  · exact hfalse.elim

theorem keeps_writeAll_singleton :
    KeepsLookups items (writeAll fails purge [item] items).2 := by
  refine (keeps_writeAll_iff purge (fun _ _ h => h)).mpr (fun hfails path hpath hmem => ?_)
  obtain rfl := List.mem_singleton.mp hpath
  exact absurd hmem hfails.1.1.not_mem

theorem keeps_reshareWrites :
    KeepsLookups items (reshareWrites fails purge data items).2 := by
  induction data generalizing items with
  | nil => exact fun _ _ h => h
  | cons item rest ih => exact (keeps_writeAll_singleton item).trans ih

/-- The paths that the clean-up of a failed resharing goes through. -/
def resharedPaths (epoch : Identifier) (keys crss : List Identifier) : List ItemPath :=
  keys.flatMap (fheKeyPaths · epoch) ++ crss.flatMap (crsPaths · epoch)

theorem purgeMaterial_append (paths rest : List ItemPath) :
    (purgeMaterial fails (paths ++ rest) items).2 =
    (purgeMaterial fails rest (purgeMaterial fails paths items).2).2 := by
  induction paths generalizing items with
  | nil => rfl
  | cons path paths ih => exact ih

theorem foldl_purgeMaterial (ids : List Identifier) (paths : Identifier → List ItemPath) :
    ids.foldl (fun items id => (purgeMaterial fails (paths id) items).2) items =
      (purgeMaterial fails (ids.flatMap paths) items).2 := by
  induction ids generalizing items with
  | nil => rfl
  | cons id ids ih => rw [List.foldl_cons, ih, List.flatMap_cons, purgeMaterial_append]

theorem purgeReshared_eq (epoch : Identifier) (keys crss : List Identifier) :
    purgeReshared fails epoch keys crss items =
      (purgeMaterial fails (resharedPaths epoch keys crss) items).2 := by
  rw [resharedPaths, purgeMaterial_append, ← foldl_purgeMaterial, ← foldl_purgeMaterial]
  rfl

/-- The paths at which a failed request deletes. -/
def MaterialRequest.cleaned : MaterialRequest δ → List ItemPath
  | .reshare _ _ _ epoch keys crss => resharedPaths epoch (keys.map Prod.fst) (crss.map Prod.fst)
  | .keyGenerationAborted _ keyId epoch => fheKeyPaths keyId epoch
  | .keyGenerationFailed => []
  | .keyGenerationStored _ _ _ _ keyId epoch _ _ => [.pub .publicKey keyId, fheKeyPath keyId epoch]
  | .decompressionKeyStored _ _ keyId _ => [.pub .decompressionKey keyId]
  | .crsGenerationFailed _ crsId epoch => crsPaths crsId epoch
  | .crsGenerationStored _ _ crsId epoch _ _ => crsPaths crsId epoch

/-- The failures of these deletions. -/
def MaterialRequest.cleanupFaults : MaterialRequest δ → ItemFaults
  | .reshare _ _ cleanup _ _ _ => cleanup
  | .keyGenerationAborted cleanup _ _ => cleanup
  | .keyGenerationFailed => fun _ _ => false
  | .keyGenerationStored _ _ purge _ _ _ _ _ => purge
  | .decompressionKeyStored _ purge _ _ => purge
  | .crsGenerationFailed cleanup _ _ => cleanup
  | .crsGenerationStored _ purge _ _ _ _ => purge

/-- The failed request gets as far as these deletions. Generated material is purged only by a write
that is admitted and cannot be completed; for a key, after the first write has succeeded. -/
def MaterialRequest.Purges (items : StoredItems δ) : MaterialRequest δ → Prop
  | .keyGenerationStored first second _ _ keyId epoch _ keySet =>
    WriteSucceeds first items [.pub keySet.specialType keyId] ∧
      WriteFails second items [.pub .publicKey keyId, fheKeyPath keyId epoch]
  | .decompressionKeyStored fails _ keyId _ => WriteFails fails items [.pub .decompressionKey keyId]
  | .crsGenerationStored fails _ crsId epoch _ _ => WriteFails fails items (crsPaths crsId epoch)
  | _ => True

/-- Deleting items that were not there before keeps older material. -/
theorem keeps_purged_fresh (h : ∀ path ∈ paths, path ∉ items) :
    KeepsLookups items (purgeMaterial fails paths items').2 ↔ KeepsLookups items items' := by
  refine forall_congr' fun path => forall_congr' fun data => imp_congr_right fun hdata => ?_
  have hmem : path ∈ items := mem_of_lookup_eq_some hdata
  rw [lookup_purgeMaterial, if_neg (fun hpath => h path hpath.1 hmem)]

theorem keeps_storeResharedKeys_iff {cleanup : ItemFaults} {epoch : Identifier}
    {keys crss : List (Identifier × δ)}
    (hfailed : (storeResharedKeys fails purge cleanup epoch keys crss items).1 = false) :
    KeepsLookups items (storeResharedKeys fails purge cleanup epoch keys crss items).2 ↔
      OutOfReach cleanup items (resharedPaths epoch (keys.map Prod.fst) (crss.map Prod.fst)) := by
  simp only [storeResharedKeys] at hfailed ⊢
  split_ifs at hfailed ⊢
  rw [purgeReshared_eq, keeps_purged_iff (keeps_reshareWrites _)]

section FheKeys

variable {first second cleanup : ItemFaults} {keyId epoch : Identifier} {priv : δ}
  {keySet : PublicKeySet δ}

/-- Once the first item is stored, the clean-up of the second write deletes nothing older. -/
theorem keeps_handleFheKeys_of_stored {stored : StoredItems δ}
    (hwrite : writeAll first purge [(.pub keySet.specialType keyId, keySet.special)] items =
      (none, stored))
    (hfresh : .pub keySet.specialType keyId ∉ items) :
    KeepsLookups items (handleFheKeys first second purge cleanup keyId epoch priv keySet items).2 ↔
      KeepsLookups items (writeAll second purge
        [(.pub .publicKey keyId, keySet.publicKey), (fheKeyPath keyId epoch, priv)] stored).2 := by
  simp only [handleFheKeys, hwrite]
  rcases writeAll second purge _ stored with ⟨none | e, items₂⟩
  · rfl
  · exact keeps_purged_fresh (fun path hpath => List.mem_singleton.mp hpath ▸ hfresh)

/-- The first write changes nothing that the second one looks at. -/
theorem writeFails_insert_special {data : δ} :
    WriteFails second (items.insert (.pub keySet.specialType keyId) data)
        [.pub .publicKey keyId, fheKeyPath keyId epoch] ↔
      WriteFails second items [.pub .publicKey keyId, fheKeyPath keyId epoch] := by
  have hne : PubDataType.publicKey ≠ keySet.specialType := by
    unfold PublicKeySet.specialType
    split_ifs <;> simp
  refine and_congr_left' (and_congr (findsMissing_congr ?_) (findsMissing_congr ?_))
  · simp [fheKeyPath, AList.mem_insert, hne]
  · simp [fheKeyPath, ItemPath.unepoched, AList.mem_insert, hne]

theorem keeps_handleFheKeys_iff :
    KeepsLookups items (handleFheKeys first second purge cleanup keyId epoch priv keySet items).2 ↔
      (WriteSucceeds first items [.pub keySet.specialType keyId] ∧
          WriteFails second items [.pub .publicKey keyId, fheKeyPath keyId epoch] →
        OutOfReach purge items [.pub .publicKey keyId, fheKeyPath keyId epoch]) := by
  let special : ItemPath × δ := (.pub keySet.specialType keyId, keySet.special)
  by_cases hfirst : WriteSucceeds first items [special.1]
  · have hfresh : special.1 ∉ items := hfirst.1.1.not_mem
    have hwrite : writeAll first purge [special] items =
        (none, items.insert special.1 special.2) := by
      rw [WriteSucceeds.writeAll_eq purge hfirst]
      simp [storeItems, storeItem, hfirst.2 special.1 (List.mem_singleton.mpr rfl), hfresh]
    rw [keeps_handleFheKeys_of_stored hwrite hfresh,
      keeps_writeAll_iff purge (keeps_insert hfresh)]
    exact ⟨fun h hboth => h (writeFails_insert_special.mpr hboth.2),
      fun h hfails => h ⟨hfirst, writeFails_insert_special.mp hfails⟩⟩
  · refine iff_of_true ?_ (fun h => absurd h.1 hfirst)
    obtain ⟨e, he⟩ := @writeAll_fst_ne_none _ _ purge _ [special] hfirst
    have hkeeps := @keeps_writeAll_singleton _ first purge items special
    rw [handleFheKeys]
    cases hwrite : writeAll first purge [(.pub keySet.specialType keyId, keySet.special)] items with
    | mk result items₁ =>
      rw [show writeAll first purge [special] items = _ from hwrite] at he hkeeps
      cases he
      exact hkeeps

end FheKeys

/-- A failed request keeps older material exactly if it does not get as far as its clean-up, or none
of the material is where it deletes. -/
theorem failed_request_keeps_material (request : MaterialRequest δ) (items : StoredItems δ)
    (hfailed : (request.exec items).1 = false) :
    KeepsLookups items (request.exec items).2 ↔
      (request.Purges items → OutOfReach request.cleanupFaults items request.cleaned) := by
  have hrefl : KeepsLookups items items := fun _ _ h => h
  have hpurge : ∀ {fails : ItemFaults} {paths : List ItemPath},
      KeepsLookups items (purgeMaterial fails paths items).2 ↔
        (True → OutOfReach fails items paths) := by
    intro fails paths
    rw [keeps_purged_iff hrefl, true_imp_iff]
  cases request with
  | reshare fails purge cleanup epoch keys crss =>
    exact (keeps_storeResharedKeys_iff hfailed).trans true_imp_iff.symm
  | keyGenerationAborted cleanup keyId epoch => exact hpurge
  | keyGenerationFailed => exact iff_of_true hrefl (fun _ _ hpath => absurd hpath List.not_mem_nil)
  | keyGenerationStored first second purge cleanup keyId epoch priv keySet =>
    exact keeps_handleFheKeys_iff
  | decompressionKeyStored fails purge keyId key => exact keeps_writeAll_iff purge hrefl
  | crsGenerationFailed cleanup crsId epoch => exact hpurge
  | crsGenerationStored fails purge crsId epoch crs info => exact keeps_writeAll_iff purge hrefl

section OneKey

def oldKey : Identifier := .ofByte 1

def newEpoch : Identifier := .ofByte 2

def noItemFaults : ItemFaults := fun _ _ => false

/-- The public key of an older epoch. -/
def onlyPublicKey : StoredItems ℕ := (∅ : StoredItems ℕ).insert (.pub .publicKey oldKey) 5

/-- The private part cannot be written. -/
def privateWriteFails : ItemFaults := fun access path =>
  access = .writing ∧ path = fheKeyPath oldKey newEpoch

/-- The failed resharing deletes the public key, and so does an aborted generation under the same
identifier, which is admitted in the new epoch. -/
theorem failed_request_destroys_public_key :
    let reshare : MaterialRequest ℕ :=
      .reshare privateWriteFails noItemFaults noItemFaults newEpoch [(oldKey, 7)] []
    let aborted : MaterialRequest ℕ := .keyGenerationAborted noItemFaults oldKey newEpoch
    onlyPublicKey.lookup (.pub .publicKey oldKey) = some 5 ∧
      (reshare.exec onlyPublicKey).1 = false ∧
      (reshare.exec onlyPublicKey).2.lookup (.pub .publicKey oldKey) = none ∧
      fheKeysExists noItemFaults oldKey newEpoch onlyPublicKey = some false ∧
      (aborted.exec onlyPublicKey).2.lookup (.pub .publicKey oldKey) = none := by
  refine ⟨by decide, by decide, by decide, by decide, by decide⟩

/-- A generation whose first existence check fails does not come to its clean-up. -/
theorem failed_generation_keeps_public_key :
    let request : MaterialRequest ℕ :=
      .keyGenerationStored (fun access _ => access = .existence) noItemFaults noItemFaults
        noItemFaults oldKey newEpoch 7 ⟨false, 8, 9⟩
    (request.exec onlyPublicKey).1 = false ∧
      KeepsLookups onlyPublicKey (request.exec onlyPublicKey).2 :=
  ⟨by decide, (failed_request_keeps_material _ onlyPublicKey (by decide)).mpr
    (fun hpurges => absurd hpurges.1.1.1.1 (by decide))⟩

end OneKey

end ThresholdKms
