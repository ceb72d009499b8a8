import ThresholdKms.BackupMirror

/-!
# The available key material

An epoch creation stores its reshared keys and CRSs as a generation does, under the new epoch. The
identifiers of the keys are collected over all epochs. Those of the CRSs are only looked for outside
the epochs, where none is stored.
-/

namespace ThresholdKms

variable {δ : Type} {priv : HashMap DataKey δ} {dataType : EpochedType}

namespace Availability

section Ids

variable (priv : HashMap DataKey δ) (dataType : PrivDataType)

/-- The identifiers at an epoch, or of the data without one. -/
def idsAt (epoch : Option Identifier) : List Identifier :=
  (priv.keys.filter (fun key => key.dataType = dataType ∧ key.epoch = epoch)).map DataKey.id

def allDataIds : List Identifier := idsAt priv dataType none

def allEpochIdsForData : List Identifier :=
  (priv.keys.filter (fun key => key.dataType = dataType)).filterMap DataKey.epoch

/-- If there are both, only the data of epochs is used. -/
def allDataIdsFromAllEpochs : List Identifier :=
  let plainIds := allDataIds priv dataType
  let epochIds := ((allEpochIdsForData priv dataType).flatMap
    (fun epoch => idsAt priv dataType (some epoch))).dedup
  if epochIds = [] then plainIds else epochIds

end Ids

structure KeyMaterialAvailability where
  fheKeyIds : List Identifier
  crsIds : List Identifier
  preprocessingIds : List String
  storageInfo : String

def queryKeyMaterialAvailability (priv : HashMap DataKey δ) (info : String) (kmsType : KMSType)
    (preprocessingIds : List String) : KeyMaterialAvailability where
  fheKeyIds := allDataIdsFromAllEpochs priv (.epoched kmsType.keyType)
  crsIds := allDataIds priv (.epoched .crsInfo)
  preprocessingIds := preprocessingIds
  storageInfo := (match kmsType with
    | .centralized => "Centralized KMS - "
    | .threshold => "Threshold KMS - ") ++ info

/-- The identifiers of the stored data of a type, each once. -/
def Lists (ids : List Identifier) (dataType : EpochedType) (priv : HashMap DataKey δ) : Prop :=
  ids.Nodup ∧ ∀ id, id ∈ ids ↔ ∃ epoch, ⟨.epoched dataType, id, epoch⟩ ∈ priv

theorem mem_idsAt {dataType : PrivDataType} {id : Identifier} {epoch : Option Identifier} :
    id ∈ idsAt priv dataType epoch ↔ ⟨dataType, id, epoch⟩ ∈ priv := by
  simp only [idsAt, List.mem_map, List.mem_filter, decide_eq_true_eq]
  constructor
  · rintro ⟨key, ⟨hmem, rfl, rfl⟩, rfl⟩
    exact hmem
  · exact fun hmem => ⟨_, ⟨hmem, rfl, rfl⟩, rfl⟩

theorem onlyCurrent_run (ops : List (ServiceOp δ)) :
    OnlyCurrent (ops.foldl ServiceOp.onPriv ∅) :=
  List.foldlRecOn ops _ (fun _ h => absurd h (AList.notMem_empty _))
    fun _ hcurrent op _ => onlyCurrent_onPriv hcurrent op

variable (hcurrent : OnlyCurrent priv)
include hcurrent

theorem allDataIds_epoched : allDataIds priv (.epoched dataType) = [] := by
  rw [allDataIds, List.eq_nil_iff_forall_not_mem]
  intro id hmem
  exact Bool.noConfusion (hcurrent _ (mem_idsAt.mp hmem)).2.2

theorem lists_allDataIdsFromAllEpochs :
    Lists (allDataIdsFromAllEpochs priv (.epoched dataType)) dataType priv := by
  have hids : ∀ ids : List Identifier, (if ids = [] then [] else ids) = ids := by
    intro ids
    split_ifs with h
    · exact h.symm
    · rfl
  rw [allDataIdsFromAllEpochs, allDataIds_epoched hcurrent, hids]
  refine ⟨List.nodup_dedup _, fun id => ?_⟩
  simp only [List.mem_dedup, List.mem_flatMap, allEpochIdsForData, List.mem_filterMap,
    List.mem_filter, mem_idsAt, decide_eq_true_eq]
  constructor
  · rintro ⟨epoch, -, hmem⟩
    exact ⟨_, hmem⟩
  · rintro ⟨epoch, hmem⟩
    obtain ⟨epoch, rfl⟩ := Option.isSome_iff_exists.mp (hcurrent _ hmem).2.2
    exact ⟨epoch, ⟨_, ⟨hmem, rfl⟩, rfl⟩, hmem⟩

omit hcurrent

/-- The answer is exact if and only if no CRS is stored. -/
theorem keyMaterialAvailability_exact_iff (ops : List (ServiceOp δ)) (info : String)
    (kmsType : KMSType) (preprocessingIds : List String) :
    let priv := ops.foldl ServiceOp.onPriv ∅
    let answer := queryKeyMaterialAvailability priv info kmsType preprocessingIds
    (Lists answer.fheKeyIds kmsType.keyType priv ∧ Lists answer.crsIds .crsInfo priv) ↔
      ∀ crsId epoch, ⟨.epoched .crsInfo, crsId, epoch⟩ ∉ priv := by
  intro priv answer
  have hcurrent := onlyCurrent_run ops
  have hfhe : Lists answer.fheKeyIds kmsType.keyType priv := lists_allDataIdsFromAllEpochs hcurrent
  have hcrs : answer.crsIds = [] := allDataIds_epoched hcurrent
  rw [and_iff_right hfhe, hcrs]
  simp [Lists]

/-- A CRS is generated and is not found. -/
theorem generated_crs_not_listed :
    let priv := [ServiceOp.crsGeneration (.ofByte 5) defaultEpochId ()].foldl ServiceOp.onPriv ∅
    DataKey.epoched .crsInfo (.ofByte 5) defaultEpochId ∈ priv ∧
      (queryKeyMaterialAvailability priv "" .threshold []).crsIds = [] := by
  decide +kernel

end Availability

end ThresholdKms
