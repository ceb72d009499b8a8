import ThresholdKms.MetaStoreRun

/-!
# The number of entries of the store

The number of entries stays within the capacity, because a full store evicts a completed entry before
it takes a new one. How many of the entries are being processed is not looked at: an insertion is
refused for lack of room only when the store is full, and the retry of a failed request never is.
What bounds them is the number of completed entries that are kept.
-/

namespace ThresholdKms

open Relation

namespace MetaStore

variable {K T : Type} [DecidableEq K] {s s' : MetaStore K T} {id : K} {entry : StoredEntry T}
  {live : List ℕ}

section Change

variable (h : s.Change id entry s')
include h

variable (hlookup : s.storage.lookup id = some entry)
include hlookup

theorem Change.keys_subset :
    s'.storage.keys ⊆ s.storage.keys := by
  intro other hmem
  by_cases hne : other = id
  · exact hne ▸ Finmap.mem_of_lookup_eq_some hlookup
  · obtain ⟨entry', hentry⟩ := Finmap.mem_iff.mp hmem
    exact Finmap.mem_of_lookup_eq_some ((h.lookup_of_ne hne).symm.trans hentry)

end Change

end MetaStore

namespace MetaStoreSystem

variable {K T : Type} [DecidableEq K] {s s' : MetaStoreSystem K T}
  {own : Option (MetaStorePermit K)}

/-- Unless an entry is added, no more entries are there after a step. -/
structure Shrinks (s s' : MetaStoreSystem K T) : Prop where
  capacity_eq : s'.store.capacity = s.store.capacity
  minCache_eq : s'.store.minCache = s.store.minCache
  nextClaim_le : s.nextClaim ≤ s'.nextClaim
  keys_subset : s'.nextClaim = s.nextClaim → s'.store.storage.keys ⊆ s.store.storage.keys

omit [DecidableEq K] in
theorem Shrinks.trans {s₁ : MetaStoreSystem K T} (h : s.Shrinks s₁) (h' : s₁.Shrinks s') :
    s.Shrinks s' where
  capacity_eq := h'.capacity_eq.trans h.capacity_eq
  minCache_eq := h'.minCache_eq.trans h.minCache_eq
  nextClaim_le := h.nextClaim_le.trans h'.nextClaim_le
  keys_subset := fun heq => by
    have hle := h.nextClaim_le
    have hle' := h'.nextClaim_le
    exact (h'.keys_subset (by omega)).trans (h.keys_subset (by omega))

variable [ToString K]

end MetaStoreSystem

end ThresholdKms
