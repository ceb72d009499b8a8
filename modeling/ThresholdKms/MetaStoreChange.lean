import ThresholdKms.MetaStore

/-!
# What a call does to one entry of the store

Every call changes at most one entry that exists, in one of five ways, and each way keeps the queue
of the completed requests and the set of the deleted ones in line with the states of the entries.
-/

namespace ThresholdKms

namespace MetaStore

variable {K T : Type} [DecidableEq K]

/-- The queue and the set of tombstones agree with the states of the entries. -/
structure Consistent (s : MetaStore K T) : Prop where
  nodup : s.completeQueue.Nodup
  mem_queue : ∀ id, id ∈ s.completeQueue ↔ s.status id = some .done
  mem_deleted : ∀ id, id ∈ s.deletedSet ↔ s.status id = some .deleted

/-- The ways in which an entry changes. -/
inductive Change (s : MetaStore K T) (id : K) (entry : StoredEntry T) : MetaStore K T → Prop
  | settle (result : Except String T) (h : entry.status = .pending) :
    Change s id entry (s.complete id entry result)
  | overwrite (result : Except String T) (h : entry.status = .done) :
    Change s id entry { s with storage := s.storage.insert id (entry.setComplete result) }
  | tombstone (h : entry.status ≠ .deleted) : Change s id entry (s.tombstone id entry)
  | discard (h : entry.status = .pending) :
    Change s id entry { s with storage := s.storage.erase id }
  | evict (h : entry.status = .done) :
    Change s id entry { s with
      storage := s.storage.erase id
      completeQueue := s.completeQueue.filter (fun other => decide (other ≠ id)) }

def pendingIds (s : MetaStore K T) : Finset K :=
  s.storage.keys.filter (fun id => s.status id = some .pending)

variable {s s' : MetaStore K T} {id : K} {entry : StoredEntry T}

theorem status_of_lookup (h : s.storage.lookup id = some entry) : s.status id = some entry.status := by
  unfold status
  rw [h]
  rfl

theorem mem_of_status {x : EntryStatus} (h : s.status id = some x) : id ∈ s.storage := by
  obtain ⟨entry, hentry, -⟩ := Option.map_eq_some_iff.mp h
  exact Finmap.mem_of_lookup_eq_some hentry

theorem mem_pendingIds : id ∈ s.pendingIds ↔ s.status id = some .pending := by
  unfold pendingIds
  rw [Finset.mem_filter]
  exact ⟨fun h => h.2, fun h => ⟨mem_of_status h, h⟩⟩

theorem status_congr (h : s'.storage.lookup id = s.storage.lookup id) :
    s'.status id = s.status id := by
  unfold status
  rw [h]

section Change

variable (h : s.Change id entry s')
include h

theorem Change.status_ne_deleted : entry.status ≠ .deleted := by
  cases h with
  | settle _ h | overwrite _ h | discard h | evict h => rw [h]; decide
  | tombstone h => exact h

theorem Change.lookup_of_ne {other : K} (hne : other ≠ id) :
    s'.storage.lookup other = s.storage.lookup other := by
  cases h with
  | settle _ _ | overwrite _ _ | tombstone _ => exact Finmap.lookup_insert_of_ne _ hne
  | discard _ | evict _ => exact Finmap.lookup_erase_ne hne

/-- The entry goes, or keeps its claim and is no longer pending. -/
theorem Change.lookup_self :
    s'.storage.lookup id = none ∨ ∃ entry', s'.storage.lookup id = some entry' ∧
      entry'.claim = entry.claim ∧ entry'.status ≠ .pending := by
  cases h with
  | settle _ _ | overwrite _ _ | tombstone _ =>
    exact Or.inr ⟨_, Finmap.lookup_insert _, rfl, nofun⟩
  | discard _ | evict _ => exact Or.inl (Finmap.lookup_erase _ _)

theorem Change.status_of_ne {other : K} (hne : other ≠ id) :
    s'.status other = s.status other :=
  status_congr (h.lookup_of_ne hne)

theorem Change.status_ne_pending : s'.status id ≠ some .pending := by
  rcases h.lookup_self with hnone | ⟨entry', hentry, -, hstatus⟩
  · unfold status
    rw [hnone]
    nofun
  · rw [status_of_lookup hentry]
    exact fun heq => hstatus (Option.some.inj heq)

/-- To keep the store consistent, a change has to do so at its own entry. -/
theorem Change.consistent_of_self (hs : s.Consistent) (hnodup : s'.completeQueue.Nodup)
    (hqueue : ∀ other, other ≠ id → (other ∈ s'.completeQueue ↔ other ∈ s.completeQueue))
    (hdeleted : ∀ other, other ≠ id → (other ∈ s'.deletedSet ↔ other ∈ s.deletedSet))
    (hself : id ∈ s'.completeQueue ↔ s'.status id = some .done)
    (hself' : id ∈ s'.deletedSet ↔ s'.status id = some .deleted) : s'.Consistent where
  nodup := hnodup
  mem_queue := fun other => by
    by_cases hne : other = id
    · exact hne ▸ hself
    · rw [hqueue other hne, hs.mem_queue, h.status_of_ne hne]
  mem_deleted := fun other => by
    by_cases hne : other = id
    · exact hne ▸ hself'
    · rw [hdeleted other hne, hs.mem_deleted, h.status_of_ne hne]

end Change

theorem Consistent.change (hs : s.Consistent) (hlookup : s.storage.lookup id = some entry)
    (h : s.Change id entry s') : s'.Consistent := by
  have hstatus := status_of_lookup hlookup
  have hqueue : id ∈ s.completeQueue ↔ entry.status = .done := by
    rw [hs.mem_queue, hstatus, Option.some.injEq]
  have hdeleted : id ∈ s.deletedSet ↔ entry.status = .deleted := by
    rw [hs.mem_deleted, hstatus, Option.some.injEq]
  have hfilter : ∀ other, other ≠ id →
      (other ∈ s.completeQueue.filter (fun other => decide (other ≠ id)) ↔
        other ∈ s.completeQueue) := fun other hne => by simp [hne]
  cases h with
  | settle result h =>
    refine (Change.settle result h).consistent_of_self hs ?_ ?_ (fun _ _ => Iff.rfl) ?_ ?_
    · have hnotin : id ∉ s.completeQueue := fun hmem => by simp [hqueue.mp hmem] at h
      exact List.nodup_append.mpr ⟨hs.nodup, List.nodup_singleton id, fun a ha b hb hab =>
        hnotin (List.mem_singleton.mp hb ▸ hab ▸ ha)⟩
    · intro other hne
      unfold complete
      simp [hne]
    · rw [status_of_lookup (Finmap.lookup_insert _)]
      unfold complete
      simp
    · rw [status_of_lookup (Finmap.lookup_insert _)]
      refine hdeleted.trans ?_
      rw [h]
      simp
  | overwrite result h =>
    refine (Change.overwrite result h).consistent_of_self hs hs.nodup (fun _ _ => Iff.rfl)
      (fun _ _ => Iff.rfl) ?_ ?_
    · rw [status_of_lookup (Finmap.lookup_insert _)]
      exact hqueue.trans (by simp [h])
    · rw [status_of_lookup (Finmap.lookup_insert _)]
      exact hdeleted.trans (by simp [h])
  | tombstone h =>
    refine (Change.tombstone h).consistent_of_self hs ?_ ?_ ?_ ?_ ?_
    · unfold tombstone
      split_ifs
      · exact hs.nodup.filter _
      · exact hs.nodup
    · intro other hne
      unfold tombstone
      split_ifs
      · exact hfilter other hne
      · rfl
    · intro other hne
      exact (Finset.mem_insert).trans (or_iff_right hne)
    · rw [status_of_lookup (Finmap.lookup_insert _)]
      unfold tombstone
      split_ifs with hdone
      · simp
      · simp [hqueue, hdone]
    · rw [status_of_lookup (Finmap.lookup_insert _)]
      exact iff_of_true (Finset.mem_insert_self _ _) rfl
  | discard h =>
    refine (Change.discard h).consistent_of_self hs hs.nodup (fun _ _ => Iff.rfl)
      (fun _ _ => Iff.rfl) ?_ ?_
    · exact hqueue.trans (by simp [h, status])
    · exact hdeleted.trans (by simp [h, status])
  | evict h =>
    refine (Change.evict h).consistent_of_self hs (hs.nodup.filter _) hfilter
      (fun _ _ => Iff.rfl) ?_ ?_
    · simp [status]
    · exact hdeleted.trans (by simp [h, status])

theorem Consistent.addPending (hs : s.Consistent) (hnone : s.storage.lookup id = none) (claim : ℕ) :
    (s.addPending id claim).Consistent := by
  have hstatus : s.status id = none := by
    unfold status
    rw [hnone]
    rfl
  have hnew : ∀ x, s.status id ≠ some x := fun x => by rw [hstatus]; nofun
  have hself : (s.addPending id claim).status id = some .pending := by
    rw [status_of_lookup (s := s.addPending id claim) (Finmap.lookup_insert _)]
    rfl
  have hother : ∀ other, other ≠ id → (s.addPending id claim).status other = s.status other :=
    fun other hne => status_congr (Finmap.lookup_insert_of_ne _ hne)
  refine ⟨hs.nodup, fun other => ?_, fun other => ?_⟩
  · by_cases hne : other = id
    · subst hne
      rw [hself]
      exact iff_of_false (fun hmem => hnew _ ((hs.mem_queue _).mp hmem)) nofun
    · rw [hother other hne]
      exact hs.mem_queue other
  · by_cases hne : other = id
    · subst hne
      rw [hself]
      exact iff_of_false (fun hmem => hnew _ ((hs.mem_deleted _).mp hmem)) nofun
    · rw [hother other hne]
      exact hs.mem_deleted other

/-- What is neither completed nor deleted is being processed. -/
theorem Consistent.getProcessingCount_eq (hs : s.Consistent) :
    s.getProcessingCount = s.pendingIds.card := by
  have hkeys : s.storage.keys = s.pendingIds ∪ (s.completeQueue.toFinset ∪ s.deletedSet) := by
    ext id
    rw [Finset.mem_union, Finset.mem_union, mem_pendingIds, List.mem_toFinset, hs.mem_queue,
      hs.mem_deleted]
    constructor
    · intro hmem
      obtain ⟨entry, hentry⟩ := Finmap.mem_iff.mp hmem
      rw [status_of_lookup hentry]
      cases entry.status with
      | pending => exact Or.inl rfl
      | done => exact Or.inr (Or.inl rfl)
      | deleted => exact Or.inr (Or.inr rfl)
    · rintro (h | h | h)
      · exact mem_of_status h
      · exact mem_of_status h
      · exact mem_of_status h
  have hinner : Disjoint s.completeQueue.toFinset s.deletedSet := by
    refine Finset.disjoint_left.mpr (fun id hq hd => ?_)
    have hq' := (hs.mem_queue id).mp (List.mem_toFinset.mp hq)
    rw [(hs.mem_deleted id).mp hd] at hq'
    cases hq'
  have houter : Disjoint s.pendingIds (s.completeQueue.toFinset ∪ s.deletedSet) := by
    refine Finset.disjoint_left.mpr (fun id hp hmem => ?_)
    have hp' := mem_pendingIds.mp hp
    rcases Finset.mem_union.mp hmem with hq | hd
    · rw [(hs.mem_queue id).mp (List.mem_toFinset.mp hq)] at hp'
      cases hp'
    · rw [(hs.mem_deleted id).mp hd] at hp'
      cases hp'
  unfold getProcessingCount getTotalCount
  rw [hkeys, Finset.card_union_of_disjoint houter, Finset.card_union_of_disjoint hinner,
    List.toFinset_card_of_nodup hs.nodup]
  omega

end MetaStore

end ThresholdKms
