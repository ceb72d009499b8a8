import ThresholdKms.MetaStoreCalls

/-!
# Runs of the store

From an empty store or from one that is filled from a map, every sequence of calls, drops and steps of
the reaper keeps the bookkeeping of the store right and its entries to the holders of their permits.
-/

namespace ThresholdKms

open Relation

namespace MetaStoreSystem

variable {K T : Type} [DecidableEq K] {s : MetaStoreSystem K T}

theorem consume_moves {permit : MetaStorePermit K} {own : Option (MetaStorePermit K)}
    (hown : own = some permit) {result : Except (MetaStoreError K) (MetaStore K T)}
    (h : s.store.Settles permit.reqId result) :
    ReflTransGen (Move own) s (s.consume permit result) := by
  unfold consume
  split_ifs with hlive
  · refine .single ?_
    cases result with
    | error _ => exact .giveUp permit hown hlive h
    | ok store' =>
      rcases h with ⟨entry, hlookup, hchange⟩ | ⟨rfl, hstatus⟩
      · exact .finish permit entry store' hown hlive hlookup hchange
      · exact .giveUp permit hown hlive hstatus
  · exact .refl

theorem failIfOrphaned_moves (own : Option (MetaStorePermit K)) (id : K) (reason : String) :
    ReflTransGen (Move own) s
      { s with store := (s.store.failIfOrphaned s.live id reason).1 } := by
  rcases MetaStore.failIfOrphaned_cases s.live id reason s.store with
    ⟨entry, hlookup, hfree, hpending, heq⟩ | ⟨heq, -⟩
  · rw [heq]
    exact .single (.change id entry _ hlookup hfree (.settle _ hpending))
  · rw [heq]

/-- The reaper leaves no orphan of the request that it was told about. -/
theorem Consistent.held_of_failIfOrphaned (h : s.Consistent) (id : K) (reason : String)
    (hstatus : (s.store.failIfOrphaned s.live id reason).1.status id = some .pending) :
    ∃ p ∈ s.permits, p.reqId = id := by
  rcases MetaStore.failIfOrphaned_cases s.live id reason s.store with
    ⟨entry, hlookup, hfree, hpending, heq⟩ | ⟨heq, hheld⟩
  · rw [heq] at hstatus
    exact absurd hstatus (MetaStore.Change.settle (.error reason) hpending).status_ne_pending
  · rw [heq] at hstatus
    obtain ⟨entry, hlookup, hpending⟩ := Option.map_eq_some_iff.mp hstatus
    exact h.exists_permit hlookup (hheld entry hlookup hpending)

variable [ToString K]

theorem insert_moves (h : s.Consistent) (own : Option (MetaStorePermit K)) (id : K) :
    ReflTransGen (Move own) s (s.grant (s.store.insert s.live s.nextClaim id)) := by
  cases hres : s.store.insert s.live s.nextClaim id with
  | error _ => exact .refl
  | ok granted =>
    obtain ⟨store', permit⟩ := granted
    obtain ⟨hnone, rfl, s₁, hroom | hevict, rfl⟩ := MetaStore.insert_eq_ok hres
    · rw [hroom.2]
      exact .single (.create id hnone)
    · obtain ⟨old, entry, hlookup, hfree, -, hchange, -⟩ :=
        MetaStore.change_of_evictOldest h.store hevict
      have hne : id ≠ old := by
        rintro rfl
        rw [hnone] at hlookup
        cases hlookup
      exact (ReflTransGen.single (.change old entry s₁ hlookup hfree hchange)).tail
        (.create id ((hchange.lookup_of_ne hne).trans hnone))

omit [ToString K] in
theorem redoFailed_moves (own : Option (MetaStorePermit K)) (id : K) :
    ReflTransGen (Move own) s (s.grant (s.store.redoFailed s.live s.nextClaim id)) := by
  cases hres : s.store.redoFailed s.live s.nextClaim id with
  | error _ => exact .refl
  | ok granted =>
    obtain ⟨store', permit⟩ := granted
    obtain ⟨entry, s₁, hlookup, hfree, hchange, hnone, rfl, rfl⟩ := MetaStore.redoFailed_eq_ok hres
    exact (ReflTransGen.single (.change id entry s₁ hlookup hfree hchange)).tail (.create id hnone)

/-- Every step is made of moves that take no permit but its own. -/
theorem Consistent.step_moves (h : s.Consistent) (op : MetaStoreOp K T) :
    ReflTransGen (Move op.permit?) s (s.step op) := by
  cases op with
  | insert id => exact insert_moves h _ id
  | lockEntry id =>
    dsimp only [step]
    cases hres : s.store.lockEntry s.live id with
    | error _ => exact .refl
    | ok permit =>
      obtain ⟨entry, hlookup, hstatus, hfree, rfl⟩ := MetaStore.lockEntry_eq_ok hres
      exact .single (.lock id entry hlookup hstatus hfree)
  | update permit result => exact consume_moves rfl (MetaStore.settles_update result)
  | finalize permit value => exact consume_moves rfl (MetaStore.settles_finalize value)
  | abortReservation permit => exact consume_moves rfl MetaStore.settles_abortReservation
  | delete permit => exact consume_moves rfl MetaStore.settles_delete
  | tryDelete id =>
    dsimp only [step]
    cases hres : s.store.tryDelete s.live id with
    | error _ => exact .refl
    | ok deleted =>
      obtain ⟨entry, hlookup, hfree, hchange⟩ := MetaStore.change_of_tryDelete hres
      exact .single (.change id entry _ hlookup hfree hchange)
  | redoFailed id => exact redoFailed_moves _ id
  | failIfOrphaned id reason => exact failIfOrphaned_moves _ id reason
  | release permit =>
    dsimp only [step]
    split_ifs with hlive
    · exact .single (.release permit rfl hlive)
    · exact .refl
  | notify id =>
    dsimp only [step]
    split_ifs with hmem
    · exact .single (.notify id hmem)
    · exact .refl
  | receive =>
    dsimp only [step]
    split
    · rename_i id ids hnone hchannel
      exact .single (.receive id ids hnone hchannel)
    · exact .refl
  | reap =>
    dsimp only [step]
    split
    · rename_i id hsome
      exact (failIfOrphaned_moves none id reason).tail
        (.dismiss id hsome (h.held_of_failIfOrphaned id reason))
    · exact .refl

theorem Consistent.step (h : s.Consistent) (op : MetaStoreOp K T) : (s.step op).Consistent :=
  h.moves (h.step_moves op)

theorem Consistent.run (h : s.Consistent) (ops : List (MetaStoreOp K T)) :
    (s.run ops).Consistent := by
  induction ops generalizing s with
  | nil => exact h
  | cons op ops ih => exact ih (h.step op)

omit [ToString K] in
theorem consistent_new (capacity minCache : ℕ) :
    (new capacity minCache : MetaStoreSystem K T).Consistent where
  store := ⟨List.nodup_nil, fun id => by simp [new, MetaStore.status],
    fun id => by simp [new, MetaStore.status]⟩
  distinct := List.nodup_nil
  held := nofun
  fresh := fun id entry h => by simp [new] at h
  unshared := fun id entry id' entry' h => by simp [new] at h

/-- The store is empty or filled from a map. -/
inductive Initial : MetaStoreSystem K T → Prop
  | new (capacity minCache : ℕ) : Initial (new capacity minCache)
  | newFromMap (usizeMax : ℕ) (map : List (K × T)) (hnodup : (map.map Prod.fst).Nodup) :
    Initial (newFromMap usizeMax map)

omit [ToString K] in
theorem Consistent.addDone (h : s.Consistent) {kv : K × T}
    (hnone : s.store.storage.lookup kv.1 = none) : (s.addDone kv).Consistent := by
  have hpending := h.addEntry hnone (.newPending s.nextClaim) rfl rfl
    (h.store.addPending hnone s.nextClaim)
  have hentry : (s.store.addPending kv.1 s.nextClaim).storage.lookup kv.1 =
      some (.newPending s.nextClaim) := Finmap.lookup_insert _
  refine h.addEntry hnone (.newDone s.nextClaim (.ok kv.2)) rfl rfl ?_
  have hsettled := hpending.store.change hentry (.settle (.ok kv.2) rfl)
  unfold MetaStore.complete MetaStore.addPending at hsettled
  rwa [Finmap.insert_insert] at hsettled

omit [ToString K] in
theorem Consistent.foldl_addDone (h : s.Consistent) {map : List (K × T)}
    (hnodup : (map.map Prod.fst).Nodup) (hnew : ∀ kv ∈ map, kv.1 ∉ s.store.storage) :
    (map.foldl MetaStoreSystem.addDone s).Consistent := by
  induction map generalizing s with
  | nil => exact h
  | cons kv map ih =>
    obtain ⟨hhead, htail⟩ := List.nodup_cons.mp hnodup
    refine ih (h.addDone (Finmap.lookup_eq_none.mpr (hnew kv List.mem_cons_self))) htail
      (fun other hother hmem => ?_)
    rcases Finmap.mem_insert.mp hmem with heq | hmem
    · exact hhead (heq ▸ List.mem_map_of_mem hother)
    · exact hnew other (List.mem_cons_of_mem _ hother) hmem

omit [ToString K] in
theorem Initial.consistent (h : Initial s) : s.Consistent := by
  cases h with
  | new capacity minCache => exact consistent_new capacity minCache
  | newFromMap usizeMax map hnodup =>
    exact (consistent_new _ _).foldl_addDone hnodup (fun _ _ => Finmap.notMem_empty)

/-- The bookkeeping is right at every point, an entry is its holder's, and tombstones stay. -/
theorem metaStore_bookkeeping {start : MetaStoreSystem K T} (hstart : Initial start)
    (ops : List (MetaStoreOp K T)) :
    ((start.run ops).store.completeQueue.Nodup ∧ (∀ id, id ∈ (start.run ops).store.completeQueue ↔
        (start.run ops).store.status id = some .done) ∧
      (∀ id, id ∈ (start.run ops).store.deletedSet ↔
        (start.run ops).store.status id = some .deleted) ∧
      (start.run ops).store.getProcessingCount = (start.run ops).store.pendingIds.card) ∧
    (((start.run ops).permits.map (·.reqId)).Nodup ∧
      ∀ p ∈ (start.run ops).permits, p.reqId ∈ (start.run ops).store.storage ∧
        ∀ op : MetaStoreOp K T, op.permit? ≠ some p → p ∈ ((start.run ops).step op).permits ∧
          ((start.run ops).step op).store.storage.lookup p.reqId =
            (start.run ops).store.storage.lookup p.reqId) ∧
    ∀ id, (start.run ops).store.status id = some .deleted →
      ∀ later, ((start.run ops).run later).store.status id = some .deleted := by
  have h := hstart.consistent.run ops
  refine ⟨⟨h.store.nodup, h.store.mem_queue, h.store.mem_deleted, h.store.getProcessingCount_eq⟩,
    ⟨h.distinct, fun p hp => ⟨?_, fun op hop => h.frame (h.step_moves op) hp hop⟩⟩,
    fun id hdeleted later => ?_⟩
  · obtain ⟨entry, hlookup, -⟩ := h.held p hp
    exact Finmap.mem_of_lookup_eq_some hlookup
  · generalize start.run ops = s at h hdeleted
    induction later generalizing s with
    | nil => exact hdeleted
    | cons op later ih => exact ih _ (h.step op) (status_deleted_moves (h.step_moves op) hdeleted)

/-- A request that is locked again after it was completed is not deleted under its holder. -/
theorem metaStore_bookkeeping_locked : ((new 2 1 : MetaStoreSystem ℕ ℕ).run
      [.insert 7, .update ⟨7, 0⟩ (.ok 5), .lockEntry 7, .insert 8]).permits = [⟨8, 1⟩, ⟨7, 0⟩] ∧
    (((new 2 1 : MetaStoreSystem ℕ ℕ).run
      [.insert 7, .update ⟨7, 0⟩ (.ok 5), .lockEntry 7, .insert 8]).step (.tryDelete 7)).store.storage.lookup 7 =
      ((new 2 1 : MetaStoreSystem ℕ ℕ).run
      [.insert 7, .update ⟨7, 0⟩ (.ok 5), .lockEntry 7, .insert 8]).store.storage.lookup 7 := by
  have hpermits : ((new 2 1 : MetaStoreSystem ℕ ℕ).run
      [.insert 7, .update ⟨7, 0⟩ (.ok 5), .lockEntry 7, .insert 8]).permits = [⟨8, 1⟩, ⟨7, 0⟩] := by
    decide
  have hheld := ((metaStore_bookkeeping (Initial.new 2 1)
    [.insert 7, .update ⟨7, 0⟩ (.ok 5), .lockEntry 7, .insert 8]).2.1.2 ⟨7, 0⟩
      (by decide)).2
  exact ⟨hpermits, (hheld (.tryDelete 7) nofun).2⟩

end MetaStoreSystem

end ThresholdKms
