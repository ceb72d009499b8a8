import ThresholdKms.MetaStoreInvariant

/-!
# The calls of the store

What each call does, as a change of one entry: a call with a permit changes its entry or finds that it
is not pending, and a call without one changes an entry only if nobody holds it.
-/

namespace ThresholdKms

namespace MetaStore

variable {K T : Type} [DecidableEq K] {s store' : MetaStore K T} {id : K} {live : List ℕ}
  {fresh : ℕ} {permit : MetaStorePermit K}

/-- A call that uses a permit up changes its entry, or leaves it because it is not pending. -/
def Settles (s : MetaStore K T) (id : K) : Except (MetaStoreError K) (MetaStore K T) → Prop
  | .ok store' => (∃ entry, s.storage.lookup id = some entry ∧ s.Change id entry store') ∨
      store' = s ∧ s.status id ≠ some .pending
  | .error _ => s.status id ≠ some .pending

theorem status_ne_of_lookup_none (h : s.storage.lookup id = none) (x : EntryStatus) :
    s.status id ≠ some x := by
  unfold status
  rw [h]
  nofun

variable {entry : StoredEntry T}

theorem status_ne_of_lookup (h : s.storage.lookup id = some entry)
    {x : EntryStatus} (hne : entry.status ≠ x) : s.status id ≠ some x := by
  rw [status_of_lookup h]
  exact fun heq => hne (Option.some.inj heq)

theorem settles_update (result : Except String T) :
    s.Settles permit.reqId (s.update result permit) := by
  unfold update
  cases hlookup : s.storage.lookup permit.reqId with
  | none => exact status_ne_of_lookup_none hlookup _
  | some entry =>
    dsimp only
    split_ifs with hpending
    · exact status_ne_of_lookup hlookup hpending
    · exact Or.inl ⟨entry, hlookup, .settle result (not_not.mp hpending)⟩

theorem settles_finalize (value : T) : s.Settles permit.reqId (s.finalize permit value) := by
  unfold finalize
  cases hlookup : s.storage.lookup permit.reqId with
  | none => exact status_ne_of_lookup_none hlookup _
  | some entry =>
    dsimp only
    cases hstatus : entry.status with
    | pending => exact Or.inl ⟨entry, hlookup, .settle _ hstatus⟩
    | done => exact Or.inl ⟨entry, hlookup, .overwrite _ hstatus⟩
    | deleted => exact status_ne_of_lookup hlookup (by rw [hstatus]; nofun)

theorem settles_abortReservation :
    s.Settles permit.reqId (.ok (s.abortReservation permit)) := by
  unfold abortReservation
  cases hlookup : s.storage.lookup permit.reqId with
  | none => exact Or.inr ⟨rfl, status_ne_of_lookup_none hlookup _⟩
  | some entry =>
    dsimp only
    split_ifs with hpending
    · exact Or.inl ⟨entry, hlookup, .discard hpending⟩
    · exact Or.inr ⟨rfl, status_ne_of_lookup hlookup hpending⟩

theorem settles_delete : s.Settles permit.reqId ((s.delete permit).map Prod.fst) := by
  unfold delete
  cases hlookup : s.storage.lookup permit.reqId with
  | none => exact status_ne_of_lookup_none hlookup _
  | some entry =>
    dsimp only
    split_ifs with hdeleted
    · exact status_ne_of_lookup hlookup (by rw [hdeleted]; nofun)
    · exact Or.inl ⟨entry, hlookup, .tombstone hdeleted⟩

theorem unlocked_of_eq_ok {ε α : Type} {err : ε} {a b : α}
    (h : (if entry.isPermitHeld live then .error err else .ok a : Except ε α) = .ok b) :
    entry.claim ∉ live ∧ a = b := by
  split_ifs at h with hheld
  exact ⟨fun hmem => hheld (decide_eq_true hmem), Except.ok.inj h⟩

theorem change_of_tryDelete {prev : EntryState T} (h : s.tryDelete live id = .ok (store', prev)) :
    ∃ entry, s.storage.lookup id = some entry ∧ entry.claim ∉ live ∧ s.Change id entry store' := by
  unfold tryDelete at h
  cases hlookup : s.storage.lookup id with
  | none => rw [hlookup] at h; cases h
  | some entry =>
    simp only [hlookup] at h
    cases hstatus : entry.status with
    | pending | done =>
      simp only [hstatus] at h
      obtain ⟨hfree, heq⟩ := unlocked_of_eq_ok h
      obtain ⟨rfl, -⟩ := Prod.mk.inj heq
      exact ⟨entry, rfl, hfree, .tombstone (by rw [hstatus]; nofun)⟩
    | deleted => simp only [hstatus] at h; cases h

/-- Only an orphaned entry is changed. -/
theorem failIfOrphaned_cases (live : List ℕ) (id : K) (reason : String) (s : MetaStore K T) :
    (∃ entry, s.storage.lookup id = some entry ∧ entry.claim ∉ live ∧ entry.status = .pending ∧
      (s.failIfOrphaned live id reason).1 = s.complete id entry (.error reason)) ∨
    ((s.failIfOrphaned live id reason).1 = s ∧ ∀ entry, s.storage.lookup id = some entry →
      entry.status = .pending → entry.claim ∈ live) := by
  unfold failIfOrphaned
  cases hlookup : s.storage.lookup id with
  | none => exact Or.inr ⟨rfl, nofun⟩
  | some entry =>
    dsimp only
    split_ifs with horphaned
    · exact Or.inl ⟨entry, rfl, of_decide_eq_false horphaned.2, horphaned.1, rfl⟩
    · refine Or.inr ⟨rfl, fun entry' heq hpending => ?_⟩
      obtain rfl := Option.some.inj heq
      by_contra hfree
      exact horphaned ⟨hpending, decide_eq_false hfree⟩

theorem lockEntry_eq_ok (h : s.lockEntry live id = .ok permit) :
    ∃ entry, s.storage.lookup id = some entry ∧ entry.status ≠ .deleted ∧ entry.claim ∉ live ∧
      permit = ⟨id, entry.claim⟩ := by
  unfold lockEntry at h
  cases hlookup : s.storage.lookup id with
  | none => rw [hlookup] at h; cases h
  | some entry =>
    simp only [hlookup] at h
    cases hstatus : entry.status with
    | pending | done =>
      simp only [hstatus] at h
      obtain ⟨hfree, heq⟩ := unlocked_of_eq_ok h
      exact ⟨entry, rfl, by rw [hstatus]; nofun, hfree, heq.symm⟩
    | deleted => simp only [hstatus] at h; cases h

theorem redoFailed_eq_ok (h : s.redoFailed live fresh id = .ok (store', permit)) :
    ∃ entry s₁, s.storage.lookup id = some entry ∧ entry.claim ∉ live ∧ s.Change id entry s₁ ∧
      s₁.storage.lookup id = none ∧ store' = s₁.addPending id fresh ∧ permit = ⟨id, fresh⟩ := by
  unfold redoFailed at h
  cases hlookup : s.storage.lookup id with
  | none => rw [hlookup] at h; cases h
  | some entry =>
    simp only [hlookup] at h
    cases hstatus : entry.status with
    | pending | deleted => simp only [hstatus] at h; cases h
    | done =>
      simp only [hstatus] at h
      split_ifs at h with hfailed hheld
      obtain ⟨rfl, rfl⟩ := Prod.mk.inj (Except.ok.inj h)
      refine ⟨entry, _, rfl, fun hmem => hheld (decide_eq_true hmem), .evict hstatus,
        Finmap.lookup_erase _ _, ?_, rfl⟩
      unfold addPending
      congr 1
      apply Finmap.ext_lookup
      intro other
      by_cases hne : other = id
      · subst hne
        rw [Finmap.lookup_insert, Finmap.lookup_insert]
      · rw [Finmap.lookup_insert_of_ne _ hne, Finmap.lookup_insert_of_ne _ hne,
          Finmap.lookup_erase_ne hne]

variable [ToString K]

/-- What is evicted is the entry of a completed request that nobody holds. -/
theorem change_of_evictOldest (hs : s.Consistent) {requestId : K}
    (h : s.evictOldest live requestId = .ok store') :
    ∃ id entry, s.storage.lookup id = some entry ∧ entry.claim ∉ live ∧ entry.status = .done ∧
      s.Change id entry store' ∧ store'.storage.lookup id = none := by
  unfold evictOldest at h
  split_ifs at h with hmin
  cases hfind : s.completeQueue.findIdx? (s.evictable live) with
  | none => rw [hfind] at h; cases h
  | some pos =>
    obtain ⟨hpos, hevictable, -⟩ := List.findIdx?_eq_some_iff_getElem.mp hfind
    simp only [hfind, List.getElem?_eq_getElem hpos] at h
    split_ifs at h with hmem
    obtain ⟨entry, hlookup⟩ := Finmap.mem_iff.mp hmem
    unfold evictable at hevictable
    rw [hlookup] at hevictable
    simp only [StoredEntry.isPermitHeld, Bool.and_eq_true, decide_eq_true_eq, Bool.not_eq_true',
      decide_eq_false_iff_not] at hevictable
    have hqueue : s.completeQueue.eraseIdx pos =
        s.completeQueue.filter (fun other => decide (other ≠ s.completeQueue[pos])) := by
      rw [← hs.nodup.erase_getElem pos hpos, hs.nodup.erase_eq_filter]
      refine List.filter_congr (fun other _ => ?_)
      by_cases heq : other = s.completeQueue[pos]
      · simp [heq]
      · simp [heq]
    refine ⟨_, entry, hlookup, hevictable.2, hevictable.1, ?_⟩
    rw [← Except.ok.inj h, hqueue]
    exact ⟨.evict hevictable.1, Finmap.lookup_erase _ _⟩

theorem insert_eq_ok (h : s.insert live fresh id = .ok (store', permit)) :
    s.storage.lookup id = none ∧ permit = ⟨id, fresh⟩ ∧
      ∃ s₁, (s.getTotalCount < s.capacity ∧ s₁ = s ∨ s.evictOldest live id = .ok s₁) ∧
        store' = s₁.addPending id fresh := by
  unfold insert at h
  split_ifs at h with hmem hfull
  · cases hevict : s.evictOldest live id with
    | error _ => rw [hevict] at h; cases h
    | ok s₁ =>
      rw [hevict] at h
      obtain ⟨rfl, rfl⟩ := Prod.mk.inj (Except.ok.inj h)
      exact ⟨Finmap.lookup_eq_none.mpr hmem, rfl, s₁, Or.inr rfl, rfl⟩
  · obtain ⟨rfl, rfl⟩ := Prod.mk.inj (Except.ok.inj h)
    exact ⟨Finmap.lookup_eq_none.mpr hmem, rfl, s, Or.inl ⟨not_le.mp hfull, rfl⟩, rfl⟩

end MetaStore

end ThresholdKms
