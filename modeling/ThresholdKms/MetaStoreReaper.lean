import ThresholdKms.MetaStoreRun

/-!
# The reaper of the store

A pending entry is either held by a permit, or its last permit is being dropped, or a message about it
waits for the reaper or is in its hands. So once all permits are gone and all messages are handled, no
request is pending.
-/

namespace ThresholdKms

open Relation

namespace MetaStoreSystem

variable {K T : Type} [DecidableEq K] {s s' : MetaStoreSystem K T}
  {own : Option (MetaStorePermit K)} {id : K}

/-- Someone will still settle the request. -/
def Watched (s : MetaStoreSystem K T) (id : K) : Prop :=
  (∃ p ∈ s.permits, p.reqId = id) ∨ id ∈ s.released ∨ id ∈ s.reaperChannel ∨ s.received = some id

/-- No pending request is forgotten. -/
def AllWatched (s : MetaStoreSystem K T) : Prop :=
  ∀ id, s.store.status id = some .pending → s.Watched id

omit [DecidableEq K] in
theorem Watched.mono (h : s.Watched id) (hpermits : ∀ p ∈ s.permits, p ∈ s'.permits)
    (hreleased : s'.released = s.released) (hchannel : s'.reaperChannel = s.reaperChannel)
    (hreceived : s'.received = s.received) : s'.Watched id := by
  unfold Watched
  rw [hreleased, hchannel, hreceived]
  exact h.imp_left (fun ⟨p, hp, hreq⟩ => ⟨p, hpermits p hp, hreq⟩)

theorem Watched.erase (h : s.Watched id) {permit : MetaStorePermit K} (hne : id ≠ permit.reqId)
    {released : List K} (hreleased : ∀ x ∈ s.released, x ∈ released) (store : MetaStore K T) :
    ({ s with
      store := store
      permits := s.permits.erase permit
      released := released } : MetaStoreSystem K T).Watched id := by
  rcases h with ⟨p, hp, rfl⟩ | hmem | hrest
  · have hpermit : p ≠ permit := by
      rintro rfl
      exact hne rfl
    exact Or.inl ⟨p, (List.mem_erase_of_ne hpermit).mpr hp, rfl⟩
  · exact Or.inr (Or.inl (hreleased id hmem))
  · exact Or.inr (Or.inr hrest)

variable (h : s.AllWatched)
include h

theorem AllWatched.change {other : K} {entry : StoredEntry T}
    {store' : MetaStore K T} (hchange : s.store.Change other entry store')
    (hstatus : store'.status id = some .pending) : id ≠ other ∧ s.Watched id := by
  have hne : id ≠ other := by
    rintro rfl
    exact hchange.status_ne_pending hstatus
  exact ⟨hne, h id ((hchange.status_of_ne hne).symm.trans hstatus)⟩

theorem AllWatched.move (hmove : s.Move own s') : s'.AllWatched := by
  intro id hpending
  cases hmove with
  | create new hnone =>
    by_cases hne : id = new
    · exact Or.inl ⟨_, List.mem_cons_self, hne.symm⟩
    · have hold : s.store.status id = some .pending :=
        (MetaStore.status_congr (Finmap.lookup_insert_of_ne _ hne)).symm.trans hpending
      exact (h id hold).mono (fun p hp => List.mem_cons_of_mem _ hp) rfl rfl rfl
  | lock locked entry hlookup hstatus hfree =>
    exact (h id hpending).mono (fun p hp => List.mem_cons_of_mem _ hp) rfl rfl rfl
  | change other entry store' hlookup hfree hchange =>
    exact (h.change hchange hpending).2.mono (fun p hp => hp) rfl rfl rfl
  | finish permit entry store' hown hlive hlookup hchange =>
    obtain ⟨hne, hwatched⟩ := h.change hchange hpending
    exact hwatched.erase hne (fun x hx => hx) store'
  | giveUp permit hown hlive hstatus =>
    have hne : id ≠ permit.reqId := by
      rintro rfl
      exact hstatus hpending
    exact (h id hpending).erase hne (fun x hx => hx) s.store
  | release permit hown hlive =>
    by_cases hne : id = permit.reqId
    · exact Or.inr (Or.inl (List.mem_append_right _ (List.mem_singleton.mpr hne)))
    · exact (h id hpending).erase hne (fun x hx => List.mem_append_left _ hx) s.store
  | notify sent hmem =>
    rcases h id hpending with hheld | hreleased | hchannel | hreceived
    · exact Or.inl hheld
    · by_cases hne : id = sent
      · exact Or.inr (Or.inr (Or.inl (List.mem_append_right _ (List.mem_singleton.mpr hne))))
      · exact Or.inr (Or.inl ((List.mem_erase_of_ne hne).mpr hreleased))
    · exact Or.inr (Or.inr (Or.inl (List.mem_append_left _ hchannel)))
    · exact Or.inr (Or.inr (Or.inr hreceived))
  | receive first ids hnone hchannel =>
    rcases h id hpending with hheld | hreleased | hmem | hreceived
    · exact Or.inl hheld
    · exact Or.inr (Or.inl hreleased)
    · rw [hchannel] at hmem
      rcases List.mem_cons.mp hmem with rfl | hmem
      · exact Or.inr (Or.inr (Or.inr rfl))
      · exact Or.inr (Or.inr (Or.inl hmem))
    · rw [hnone] at hreceived
      cases hreceived
  | dismiss dismissed hsome hstatus =>
    rcases h id hpending with hheld | hreleased | hmem | hreceived
    · exact Or.inl hheld
    · exact Or.inr (Or.inl hreleased)
    · exact Or.inr (Or.inr (Or.inl hmem))
    · obtain rfl : dismissed = id := Option.some.inj (hsome.symm.trans hreceived)
      exact Or.inl (hstatus hpending)

theorem AllWatched.moves (hmoves : ReflTransGen (Move own) s s') :
    s'.AllWatched := by
  induction hmoves with
  | refl => exact h
  | tail _ hmove ih => exact ih.move hmove

theorem AllWatched.foldl_addDone (map : List (K × T)) : (map.foldl addDone s).AllWatched := by
  induction map generalizing s with
  | nil => exact h
  | cons kv map ih =>
    refine ih (fun id hpending => ?_)
    have hne : id ≠ kv.1 := by
      rintro rfl
      rw [MetaStore.status_of_lookup (Finmap.lookup_insert _)] at hpending
      cases hpending
    exact (h id ((MetaStore.status_congr (Finmap.lookup_insert_of_ne _ hne)).symm.trans
      hpending)).mono (fun p hp => hp) rfl rfl rfl

omit h

theorem Initial.allWatched (h : Initial s) : s.AllWatched := by
  have hnew : ∀ capacity minCache,
      (MetaStoreSystem.new capacity minCache : MetaStoreSystem K T).AllWatched := by
    intro capacity minCache id hpending
    cases hpending
  cases h with
  | new capacity minCache => exact hnew capacity minCache
  | newFromMap usizeMax map hnodup => exact (hnew usizeMax usizeMax).foldl_addDone map

variable [ToString K]

theorem AllWatched.run (h : s.AllWatched) (hs : s.Consistent) (ops : List (MetaStoreOp K T)) :
    (s.run ops).AllWatched := by
  induction ops generalizing s with
  | nil => exact h
  | cons op ops ih => exact ih (h.moves (hs.step_moves op)) (hs.step op)

variable {start : MetaStoreSystem K T}

theorem Initial.not_pending (hstart : Initial start)
    {ops : List (MetaStoreOp K T)} (hpermits : (start.run ops).permits = [])
    (hreleased : (start.run ops).released = []) (hchannel : (start.run ops).reaperChannel = [])
    (hreceived : (start.run ops).received = none) (id : K) :
    (start.run ops).store.status id ≠ some .pending := by
  intro hpending
  have hwatched := hstart.allWatched.run hstart.consistent ops id hpending
  unfold Watched at hwatched
  rw [hpermits, hreleased, hchannel, hreceived] at hwatched
  rcases hwatched with ⟨p, hp, -⟩ | hmem | hmem | heq
  · cases hp
  · cases hmem
  · cases hmem
  · cases heq

/-- A drop goes on until the reaper is informed, and the reaper handles what it takes. -/
def whole : MetaStoreOp K T → List (MetaStoreOp K T)
  | .release permit => [.release permit, .notify permit.reqId]
  | .receive => [.receive, .reap]
  | .notify _ | .reap => []
  | op => [op]

/-- No permit is half dropped, and the reaper has no message in its hands. -/
def Settled (s : MetaStoreSystem K T) : Prop := s.released = [] ∧ s.received = none

theorem Settled.whole (h : s.Settled) (op : MetaStoreOp K T) : (s.run (whole op)).Settled := by
  cases op with
  | release permit =>
    change ((s.step (.release permit)).step (.notify permit.reqId)).Settled
    dsimp only [step]
    by_cases hmem : permit ∈ s.permits
    · simp only [if_pos hmem, h.1, List.nil_append, List.mem_singleton, if_true]
      exact ⟨List.erase_cons_head _ _, h.2⟩
    · rw [if_neg hmem, if_neg (h.1 ▸ List.not_mem_nil)]
      exact h
  | receive =>
    change ((s.step .receive).step .reap).Settled
    dsimp only [step]
    rw [h.2]
    cases s.reaperChannel with
    | nil =>
      dsimp only
      rw [h.2]
      exact h
    | cons id ids => exact ⟨h.1, rfl⟩
  | notify id | reap => exact h
  | insert id | redoFailed id =>
    dsimp only [MetaStoreSystem.whole, run, List.foldl, step, grant]
    split <;> exact h
  | update permit result | finalize permit value | abortReservation permit | delete permit =>
    dsimp only [MetaStoreSystem.whole, run, List.foldl, step, consume]
    split_ifs <;> exact h
  | lockEntry id | tryDelete id =>
    dsimp only [MetaStoreSystem.whole, run, List.foldl, step]
    split <;> exact h
  | failIfOrphaned id reason => exact h

theorem Settled.run_whole (h : s.Settled) (ops : List (MetaStoreOp K T)) :
    (s.run (ops.flatMap MetaStoreSystem.whole)).Settled := by
  induction ops generalizing s with
  | nil => exact h
  | cons op ops ih =>
    rw [List.flatMap_cons, run, List.foldl_append]
    exact ih (h.whole op)

omit [ToString K] in
theorem Initial.settled (h : Initial s) : s.Settled := by
  cases h with
  | new capacity minCache => exact ⟨rfl, rfl⟩
  | newFromMap usizeMax map hnodup =>
    have hfold : ∀ s : MetaStoreSystem K T, s.Settled → (map.foldl addDone s).Settled := by
      induction map with
      | nil => exact fun _ h => h
      | cons kv map ih => exact fun s h => ih (List.nodup_cons.mp hnodup).2 (s.addDone kv) h
    exact hfold _ ⟨rfl, rfl⟩

/-- Once all permits are gone and all messages are handled no request is pending, which for whole
drops and steps of the reaper is once its channel is empty. The reaper only changes an entry that is
pending and not held. -/
theorem metaStore_noStuckRequest (hstart : Initial start)
    (ops : List (MetaStoreOp K T)) :
    ((start.run ops).permits = [] → (start.run ops).released = [] →
      (start.run ops).reaperChannel = [] → (start.run ops).received = none →
      ∀ id, (start.run ops).store.status id ≠ some .pending) ∧
    ((start.run (ops.flatMap whole)).permits = [] →
      (start.run (ops.flatMap whole)).reaperChannel = [] →
      ∀ id, (start.run (ops.flatMap whole)).store.status id ≠ some .pending) ∧
    ∀ id, ((start.run ops).store.status id ≠ some .pending ∨
        ∃ p ∈ (start.run ops).permits, p.reqId = id) →
      ((start.run ops).step .reap).store.storage.lookup id =
        (start.run ops).store.storage.lookup id := by
  have hs := hstart.consistent.run ops
  refine ⟨hstart.not_pending, fun hpermits hchannel => ?_, ?_⟩
  · obtain ⟨hreleased, hreceived⟩ := hstart.settled.run_whole ops
    exact hstart.not_pending hpermits hreleased hchannel hreceived
  · rintro id (hstatus | ⟨p, hp, rfl⟩)
    · generalize start.run ops = s at hs hstatus
      dsimp only [step]
      split
      · rename_i received hsome
        rcases MetaStore.failIfOrphaned_cases s.live received reason s.store with
          ⟨entry, hlookup, -, hpending, heq⟩ | ⟨heq, -⟩
        · have hne : id ≠ received := by
            rintro rfl
            exact hstatus (hpending ▸ MetaStore.status_of_lookup hlookup)
          simp only [heq]
          exact (MetaStore.Change.settle (.error reason) hpending).lookup_of_ne hne
        · simp only [heq]
      · rfl
    · exact (hs.frame (hs.step_moves .reap) hp nofun).2

/-- The first permit of a request is dropped, and another one before the reaper knows of it. -/
theorem metaStore_noStuckRequest_adopted :
    ((new 2 1 : MetaStoreSystem ℕ ℕ).run [.insert 7, .release ⟨7, 0⟩, .lockEntry 7, .notify 7,
      .receive, .reap, .release ⟨7, 0⟩, .notify 7, .receive, .reap]).store.status 7 ≠
      some .pending := by
  refine (metaStore_noStuckRequest (Initial.new 2 1) [.insert 7, .release ⟨7, 0⟩, .lockEntry 7,
    .notify 7, .receive, .reap, .release ⟨7, 0⟩, .notify 7, .receive, .reap]).1 ?_ ?_ ?_ ?_ 7
  · decide
  · decide
  · decide
  · decide

end MetaStoreSystem

end ThresholdKms
