import ThresholdKms.MetaStoreChange

/-!
# The invariant of the store and its permits

A live permit names an entry and has its claim, so that an entry is held by at most one permit. Each
step is a sequence of moves: an entry is added, locked, or changed while nobody holds it or by the one
who does; permits are dropped; the reaper takes messages and dismisses them.
-/

namespace ThresholdKms

open Relation

namespace MetaStoreSystem

variable {K T : Type} [DecidableEq K]

structure Consistent (s : MetaStoreSystem K T) : Prop where
  store : s.store.Consistent
  distinct : (s.permits.map (·.reqId)).Nodup
  held : ∀ p ∈ s.permits, ∃ entry, s.store.storage.lookup p.reqId = some entry ∧
    entry.claim = p.claim ∧ entry.status ≠ .deleted
  fresh : ∀ id entry, s.store.storage.lookup id = some entry → entry.claim < s.nextClaim
  unshared : ∀ id entry id' entry', s.store.storage.lookup id = some entry →
    s.store.storage.lookup id' = some entry' → entry.claim = entry'.claim → id = id'

/-- What one step can do; `own` is the permit that it takes from its holder. -/
inductive Move (own : Option (MetaStorePermit K)) (s : MetaStoreSystem K T) :
    MetaStoreSystem K T → Prop
  | create (id : K) (hnone : s.store.storage.lookup id = none) :
    Move own s { s with
      store := s.store.addPending id s.nextClaim
      permits := ⟨id, s.nextClaim⟩ :: s.permits
      nextClaim := s.nextClaim + 1 }
  | lock (id : K) (entry : StoredEntry T) (hlookup : s.store.storage.lookup id = some entry)
    (hstatus : entry.status ≠ .deleted) (hfree : entry.claim ∉ s.live) :
    Move own s { s with permits := ⟨id, entry.claim⟩ :: s.permits }
  | change (id : K) (entry : StoredEntry T) (store' : MetaStore K T)
    (hlookup : s.store.storage.lookup id = some entry) (hfree : entry.claim ∉ s.live)
    (hchange : s.store.Change id entry store') : Move own s { s with store := store' }
  | finish (permit : MetaStorePermit K) (entry : StoredEntry T) (store' : MetaStore K T)
    (hown : own = some permit) (hlive : permit ∈ s.permits)
    (hlookup : s.store.storage.lookup permit.reqId = some entry)
    (hchange : s.store.Change permit.reqId entry store') :
    Move own s { s with store := store', permits := s.permits.erase permit }
  | giveUp (permit : MetaStorePermit K) (hown : own = some permit) (hlive : permit ∈ s.permits)
    (hstatus : s.store.status permit.reqId ≠ some .pending) :
    Move own s { s with permits := s.permits.erase permit }
  | release (permit : MetaStorePermit K) (hown : own = some permit) (hlive : permit ∈ s.permits) :
    Move own s { s with
      permits := s.permits.erase permit
      released := s.released ++ [permit.reqId] }
  | notify (id : K) (hmem : id ∈ s.released) :
    Move own s { s with
      released := s.released.erase id
      reaperChannel := s.reaperChannel ++ [id] }
  | receive (id : K) (ids : List K) (hnone : s.received = none)
    (hchannel : s.reaperChannel = id :: ids) :
    Move own s { s with received := some id, reaperChannel := ids }
  | dismiss (id : K) (hsome : s.received = some id)
    (hstatus : s.store.status id = some .pending → ∃ p ∈ s.permits, p.reqId = id) :
    Move own s { s with received := none }

variable {s s' : MetaStoreSystem K T} {own : Option (MetaStorePermit K)} {p q : MetaStorePermit K}
  {entry : StoredEntry T} {id : K} {store' : MetaStore K T}

section Consistent

variable (h : s.Consistent)
include h

theorem Consistent.eq_of_reqId (hp : p ∈ s.permits) (hq : q ∈ s.permits)
    (heq : p.reqId = q.reqId) : p = q :=
  List.inj_on_of_nodup_map h.distinct hp hq heq

theorem Consistent.reqId_ne_of_mem_erase (hq : q ∈ s.permits)
    (hp : p ∈ s.permits.erase q) : p.reqId ≠ q.reqId := by
  intro heq
  obtain rfl := h.eq_of_reqId (List.mem_of_mem_erase hp) hq heq
  exact (List.Nodup.not_mem_erase h.distinct.of_map) hp

theorem Consistent.dropPermits {permits : List (MetaStorePermit K)}
    (hsub : permits.Sublist s.permits) :
    ({ s with permits := permits } : MetaStoreSystem K T).Consistent where
  store := h.store
  distinct := h.distinct.sublist (hsub.map _)
  held := fun p hp => h.held p (hsub.subset hp)
  fresh := h.fresh
  unshared := h.unshared

theorem Consistent.addEntry (hnone : s.store.storage.lookup id = none) (entry : StoredEntry T)
    (hstorage : store'.storage = s.store.storage.insert id entry) (hclaim : entry.claim = s.nextClaim)
    (hstore : store'.Consistent) :
    ({ s with store := store', nextClaim := s.nextClaim + 1 } : MetaStoreSystem K T).Consistent := by
  have hother : ∀ other entry', store'.storage.lookup other = some entry' →
      (other = id ∧ entry' = entry) ∨
        (other ≠ id ∧ s.store.storage.lookup other = some entry') := by
    intro other entry' hlookup
    rw [hstorage] at hlookup
    by_cases hne : other = id
    · subst hne
      rw [Finmap.lookup_insert] at hlookup
      exact Or.inl ⟨rfl, (Option.some.inj hlookup).symm⟩
    · rw [Finmap.lookup_insert_of_ne _ hne] at hlookup
      exact Or.inr ⟨hne, hlookup⟩
  refine ⟨hstore, h.distinct, fun p hp => ?_, fun other entry' hlookup => ?_,
    fun id₁ entry₁ id₂ entry₂ h₁ h₂ heq => ?_⟩
  · obtain ⟨entry', hlookup', hrest⟩ := h.held p hp
    have hne : p.reqId ≠ id := by
      rintro rfl
      rw [hnone] at hlookup'
      cases hlookup'
    exact ⟨entry', by rw [hstorage, Finmap.lookup_insert_of_ne _ hne, hlookup'], hrest⟩
  · rcases hother other entry' hlookup with ⟨-, rfl⟩ | ⟨-, hold⟩
    · exact hclaim ▸ Nat.lt_succ_self _
    · exact (h.fresh other entry' hold).trans (Nat.lt_succ_self _)
  · rcases hother _ _ h₁ with ⟨rfl, rfl⟩ | ⟨-, hold₁⟩
    · rcases hother _ _ h₂ with ⟨rfl, -⟩ | ⟨-, hold₂⟩
      · rfl
      · have hlt := h.fresh _ _ hold₂
        omega
    · rcases hother _ _ h₂ with ⟨rfl, rfl⟩ | ⟨-, hold₂⟩
      · have hlt := h.fresh _ _ hold₁
        omega
      · exact h.unshared _ _ _ _ hold₁ hold₂ heq

theorem Consistent.permit_ne (hnone : s.store.storage.lookup id = none)
    (hp : p ∈ s.permits) : p.reqId ≠ id := by
  rintro rfl
  obtain ⟨entry, hlookup, -⟩ := h.held p hp
  rw [hnone] at hlookup
  cases hlookup

section Entry

variable (hlookup : s.store.storage.lookup id = some entry)
include hlookup

/-- An entry whose claim is referenced is held by the permit of its request. -/
theorem Consistent.exists_permit (hheld : entry.claim ∈ s.live) :
    ∃ p ∈ s.permits, p.reqId = id := by
  obtain ⟨p, hp, hclaim⟩ := List.mem_map.mp hheld
  obtain ⟨entry', hlookup', hclaim', -⟩ := h.held p hp
  exact ⟨p, hp, h.unshared _ _ _ _ hlookup' hlookup (hclaim'.trans hclaim)⟩

theorem Consistent.ne_of_free (hfree : entry.claim ∉ s.live) (hp : p ∈ s.permits) : p.reqId ≠ id := by
  rintro rfl
  obtain ⟨entry', hlookup', hclaim, -⟩ := h.held p hp
  obtain rfl : entry' = entry := Option.some.inj (hlookup'.symm.trans hlookup)
  exact hfree (hclaim ▸ List.mem_map_of_mem hp)

theorem Consistent.addPermit (hstatus : entry.status ≠ .deleted)
    (hnew : ∀ p ∈ s.permits, p.reqId ≠ id) :
    ({ s with permits := ⟨id, entry.claim⟩ :: s.permits } : MetaStoreSystem K T).Consistent where
  store := h.store
  distinct := by
    refine List.nodup_cons.mpr ⟨fun hmem => ?_, h.distinct⟩
    obtain ⟨p, hp, hreq⟩ := List.mem_map.mp hmem
    exact hnew p hp hreq
  held := fun p hp => by
    rcases List.mem_cons.mp hp with rfl | hp
    · exact ⟨entry, hlookup, rfl, hstatus⟩
    · exact h.held p hp
  fresh := h.fresh
  unshared := h.unshared

variable (hchange : s.store.Change id entry store')
include hchange

omit h in
/-- A change makes no new claim. -/
theorem lookup_change {other : K} {entry' : StoredEntry T}
    (hother : store'.storage.lookup other = some entry') :
    ∃ old, s.store.storage.lookup other = some old ∧ old.claim = entry'.claim := by
  by_cases hne : other = id
  · subst hne
    rcases hchange.lookup_self with hnone | ⟨new, hnew, hclaim, -⟩
    · rw [hnone] at hother
      cases hother
    · obtain rfl : new = entry' := Option.some.inj (hnew.symm.trans hother)
      exact ⟨entry, hlookup, hclaim.symm⟩
  · exact ⟨entry', (hchange.lookup_of_ne hne).symm.trans hother, rfl⟩

/-- A change keeps the invariant if the permits that remain are for other entries. -/
theorem Consistent.change {permits : List (MetaStorePermit K)}
    (hsub : permits.Sublist s.permits) (hne : ∀ p ∈ permits, p.reqId ≠ id) :
    ({ s with store := store', permits := permits } : MetaStoreSystem K T).Consistent where
  store := h.store.change hlookup hchange
  distinct := h.distinct.sublist (hsub.map _)
  held := fun p hp => by
    obtain ⟨entry', hlookup', hrest⟩ := h.held p (hsub.subset hp)
    exact ⟨entry', (hchange.lookup_of_ne (hne p hp)).trans hlookup', hrest⟩
  fresh := fun other entry' hother => by
    obtain ⟨old, hold, hclaim⟩ := lookup_change hlookup hchange hother
    exact hclaim ▸ h.fresh other old hold
  unshared := fun id₁ entry₁ id₂ entry₂ h₁ h₂ heq => by
    obtain ⟨old₁, hold₁, hclaim₁⟩ := lookup_change hlookup hchange h₁
    obtain ⟨old₂, hold₂, hclaim₂⟩ := lookup_change hlookup hchange h₂
    exact h.unshared _ _ _ _ hold₁ hold₂ (hclaim₁.trans (heq.trans hclaim₂.symm))

end Entry

theorem Consistent.move (hmove : s.Move own s') : s'.Consistent := by
  cases hmove with
  | create id hnone =>
    have hadded := h.addEntry hnone (.newPending s.nextClaim) rfl rfl
      (h.store.addPending hnone s.nextClaim)
    exact hadded.addPermit (Finmap.lookup_insert (a := id) _) nofun
      (fun p hp => h.permit_ne hnone hp)
  | lock id entry hlookup hstatus hfree =>
    exact h.addPermit hlookup hstatus (fun p hp => h.ne_of_free hlookup hfree hp)
  | change id entry store' hlookup hfree hchange =>
    exact h.change hlookup hchange (List.Sublist.refl _) (fun p hp => h.ne_of_free hlookup hfree hp)
  | finish permit entry store' hown hlive hlookup hchange =>
    exact h.change hlookup hchange List.erase_sublist
      (fun p hp => h.reqId_ne_of_mem_erase hlive hp)
  | giveUp permit hown hlive hstatus => exact h.dropPermits List.erase_sublist
  | release permit hown hlive =>
    have hsub : (s.permits.erase permit).Sublist s.permits := List.erase_sublist
    obtain ⟨hstore, hdistinct, hheld, hfresh, hunshared⟩ := h.dropPermits hsub
    exact ⟨hstore, hdistinct, hheld, hfresh, hunshared⟩
  | notify id hmem | receive id ids hnone hchannel | dismiss id hsome hstatus =>
    exact ⟨h.store, h.distinct, h.held, h.fresh, h.unshared⟩

theorem Consistent.moves (hmoves : ReflTransGen (Move own) s s') :
    s'.Consistent := by
  induction hmoves with
  | refl => exact h
  | tail _ hmove ih => exact ih.move hmove

/-- Nobody else touches the entry that a permit holds. -/
theorem Consistent.frame (hmoves : ReflTransGen (Move own) s s')
    (hp : p ∈ s.permits) (hown : own ≠ some p) :
    p ∈ s'.permits ∧ s'.store.storage.lookup p.reqId = s.store.storage.lookup p.reqId := by
  induction hmoves with
  | refl => exact ⟨hp, rfl⟩
  | @tail s₁ s₂ hpath hmove ih =>
    obtain ⟨hp₁, hlookup₁⟩ := ih
    have h₁ := h.moves hpath
    rw [← hlookup₁]
    cases hmove with
    | create id hnone =>
      exact ⟨List.mem_cons_of_mem _ hp₁, Finmap.lookup_insert_of_ne _ (h₁.permit_ne hnone hp₁)⟩
    | lock id entry hlookup hstatus hfree => exact ⟨List.mem_cons_of_mem _ hp₁, rfl⟩
    | change id entry store' hlookup hfree hchange =>
      exact ⟨hp₁, hchange.lookup_of_ne (h₁.ne_of_free hlookup hfree hp₁)⟩
    | finish permit entry store' hown' hlive hlookup hchange =>
      have hne : p ≠ permit := fun heq => hown (heq ▸ hown')
      exact ⟨(List.mem_erase_of_ne hne).mpr hp₁,
        hchange.lookup_of_ne (fun heq => hne (h₁.eq_of_reqId hp₁ hlive heq))⟩
    | giveUp permit hown' hlive _ | release permit hown' hlive =>
      have hne : p ≠ permit := fun heq => hown (heq ▸ hown')
      exact ⟨(List.mem_erase_of_ne hne).mpr hp₁, rfl⟩
    | notify | receive | dismiss => exact ⟨hp₁, rfl⟩

end Consistent

theorem status_deleted_moves (hmoves : ReflTransGen (Move own) s s')
    (hdeleted : s.store.status id = some .deleted) : s'.store.status id = some .deleted := by
  induction hmoves with
  | refl => exact hdeleted
  | @tail s₁ s₂ _ hmove ih =>
    have hkept : ∀ {id' entry store'}, s₁.store.storage.lookup id' = some entry →
        s₁.store.Change id' entry store' → store'.status id = some .deleted := by
      intro id' entry store' hlookup hchange
      have hne : id ≠ id' := by
        rintro rfl
        rw [MetaStore.status_of_lookup hlookup] at ih
        exact hchange.status_ne_deleted (Option.some.inj ih)
      rw [hchange.status_of_ne hne, ih]
    cases hmove with
    | create id' hnone =>
      have hne : id ≠ id' := by
        rintro rfl
        exact Finmap.lookup_eq_none.mp hnone (MetaStore.mem_of_status ih)
      exact (MetaStore.status_congr (Finmap.lookup_insert_of_ne _ hne)).trans ih
    | change _ _ _ hlookup _ hchange
    | finish _ _ _ _ _ hlookup hchange => exact hkept hlookup hchange
    | lock | giveUp | release | notify | receive | dismiss => exact ih

end MetaStoreSystem

end ThresholdKms
