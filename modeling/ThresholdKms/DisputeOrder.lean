import ThresholdKms.Accusations

/-!
# The order in which disputes are found

The loops over the dealers and the receivers of a broadcast leave out what has been settled by then.
If the disagreements are orderly, they end for every order of the dealers with the same corrupt
parties and disputes.
-/

namespace ThresholdKms

open LargeSession

section Record

variable {n t : ℕ} {me : Role} {corrupt : Finset Role} {disputes : DisputeSet}
  {all done : Finset (Role × Role)} {found : Finset Role}

/-- The state after the disagreements `done` of `all`. -/
structure Processed (n t : ℕ) (me : Role) (corrupt : Finset Role) (disputes : DisputeSet)
    (all done : Finset (Role × Role)) (found : Finset Role) (state : LargeSession × Bool) : Prop where
  recorded : Recorded n t me corrupt disputes done found state.1
  subset : done ⊆ all
  found_subset : found ⊆ exceeding n t disputes all
  pending : ∀ p ∈ exceeding n t disputes all, p ∉ found → Touched done p →
    (disputes.get p ∪ partners done p).card ≤ t
  flag : state.2 = decide (done = ∅)
  start : done = ∅ → found = ∅

variable {state : LargeSession × Bool} {r s : Role}

/-- A pair of which one party is found or that is in dispute already adds nothing. -/
theorem Recorded.insert_of_covered {session : LargeSession}
    (h : Recorded n t me corrupt disputes done found session) (hr : r ∈ partyRoles n)
    (hs : s ∈ partyRoles n) (hcovered : r ∈ found ∨ s ∈ found ∨ r ∈ partners done s) :
    Recorded n t me corrupt disputes (insert (r, s) done) found session := by
  refine ⟨h.sessionAt, fun p q => ?_⟩
  rw [h.disputed]
  constructor
  · exact Or.imp_right (Or.imp_left
      (fun hq => partners_mono (Finset.subset_insert (r, s) done) p hq))
  · rintro (hq | hq | hq)
    · exact Or.inl hq
    · obtain ⟨hne, hq⟩ := mem_partners.mp hq
      rw [Finset.mem_insert, Finset.mem_insert, or_or_or_comm] at hq
      rcases hq with (heq | heq) | hq
      · cases heq
        rcases hcovered with hfound | hfound | hpartner
        · exact Or.inr (Or.inr ⟨hne.symm, hs, hr, Or.inr hfound⟩)
        · exact Or.inr (Or.inr ⟨hne.symm, hs, hr, Or.inl hfound⟩)
        · exact Or.inr (Or.inl hpartner)
      · cases heq
        rcases hcovered with hfound | hfound | hpartner
        · exact Or.inr (Or.inr ⟨hne.symm, hr, hs, Or.inl hfound⟩)
        · exact Or.inr (Or.inr ⟨hne.symm, hr, hs, Or.inr hfound⟩)
        · exact Or.inr (Or.inl (mem_partners_comm.mp hpartner))
      · exact Or.inr (Or.inl (mem_partners.mpr ⟨hne, hq⟩))
    · exact Or.inr (Or.inr hq)

variable (h : Processed n t me corrupt disputes all done found state)
  (horderly : Orderly n t disputes all) (hmem : (r, s) ∈ all)
include h horderly hmem

theorem Processed.record (hme : me ∉ exceeding n t disputes all) :
    ∃ found', Processed n t me corrupt disputes all (insert (r, s) done) found'
      (state.1.addDispute r s, false) := by
  obtain ⟨found', hrec, hsub, hex, hle⟩ :=
    h.recorded.addDispute horderly hme h.subset h.found_subset hmem
  refine ⟨found', hrec, Finset.insert_subset hmem h.subset, hex, fun p hp hnot htouched => ?_, ?_,
    fun hempty => absurd hempty (Finset.insert_ne_empty _ _)⟩
  · by_cases hpair : p = r ∨ p = s
    · exact hle p hpair hnot
    · obtain ⟨hpr, hps⟩ := not_or.mp hpair
      rw [partners_insert_of_ne hpr hps]
      exact h.pending p hp (fun hmem => hnot (hsub hmem)) (touched_insert_of_ne hpr hps htouched)
  · simp

variable (hcovered : r ∈ found ∨ s ∈ found ∨ r ∈ partners done s)
include hcovered

/-- Two parties of a disagreement that is not looked at, none of them found, are in dispute. -/
theorem Processed.pending_of_covered {p : Role} (hex : p ∈ exceeding n t disputes all)
    (hnot : p ∉ found) (hp : p = r ∨ p = s) :
    partners (insert (r, s) done) p = partners done p ∧ Touched done p := by
  have hpartner : r ∈ partners done s := by
    rcases hcovered with hfound | hfound | hpartner
    · exfalso
      rcases hp with rfl | rfl
      · exact hnot hfound
      · have heq : r = p := horderly.apart (r, p) hmem (h.found_subset hfound) hex
        exact hnot (heq ▸ hfound)
    · exfalso
      rcases hp with rfl | rfl
      · have heq : p = s := horderly.apart (p, s) hmem hex (h.found_subset hfound)
        exact hnot (heq.symm ▸ hfound)
      · exact hnot hfound
    · exact hpartner
  constructor
  · ext q
    have hdone := mem_partners.mp hpartner
    simp only [mem_partners, Finset.mem_insert, Prod.mk.injEq]
    grind
  · obtain ⟨hne, hmem' | hmem'⟩ := mem_partners.mp hpartner
    · exact ⟨_, hmem', hp.imp Eq.symm Eq.symm⟩
    · exact ⟨_, hmem', (hp.imp Eq.symm Eq.symm).symm⟩

/-- A disagreement that is not looked at, since one of the parties has become corrupt or the dispute
is known, leaves nothing to record. -/
theorem Processed.skip (hr : r ∈ partyRoles n) (hs : s ∈ partyRoles n) :
    Processed n t me corrupt disputes all (insert (r, s) done) found state := by
  have hnonempty : done ≠ ∅ := by
    intro hempty
    rw [h.start hempty, hempty] at hcovered
    simp [mem_partners] at hcovered
  refine ⟨h.recorded.insert_of_covered hr hs hcovered, Finset.insert_subset hmem h.subset,
    h.found_subset, fun p hex hnot htouched => ?_, ?_, fun hempty => ?_⟩
  · by_cases hp : p = r ∨ p = s
    · obtain ⟨hpartners, htouched'⟩ := h.pending_of_covered horderly hmem hcovered hex hnot hp
      rw [hpartners]
      exact h.pending p hex hnot htouched'
    · obtain ⟨hpr, hps⟩ := not_or.mp hp
      rw [partners_insert_of_ne hpr hps]
      exact h.pending p hex hnot (touched_insert_of_ne hpr hps htouched)
  · rw [h.flag]
    simp [hnonempty]
  · exact absurd hempty (Finset.insert_ne_empty _ _)

end Record

section Loops

variable {Z : Type} [DecidableEq Z] {n t : ℕ} {me : Role} {corrupt : Finset Role}
  {disputes : DisputeSet} {bcastData : Role → Option (MapsSharesChallenges Z)}
  {done : Finset (Role × Role)} {state : LargeSession × Bool}

/-- Every party that is not known to be corrupt has broadcast maps, as a dealer for all parties. -/
def AllPresent (n : ℕ) (corrupt : Finset Role)
    (bcastData : Role → Option (MapsSharesChallenges Z)) : Prop :=
  ∀ role ∈ partyRoles n, role ∉ corrupt →
    ∃ maps, bcastData role = some maps ∧ maps.checksForMine.keys = (partyRoles n).toFinset

/-- Where the loop over the receivers of a dealer stands. -/
def ProcessedTo (n t : ℕ) (me : Role) (corrupt : Finset Role) (disputes : DisputeSet)
    (bcastData : Role → Option (MapsSharesChallenges Z)) (done : Finset (Role × Role))
    (state : LargeSession × Bool) : Prop :=
  ∃ found, Processed n t me corrupt disputes (accusations n corrupt disputes bcastData) done found
    state

theorem mem_accusations {r s : Role} : (r, s) ∈ accusations n corrupt disputes bcastData ↔
      (r ∈ partyRoles n ∧ s ∈ partyRoles n) ∧ r ∉ corrupt ∧ s ∉ corrupt ∧ r ∉ disputes.get s ∧
        Disagree bcastData r s := by
  unfold accusations
  rw [Finset.mem_filter, Finset.mem_product, List.mem_toFinset, List.mem_toFinset]

section Loops

variable (horderly : Orderly n t disputes (accusations n corrupt disputes bcastData))
  (hme : me ∉ exceeding n t disputes (accusations n corrupt disputes bcastData))
  (hpresent : AllPresent n corrupt bcastData)
  (h : ProcessedTo n t me corrupt disputes bcastData done state)
include horderly hme hpresent h

section Dealer

variable {s : Role} (hs : s ∈ partyRoles n) {maps : MapsSharesChallenges Z}
  (hmaps : bcastData s = some maps) (hscorrupt : s ∉ corrupt) {known : Finset Role}
  (hlower : disputes.get s ⊆ known) (hupper : known ⊆ state.1.disputedRoles.get s)
include hs hmaps hscorrupt hlower hupper

theorem compareChecks_processed {r : Role} (hr : r ∈ partyRoles n) :
    ∃ state', compareChecks bcastData s maps.checksForMine known state r = .ok state' ∧
      Le state.1 state'.1 ∧
      ProcessedTo n t me corrupt disputes bcastData
        (done ∪ (accusations n corrupt disputes bcastData).filter (fun a => a = (r, s))) state' := by
  obtain ⟨found, hproc⟩ := h
  have hcorrupt := hproc.recorded.sessionAt.corruptRoles_eq
  by_cases hmem : (r, s) ∈ accusations n corrupt disputes bcastData
  · obtain ⟨-, hrcorrupt, -, hnot, hdisagree⟩ := mem_accusations.mp hmem
    have hdone : done ∪ (accusations n corrupt disputes bcastData).filter (fun a => a = (r, s)) =
        insert (r, s) done := by
      rw [Finset.filter_eq', if_pos hmem, Finset.union_comm, Finset.insert_eq]
    rw [hdone]
    unfold compareChecks
    rw [hcorrupt]
    by_cases hvoice : r ∉ corrupt ∪ found ∧ r ∉ known
    · obtain ⟨maps', hmaps', -⟩ := hpresent r hr hrcorrupt
      unfold Disagree at hdisagree
      rw [hmaps, hmaps', Option.bind_some, Option.bind_some] at hdisagree
      simp only [if_pos hvoice, hmaps', if_neg hdisagree]
      obtain ⟨found', hproc'⟩ := hproc.record horderly hmem hme
      exact ⟨_, rfl, le_addDispute state.1 r s, found', hproc'⟩
    · refine ⟨state, if_neg hvoice, Le.refl _, found, hproc.skip horderly hmem ?_ hr hs⟩
      rw [Finset.mem_union, not_and_or, not_not, not_not] at hvoice
      rcases hvoice with (hrmem | hrmem) | hknown
      · exact absurd hrmem hrcorrupt
      · exact Or.inl hrmem
      · rcases (hproc.recorded.disputed s r).mp (hupper hknown) with hdis | hdis | ⟨-, -, -, hdis⟩
        · exact absurd hdis hnot
        · exact Or.inr (Or.inr hdis)
        · exact hdis.symm.imp_right Or.inl
  · have hdone : done ∪ (accusations n corrupt disputes bcastData).filter (fun a => a = (r, s)) =
        done := by
      rw [Finset.filter_eq', if_neg hmem, Finset.union_empty]
    rw [hdone]
    refine ⟨state, ?_, Le.refl _, found, hproc⟩
    unfold compareChecks
    rw [hcorrupt]
    split_ifs with hvoice
    · have hrcorrupt : r ∉ corrupt := fun hrmem => hvoice.1 (Finset.mem_union_left _ hrmem)
      obtain ⟨maps', hmaps', -⟩ := hpresent r hr hrcorrupt
      have hagree : ¬ Disagree bcastData r s := fun hdisagree => hmem (mem_accusations.mpr
        ⟨⟨hr, hs⟩, hrcorrupt, hscorrupt, fun hdis => hvoice.2 (hlower hdis), hdisagree⟩)
      unfold Disagree at hagree
      rw [hmaps, hmaps', Option.bind_some, Option.bind_some, not_not] at hagree
      simp only [hmaps', if_pos hagree]
    · rfl

theorem foldlM_compareChecks_processed {receivers : List Role}
    (hreceivers : ∀ r ∈ receivers, r ∈ partyRoles n) :
    ∃ state', receivers.foldlM (compareChecks bcastData s maps.checksForMine known) state =
        .ok state' ∧
      ProcessedTo n t me corrupt disputes bcastData
        (done ∪ (accusations n corrupt disputes bcastData).filter
          (fun a => a.2 = s ∧ a.1 ∈ receivers)) state' := by
  induction receivers generalizing done state with
  | nil => exact ⟨state, rfl, by simpa using h⟩
  | cons r receivers ih =>
    obtain ⟨hr, hreceivers⟩ := List.forall_mem_cons.mp hreceivers
    obtain ⟨state₁, hstep, hle, hproc⟩ := compareChecks_processed horderly hme hpresent h hs
      hmaps hscorrupt hlower hupper hr
    obtain ⟨state₂, hrest, hproc₂⟩ := ih hproc (hupper.trans (fun q hq => hle.disputed s q hq))
      hreceivers
    refine ⟨state₂, by rw [List.foldlM_cons, hstep, Outcome.ok_bind, hrest], ?_⟩
    convert hproc₂ using 1
    rw [Finset.union_assoc, ← Finset.filter_or]
    congr 1
    apply Finset.filter_congr
    rintro ⟨r', s'⟩ -
    simp only [List.mem_cons, Prod.mk.injEq]
    tauto

end Dealer

theorem compareSender_processed {s : Role} (hs : s ∈ partyRoles n) :
    ∃ state', compareSender bcastData state s = .ok state' ∧
      ProcessedTo n t me corrupt disputes bcastData
        (done ∪ (accusations n corrupt disputes bcastData).filter (fun a => a.2 = s)) state' := by
  obtain ⟨found, hproc⟩ := h
  have hcorrupt := hproc.recorded.sessionAt.corruptRoles_eq
  by_cases hscorrupt : s ∈ corrupt
  · have hnone : (accusations n corrupt disputes bcastData).filter (fun a => a.2 = s) = ∅ := by
      apply Finset.filter_eq_empty_iff.mpr
      rintro ⟨r, s'⟩ hmem rfl
      exact (mem_accusations.mp hmem).2.2.1 hscorrupt
    refine ⟨state, ?_, found, by rwa [hnone, Finset.union_empty]⟩
    unfold compareSender
    split
    · rfl
    · rw [hcorrupt, if_pos (Finset.mem_union_left _ hscorrupt)]
  · obtain ⟨maps, hmaps, hkeys⟩ := hpresent s hs hscorrupt
    have hreceivers : ∀ r, r ∈ maps.checksForMine.keys.sort ↔ r ∈ partyRoles n := by
      intro r
      rw [Finset.mem_sort, hkeys, List.mem_toFinset]
    have hfilter : (accusations n corrupt disputes bcastData).filter (fun a => a.2 = s) =
        (accusations n corrupt disputes bcastData).filter
          (fun a => a.2 = s ∧ a.1 ∈ maps.checksForMine.keys.sort) := by
      apply Finset.filter_congr
      rintro ⟨r, s'⟩ hmem
      rw [hreceivers]
      exact ⟨fun heq => ⟨heq, (mem_accusations.mp hmem).1.1⟩, And.left⟩
    rw [hfilter]
    unfold compareSender
    simp only [hmaps]
    rw [hcorrupt]
    split_ifs with hfound
    · -- the dealer has become corrupt, so it is in dispute with all receivers
      have hfound' : s ∈ found := (Finset.mem_union.mp hfound).resolve_left hscorrupt
      refine ⟨state, rfl, found, ?_⟩
      generalize hacc : (accusations n corrupt disputes bcastData).filter
        (fun a => a.2 = s ∧ a.1 ∈ maps.checksForMine.keys.sort) = skipped
      have hskipped : ∀ a ∈ skipped, a ∈ accusations n corrupt disputes bcastData ∧ a.2 = s := by
        intro a ha
        rw [← hacc, Finset.mem_filter] at ha
        exact ⟨ha.1, ha.2.1⟩
      clear hacc hfilter
      induction skipped using Finset.induction_on with
      | empty => rwa [Finset.union_empty]
      | insert a skipped _ ih =>
        obtain ⟨⟨r, s'⟩, rfl⟩ : ∃ b, a = b := ⟨a, rfl⟩
        obtain ⟨hmem, hs'⟩ := hskipped _ (Finset.mem_insert_self _ _)
        rw [Finset.union_insert]
        exact (ih (fun b hb => hskipped b (Finset.mem_insert_of_mem hb))).skip horderly hmem
          (Or.inr (Or.inl (show s' ∈ found from (show s' = s from hs') ▸ hfound')))
          (mem_accusations.mp hmem).1.1 (mem_accusations.mp hmem).1.2
    · exact foldlM_compareChecks_processed horderly hme hpresent ⟨found, hproc⟩ hs hmaps hscorrupt
        (fun q hq => (hproc.recorded.disputed s q).mpr (Or.inl hq)) (Finset.Subset.refl _)
        (fun r hr => (hreceivers r).mp hr)

theorem foldlM_compareSender_processed {senders : List Role}
    (hsenders : ∀ s ∈ senders, s ∈ partyRoles n) :
    ∃ state', senders.foldlM (compareSender bcastData) state = .ok state' ∧
      ProcessedTo n t me corrupt disputes bcastData
        (done ∪ (accusations n corrupt disputes bcastData).filter (fun a => a.2 ∈ senders))
        state' := by
  induction senders generalizing done state with
  | nil => exact ⟨state, rfl, by simpa using h⟩
  | cons s senders ih =>
    obtain ⟨hs, hsenders⟩ := List.forall_mem_cons.mp hsenders
    obtain ⟨state₁, hstep, hproc⟩ := compareSender_processed horderly hme hpresent h hs
    obtain ⟨state₂, hrest, hproc₂⟩ := ih hproc hsenders
    refine ⟨state₂, by rw [List.foldlM_cons, hstep, Outcome.ok_bind, hrest], ?_⟩
    convert hproc₂ using 1
    rw [Finset.union_assoc, ← Finset.filter_or]
    congr 1
    apply Finset.filter_congr
    intro a _
    rw [List.mem_cons]

end Loops

/-- In whatever order the dealers are looked at, the exceeding parties become corrupt, and the
disagreements and the disputes of the new corrupt parties are recorded. -/
theorem lookForDisputes_of_orderly {order : List Role} (session : LargeSession)
    (hsession : SessionAt session me n t corrupt) (horderly : Orderly n t session.disputedRoles
      (accusations n corrupt session.disputedRoles bcastData))
    (hme : me ∉ exceeding n t session.disputedRoles
      (accusations n corrupt session.disputedRoles bcastData))
    (hpresent : AllPresent n corrupt bcastData) (horder : order.Perm (partyRoles n)) :
    ∃ session', lookForDisputes order bcastData session = .ok (session',
        decide (accusations n corrupt session.disputedRoles bcastData = ∅)) ∧
      Recorded n t me corrupt session.disputedRoles
        (accusations n corrupt session.disputedRoles bcastData)
        (exceeding n t session.disputedRoles (accusations n corrupt session.disputedRoles bcastData))
        session' := by
  have hstart : ProcessedTo n t me corrupt session.disputedRoles bcastData ∅ (session, true) := by
    refine ⟨∅, ⟨by rwa [Finset.union_empty], fun p q => ?_⟩, Finset.empty_subset _,
      Finset.empty_subset _, ?_, rfl, fun _ => rfl⟩
    · simp [LargeSession.Disputed, mem_partners]
    · rintro p - - ⟨a, ha, -⟩
      exact absurd ha (Finset.notMem_empty a)
  obtain ⟨⟨session', ok⟩, hrun, found, hproc⟩ := foldlM_compareSender_processed horderly hme hpresent
    hstart (fun s hs => horder.subset hs)
  have hall : ∅ ∪ (accusations n corrupt session.disputedRoles bcastData).filter
      (fun a => a.2 ∈ order) = accusations n corrupt session.disputedRoles bcastData := by
    rw [Finset.empty_union]
    apply Finset.filter_eq_self.mpr
    rintro ⟨r, s⟩ hmem
    exact horder.symm.subset (mem_accusations.mp hmem).1.2
  rw [hall] at hproc
  have hfound : found = exceeding n t session.disputedRoles
      (accusations n corrupt session.disputedRoles bcastData) := by
    apply Finset.Subset.antisymm hproc.found_subset
    intro p hp
    by_contra hnot
    obtain ⟨-, htouched, hlt⟩ := Finset.mem_filter.mp hp
    exact absurd (hproc.pending p hp hnot htouched) (not_le.mpr hlt)
  have hok : ok = decide (accusations n corrupt session.disputedRoles bcastData = ∅) := hproc.flag
  exact ⟨session', hok ▸ hrun, hfound ▸ hproc.recorded⟩

end Loops

end ThresholdKms
