import ThresholdKms.EpochRegistrySteps
import ThresholdKms.KeyedCalls

/-!
# Runs of epoch calls

The creation of an epoch is alone with its data until it registers the epoch, since the identifier is
known and nothing else starts for an epoch that is not registered. From then on its resharing and the
key generations run side by side, and none of them touches the setup. Only a destruction takes the
setup away, so that it has to be alone with its epoch.
-/

namespace ThresholdKms.EpochRegistry

variable {ε κ : Type} {r : EpochRegistry ε κ} {call : ℕ} {epochId : ε}

/-- An epoch has one creation at most, and a destruction is alone with its epoch. -/
def callSpec (ε κ : Type) : CallSpec ε (EpochEntry κ) (EpochCall ε κ) where
  key := EpochCall.epochId
  Knows := fun entry current => Knows entry current.step
  Beside := fun current current' =>
    ¬ (Creating current.step ∧ Creating current'.step) ∧ ¬ Destroying current.step
  Always := ErasedGone
  Open := fun current => Unsettled current.step
  Settled := Covered

abbrev Ordered (r : EpochRegistry ε κ) : Prop := (callSpec ε κ).Holds r.entry r.calls

theorem Ordered.accounted (h : r.Ordered) : r.Accounted where
  covered := h.settled_of_idle
  erased := fun epochId herased => by
    obtain ⟨hprss, hitems, hcached⟩ := h.always epochId herased
    refine ⟨hprss, ?_⟩
    rintro (hne | hne)
    · exact hne hitems
    · exact hne hcached

/-- Whatever call is in progress, stored items have a setup, which the restarted registry finds. -/
theorem Ordered.restart (h : r.Ordered) :
    Ordered (⟨fun epochId => reload (r.entry epochId), fun _ => none⟩ : EpochRegistry ε κ) := by
  refine CallSpec.Holds.of_idle (fun _ => rfl) (fun epochId herased => ?_) (fun epochId => ⟨?_, rfl⟩)
  · obtain ⟨hprss, hitems, -⟩ := h.always epochId herased
    exact ⟨hprss, hitems, rfl⟩
  · rintro (hitems | hcached)
    · by_cases hsettled : ∀ call current, r.calls call = some current →
          current.epochId = epochId → ¬ Unsettled current.step
      · have hcovered : Covered (r.entry epochId) := h.settled epochId hsettled
        exact hcovered.held (Or.inl hitems)
      · push Not at hsettled
        obtain ⟨call, current, hcall, rfl, hunsettled⟩ := hsettled
        exact absurd (Knows.items_eq (h.knows call current hcall) hunsettled) hitems
    · exact absurd rfl hcached

variable [DecidableEq ε]

/-- One call starts, goes on or returns. The other calls of its epoch still know the entry, and stand
beside the next step of the call. -/
theorem Ordered.change (h : r.Ordered)
    (hown : ∀ current, r.calls call = some current → current.epochId = epochId)
    {entry : EpochEntry κ} {next : Option (EpochStep κ)} (hgone : ErasedGone entry)
    (hleaves : Leaves entry next)
    (hothers : ∀ call' current, call' ≠ call → r.calls call' = some current →
      current.epochId = epochId → Knows entry current.step ∧ ∀ step, next = some step →
        ¬ (Creating step ∧ Creating current.step) ∧ ¬ Destroying step ∧ ¬ Destroying current.step) :
    (r.change call epochId entry next).Ordered := by
  refine CallSpec.Holds.change h hown hgone ?_ ?_ ?_
  · intro current hcurrent
    obtain ⟨step, rfl, rfl⟩ := Option.map_eq_some_iff.mp hcurrent
    exact ⟨rfl, hleaves⟩
  · intro hclosed
    cases next with
    | none => exact hleaves
    | some step => exact Knows.covered hleaves (hclosed ⟨epochId, step⟩ rfl)
  · intro call' current' hne hcall heq
    obtain ⟨hknows, hbeside⟩ := hothers call' current' hne hcall heq
    refine ⟨hknows, fun current hcurrent => ?_⟩
    obtain ⟨step, hstep, rfl⟩ := Option.map_eq_some_iff.mp hcurrent
    obtain ⟨hcreators, hdestroying, hdestroying'⟩ := hbeside step hstep
    exact ⟨⟨hcreators, hdestroying⟩, fun hboth => hcreators hboth.symm, hdestroying'⟩

theorem Ordered.newEpoch (h : r.Ordered) {plan : Option (List (EpochItem κ))}
    (hfree : r.calls call = none) (hregistered : (r.entry epochId).registered = false)
    (hknown : (r.entry epochId).known = false)
    (hseparate : ∀ call' current, r.calls call' = some current → current.epochId = epochId →
      ¬ Destroying current.step) :
    (r.change call epochId { r.entry epochId with known := true, erased := false }
      (some (.initPrss plan))).Ordered := by
  have hnone : ∀ call' current, r.calls call' = some current → current.epochId ≠ epochId := by
    rintro call' current hcall rfl
    have hknows : Knows _ current.step := h.knows call' current hcall
    by_cases hcreating : Creating current.step
    · exact absurd (hknown.symm.trans (hknows.bare hcreating).known) Bool.false_ne_true
    · have hlive := (knows_iff_live hcreating (hseparate call' current hcall rfl)).mp hknows
      exact absurd (hregistered.symm.trans hlive.registered) Bool.false_ne_true
  have hcovered : Covered (r.entry epochId) :=
    h.settled epochId (fun call' current hcall heq => absurd heq (hnone _ _ hcall))
  have hprss := hcovered.registered.symm.trans hregistered
  have hheld : ¬ Held (r.entry epochId) := fun hheld =>
    absurd (hprss.symm.trans (hcovered.held hheld)) Bool.false_ne_true
  obtain ⟨hitems, hcached⟩ := not_or.mp hheld
  refine h.change (fun current hcall => ?_) nofun ?_ ?_
  · rw [hfree] at hcall
    cases hcall
  · exact ⟨⟨hregistered, not_not.mp hitems, not_not.mp hcached, rfl, rfl⟩, hprss⟩
  · exact fun call' current _ hcall heq => absurd heq (hnone call' current hcall)

theorem Ordered.keyGen (h : r.Ordered) {key : κ} {original : Option κ}
    (hfree : r.calls call = none) (hregistered : (r.entry epochId).registered = true)
    (hseparate : ∀ call' current, r.calls call' = some current → current.epochId = epochId →
      ¬ Destroying current.step) :
    (r.change call epochId (r.entry epochId) (some (.generate key original))).Ordered := by
  have hcreating : ∀ call' current, r.calls call' = some current → current.epochId = epochId →
      ¬ Creating current.step := by
    rintro call' current hcall rfl hcreating
    have hbare := Knows.bare (h.knows call' current hcall) hcreating
    exact absurd (hbare.registered.symm.trans hregistered) Bool.false_ne_true
  have hcovered : Covered (r.entry epochId) :=
    h.settled epochId (fun call' current hcall heq hunsettled =>
      (creating_or_destroying hunsettled).elim (hcreating call' current hcall heq)
        (hseparate call' current hcall heq))
  refine h.change (fun current hcall => ?_) (h.always epochId) ?_ ?_
  · rw [hfree] at hcall
    cases hcall
  · exact ⟨hcovered.registered.symm.trans hregistered, hregistered⟩
  · rintro call' current - hcall rfl
    refine ⟨h.knows call' current hcall, ?_⟩
    rintro step ⟨⟩
    exact ⟨fun hboth => hboth.1, id, hseparate call' current hcall rfl⟩

theorem Ordered.destroyEpoch (h : r.Ordered) (hfree : r.calls call = none)
    (hseparate : ∀ call' current, r.calls call' = some current → current.epochId ≠ epochId) :
    (r.change call epochId (r.entry epochId) (some .destroyCheck)).Ordered := by
  refine h.change (fun current hcall => ?_) (h.always epochId) ?_ ?_
  · rw [hfree] at hcall
    cases hcall
  · exact h.settled epochId (fun call' current hcall heq => absurd heq (hseparate _ _ hcall))
  · exact fun call' current _ hcall heq => absurd heq (hseparate call' current hcall)

variable [DecidableEq κ]

theorem Ordered.advance (h : r.Ordered) {current : EpochCall ε κ} {chance : Chance κ}
    (hcall : r.calls call = some current) (hharmless : Harmless chance current.step) :
    (r.change call current.epochId (current.step.run chance (r.entry current.epochId)).1
      (current.step.run chance (r.entry current.epochId)).2).Ordered := by
  have hknows : Knows _ current.step := h.knows call current hcall
  obtain ⟨hgone, hleaves⟩ := leaves_run hknows (h.always current.epochId) hharmless
  refine h.change (fun current' hcall' => ?_) hgone hleaves ?_
  · rw [hcall] at hcall'
    cases hcall'
    rfl
  · intro call' current' hne hcall' heq
    have hknows' : Knows _ current'.step := h.knows call' current' hcall'
    rw [show (callSpec ε κ).key current' = current.epochId from heq] at hknows'
    obtain ⟨hcreators, hdestroying⟩ :=
      h.beside call call' current current' hcall hcall' heq.symm hne.symm
    obtain ⟨-, hdestroying'⟩ := h.beside call' call current' current hcall' hcall heq hne
    refine ⟨hknows.stable hknows' hcreators hdestroying hdestroying', fun step hnext => ?_⟩
    obtain ⟨hcreating, hdestroys⟩ := run_next hnext
    exact ⟨fun hboth => hcreators ⟨hcreating hboth.1, hboth.2⟩, hdestroying ∘ hdestroys,
      hdestroying'⟩

theorem Ordered.read (h : r.Ordered) (key : κ) (fate : Fate) :
    Ordered { r with
      entry := Function.update r.entry epochId (EpochRegistry.read key fate (r.entry epochId)) } :=
  CallSpec.Holds.update h (ErasedGone.read (h.always epochId) key fate)
    (fun _ hknows => Knows.read hknows key fate) (fun hcovered => Covered.read hcovered key fate)

theorem Ordered.step (h : r.Ordered) {event : EpochEvent ε κ} (hseparate : r.Separate event) :
    (r.step event).Ordered := by
  cases event with
  | newEpoch call epochId plan =>
    simp only [EpochRegistry.step]
    split_ifs with hrefused
    · exact h
    · obtain ⟨hfree, hregistered, hknown⟩ := not_or.mp hrefused |>.imp_right not_or.mp
      exact h.newEpoch (Option.not_isSome_iff_eq_none.mp hfree) (Bool.not_eq_true _ ▸ hregistered)
        (Bool.not_eq_true _ ▸ hknown) hseparate
  | keyGen call epochId key original =>
    simp only [EpochRegistry.step]
    split_ifs with hrefused
    · exact h
    · obtain ⟨hfree, hregistered⟩ := not_or.mp hrefused
      exact h.keyGen (Option.not_isSome_iff_eq_none.mp hfree) (not_not.mp hregistered) hseparate
  | destroyEpoch call epochId =>
    simp only [EpochRegistry.step]
    split_ifs with hbusy
    · exact h
    · exact h.destroyEpoch (Option.not_isSome_iff_eq_none.mp hbusy) hseparate
  | advance call chance =>
    simp only [EpochRegistry.step]
    cases hcall : r.calls call with
    | none => exact h
    | some current => exact h.advance hcall (hseparate current hcall)
  | readKey epochId key fate => exact h.read key fate
  | restart => exact h.restart

/-- If destructions do not overlap with other calls of their epoch and the accesses that matter do not
fail, then no share is orphaned and nothing is left of a destroyed epoch. -/
theorem along_accounted (r : EpochRegistry ε κ) (hcalls : ∀ call, r.calls call = none)
    (hcovered : ∀ epochId, Covered (r.entry epochId))
    (herased : ∀ epochId, (r.entry epochId).erased = false) (events : List (EpochEvent ε κ))
    (hseparate : Along step Separate r events) :
    Along step (fun r event => (r.step event).Accounted) r events := by
  have hordered : r.Ordered := by
    refine CallSpec.Holds.of_idle hcalls (fun epochId hgone => ?_) hcovered
    rw [herased] at hgone
    cases hgone
  refine Along.of_invariant ?_ ?_ hordered hseparate
  · exact fun r event h hseparate => h.step hseparate
  · exact fun r event h hseparate => (h.step hseparate).accounted

section Example

/-- Every access succeeds, and the first of the concurrent writes goes on. -/
def smooth : Chance ℕ := ⟨.succeeds, 0, ∅, false⟩

theorem harmless_smooth (step : EpochStep ℕ) : Harmless smooth step := by
  cases step <;> first | exact trivial | exact rfl | exact nofun

def emptyRegistry : EpochRegistry ℕ ℕ := ⟨fun _ => ⟨false, false, ∅, ∅, false, false⟩, fun _ => none⟩

/-- Key 7 is stored under epoch 5. -/
def keyRegistry : EpochRegistry ℕ ℕ where
  entry epochId :=
    if epochId = 5 then ⟨true, true, {.key 7}, ∅, false, false⟩ else ⟨false, false, ∅, ∅, false, false⟩
  calls _ := none

/-- Key 7 is reshared into epoch 6 while epoch 5 is destroyed. -/
def resharing : List (EpochEvent ℕ ℕ) :=
  .newEpoch 1 6 (some [.key 7]) :: .destroyEpoch 2 5 ::
    (List.replicate 10 [1, 2]).flatten.map (.advance · smooth)

theorem along_accounted_resharing :
    Along step (fun r event => (r.step event).Accounted) keyRegistry resharing := by
  have hadvance : ∀ (calls : List ℕ) (r : EpochRegistry ℕ ℕ),
      Along step Separate r (calls.map (.advance · smooth)) := by
    intro calls
    induction calls with
    | nil => exact fun _ => trivial
    | cons call calls ih => exact fun r => ⟨fun current _ => harmless_smooth current.step, ih _⟩
  have hentry : ∀ epochId, Covered (keyRegistry.entry epochId) ∧
      (keyRegistry.entry epochId).erased = false := by
    intro epochId
    unfold keyRegistry
    dsimp only
    split_ifs
    · exact ⟨⟨fun _ => rfl, rfl⟩, rfl⟩
    · exact ⟨⟨fun hheld => (hheld.elim (absurd rfl) (absurd rfl)), rfl⟩, rfl⟩
  have hdestroy : (keyRegistry.step (.newEpoch 1 6 (some [.key 7]))).Separate (.destroyEpoch 2 5) := by
    intro call current hcall
    rcases eq_or_ne call 1 with rfl | hne
    · cases hcall
      decide
    · exact absurd ((Function.update_of_ne hne _ _).symm.trans hcall) nofun
  exact along_accounted keyRegistry (fun _ => rfl) (fun epochId => (hentry epochId).1)
    (fun epochId => (hentry epochId).2) resharing ⟨nofun, hdestroy, hadvance _ _⟩

/-- Epoch 5 is destroyed after its creation has registered it and before the reshared key is stored. -/
def orphanedKey : List (EpochEvent ℕ ℕ) :=
  .newEpoch 1 5 (some [.key 7]) :: List.replicate 6 (.advance 1 smooth) ++
    .destroyEpoch 2 5 :: List.replicate 4 (.advance 2 smooth) ++
      List.replicate 4 (.advance 1 smooth)

theorem not_accounted_orphanedKey :
    ¬ Along step (fun r event => (r.step event).Accounted) emptyRegistry orphanedKey := by
  intro h
  have hwritten := h.2.2.2.2.2.2.2.2.2.2.2.2.2.1
  have hheld := (hwritten.erased 5 rfl).2
  exact hheld (Or.inl (Finset.insert_ne_empty _ _))

end Example

end ThresholdKms.EpochRegistry
