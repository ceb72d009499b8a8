import ThresholdKms.EpochRegistry

/-!
# What the calls of an epoch know

Before each of its steps a call knows something of the entry of its epoch: a creation that the epoch
is bare, a resharing or a key generation that the setup is stored and registered, and a destruction
what it has deleted so far. Steps of resharings and key generations leave the setup as it is, and
none of these facts is disturbed by the steps of calls that may run at the same time.
-/

namespace ThresholdKms.EpochRegistry

variable {κ : Type}

def Creating : EpochStep κ → Prop
  | .initPrss _ => True
  | .checkPrss _ => True
  | .writePrss _ => True
  | .purgePrss => True
  | .backupPrss _ => True
  | .registerEpoch _ => True
  | _ => False

/-- The steps before which the registry and the storage may differ. -/
def Unsettled : EpochStep κ → Prop
  | .purgePrss => True
  | .backupPrss _ => True
  | .registerEpoch _ => True
  | .unregister => True
  | .purgeCache destroyed => destroyed = true
  | _ => False

structure Live (entry : EpochEntry κ) : Prop where
  prss : entry.prss = true
  registered : entry.registered = true

/-- An epoch that is being created and not registered yet. -/
structure Bare (entry : EpochEntry κ) : Prop where
  registered : entry.registered = false
  items : entry.items = ∅
  cached : entry.cached = ∅
  known : entry.known = true
  erased : entry.erased = false

variable (entry : EpochEntry κ)

def Knows : EpochStep κ → Prop
  | .initPrss _ => Bare entry ∧ entry.prss = false
  | .checkPrss _ => Bare entry ∧ entry.prss = false
  | .writePrss _ => Bare entry ∧ entry.prss = false
  | .purgePrss => Bare entry
  | .backupPrss _ => Bare entry ∧ entry.prss = true
  | .registerEpoch _ => Bare entry ∧ entry.prss = true
  | .destroyCheck => Covered entry
  | .unregister => entry.prss = false ∧ entry.items = ∅
  | .purgeCache true => entry.prss = false ∧ entry.registered = false ∧ entry.items = ∅
  | .purgeCache false => Covered entry
  | _ => Live entry

def ErasedGone : Prop :=
  entry.erased = true → entry.prss = false ∧ entry.items = ∅ ∧ entry.cached = ∅

/-- What holds after a step: the call goes on with what it has to know, or leaves a covered entry. -/
def Leaves : Option (EpochStep κ) → Prop
  | some next => Knows entry next
  | none => Covered entry

/-- What every step establishes. -/
structure Sound (result : EpochEntry κ × Option (EpochStep κ)) : Prop where
  gone : ErasedGone result.1
  leaves : Leaves result.1 result.2

section Entries

variable {entry} {step step' : EpochStep κ}

theorem Live.covered (h : Live entry) : Covered entry :=
  ⟨fun _ => h.prss, h.registered.trans h.prss.symm⟩

theorem Bare.covered (h : Bare entry) (hprss : entry.prss = false) : Covered entry := by
  refine ⟨?_, h.registered.trans hprss.symm⟩
  rintro (hitems | hcached)
  · exact absurd h.items hitems
  · exact absurd h.cached hcached

theorem knows_iff_live (hcreating : ¬ Creating step) (hdestroying : ¬ Destroying step) :
    Knows entry step ↔ Live entry := by
  cases step <;> first | exact Iff.rfl | exact absurd trivial hcreating | exact absurd trivial hdestroying

theorem Knows.bare (h : Knows entry step) (hcreating : Creating step) : Bare entry := by
  cases step <;> first | exact h.1 | exact h | exact hcreating.elim

theorem Knows.covered (h : Knows entry step) (hsettled : ¬ Unsettled step) : Covered entry := by
  by_cases hcreating : Creating step
  · cases step <;>
      first | exact h.1.covered h.2 | exact absurd trivial hsettled | exact hcreating.elim
  · by_cases hdestroying : Destroying step
    · cases step with
      | destroyCheck => exact h
      | destroyData => exact Live.covered h
      | unregister => exact absurd trivial hsettled
      | purgeCache destroyed =>
        cases destroyed with
        | true => exact absurd rfl hsettled
        | false => exact h
      | _ => exact hdestroying.elim
    · exact ((knows_iff_live hcreating hdestroying).mp h).covered

theorem Knows.items_eq (h : Knows entry step) (hunsettled : Unsettled step) : entry.items = ∅ := by
  cases step with
  | purgePrss => exact h.items
  | backupPrss plan => exact h.1.items
  | registerEpoch plan => exact h.1.items
  | unregister => exact h.2
  | purgeCache destroyed =>
    obtain rfl : destroyed = true := hunsettled
    exact h.2.2
  | _ => exact hunsettled.elim

theorem creating_or_destroying (h : Unsettled step) : Creating step ∨ Destroying step := by
  cases step <;> first | exact Or.inl trivial | exact Or.inr trivial | exact h.elim

theorem erasedGone_of_eq_false (h : entry.erased = false) : ErasedGone entry :=
  fun herased => absurd (h.symm.trans herased) Bool.false_ne_true

theorem Live.erasedGone (h : Live entry) (hgone : ErasedGone entry) : entry.erased = false := by
  by_contra herased
  have := (hgone (Bool.not_eq_false _ ▸ herased)).1
  rw [h.prss] at this
  cases this

end Entries

section Steps

variable [DecidableEq κ] {entry} {step step' next : EpochStep κ} {chance : Chance κ}

/-- The setup, its registration and the record of a destruction are as before. -/
structure Untouched (entry entry' : EpochEntry κ) : Prop where
  prss : entry'.prss = entry.prss
  registered : entry'.registered = entry.registered
  erased : entry'.erased = entry.erased

omit [DecidableEq κ] in
theorem Live.untouched (h : Live entry) {entry' : EpochEntry κ} (huntouched : Untouched entry entry') :
    Live entry' :=
  ⟨huntouched.prss.trans h.prss, huntouched.registered.trans h.registered⟩

theorem untouched_writer (generated : Bool) (item : EpochItem κ) (fate : Fate) (entry : EpochEntry κ)
    (step : WriterStep) : Untouched entry (step.run generated item fate entry).1 := by
  cases step <;> simp only [WriterStep.run] <;> (try split_ifs) <;> exact ⟨rfl, rfl, rfl⟩

theorem untouched_runStore (items : List (EpochItem κ)) (writers : List (EpochItem κ × WriterStep))
    (failed : Bool) : Untouched entry (EpochStep.runStore chance entry items writers failed).1 := by
  rw [EpochStep.runStore]
  split
  · exact untouched_writer false _ chance.fate entry _
  · exact ⟨rfl, rfl, rfl⟩

theorem untouched_run (hcreating : ¬ Creating step) (hdestroying : ¬ Destroying step) :
    Untouched entry (step.run chance entry).1 := by
  cases step with
  | reshare items | uncache id items | generate key original | cacheCopy original =>
    exact ⟨rfl, rfl, rfl⟩
  | store items writers failed => exact untouched_runStore items writers failed
  | rollback items =>
    cases items with
    | nil => exact ⟨rfl, rfl, rfl⟩
    | cons item items =>
      simp only [EpochStep.run]
      split_ifs <;> exact ⟨rfl, rfl, rfl⟩
  | writeKey key original step => exact untouched_writer true (.key key) chance.fate entry step
  | copyKey original =>
    simp only [EpochStep.run]
    split_ifs
    · cases chance.fate <;> exact ⟨rfl, rfl, rfl⟩
    · exact ⟨rfl, rfl, rfl⟩
  | destroyCheck | destroyData | unregister | purgeCache destroyed =>
    exact absurd trivial hdestroying
  | _ => exact absurd trivial hcreating

/-- A call past the registration does not go back, and does not turn into a destruction. -/
theorem run_next (hnext : (step.run chance entry).2 = some next) :
    (Creating next → Creating step) ∧ (Destroying next → Destroying step) := by
  cases step with
  | initPrss plan | checkPrss plan | backupPrss plan =>
    simp only [EpochStep.run] at hnext
    split_ifs at hnext
    cases hnext
    exact ⟨fun _ => trivial, False.elim⟩
  | writePrss plan =>
    simp only [EpochStep.run] at hnext
    split_ifs at hnext <;> cases hnext <;> exact ⟨fun _ => trivial, False.elim⟩
  | purgePrss | cacheCopy original | purgeCache destroyed => cases hnext
  | registerEpoch plan =>
    obtain ⟨items, -, rfl⟩ := Option.map_eq_some_iff.mp hnext
    exact ⟨False.elim, False.elim⟩
  | reshare items =>
    simp only [EpochStep.run] at hnext
    split_ifs at hnext
    cases hnext
    exact ⟨False.elim, False.elim⟩
  | store items writers failed =>
    simp only [EpochStep.run, EpochStep.runStore] at hnext
    split at hnext
    · split at hnext <;> cases hnext <;> exact ⟨False.elim, False.elim⟩
    · split_ifs at hnext <;> cases hnext <;> exact ⟨False.elim, False.elim⟩
  | rollback items =>
    cases items with
    | nil => cases hnext
    | cons item items => cases item <;> cases hnext <;> exact ⟨False.elim, False.elim⟩
  | uncache id items =>
    cases hnext
    exact ⟨False.elim, False.elim⟩
  | generate key original =>
    simp only [EpochStep.run] at hnext
    split at hnext <;> cases hnext <;> exact ⟨False.elim, False.elim⟩
  | writeKey key original step =>
    simp only [EpochStep.run] at hnext
    split at hnext
    · cases hnext
      exact ⟨False.elim, False.elim⟩
    · split_ifs at hnext
      obtain ⟨key', -, rfl⟩ := Option.map_eq_some_iff.mp hnext
      exact ⟨False.elim, False.elim⟩
  | copyKey original =>
    simp only [EpochStep.run] at hnext
    split_ifs at hnext
    split at hnext <;> cases hnext
    exact ⟨False.elim, False.elim⟩
  | destroyCheck | destroyData =>
    simp only [EpochStep.run, EpochStep.runDestroyData] at hnext
    split_ifs at hnext <;> cases hnext <;> exact ⟨False.elim, fun _ => trivial⟩
  | unregister =>
    cases hnext
    exact ⟨False.elim, fun _ => trivial⟩

theorem leaves_run_creating (hcreating : Creating step) (hknows : Knows entry step)
    (hharmless : Harmless chance step) :
    Sound (step.run chance entry) := by
  have hbare := hknows.bare hcreating
  have hgone : ∀ entry' : EpochEntry κ, entry'.erased = entry.erased → ErasedGone entry' :=
    fun _ heq => erasedGone_of_eq_false (heq.trans hbare.erased)
  cases step with
  | initPrss plan | checkPrss plan =>
    refine ⟨hgone _ rfl, ?_⟩
    simp only [EpochStep.run]
    split_ifs
    · exact hbare.covered hknows.2
    · exact hknows
  | writePrss plan =>
    have hstored : Bare { entry with prss := true } :=
      ⟨hbare.registered, hbare.items, hbare.cached, hbare.known, hbare.erased⟩
    simp only [EpochStep.run]
    cases chance.fate with
    | succeeds => exact ⟨hgone _ rfl, hstored, rfl⟩
    | fails => exact ⟨hgone _ rfl, hbare⟩
    | failsAfterwards => exact ⟨hgone _ rfl, hstored⟩
  | purgePrss =>
    simp only [EpochStep.run, if_neg hharmless]
    have hpurged : Bare { entry with prss := false } :=
      ⟨hbare.registered, hbare.items, hbare.cached, hbare.known, hbare.erased⟩
    exact ⟨hgone _ rfl, hpurged.covered rfl⟩
  | backupPrss plan =>
    have hsucceeds : chance.fate = .succeeds := hharmless
    refine ⟨hgone _ rfl, ?_⟩
    simp only [EpochStep.run, if_pos hsucceeds]
    exact hknows
  | registerEpoch plan =>
    have hlive : Live { entry with registered := true } := ⟨hknows.2, rfl⟩
    refine ⟨hgone _ rfl, ?_⟩
    cases plan with
    | none => exact hlive.covered
    | some items => exact hlive
  | _ => exact hcreating.elim

theorem leaves_run_working (hcreating : ¬ Creating step) (hdestroying : ¬ Destroying step)
    (hknows : Knows entry step) (hgone : ErasedGone entry) :
    Sound (step.run chance entry) := by
  have huntouched : Untouched entry (step.run chance entry).1 := untouched_run hcreating hdestroying
  have hlive := (knows_iff_live hcreating hdestroying).mp hknows
  refine ⟨erasedGone_of_eq_false (huntouched.erased.trans (hlive.erasedGone hgone)), ?_⟩
  cases hnext : (step.run chance entry).2 with
  | none => exact (hlive.untouched huntouched).covered
  | some next =>
    obtain ⟨hcreating', hdestroying'⟩ := run_next hnext
    exact (knows_iff_live (hcreating ∘ hcreating') (hdestroying ∘ hdestroying')).mpr
      (hlive.untouched huntouched)

theorem leaves_runDestroyData (hlive : Live entry) (hgone : ErasedGone entry)
    (hharmless : chance.fate ≠ .failsAfterwards) :
    Sound (EpochStep.runDestroyData chance entry) := by
  have hnot : ∀ entry' : EpochEntry κ, entry'.erased = entry.erased → ErasedGone entry' :=
    fun _ heq => erasedGone_of_eq_false (heq.trans (hlive.erasedGone hgone))
  simp only [EpochStep.runDestroyData]
  split_ifs with hkept hsucceeds
  · exact ⟨hnot _ rfl, Live.covered ⟨hlive.prss, hlive.registered⟩⟩
  · refine ⟨hnot _ rfl, ?_, not_not.mp (not_or.mp hkept).2⟩
    rw [hsucceeds]
    exact Bool.and_false _
  · have hfails : chance.fate = .fails := by
      cases hfate : chance.fate with
      | succeeds => exact absurd hfate hsucceeds
      | fails => rfl
      | failsAfterwards => exact absurd hfate hharmless
    refine ⟨hnot _ rfl, Live.covered ⟨?_, hlive.registered⟩⟩
    rw [hfails]
    exact (Bool.and_true _).trans hlive.prss

theorem leaves_run_destroying (hdestroying : Destroying step) (hknows : Knows entry step)
    (hgone : ErasedGone entry) (hharmless : Harmless chance step) :
    Sound (step.run chance entry) := by
  cases step with
  | destroyCheck =>
    have hcovered : Covered entry := hknows
    refine ⟨hgone, ?_⟩
    simp only [EpochStep.run]
    split_ifs with hregistered
    · exact ⟨hcovered.registered.symm.trans hregistered, hregistered⟩
    · exact hcovered
  | destroyData => exact leaves_runDestroyData hknows hgone hharmless
  | unregister => exact ⟨hgone, hknows.1, rfl, hknows.2⟩
  | purgeCache destroyed =>
    cases destroyed with
    | true =>
      refine ⟨fun _ => ⟨hknows.1, hknows.2.2, rfl⟩, ?_, hknows.2.1.trans hknows.1.symm⟩
      rintro (hitems | hcached)
      · exact absurd hknows.2.2 hitems
      · exact absurd rfl hcached
    | false =>
      have hcovered : Covered entry := hknows
      refine ⟨fun herased => ?_, ?_, hcovered.registered⟩
      · obtain ⟨hprss, hitems, -⟩ := hgone ((Bool.or_false _).symm.trans herased)
        exact ⟨hprss, hitems, rfl⟩
      · rintro (hitems | hcached)
        · exact hcovered.held (Or.inl hitems)
        · exact absurd rfl hcached
  | _ => exact hdestroying.elim

theorem leaves_run (hknows : Knows entry step) (hgone : ErasedGone entry)
    (hharmless : Harmless chance step) :
    Sound (step.run chance entry) := by
  by_cases hcreating : Creating step
  · exact leaves_run_creating hcreating hknows hharmless
  · by_cases hdestroying : Destroying step
    · exact leaves_run_destroying hdestroying hknows hgone hharmless
    · exact leaves_run_working hcreating hdestroying hknows hgone

/-- What a call knows is not changed by a step of another call of the epoch. -/
theorem Knows.stable (hknows : Knows entry step) (hknows' : Knows entry step')
    (hcreators : ¬ (Creating step ∧ Creating step')) (hdestroying : ¬ Destroying step)
    (hdestroying' : ¬ Destroying step') : Knows (step.run chance entry).1 step' := by
  by_cases hcreating : Creating step
  · have hbare := hknows.bare hcreating
    have hlive := (knows_iff_live (fun h => hcreators ⟨hcreating, h⟩) hdestroying').mp hknows'
    exact absurd (hbare.registered.symm.trans hlive.registered) Bool.false_ne_true
  · have hlive := (knows_iff_live hcreating hdestroying).mp hknows
    have hcreating' : ¬ Creating step' := fun h =>
      absurd ((hknows'.bare h).registered.symm.trans hlive.registered) Bool.false_ne_true
    exact (knows_iff_live hcreating' hdestroying').mpr
      (hlive.untouched (untouched_run hcreating hdestroying))

theorem read_eq_or (key : κ) (fate : Fate) (entry : EpochEntry κ) :
    read key fate entry = entry ∨
      entry.items ≠ ∅ ∧ read key fate entry = { entry with cached := insert key entry.cached } := by
  rw [read]
  split_ifs with h
  · exact Or.inr ⟨Finset.ne_empty_of_mem h.2, rfl⟩
  · exact Or.inl rfl

theorem Covered.read (h : Covered entry) (key : κ) (fate : Fate) :
    Covered (EpochRegistry.read key fate entry) := by
  rcases read_eq_or key fate entry with heq | ⟨hitems, heq⟩
  · rwa [heq]
  · rw [heq]
    exact ⟨fun _ => h.held (Or.inl hitems), h.registered⟩

theorem Knows.read (h : Knows entry step) (key : κ) (fate : Fate) :
    Knows (EpochRegistry.read key fate entry) step := by
  rcases read_eq_or key fate entry with heq | ⟨hitems, heq⟩
  · rwa [heq]
  · have hsettled : ¬ Unsettled step := fun hunsettled => hitems (h.items_eq hunsettled)
    have hcreating : ¬ Creating step := fun hcreating => hitems (h.bare hcreating).items
    rw [heq]
    by_cases hdestroying : Destroying step
    · cases step with
      | destroyCheck => exact ⟨fun _ => h.held (Or.inl hitems), h.registered⟩
      | destroyData => exact ⟨h.prss, h.registered⟩
      | unregister => exact absurd trivial hsettled
      | purgeCache destroyed =>
        cases destroyed with
        | true => exact absurd rfl hsettled
        | false => exact ⟨fun _ => h.held (Or.inl hitems), h.registered⟩
      | _ => exact hdestroying.elim
    · have hlive := (knows_iff_live hcreating hdestroying).mp h
      exact (knows_iff_live hcreating hdestroying).mpr ⟨hlive.prss, hlive.registered⟩

theorem ErasedGone.read (h : ErasedGone entry) (key : κ) (fate : Fate) :
    ErasedGone (EpochRegistry.read key fate entry) := by
  rcases read_eq_or key fate entry with heq | ⟨hitems, heq⟩
  · rwa [heq]
  · rw [heq]
    exact fun herased => absurd (h herased).2.1 hitems

end Steps

end ThresholdKms.EpochRegistry
