import ThresholdKms.ContextRegistry
import ThresholdKms.KeyedCalls

/-!
# Runs of context calls

As long as the calls for one context do not overlap, each call finds the entry of its context as the
last one left it. What it knows of the entry at each of its steps carries the agreement of memory and
storage over the call, and calls for other contexts do not touch the entry.
-/

namespace ThresholdKms.ContextRegistry

variable {χ κ : Type}

def Keeps (kind : ManagerKind) (kept : Option κ) (entry : ContextEntry κ) : Prop :=
  ∀ info, kept = some info → RegisteredAs kind info entry

theorem keeps_none (kind : ManagerKind) (entry : ContextEntry κ) : Keeps kind none entry := nofun

/-- What a call knows of the entry of its context before each step. -/
def Knows (kind : ManagerKind) (entry : ContextEntry κ) (kept : Option κ) : ContextStep κ → Prop
  | .readStored _ => Agrees kind entry
  | .readRegistry _ => kind = .threshold ∧ Agrees kind entry
  | .checkDuplicate _ => Agrees kind entry ∧ (kind = .threshold → entry.registered = none)
  | .write _ => entry = ⟨none, none⟩
  | .purge _ => kind = .threshold ∧ entry.registered = none
  | .backup info => entry = ⟨some info, none⟩
  | .register info written =>
    match kind with
    | .threshold => entry.registered = none ∧ (written = true → entry.stored = some info)
    | .centralized => entry.stored.isSome = true
  | .addToVerifier info written =>
    kind = .threshold ∧ kept = none ∧ entry.registered = some info ∧
      (written = true → entry.stored = some info)
  | .rollbackStored => kind = .threshold ∧ kept = none
  | .rollbackRegistry => kind = .threshold ∧ kept = none ∧ entry.stored = none
  | .unregister => kept = none ∧ (kind = .centralized → entry.stored = none)
  | .delete => kept = none ∧
      match kind with
      | .threshold => entry.registered = none
      | .centralized => Agrees kind entry

/-- What holds after a step: the call goes on with what it has to know, or has left an entry on which
memory and storage agree. -/
def Leaves (kind : ManagerKind) (kept : Option κ) (entry : ContextEntry κ) :
    ContextStep κ ⊕ CallResult κ → Prop
  | .inl next => Knows kind entry kept next ∧ Keeps kind kept entry
  | .inr (.created info) => Agrees kind entry ∧ RegisteredAs kind info entry
  | .inr _ => Agrees kind entry ∧ Keeps kind kept entry

variable {entry : ContextEntry κ}

theorem entry_eq_none (hstored : entry.stored = none)
    (hregistered : entry.registered = none) : entry = ⟨none, none⟩ := by
  rcases entry with ⟨stored, registered⟩
  subst hstored hregistered
  rfl

variable {kept : Option κ}

theorem kept_eq_none (hkeeps : Keeps .threshold kept entry)
    (hregistered : entry.registered = none) : kept = none := by
  cases kept with
  | none => rfl
  | some info =>
    have := hkeeps info rfl
    rw [RegisteredAs, hregistered] at this
    cases this

variable {fate : Fate}

theorem leaves_run_threshold {step : ContextStep κ} (hknows : Knows .threshold entry kept step)
    (hkeeps : Keeps .threshold kept entry) (hfate : Undisturbed .threshold step fate) :
    Leaves .threshold kept (step.run .threshold fate entry).1 (step.run .threshold fate entry).2 := by
  cases step with
  | readStored info =>
    simp only [ContextStep.run]
    split_ifs
    · exact ⟨hknows, hkeeps⟩
    · exact ⟨⟨rfl, hknows⟩, hkeeps⟩
  | readRegistry info =>
    simp only [ContextStep.run]
    split_ifs with hregistered
    · exact ⟨hknows.2, hkeeps⟩
    · exact ⟨⟨hknows.2, fun _ => Option.not_isSome_iff_eq_none.mp hregistered⟩, hkeeps⟩
  | checkDuplicate info =>
    have hnone := hknows.2 rfl
    have hagrees : entry.registered = entry.stored := hknows.1
    simp only [ContextStep.run]
    split_ifs
    · exact ⟨⟨hnone, nofun⟩, hkeeps⟩
    · exact ⟨entry_eq_none (hagrees.symm.trans hnone) hnone, hkeeps⟩
  | write info =>
    obtain rfl : entry = ⟨none, none⟩ := hknows
    obtain rfl := kept_eq_none hkeeps rfl
    cases fate with
    | succeeds => exact ⟨rfl, keeps_none _ _⟩
    | fails => exact ⟨⟨rfl, rfl⟩, keeps_none _ _⟩
    | failsAfterwards => exact ⟨⟨rfl, rfl⟩, keeps_none _ _⟩
  | purge info =>
    simp only [ContextStep.run]
    split_ifs
    · exact ⟨⟨hknows.2, nofun⟩, hkeeps⟩
    · exact ⟨⟨hknows.2, nofun⟩, hkeeps⟩
  | backup info =>
    subst hknows
    exact ⟨⟨rfl, fun _ => rfl⟩, hkeeps⟩
  | register info written =>
    have hnone := kept_eq_none hkeeps hknows.1
    subst hnone
    simp only [ContextStep.run]
    split_ifs
    · exact ⟨⟨rfl, rfl⟩, keeps_none _ _⟩
    · exact ⟨⟨rfl, rfl, rfl, hknows.2⟩, keeps_none _ _⟩
  | addToVerifier info written =>
    obtain ⟨-, rfl, hregistered, hstored⟩ := hknows
    simp only [ContextStep.run]
    split_ifs with hok
    · exact ⟨hregistered.trans (hstored hok.2).symm, hregistered⟩
    · exact ⟨⟨rfl, rfl⟩, keeps_none _ _⟩
  | rollbackStored =>
    obtain ⟨-, rfl⟩ := hknows
    simp only [ContextStep.run, if_neg hfate]
    exact ⟨⟨rfl, rfl, rfl⟩, keeps_none _ _⟩
  | rollbackRegistry =>
    obtain ⟨-, rfl, hstored⟩ := hknows
    exact ⟨hstored.symm, keeps_none _ _⟩
  | unregister =>
    obtain ⟨rfl, -⟩ := hknows
    exact ⟨⟨rfl, rfl⟩, keeps_none _ _⟩
  | delete =>
    obtain ⟨rfl, hregistered⟩ := hknows
    simp only [ContextStep.run, if_neg hfate]
    split_ifs
    · exact ⟨hregistered, keeps_none _ _⟩
    · exact ⟨hregistered, keeps_none _ _⟩

theorem leaves_run_centralized {step : ContextStep κ} (hknows : Knows .centralized entry kept step)
    (hkeeps : Keeps .centralized kept entry) (hfate : Undisturbed .centralized step fate) :
    Leaves .centralized kept (step.run .centralized fate entry).1
      (step.run .centralized fate entry).2 := by
  cases step with
  | readStored info =>
    simp only [ContextStep.run]
    split_ifs
    · exact ⟨hknows, hkeeps⟩
    · exact ⟨⟨hknows, nofun⟩, hkeeps⟩
  | readRegistry info => cases hknows.1
  | checkDuplicate info =>
    have hagrees : entry.registered.isSome = entry.stored.isSome := hknows.1
    obtain rfl : fate = .succeeds := hfate
    simp only [ContextStep.run, ne_eq, not_true, false_or]
    split_ifs with hstored
    · exact ⟨hstored, hkeeps⟩
    · have hregistered : ¬ entry.registered.isSome = true := hagrees ▸ hstored
      exact ⟨entry_eq_none (Option.not_isSome_iff_eq_none.mp hstored)
        (Option.not_isSome_iff_eq_none.mp hregistered), hkeeps⟩
  | write info =>
    obtain rfl : fate = .succeeds := hfate
    obtain rfl : entry = ⟨none, none⟩ := hknows
    exact ⟨rfl, hkeeps⟩
  | purge info => cases hknows.1
  | backup info =>
    subst hknows
    exact ⟨rfl, hkeeps⟩
  | register info written =>
    cases written with
    | true => exact ⟨hknows.symm, rfl⟩
    | false => exact ⟨hknows.symm, fun _ _ => rfl⟩
  | addToVerifier info written => cases hknows.1
  | rollbackStored => cases hknows.1
  | rollbackRegistry => cases hknows.1
  | unregister =>
    obtain ⟨rfl, hstored⟩ := hknows
    refine ⟨?_, keeps_none _ _⟩
    exact (congrArg Option.isSome (hstored rfl)).symm
  | delete =>
    obtain ⟨rfl, -⟩ := hknows
    obtain rfl : fate = .succeeds := hfate
    exact ⟨⟨rfl, fun _ => rfl⟩, keeps_none _ _⟩

variable {kind : ManagerKind}

theorem leaves_run {step : ContextStep κ} (hknows : Knows kind entry kept step)
    (hkeeps : Keeps kind kept entry) (hfate : Undisturbed kind step fate) :
    Leaves kind kept (step.run kind fate entry).1 (step.run kind fate entry).2 := by
  cases kind with
  | threshold => exact leaves_run_threshold hknows hkeeps hfate
  | centralized => exact leaves_run_centralized hknows hkeeps hfate

/-- Calls in progress are for different contexts; an entry is seen together with the content that has
to be kept. -/
def callSpec (χ : Type) (kind : ManagerKind) :
    CallSpec χ (ContextEntry κ × Option κ) (ContextCall χ κ) where
  key := ContextCall.contextId
  Knows := fun seen current => Knows kind seen.1 seen.2 current.step
  Beside := fun _ _ => False
  Always := fun seen => Keeps kind seen.2 seen.1
  Open := fun _ => True
  Settled := fun seen => Agrees kind seen.1

abbrev Ordered (kind : ManagerKind) (r : ContextRegistry χ κ) : Prop :=
  (callSpec χ kind).Holds (fun contextId => (r.entry contextId, r.kept contextId)) r.calls

variable {r : ContextRegistry χ κ} {call : ℕ} {contextId : χ}

theorem Ordered.consistent (h : r.Ordered kind) : r.Consistent kind where
  agrees := h.settled_of_idle
  keeps := fun contextId info hkept => h.always contextId info hkept

theorem Ordered.agrees (h : r.Ordered kind)
    (hother : ∀ other current, r.calls other = some current → current.contextId ≠ contextId) :
    Agrees kind (r.entry contextId) :=
  h.settled contextId (fun other current hcall heq => absurd heq (hother other current hcall))

variable [DecidableEq χ]

variable (h : r.Ordered kind)
include h

/-- One call of a context starts, goes on or returns, and changes the entry of its context only. -/
theorem Ordered.change (hother : ∀ other current, other ≠ call → r.calls other = some current →
      current.contextId ≠ contextId)
    (hown : ∀ current, r.calls call = some current → current.contextId = contextId)
    {value : Option (ContextCall χ κ)} {kept : χ → Option κ}
    (hvalue : ∀ current, value = some current → current.contextId = contextId ∧
      Knows kind entry (kept contextId) current.step) (hnone : value = none → Agrees kind entry)
    (hkept : ∀ contextId', contextId' ≠ contextId → kept contextId' = r.kept contextId')
    (hkeeps : Keeps kind (kept contextId) entry) :
    Ordered kind ⟨Function.update r.entry contextId entry, Function.update r.calls call value,
      kept⟩ := by
  have hseen : (fun contextId' => (Function.update r.entry contextId entry contextId',
      kept contextId')) = Function.update (fun contextId' => (r.entry contextId', r.kept contextId'))
        contextId (entry, kept contextId) := by
    funext contextId'
    by_cases heq : contextId' = contextId
    · rw [heq, Function.update_self, Function.update_self]
    · rw [Function.update_of_ne heq, Function.update_of_ne heq, hkept contextId' heq]
  rw [Ordered, hseen]
  refine CallSpec.Holds.change h hown hkeeps hvalue (fun hclosed => ?_) ?_
  · exact hnone (Option.eq_none_iff_forall_ne_some.mpr
      (fun current hcurrent => hclosed current hcurrent trivial))
  · exact fun other current hne hcall heq => absurd heq (hother other current hne hcall)

/-- A call for a context without another one starts with an entry that agrees. -/
theorem Ordered.start (hfree : r.calls call = none)
    (hother : ∀ other current, r.calls other = some current → current.contextId ≠ contextId)
    {step : ContextStep κ} {kept : χ → Option κ}
    (hkept : ∀ contextId', contextId' ≠ contextId → kept contextId' = r.kept contextId')
    (hkeeps : Keeps kind (kept contextId) (r.entry contextId))
    (hknows : Knows kind (r.entry contextId) (kept contextId) step) :
    Ordered kind ⟨r.entry, Function.update r.calls call (some ⟨contextId, step⟩), kept⟩ := by
  have hvalue : ∀ current, some (⟨contextId, step⟩ : ContextCall χ κ) = some current →
      current.contextId = contextId ∧ Knows kind (r.entry contextId) (kept contextId) current.step := by
    rintro current ⟨⟩
    exact ⟨rfl, hknows⟩
  have hchange := h.change (fun other current _ => hother other current)
    (fun current hcall => by rw [hfree] at hcall; cases hcall) hvalue nofun hkept hkeeps
  rwa [Function.update_eq_self] at hchange

theorem Ordered.advance {current : ContextCall χ κ} (hcall : r.calls call = some current)
    {result : ContextStep κ ⊕ CallResult κ}
    (hleaves : Leaves kind (r.kept current.contextId) entry result) :
    Ordered kind ({ r with entry := Function.update r.entry current.contextId entry }.finish call
      current.contextId result) := by
  have hother : ∀ other current', other ≠ call → r.calls other = some current' →
      current'.contextId ≠ current.contextId :=
    fun other current' hne hcall' heq => h.beside other call current' current hcall' hcall heq hne
  have hown : ∀ current', r.calls call = some current' →
      current'.contextId = current.contextId := by
    intro current' hcall'
    rw [hcall] at hcall'
    cases hcall'
    rfl
  rcases result with next | info | - | -
  · refine h.change hother hown ?_ nofun (fun _ _ => rfl) hleaves.2
    rintro current' ⟨⟩
    exact ⟨rfl, hleaves.1⟩
  · refine h.change hother hown nofun (fun _ => hleaves.1)
      (fun _ hne => Function.update_of_ne hne _ _) ?_
    rw [Function.update_self]
    rintro info' ⟨⟩
    exact hleaves.2
  · exact h.change hother hown nofun (fun _ => hleaves.1) (fun _ _ => rfl) hleaves.2
  · exact h.change hother hown nofun (fun _ => hleaves.1) (fun _ _ => rfl) hleaves.2

theorem Ordered.step {event : ContextEvent χ κ} (horderly : r.Orderly kind event) :
    (r.step kind event).Ordered kind := by
  cases event with
  | newContext call contextId info =>
    rw [ContextRegistry.step]
    split_ifs with hfree
    · exact h.start hfree horderly (fun _ _ => rfl) (h.always contextId) (h.agrees horderly)
    · exact h
  | destroyContext call contextId =>
    rw [ContextRegistry.step]
    split_ifs with hfree
    · refine h.start hfree horderly (fun _ hne => Function.update_of_ne hne _ _) ?_ ?_
      · rw [Function.update_self]
        exact keeps_none _ _
      · rw [Function.update_self]
        cases kind with
        | threshold => exact ⟨rfl, nofun⟩
        | centralized => exact ⟨rfl, h.agrees horderly⟩
    · exact h
  | advance call fate =>
    rw [ContextRegistry.step]
    cases hcall : r.calls call with
    | none => exact h
    | some current =>
      exact h.advance hcall (leaves_run (h.knows call current hcall)
        (h.always current.contextId) (horderly current hcall))

omit h

/-- If calls for one context do not overlap and the accesses that matter do not fail, then memory and
storage agree whenever no call is in progress, and a context stays until its destruction starts. -/
theorem along_consistent (kind : ManagerKind) (r : ContextRegistry χ κ)
    (hcalls : ∀ call, r.calls call = none) (hkept : ∀ contextId, r.kept contextId = none)
    (hagrees : ∀ contextId, Agrees kind (r.entry contextId)) (events : List (ContextEvent χ κ))
    (horderly : Along (step kind) (Orderly kind) r events) :
    Along (step kind) (fun r event => (r.step kind event).Consistent kind) r events := by
  have hordered : r.Ordered kind := by
    refine CallSpec.Holds.of_idle hcalls (fun contextId => ?_) hagrees
    rw [hkept]
    exact keeps_none _ _
  refine Along.of_invariant ?_ ?_ hordered horderly
  · exact fun r event h horderly => h.step horderly
  · exact fun r event h horderly => (h.step horderly).consistent

omit [DecidableEq χ] in
theorem orderly_succeeds {r : ContextRegistry χ κ} {call : ℕ} :
    Orderly kind r (.advance call .succeeds) := by
  intro current _
  cases kind <;> cases current.step <;> first | exact trivial | exact rfl | exact nofun

/-- Context 6 is created while context 5, which is there, is destroyed. -/
def oneOfEach : List (ContextEvent ℕ ℕ) :=
  .newContext 1 6 20 :: .destroyContext 2 5 ::
    (List.replicate 7 [1, 2]).flatten.map (.advance · .succeeds)

theorem along_consistent_oneOfEach :
    Along (step .threshold) (fun r event => (r.step .threshold event).Consistent .threshold)
      (⟨fun contextId => if contextId = 5 then ⟨some 10, some 10⟩ else ⟨none, none⟩, fun _ => none,
        fun _ => none⟩ : ContextRegistry ℕ ℕ) oneOfEach := by
  have hadvance : ∀ (calls : List ℕ) (r : ContextRegistry ℕ ℕ),
      Along (step .threshold) (Orderly .threshold) r (calls.map (.advance · .succeeds)) := by
    intro calls
    induction calls with
    | nil => exact fun _ => trivial
    | cons call calls ih => exact fun r => ⟨orderly_succeeds, ih _⟩
  refine along_consistent .threshold _ (fun _ => rfl) (fun _ => rfl) (fun contextId => ?_) oneOfEach
    ⟨nofun, fun other current hcall => ?_, hadvance _ _⟩
  · dsimp only
    split_ifs <;> rfl
  · rcases eq_or_ne other 1 with rfl | hne
    · cases hcall
      decide
    · exact absurd ((Function.update_of_ne hne _ _).symm.trans hcall) nofun

/-- Two creations of context 5 pass the check for duplicates before either has written; the content of
the first is stored and that of the second is registered. -/
def racingCreations : List (ContextEvent ℕ ℕ) :=
  [.newContext 1 5 10, .newContext 2 5 20,
    .advance 1 .succeeds, .advance 1 .succeeds, .advance 1 .succeeds,
    .advance 2 .succeeds, .advance 2 .succeeds, .advance 2 .succeeds,
    .advance 1 .succeeds, .advance 1 .succeeds, .advance 1 .succeeds, .advance 1 .succeeds,
    .advance 2 .succeeds, .advance 2 .succeeds, .advance 2 .succeeds, .advance 2 .succeeds]

theorem not_consistent_racingCreations :
    ¬ Along (step .threshold) (fun r event => (r.step .threshold event).Consistent .threshold)
      (⟨fun _ => ⟨none, none⟩, fun _ => none, fun _ => none⟩ : ContextRegistry ℕ ℕ)
      racingCreations := by
  intro h
  have hsecond := h.2.2.2.2.2.2.2.2.2.2.2.2.2.2.1
  have hregistered : some 20 = some 10 := hsecond.keeps 5 10 rfl
  cases hregistered

end ThresholdKms.ContextRegistry
