import Mathlib.Logic.Function.Basic

/-!
# Concurrent calls on entries with keys

Calls in progress work step by step on a family of entries, each call on the entry of its own key. A
`CallSpec` says what a call knows of its entry, which calls may be in progress for the same key, what
holds of every entry, and what holds of an entry that no open call works on. When one call starts,
goes on or returns, only the calls for its key have to be looked at.
-/

structure CallSpec (ι E C : Type*) where
  key : C → ι
  Knows : E → C → Prop
  Beside : C → C → Prop
  Always : E → Prop
  Open : C → Prop
  Settled : E → Prop

namespace CallSpec

variable {ι E C ν : Type*} {spec : CallSpec ι E C} {entry : ι → E} {calls : ν → Option C}

structure Holds (spec : CallSpec ι E C) (entry : ι → E) (calls : ν → Option C) : Prop where
  knows : ∀ call c, calls call = some c → spec.Knows (entry (spec.key c)) c
  beside : ∀ call call' c c', calls call = some c → calls call' = some c' →
    spec.key c = spec.key c' → call ≠ call' → spec.Beside c c'
  always : ∀ i, spec.Always (entry i)
  settled : ∀ i, (∀ call c, calls call = some c → spec.key c = i → ¬ spec.Open c) →
    spec.Settled (entry i)

theorem Holds.of_idle (hcalls : ∀ call, calls call = none) (halways : ∀ i, spec.Always (entry i))
    (hsettled : ∀ i, spec.Settled (entry i)) : spec.Holds entry calls := by
  have hnone : ∀ call c, calls call ≠ some c := by
    intro call c hcall
    rw [hcalls] at hcall
    cases hcall
  refine ⟨?_, ?_, halways, fun i _ => hsettled i⟩
  · exact fun call c hcall => absurd hcall (hnone call c)
  · exact fun call _ c _ hcall => absurd hcall (hnone call c)

theorem Holds.settled_of_idle (h : spec.Holds entry calls) (hcalls : ∀ call, calls call = none)
    (i : ι) : spec.Settled (entry i) := by
  refine h.settled i (fun call c hcall => ?_)
  rw [hcalls] at hcall
  cases hcall

variable [DecidableEq ι]

/-- An entry changes in a way that no call in progress notices. -/
theorem Holds.update (h : spec.Holds entry calls) {i : ι} {e : E} (halways : spec.Always e)
    (hknows : ∀ c, spec.Knows (entry i) c → spec.Knows e c)
    (hsettled : spec.Settled (entry i) → spec.Settled e) :
    spec.Holds (Function.update entry i e) calls := by
  refine ⟨?_, h.beside, ?_, ?_⟩
  · intro call c hcall
    have hc := h.knows call c hcall
    by_cases hkey : spec.key c = i
    · rw [hkey] at hc
      rw [hkey, Function.update_self]
      exact hknows c hc
    · rwa [Function.update_of_ne hkey]
  · intro j
    by_cases hj : j = i
    · rw [hj, Function.update_self]
      exact halways
    · rw [Function.update_of_ne hj]
      exact h.always j
  · intro j hclosed
    have hj' := h.settled j hclosed
    by_cases hj : j = i
    · rw [hj] at hj'
      rw [hj, Function.update_self]
      exact hsettled hj'
    · rwa [Function.update_of_ne hj]

variable [DecidableEq ν]

theorem update_eq_some {call call' : ν} {value : Option C} {c : C}
    (h : Function.update calls call value call' = some c) :
    call' = call ∧ value = some c ∨ call' ≠ call ∧ calls call' = some c := by
  by_cases heq : call' = call
  · subst heq
    rw [Function.update_self] at h
    exact Or.inl ⟨rfl, h⟩
  · rw [Function.update_of_ne heq] at h
    exact Or.inr ⟨heq, h⟩

/-- The call has the key `i` before and after the change, and `e` is the new entry of `i`. -/
theorem Holds.change (h : spec.Holds entry calls) {call : ν} {i : ι} {e : E} {value : Option C}
    (hown : ∀ c, calls call = some c → spec.key c = i) (halways : spec.Always e)
    (hvalue : ∀ c, value = some c → spec.key c = i ∧ spec.Knows e c)
    (hsettled : (∀ c, value = some c → ¬ spec.Open c) → spec.Settled e)
    (hothers : ∀ call' c', call' ≠ call → calls call' = some c' → spec.key c' = i →
      spec.Knows e c' ∧ ∀ c, value = some c → spec.Beside c c' ∧ spec.Beside c' c) :
    spec.Holds (Function.update entry i e) (Function.update calls call value) := by
  refine ⟨?_, ?_, ?_, ?_⟩
  · intro call' c hcall
    rcases update_eq_some hcall with ⟨-, hc⟩ | ⟨hne, hc⟩
    · obtain ⟨hkey, hknows⟩ := hvalue c hc
      rw [hkey, Function.update_self]
      exact hknows
    · by_cases hkey : spec.key c = i
      · rw [hkey, Function.update_self]
        exact (hothers call' c hne hc hkey).1
      · rw [Function.update_of_ne hkey]
        exact h.knows call' c hc
  · intro call₁ call₂ c₁ c₂ h₁ h₂ heq hne
    rcases update_eq_some h₁ with ⟨hcall₁, hc₁⟩ | ⟨hne₁, hc₁⟩ <;>
      rcases update_eq_some h₂ with ⟨hcall₂, hc₂⟩ | ⟨hne₂, hc₂⟩
    · exact absurd (hcall₁.trans hcall₂.symm) hne
    · exact ((hothers call₂ c₂ hne₂ hc₂ (heq.symm.trans (hvalue c₁ hc₁).1)).2 c₁ hc₁).1
    · exact ((hothers call₁ c₁ hne₁ hc₁ (heq.trans (hvalue c₂ hc₂).1)).2 c₂ hc₂).2
    · exact h.beside call₁ call₂ c₁ c₂ hc₁ hc₂ heq hne
  · intro j
    by_cases hj : j = i
    · rw [hj, Function.update_self]
      exact halways
    · rw [Function.update_of_ne hj]
      exact h.always j
  · intro j hclosed
    by_cases hj : j = i
    · subst hj
      rw [Function.update_self]
      exact hsettled (fun c hc =>
        hclosed call c ((Function.update_self _ _ _).trans hc) (hvalue c hc).1)
    · rw [Function.update_of_ne hj]
      refine h.settled j (fun call' c hcall hkey => ?_)
      have hne : call' ≠ call := by
        rintro rfl
        exact hj (hkey.symm.trans (hown c hcall))
      exact hclosed call' c ((Function.update_of_ne hne _ _).trans hcall) hkey

end CallSpec
