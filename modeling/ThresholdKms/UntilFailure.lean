import Mathlib.Data.Bool.Basic

/-!
# Loops that stop at the first failure

A step returns whether it succeeded, and the new state in either case. The loop over a list stops at
the first step that fails, with the state that it left.
-/

namespace UntilFailure

variable {α σ : Type}

def run (step : α → σ → Bool × σ) : List α → σ → Bool × σ
  | [], s => (true, s)
  | a :: l, s =>
    match step a s with
    | (true, s) => run step l s
    | (false, s) => (false, s)

variable {step : α → σ → Bool × σ} {l : List α}

theorem run_cons_eq_true {a : α} {s s' : σ} :
    run step (a :: l) s = (true, s') ↔ ∃ s₁, step a s = (true, s₁) ∧ run step l s₁ = (true, s') := by
  rw [run]
  cases h : step a s with
  | mk ok s₁ =>
    cases ok with
    | true => simp
    | false => simp

/-- If no step fails then neither does the loop. -/
theorem run_fst (h : ∀ a ∈ l, ∀ s, (step a s).1 = true) (s : σ) :
    (run step l s).1 = true := by
  induction l generalizing s with
  | nil => rfl
  | cons a l ih =>
    have ha := h a List.mem_cons_self s
    rw [run]
    cases hstep : step a s with
    | mk ok s₁ =>
      rw [hstep] at ha
      subst ha
      exact ih (fun b hb => h b (List.mem_cons_of_mem _ hb)) s₁

/-- The relation between the states before and after a loop that was not stopped. -/
theorem run_rel {rel : (α → Prop) → σ → σ → Prop} (hnil : ∀ s, rel (fun _ => False) s s)
    (hstep : ∀ a s s', step a s = (true, s') → rel (· = a) s s')
    (htrans : ∀ p q s s₁ s₂, rel p s s₁ → rel q s₁ s₂ → rel (fun a => p a ∨ q a) s s₂)
    {s s' : σ} (h : run step l s = (true, s')) : rel (· ∈ l) s s' := by
  induction l generalizing s with
  | nil =>
    rw [run, Prod.mk.injEq] at h
    have := hnil s
    simpa [← h.2] using this
  | cons a l ih =>
    obtain ⟨s₁, ha, hl⟩ := run_cons_eq_true.mp h
    have := htrans _ _ s s₁ s' (hstep a s s₁ ha) (ih hl)
    simpa [List.mem_cons] using this

end UntilFailure
