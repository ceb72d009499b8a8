import Mathlib.Order.Basic

/-!
# Properties of every step of a run

A run is a list of inputs, which a step function consumes one after the other. `Along step p s l`
says that `p` holds at each input of the run, in the state in which it is consumed.
-/

variable {σ ι : Type*} {step : σ → ι → σ} {p q : σ → ι → Prop} {inv : σ → Prop}

def Along (step : σ → ι → σ) (p : σ → ι → Prop) : σ → List ι → Prop
  | _, [] => True
  | s, i :: l => p s i ∧ Along step p (step s i) l

/-- An invariant that every step keeps where `p` holds carries over to what it implies. -/
theorem Along.of_invariant (hkeeps : ∀ s i, inv s → p s i → inv (step s i))
    (himp : ∀ s i, inv s → p s i → q s i) {s : σ} {l : List ι} (hs : inv s)
    (h : Along step p s l) : Along step q s l := by
  induction l generalizing s with
  | nil => trivial
  | cons i l ih => exact ⟨himp s i hs h.1, ih (hkeeps s i hs h.1) h.2⟩

theorem Along.imp (himp : ∀ s i, p s i → q s i) {s : σ} {l : List ι} (h : Along step p s l) :
    Along step q s l := by
  induction l generalizing s with
  | nil => trivial
  | cons i l ih => exact ⟨himp s i h.1, ih h.2⟩
