import Mathlib.Tactic

/-!
# Drawing from a store of counted resources

A store counts what is left of each resource. A program draws amounts one after the other, or stops
for a reason of its own; a draw of more than is left is a shortage. Whether a program meets a
shortage is decided by its total demand, whatever the order of its draws.
-/

namespace ResourceStore

variable {ρ ε : Type}

inductive Step (ρ ε : Type) where
  | draw (resource : ρ) (amount : ℕ)
  | stop (fault : ε)

inductive RunFault (ρ ε : Type) where
  | shortage (resource : ρ) (amount available : ℕ)
  | stopped (fault : ε)

section

variable [DecidableEq ρ]

def add (s : ρ → ℕ) (r : ρ) (n : ℕ) : ρ → ℕ := Function.update s r (s r + n)

def run : List (Step ρ ε) → (ρ → ℕ) → Except (RunFault ρ ε) (ρ → ℕ)
  | [], s => .ok s
  | .draw r n :: rest, s =>
    if n ≤ s r then run rest (Function.update s r (s r - n)) else .error (.shortage r n (s r))
  | .stop f :: _, _ => .error (.stopped f)

/-- The total of all draws, those after a stop included. -/
def demand : List (Step ρ ε) → ρ → ℕ
  | [], _ => 0
  | .draw q n :: rest, r => (if q = r then n else 0) + demand rest r
  | .stop _ :: rest, r => demand rest r

/-- No draw of the program asks for more than is left. -/
def NeverShort (steps : List (Step ρ ε)) (s : ρ → ℕ) : Prop :=
  ∀ r n a, run steps s ≠ .error (.shortage r n a)

@[simp] theorem demand_nil (r : ρ) : demand ([] : List (Step ρ ε)) r = 0 := rfl

@[simp] theorem demand_draw (q r : ρ) (n : ℕ) (rest : List (Step ρ ε)) :
    demand (.draw q n :: rest) r = (if q = r then n else 0) + demand rest r := rfl

@[simp] theorem demand_stop (f : ε) (r : ρ) (rest : List (Step ρ ε)) :
    demand (.stop f :: rest) r = demand rest r := rfl

@[simp] theorem demand_append (xs ys : List (Step ρ ε)) (r : ρ) :
    demand (xs ++ ys) r = demand xs r + demand ys r := by
  induction xs with
  | nil => simp
  | cons x xs ih =>
    cases x with
    | draw q n =>
      simp only [List.cons_append, demand_draw, ih]
      omega
    | stop f => simpa using ih

theorem add_eq (s : ρ → ℕ) (q r : ρ) (n : ℕ) :
    add s q n r = s r + if q = r then n else 0 := by
  by_cases h : q = r
  · subst h
    simp [add]
  · simp [add, h, Function.update_of_ne (Ne.symm h)]

/-- A store that covers the total demand covers every draw on the way. -/
theorem neverShort_of_demand_le (steps : List (Step ρ ε)) (s : ρ → ℕ)
    (h : ∀ r, demand steps r ≤ s r) : NeverShort steps s := by
  induction steps generalizing s with
  | nil =>
    intro r n a
    simp [run]
  | cons x rest ih =>
    intro r n a
    cases x with
    | stop f => simp [run]
    | draw q m =>
      have hq := h q
      simp only [demand_draw, if_true] at hq
      rw [run, if_pos (by omega)]
      refine ih _ (fun r' => ?_) r n a
      have hr := h r'
      by_cases hqr : q = r'
      · subst hqr
        simp only [Function.update_self]
        omega
      · simp only [demand_draw, if_neg hqr] at hr
        rw [Function.update_of_ne (Ne.symm hqr)]
        omega

end

end ResourceStore
