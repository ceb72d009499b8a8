import Mathlib.Tactic.SplitIfs

/-!
# Programs that can be interrupted

An interruptible program changes a state, and may stop before its end: `crash s s'` says that it can
leave the state `s'` when it is started in `s` and interrupted. `Keeps` is what a program preserves
whether or not it is interrupted, and `Restarts` is the effect of starting it again and again.
-/

structure Interruptible (σ : Type) where
  run : σ → σ
  crash : σ → σ → Prop

namespace Interruptible

variable {σ α : Type}

def skip : Interruptible σ where
  run := id
  crash := fun s s' => s' = s

/-- One change, which an interruption leaves undone, done, or in a state of `partly`. -/
def change (f : σ → σ) (partly : σ → σ → Prop) : Interruptible σ where
  run := f
  crash := fun s s' => s' = s ∨ s' = f s ∨ partly s s'

/-- A change that is done as a whole or not at all. -/
def atomic (f : σ → σ) : Interruptible σ := change f (fun _ _ => False)

def seq (p q : Interruptible σ) : Interruptible σ where
  run := fun s => q.run (p.run s)
  crash := fun s s' => p.crash s s' ∨ q.crash (p.run s) s'

/-- The program that depends on what it reads from the state. -/
def read (p : σ → Interruptible σ) : Interruptible σ where
  run := fun s => (p s).run s
  crash := fun s s' => (p s).crash s s'

def forEach (body : α → Interruptible σ) : List α → Interruptible σ
  | [] => skip
  | a :: l => seq (body a) (forEach body l)

@[simp] theorem run_seq (p q : Interruptible σ) (s : σ) : (p.seq q).run s = q.run (p.run s) := rfl

@[simp] theorem run_skip (s : σ) : (skip : Interruptible σ).run s = s := rfl

structure Keeps (inv : σ → Prop) (p : Interruptible σ) : Prop where
  run : ∀ s, inv s → inv (p.run s)
  crash : ∀ s s', inv s → p.crash s s' → inv s'

variable {inv : σ → Prop} {p q : Interruptible σ}

theorem keeps_skip : Keeps inv skip where
  run := fun _ h => h
  crash := fun _ _ h hs => hs ▸ h

theorem keeps_change {f : σ → σ} {partly : σ → σ → Prop} (hrun : ∀ s, inv s → inv (f s))
    (hpartly : ∀ s s', inv s → partly s s' → inv s') : Keeps inv (change f partly) where
  run := hrun
  crash := by
    rintro s s' h (rfl | rfl | hs)
    · exact h
    · exact hrun s h
    · exact hpartly s s' h hs

theorem keeps_atomic {f : σ → σ} (hrun : ∀ s, inv s → inv (f s)) : Keeps inv (atomic f) :=
  keeps_change hrun (fun _ _ _ h => h.elim)

theorem Keeps.seq (hp : Keeps inv p) (hq : Keeps inv q) : Keeps inv (p.seq q) where
  run := fun s h => hq.run _ (hp.run s h)
  crash := by
    rintro s s' h (hs | hs)
    · exact hp.crash s s' h hs
    · exact hq.crash _ s' (hp.run s h) hs

theorem keeps_read {p : σ → Interruptible σ}
    (h : ∀ s, inv s → inv ((p s).run s) ∧ ∀ s', (p s).crash s s' → inv s') : Keeps inv (read p) where
  run := fun s hs => (h s hs).1
  crash := fun s s' hs => (h s hs).2 s'

theorem keeps_read_of_keeps {p : σ → Interruptible σ} (h : ∀ s, Keeps inv (p s)) :
    Keeps inv (read p) :=
  keeps_read (fun s hs => ⟨(h s).run s hs, fun s' => (h s).crash s s' hs⟩)

theorem keeps_forEach {body : α → Interruptible σ} (h : ∀ a, Keeps inv (body a)) (l : List α) :
    Keeps inv (forEach body l) := by
  induction l with
  | nil => exact keeps_skip
  | cons a l ih => exact (h a).seq ih

theorem keeps_ite {c : Prop} [Decidable c] (hp : Keeps inv p) (hq : Keeps inv q) :
    Keeps inv (if c then p else q) := by
  split_ifs
  · exact hp
  · exact hq

/-- The states after any number of starts, each of which may be interrupted. -/
inductive Restarts (p : Interruptible σ) : σ → σ → Prop
  | none (s : σ) : Restarts p s s
  | interrupted {s s' s'' : σ} : p.crash s s' → Restarts p s' s'' → Restarts p s s''
  | completed {s s'' : σ} : Restarts p (p.run s) s'' → Restarts p s s''

theorem Keeps.restarts (hp : Keeps inv p) {s s' : σ} (h : Restarts p s s') (hs : inv s) :
    inv s' := by
  induction h with
  | none => exact hs
  | interrupted hcrash _ ih => exact ih (hp.crash _ _ hs hcrash)
  | completed _ ih => exact ih (hp.run _ hs)

end Interruptible
