import Mathlib.Tactic

/-!
# Programs that communicate by broadcast

A program computes, fails, or broadcasts a message and continues with the messages of all parties of
that round. The broadcast is ideal: all honest parties see the same messages, and those of honest
parties are the ones that they sent. `Ensures` says of a family of programs, one for each honest
party, that they broadcast in the same rounds and all return, whatever the other parties broadcast;
`EnsuresWhen` says it for the runs in which the messages of all rounds meet a condition.
-/

namespace Lockstep

inductive Prog (ι M ε α : Type) where
  | done (a : α)
  | fail (e : ε)
  | send (m : M) (next : (ι → M) → Prog ι M ε α)

namespace Prog

variable {ι M ε α β γ : Type}

def bind : Prog ι M ε α → (α → Prog ι M ε β) → Prog ι M ε β
  | done a, f => f a
  | fail e, _ => fail e
  | send m next, f => send m (fun msgs => (next msgs).bind f)

instance : Monad (Prog ι M ε) where
  pure := done
  bind := bind

def ofExcept : Except ε α → Prog ι M ε α
  | .ok a => done a
  | .error e => fail e

def broadcast (m : M) : Prog ι M ε (ι → M) := send m done

/-- The result of a party, if `rounds k` are the messages of round `k`. -/
def run : Prog ι M ε α → (ℕ → ι → M) → Except ε α
  | done a, _ => .ok a
  | fail e, _ => .error e
  | send _ next, rounds => (next (rounds 0)).run (fun k => rounds (k + 1))

/-- The message that a party broadcasts in round `k`, if there is one. -/
def sent : Prog ι M ε α → (ℕ → ι → M) → ℕ → Option M
  | done _, _, _ => none
  | fail _, _, _ => none
  | send m _, _, 0 => some m
  | send _ next, rounds, k + 1 => (next (rounds 0)).sent (fun k => rounds (k + 1)) k

/-- What a program does after its first message. -/
def next : Prog ι M ε α → (ι → M) → Prog ι M ε α
  | send _ next, msgs => next msgs
  | p, _ => p

@[simp] theorem done_bind (a : α) (f : α → Prog ι M ε β) : (done a >>= f) = f a := rfl

@[simp] theorem ofExcept_ok (a : α) : (ofExcept (.ok a) : Prog ι M ε α) = done a := rfl

theorem ofExcept_bind (x : Except ε α) (f : α → Except ε β) :
    (ofExcept (x >>= f) : Prog ι M ε β) = ofExcept x >>= fun a => ofExcept (f a) := by
  cases x <;> rfl

theorem bind_assoc (p : Prog ι M ε α) (f : α → Prog ι M ε β) (g : β → Prog ι M ε γ) :
    (p >>= f) >>= g = p >>= fun a => f a >>= g := by
  induction p with
  | done a => rfl
  | fail e => rfl
  | send m next ih => exact congrArg (send m) (funext ih)

variable {rounds : ℕ → ι → M} {f : α → Prog ι M ε β}

theorem run_ofExcept_bind {x : Except ε α} {b : β}
    (h : (ofExcept x >>= f).run rounds = .ok b) : ∃ a, x = .ok a ∧ (f a).run rounds = .ok b := by
  cases x with
  | ok a => exact ⟨a, rfl, h⟩
  | error e => cases h

theorem run_bind {p : Prog ι M ε α} {b : β}
    (h : (p >>= f).run rounds = .ok b) :
    ∃ a k, p.run rounds = .ok a ∧ (f a).run (fun j => rounds (j + k)) = .ok b := by
  induction p generalizing rounds with
  | done a => exact ⟨a, 0, rfl, h⟩
  | fail e => cases h
  | send m next ih =>
    obtain ⟨a, k, ha, hb⟩ := ih (rounds 0) h
    exact ⟨a, k + 1, ha, hb⟩

theorem run_of_send {prog : Prog ι M ε α} {m : M} {next : (ι → M) → Prog ι M ε α} {a : α}
    (hprog : prog = .send m next) (hnext : next (rounds 0) = .done a) :
    prog.run rounds = .ok a ∧ ∀ k msg, prog.sent rounds k = some msg → k = 0 ∧ msg = m := by
  subst hprog
  constructor
  · change (next (rounds 0)).run _ = _
    rw [hnext]
    rfl
  · intro k msg hsent
    cases k with
    | zero =>
      cases hsent
      exact ⟨rfl, rfl⟩
    | succ k =>
      change (next (rounds 0)).sent _ k = some msg at hsent
      rw [hnext] at hsent
      cases hsent

/-- What every iteration of a loop keeps, if all rounds are as required, holds at its end. -/
theorem foldlM_of_run {γ : Type} {step : α → γ → Prog ι M ε α} {l : List γ} {C : (ι → M) → Prop}
    (P : α → Prop) (hstep : ∀ c ∈ l, ∀ a a' rounds, (∀ k, C (rounds k)) → P a →
      (step a c).run rounds = .ok a' → P a') {a a' : α}
    (hrounds : ∀ k, C (rounds k)) (ha : P a) (hrun : (l.foldlM step a).run rounds = .ok a') :
    P a' := by
  induction l generalizing a rounds with
  | nil =>
    cases hrun
    exact ha
  | cons c l ih =>
    obtain ⟨a₁, k, ha₁, hrest⟩ := run_bind hrun
    obtain ⟨hfirst, hstep⟩ := List.forall_mem_cons.mp hstep
    exact ih hstep (fun j => hrounds (j + k)) (hfirst a a₁ rounds hrounds ha ha₁) hrest

end Prog

open Prog

variable {ι M ε α β : Type}

/-- In every round, the messages of honest parties are the ones that they broadcast. -/
def Delivered (honest : ι → Prop) (progs : ι → Prog ι M ε α) (rounds : ℕ → ι → M) : Prop :=
  ∀ i, honest i → ∀ k m, (progs i).sent rounds k = some m → rounds k i = m

/-- The honest parties broadcast in the same rounds and all return, if the messages of every round
are allowed. -/
inductive EnsuresWhen (honest : ι → Prop) (allowed : (ι → M) → Prop) (post : (ι → α) → Prop) :
    (ι → Prog ι M ε α) → Prop
  | done {progs : ι → Prog ι M ε α} (a : ι → α) (h : ∀ i, honest i → progs i = .done (a i))
      (hpost : post a) : EnsuresWhen honest allowed post progs
  | send {progs : ι → Prog ι M ε α} (m : ι → M) (next : ι → (ι → M) → Prog ι M ε α)
      (h : ∀ i, honest i → progs i = .send (m i) (next i))
      (hnext : ∀ msgs, allowed msgs → (∀ i, honest i → msgs i = m i) →
        EnsuresWhen honest allowed post (fun i => next i msgs)) :
      EnsuresWhen honest allowed post progs

variable {rounds : ℕ → ι → M}

namespace EnsuresWhen

variable {honest : ι → Prop} {allowed : (ι → M) → Prop} {post post' : (ι → α) → Prop}
  {progs progs' : ι → Prog ι M ε α}

section

variable (h : EnsuresWhen honest allowed post progs)
include h

/-- The honest parties return together, with results that meet the postcondition. -/
theorem run
    (hallowed : ∀ k, allowed (rounds k)) (hdelivered : Delivered honest progs rounds) :
    ∃ a, (∀ i, honest i → (progs i).run rounds = .ok (a i)) ∧ post a := by
  induction h generalizing rounds with
  | done a h hpost =>
    refine ⟨a, fun i hi => ?_, hpost⟩
    rw [h i hi]
    rfl
  | send m next h hnext ih =>
    have hround : ∀ i, honest i → rounds 0 i = m i := by
      intro i hi
      apply hdelivered i hi 0
      rw [h i hi]
      rfl
    have hrest : Delivered honest (fun i => next i (rounds 0)) (fun k => rounds (k + 1)) := by
      intro i hi k msg hsent
      apply hdelivered i hi (k + 1)
      rw [h i hi]
      exact hsent
    obtain ⟨a, ha, hpost⟩ :=
      ih (rounds 0) (hallowed 0) hround (fun k => hallowed (k + 1)) hrest
    refine ⟨a, fun i hi => ?_, hpost⟩
    rw [h i hi]
    exact ha i hi

theorem mono (hpost : ∀ a, post a → post' a) : EnsuresWhen honest allowed post' progs := by
  induction h with
  | done a h ha => exact .done a h (hpost a ha)
  | send m next h _ ih => exact .send m next h ih

theorem congr
    (heq : ∀ i, honest i → progs' i = progs i) : EnsuresWhen honest allowed post progs' := by
  cases h with
  | done a h ha => exact .done a (fun i hi => (heq i hi).trans (h i hi)) ha
  | send m next h hnext => exact .send m next (fun i hi => (heq i hi).trans (h i hi)) hnext

theorem bind {post' : (ι → β) → Prop} {f : ι → α → Prog ι M ε β}
    (hf : ∀ a, post a → EnsuresWhen honest allowed post' (fun i => f i (a i))) :
    EnsuresWhen honest allowed post' (fun i => progs i >>= f i) := by
  induction h with
  | done a h ha =>
    refine (hf a ha).congr (fun i hi => ?_)
    rw [h i hi]
    rfl
  | send m next h _ ih =>
    refine .send m (fun i msgs => next i msgs >>= f i) (fun i hi => ?_) ih
    rw [h i hi]
    rfl

end

theorem pure {a : ι → α} (h : post a) :
    EnsuresWhen honest allowed post (fun i => (Prog.done (a i) : Prog ι M ε α)) :=
  .done a (fun _ _ => rfl) h

/-- A loop in which every round keeps the invariant. -/
theorem foldlM {γ : Type} {step : ι → α → γ → Prog ι M ε α} {l : List γ}
    (hstep : ∀ a ∈ l, ∀ s, post s → EnsuresWhen honest allowed post (fun i => step i (s i) a))
    {s : ι → α} (hs : post s) :
    EnsuresWhen honest allowed post (fun i => l.foldlM (step i) (s i)) := by
  induction l generalizing s with
  | nil => exact .pure hs
  | cons a l ih =>
    obtain ⟨hfirst, hstep⟩ := List.forall_mem_cons.mp hstep
    exact (hfirst s hs).bind (fun s' hs' => ih hstep hs')

theorem ofExcept {x : ι → Except ε α} {a : ι → α} (hx : ∀ i, honest i → x i = .ok (a i))
    (h : post a) :
    EnsuresWhen honest allowed post (fun i => (Prog.ofExcept (x i) : Prog ι M ε α)) :=
  .done a (fun i hi => by rw [hx i hi]; rfl) h

end EnsuresWhen

/-- The honest parties broadcast in the same rounds and all return, whatever is broadcast. -/
abbrev Ensures (honest : ι → Prop) (post : (ι → α) → Prop) (progs : ι → Prog ι M ε α) : Prop :=
  EnsuresWhen honest (fun _ => True) post progs

namespace Ensures

variable {honest : ι → Prop} {post : (ι → α) → Prop} {progs : ι → Prog ι M ε α}

theorem run (h : Ensures honest post progs)
    (hdelivered : Delivered honest progs rounds) :
    ∃ a, (∀ i, honest i → (progs i).run rounds = .ok (a i)) ∧ post a :=
  EnsuresWhen.run h (fun _ => trivial) hdelivered

/-- There is a run with any messages of the parties that are not honest. -/
theorem exists_delivered (h : Ensures honest post progs) (others : ℕ → ι → M) :
    ∃ rounds, Delivered honest progs rounds ∧ ∀ k i, ¬ honest i → rounds k i = others k i := by
  classical
  induction h generalizing others with
  | done a h hpost =>
    refine ⟨others, fun i hi k msg hsent => ?_, fun _ _ _ => rfl⟩
    rw [h i hi] at hsent
    cases hsent
  | send m next h _ ih =>
    let first : ι → M := fun i => if honest i then m i else others 0 i
    have hfirst : ∀ i, honest i → first i = m i := fun i hi => if_pos hi
    obtain ⟨rest, hdelivered, hothers⟩ := ih first trivial hfirst (fun k => others (k + 1))
    refine ⟨fun k => k.casesOn first rest, fun i hi k msg hsent => ?_, fun k i hi => ?_⟩
    · rw [h i hi] at hsent
      cases k with
      | zero =>
        cases hsent
        exact hfirst i hi
      | succ k => exact hdelivered i hi k msg hsent
    · cases k with
      | zero => exact if_neg hi
      | succ k => exact hothers k i hi

theorem of_send {m : ι → M} (h : ∀ i, honest i → ∃ next, progs i = .send (m i) next)
    (hnext : ∀ msgs, (∀ i, honest i → msgs i = m i) →
      Ensures honest post (fun i => (progs i).next msgs)) : Ensures honest post progs := by
  refine .send m (fun i => (progs i).next) (fun i hi => ?_) (fun msgs _ => hnext msgs)
  obtain ⟨next, heq⟩ := h i hi
  rw [heq]
  rfl

end Ensures

end Lockstep
