import Mathlib.Tactic

/-!
# Outcomes of calls

A call of the modelled code returns a value, returns an error, panics, or never returns. `Outcome`
is the exception monad over these faults, so that a statement about an outcome says at once
whether the call can panic or loop.
-/

namespace ThresholdKms

inductive Fault where
  | err (msg : String)
  | panic (msg : String)
  | diverge
  deriving DecidableEq, Repr

abbrev Outcome (α : Type) := Except Fault α

namespace Outcome

variable {α β : Type}

def err (msg : String) : Outcome α := .error (.err msg)

def panic (msg : String) : Outcome α := .error (.panic msg)

def diverge : Outcome α := .error .diverge

/-- The call returns control: it neither panics nor loops. -/
def Returns (x : Outcome α) : Prop := (∃ a, x = .ok a) ∨ ∃ msg, x = err msg

def isOk : Outcome α → Bool
  | .ok _ => true
  | .error _ => false

def fault : Outcome α → Option Fault
  | .ok _ => none
  | .error f => some f

/-- For callers to which a refusal is no error. -/
def toOk : Outcome α → Outcome (Option α)
  | .ok a => .ok (some a)
  | .error (.err _) => .ok none
  | .error fault => .error fault

/-- The `usize` subtraction, which panics when it would underflow. -/
def usizeSub (a b : ℕ) : Outcome ℕ :=
  if b ≤ a then .ok (a - b) else panic "attempt to subtract with overflow"

variable {ε : Type}

@[simp] theorem ok_bind (a : α) (f : α → Except ε β) : (Except.ok a >>= f) = f a := rfl

@[simp] theorem error_bind (e : ε) (f : α → Except ε β) :
    ((Except.error e : Except ε α) >>= f) = .error e := rfl

@[simp] theorem pure_eq_ok (a : α) : (pure a : Except ε α) = .ok a := rfl

section Binds

variable {f : α → Except ε β} {x : Except ε α}

theorem bind_eq_ok {b : β} : (x >>= f) = .ok b ↔ ∃ a, x = .ok a ∧ f a = .ok b := by
  cases x with
  | ok a => simp
  | error e => simp

variable {l : List α}

theorem mapM_eq_ok {g : α → β} (h : ∀ x ∈ l, f x = .ok (g x)) :
    l.mapM f = .ok (l.map g) := by
  induction l with
  | nil => rfl
  | cons x xs ih =>
    have hx := h x (by simp)
    have hxs := ih (fun y hy => h y (by simp [hy]))
    simp [List.mapM_cons, hx, hxs]

theorem mapM_congr {f g : α → Except ε β} (h : ∀ x ∈ l, f x = g x) :
    l.mapM f = l.mapM g := by
  induction l with
  | nil => rfl
  | cons x xs ih =>
    rw [List.mapM_cons, List.mapM_cons, h x (by simp), ih (fun y hy => h y (by simp [hy]))]

theorem mapM_of_getElem {P : ℕ → β → Prop} (h : ∀ i x, l[i]? = some x → ∃ y, f x = .ok y ∧ P i y) :
    ∃ l', l.mapM f = .ok l' ∧ l'.length = l.length ∧ ∀ i y, l'[i]? = some y → P i y := by
  induction l generalizing P with
  | nil => exact ⟨[], rfl, rfl, fun i y hy => by cases hy⟩
  | cons x l ih =>
    obtain ⟨y, hy, hPy⟩ := h 0 x rfl
    obtain ⟨l', hl', hlen, hP⟩ := ih (fun i x' hx' => h (i + 1) x' hx')
    refine ⟨y :: l', ?_, congrArg Nat.succ hlen, fun i y' hy' => ?_⟩
    · rw [List.mapM_cons, hy, hl']
      rfl
    · cases i with
      | zero =>
        cases hy'
        exact hPy
      | succ i => exact hP i y' hy'

end Binds

@[simp] theorem usizeSub_of_le {a b : ℕ} (h : b ≤ a) : usizeSub a b = .ok (a - b) := if_pos h

variable {f : α → Outcome β} {x : Outcome α} {l : List α}

theorem filterM_eq_ok {f : α → Outcome Bool} {g : α → Bool}
    (h : ∀ x ∈ l, f x = .ok (g x)) : l.filterM f = .ok (l.filter g) := by
  have haux : ∀ acc, l.filterAuxM f acc = .ok ((l.filter g).reverse ++ acc) := by
    induction l with
    | nil => exact fun _ => rfl
    | cons a l ih =>
      intro acc
      obtain ⟨ha, h⟩ := List.forall_mem_cons.mp h
      unfold List.filterAuxM
      rw [ha, ok_bind, ih h, List.filter_cons]
      cases g a with
      | true => simp
      | false => rfl
  unfold List.filterM
  rw [haux, ok_bind, List.append_nil, List.reverse_reverse]
  rfl

variable {l' : List β}

theorem forall₂_of_mapM (h : l.mapM f = .ok l') : List.Forall₂ (fun a b => f a = .ok b) l l' := by
  induction l generalizing l' with
  | nil =>
    cases h
    exact List.Forall₂.nil
  | cons a l ih =>
    rw [List.mapM_cons] at h
    obtain ⟨b, hb, hrest⟩ := bind_eq_ok.mp h
    obtain ⟨bs, hbs, hret⟩ := bind_eq_ok.mp hrest
    cases hret
    exact List.Forall₂.cons hb (ih hbs)

theorem exists_of_mem_mapM (h : l.mapM f = .ok l')
    {b : β} (hb : b ∈ l') : ∃ a ∈ l, f a = .ok b := by
  have hforall := forall₂_of_mapM h
  clear h
  induction hforall with
  | nil => cases hb
  | cons hab _ ih =>
    rcases List.mem_cons.mp hb with rfl | hb
    · exact ⟨_, List.mem_cons_self, hab⟩
    · obtain ⟨a, ha, hfa⟩ := ih hb
      exact ⟨a, List.mem_cons_of_mem _ ha, hfa⟩

variable {a : α}

theorem ok_of_mem_mapM (h : l.mapM f = .ok l') (ha : a ∈ l) : ∃ b, f a = .ok b := by
  have hforall := forall₂_of_mapM h
  clear h
  induction hforall with
  | nil => cases ha
  | cons hab _ ih =>
    rcases List.mem_cons.mp ha with rfl | ha
    · exact ⟨_, hab⟩
    · exact ih ha

variable {σ : Type} {step : σ → α → Outcome σ}

theorem foldlM_cons_eq_ok {s₀ s : σ} :
    (a :: l).foldlM step s₀ = .ok s ↔ ∃ s₁, step s₀ a = .ok s₁ ∧ l.foldlM step s₁ = .ok s := by
  rw [List.foldlM_cons, bind_eq_ok]

/-- A loop that ends has gone through its first round. -/
theorem foldlM_mem_ok {s₀ s : σ} (h : l.foldlM step s₀ = .ok s) (ha : a ∈ l) :
    ∃ s₁ s₂, step s₁ a = .ok s₂ := by
  induction l generalizing s₀ with
  | nil => cases ha
  | cons b l ih =>
    obtain ⟨s₁, hs₁, h⟩ := foldlM_cons_eq_ok.mp h
    rcases List.mem_cons.mp ha with rfl | ha
    · exact ⟨s₀, s₁, hs₁⟩
    · exact ih h ha

theorem foldlM_pure (f : σ → α → σ)
    (h : ∀ s, ∀ a ∈ l, step s a = .ok (f s a)) (s : σ) : l.foldlM step s = .ok (l.foldl f s) := by
  induction l generalizing s with
  | nil => rfl
  | cons a l ih =>
    rw [List.foldlM_cons, h s a List.mem_cons_self]
    exact ih (fun s b hb => h s b (List.mem_cons_of_mem _ hb)) (f s a)

theorem foldlM_of_ok (P : σ → Prop) (hstep : ∀ a ∈ l, ∀ s s', P s → step s a = .ok s' → P s')
    {s₀ s : σ} (h₀ : P s₀) (hrun : l.foldlM step s₀ = .ok s) : P s := by
  induction l generalizing s₀ with
  | nil =>
    cases hrun
    exact h₀
  | cons a l ih =>
    obtain ⟨s₁, hs₁, hrest⟩ := foldlM_cons_eq_ok.mp hrun
    obtain ⟨hfirst, hstep⟩ := List.forall_mem_cons.mp hstep
    exact ih hstep (hfirst s₀ s₁ h₀ hs₁) hrest

/-- A loop over the elements of a list that adds one term for each of them to an encoded sum. -/
theorem foldlM_sum {M : Type} [AddCommMonoid M] (enc : M → σ) {f : α → M}
    (h : ∀ a ∈ l, ∀ acc, step (enc acc) a = .ok (enc (acc + f a)))
    (s₀ : M) : l.foldlM step (enc s₀) = .ok (enc (s₀ + (l.map f).sum)) := by
  induction l generalizing s₀ with
  | nil => simp
  | cons a l ih =>
    obtain ⟨ha, h⟩ := List.forall_mem_cons.mp h
    rw [List.foldlM_cons, ha, ok_bind, ih h, List.map_cons, List.sum_cons, add_assoc]

section Loops

variable {step : σ → ℕ → Outcome σ} {n : ℕ} (P : ℕ → σ → Prop)

/-- A loop whose rounds keep an invariant or fail ends with the invariant or a failure. -/
theorem foldlM_range_or_err (s₀ : σ) (hstep : ∀ i s, i < n → P i s →
      (∃ s', step s i = .ok s' ∧ P (i + 1) s') ∨ ∃ msg, step s i = err msg) (h₀ : P 0 s₀) :
    (∃ s, (List.range n).foldlM step s₀ = .ok s ∧ P n s) ∨
      ∃ msg, (List.range n).foldlM step s₀ = err msg := by
  induction n with
  | zero => exact Or.inl ⟨s₀, rfl, h₀⟩
  | succ n ih =>
    rw [List.range_succ, List.foldlM_append]
    rcases ih (fun i s hi => hstep i s (by omega)) with ⟨s, hrun, hP⟩ | ⟨msg, hrun⟩
    · rw [hrun]
      rcases hstep n s (by omega) hP with ⟨s', hs', hP'⟩ | ⟨msg, hmsg⟩
      · exact Or.inl ⟨s', by simp [hs'], hP'⟩
      · exact Or.inr ⟨msg, by simp [hmsg, err]⟩
    · exact Or.inr ⟨msg, by rw [hrun]; rfl⟩

theorem foldlM_range_ok (s₀ : σ)
    (hstep : ∀ i s, i < n → P i s → ∃ s', step s i = .ok s' ∧ P (i + 1) s') (h₀ : P 0 s₀) :
    ∃ s, (List.range n).foldlM step s₀ = .ok s ∧ P n s := by
  induction n with
  | zero => exact ⟨s₀, rfl, h₀⟩
  | succ n ih =>
    obtain ⟨s, hrun, hP⟩ := ih (fun i s hi => hstep i s (by omega))
    obtain ⟨s', hs', hP'⟩ := hstep n s (by omega) hP
    exact ⟨s', by simp [List.range_succ, List.foldlM_append, hrun, hs'], hP'⟩

theorem foldlM_range_eq (s : ℕ → σ) (hstep : ∀ i < n, step (s i) i = .ok (s (i + 1))) :
    (List.range n).foldlM step (s 0) = .ok (s n) := by
  obtain ⟨_, hrun, rfl⟩ := foldlM_range_ok (fun i s' => s' = s i) (s 0)
    (fun i s' hi hs' => ⟨s (i + 1), hs' ▸ hstep i hi, rfl⟩) rfl
  exact hrun

theorem foldlM_range_of_ok {s₀ s : σ}
    (hstep : ∀ i s s', i < n → P i s → step s i = .ok s' → P (i + 1) s') (h₀ : P 0 s₀)
    (hrun : (List.range n).foldlM step s₀ = .ok s) : P n s := by
  induction n generalizing s with
  | zero =>
    cases hrun
    exact h₀
  | succ n ih =>
    rw [List.range_succ, List.foldlM_append] at hrun
    obtain ⟨s₁, hrun₁, hlast⟩ := bind_eq_ok.mp hrun
    obtain ⟨s₂, hs₂, hret⟩ := bind_eq_ok.mp hlast
    cases hret
    exact hstep n s₁ _ (by omega) (ih (fun i s s' hi => hstep i s s' (by omega)) hrun₁) hs₂

/-- A loop that adds one term in each round computes the sum of the terms. -/
theorem foldlM_range_sum {M : Type} [AddCommMonoid M] {n : ℕ} {step : M → ℕ → Outcome M}
    (g : Fin n → M) (h : ∀ (i : Fin n) acc, step acc i = .ok (acc + g i)) (s₀ : M) :
    (List.range n).foldlM step s₀ = .ok (s₀ + ∑ i, g i) := by
  rw [← List.map_coe_finRange_eq_range, List.foldlM_map, ← List.sum_ofFn, List.ofFn_eq_map]
  exact foldlM_sum id (fun i _ acc => h i acc) s₀

end Loops

theorem mapM_zipIdx {f : α × ℕ → Outcome β} {g : α → β}
    (h : ∀ a i, l[i]? = some a → f (a, i) = .ok (g a)) : l.zipIdx.mapM f = .ok (l.map g) := by
  have hmap : l.zipIdx.map (g ∘ Prod.fst) = l.map g := by
    rw [← List.map_map, List.zipIdx_map_fst]
  rw [← hmap]
  exact mapM_eq_ok (fun p hp => h p.1 p.2 (List.mk_mem_zipIdx_iff_getElem?.mp hp))

section Simulation

variable {σ τ σ' τ' : Type}

/-- Both computations succeed with related results, or both stop at the same fault. -/
def Simulates (R : σ → τ → Prop) (x : Outcome σ) (y : Outcome τ) : Prop :=
  (∃ s t, x = .ok s ∧ y = .ok t ∧ R s t) ∨ ∃ fault, x = .error fault ∧ y = .error fault

variable {R : σ → τ → Prop}

theorem Simulates.ok {s : σ} {t : τ} (h : R s t) :
    Simulates R (.ok s) (.ok t) := Or.inl ⟨s, t, rfl, rfl, h⟩

theorem Simulates.bind {R' : σ' → τ' → Prop} {x : Outcome σ} {y : Outcome τ}
    {f : σ → Outcome σ'} {g : τ → Outcome τ'} (h : Simulates R x y)
    (hfg : ∀ s t, R s t → Simulates R' (f s) (g t)) : Simulates R' (x >>= f) (y >>= g) := by
  rcases h with ⟨s, t, rfl, rfl, hst⟩ | ⟨fault, rfl, rfl⟩
  · exact hfg s t hst
  · exact Or.inr ⟨fault, rfl, rfl⟩

theorem Simulates.refl (x : Outcome σ) : Simulates Eq x x := by
  cases x with
  | ok s => exact Simulates.ok rfl
  | error fault => exact Or.inr ⟨fault, rfl, rfl⟩

theorem Simulates.foldlM {ι : Type} {f : σ → ι → Outcome σ} {g : τ → ι → Outcome τ} (l : List ι)
    (hstep : ∀ i s t, R s t → Simulates R (f s i) (g t i)) {s : σ} {t : τ} (h : R s t) :
    Simulates R (l.foldlM f s) (l.foldlM g t) := by
  induction l generalizing s t with
  | nil => exact Simulates.ok h
  | cons i l ih =>
    exact (hstep i s t h).bind (fun s' t' h' => ih h')

theorem Simulates.eq {x y : Outcome σ} (h : Simulates Eq x y) : x = y := by
  rcases h with ⟨s, t, rfl, rfl, rfl⟩ | ⟨fault, rfl, rfl⟩
  · rfl
  · rfl

end Simulation

theorem eq_error_of_fault {f : Fault} (h : x.fault = some f) : x = .error f := by
  cases x with
  | ok a => cases h
  | error e =>
    cases h
    rfl

theorem eq_ok_of_toOption (h : x.toOption = some a) : x = .ok a := by
  cases x with
  | ok b =>
    cases h
    rfl
  | error e => cases h

theorem returns_ok (a : α) : Returns (.ok a : Outcome α) := Or.inl ⟨a, rfl⟩

theorem returns_err (msg : String) : Returns (err msg : Outcome α) := Or.inr ⟨msg, rfl⟩

theorem Returns.bind (hx : x.Returns)
    (hf : ∀ a, x = .ok a → (f a).Returns) : (x >>= f).Returns := by
  rcases hx with ⟨a, rfl⟩ | ⟨msg, rfl⟩
  · exact hf a rfl
  · exact returns_err msg

theorem guard_eq_ok {p : Prop} [Decidable p] {msg : String} :
    (if p then err msg else x) = .ok a ↔ ¬ p ∧ x = .ok a := by
  by_cases hp : p
  · simp [hp, err]
  · simp [hp]

theorem returns_guard {p : Prop} [Decidable p] {msg : String}
    (h : ¬ p → x.Returns) : (if p then err msg else x).Returns := by
  by_cases hp : p
  · rw [if_pos hp]
    exact returns_err msg
  · rw [if_neg hp]
    exact h hp

end Outcome

variable {α : Type}

def indexVec (l : List α) (idx : ℕ) : Outcome α :=
  match l[idx]? with
  | some x => .ok x
  | none => Outcome.panic "index out of bounds"

theorem indexVec_eq_ok {l : List α} {idx : ℕ} {a : α} :
    indexVec l idx = .ok a ↔ l[idx]? = some a := by
  unfold indexVec
  cases l[idx]? with
  | some b => simp
  | none => simp [Outcome.panic]

theorem exists_indexVec {l : List α} {idx : ℕ} (h : idx < l.length) :
    ∃ a, indexVec l idx = .ok a :=
  ⟨l[idx], indexVec_eq_ok.mpr (List.getElem?_eq_getElem h)⟩

end ThresholdKms
