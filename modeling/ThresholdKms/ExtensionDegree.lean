import Mathlib.Tactic

/-!
# The extensions of degree 3 to 8

Each extension degree comes with its modulus and with the table that rewrites the monomials of
degree at least `deg` into lower ones. The table is checked row by row: every row is `X` times the
one before it, reduced by the first.
-/

open Polynomial

namespace ThresholdKms

inductive ExtensionDegree where
  | three
  | four
  | five
  | six
  | seven
  | eight
  deriving DecidableEq, Repr

namespace ExtensionDegree

def deg : ExtensionDegree → ℕ
  | three => 3
  | four => 4
  | five => 5
  | six => 6
  | seven => 7
  | eight => 8

variable (e : ExtensionDegree)

theorem deg_pos : 0 < e.deg := by cases e <;> decide

theorem deg_le_eight : e.deg ≤ 8 := by cases e <;> decide

/-- The value at `x` of the modulus of the extension. -/
def modulusAt {S : Type*} [CommRing S] (e : ExtensionDegree) (x : S) : S :=
  match e with
  | three => x ^ 3 + x + 1
  | four => x ^ 4 + x + 1
  | five => x ^ 5 + x ^ 2 + 1
  | six => x ^ 6 + x + 1
  | seven => x ^ 7 + x + 1
  | eight => x ^ 8 + x ^ 4 + x ^ 3 + x + 1

/-- Row `i` holds the coefficients of `X ^ (deg + i)`; the last row is never read. -/
def reductionTable : (e : ExtensionDegree) → Fin e.deg → Fin e.deg → ℤ
  | three => ![![-1, -1, 0], ![0, -1, -1], ![1, 1, -1]]
  | four => ![![-1, -1, 0, 0], ![0, -1, -1, 0], ![0, 0, -1, -1], ![1, 1, 0, -1]]
  | five =>
    ![![-1, 0, -1, 0, 0], ![0, -1, 0, -1, 0], ![0, 0, -1, 0, -1], ![1, 0, 1, -1, 0],
      ![0, 1, 0, 1, -1]]
  | six =>
    ![![-1, -1, 0, 0, 0, 0], ![0, -1, -1, 0, 0, 0], ![0, 0, -1, -1, 0, 0],
      ![0, 0, 0, -1, -1, 0], ![0, 0, 0, 0, -1, -1], ![1, 1, 0, 0, 0, -1]]
  | seven =>
    ![![-1, -1, 0, 0, 0, 0, 0], ![0, -1, -1, 0, 0, 0, 0], ![0, 0, -1, -1, 0, 0, 0],
      ![0, 0, 0, -1, -1, 0, 0], ![0, 0, 0, 0, -1, -1, 0], ![0, 0, 0, 0, 0, -1, -1],
      ![1, 1, 0, 0, 0, 0, -1]]
  | eight =>
    ![![-1, -1, 0, -1, -1, 0, 0, 0], ![0, -1, -1, 0, -1, -1, 0, 0],
      ![0, 0, -1, -1, 0, -1, -1, 0], ![0, 0, 0, -1, -1, 0, -1, -1],
      ![1, 1, 0, 1, 0, -1, 0, -1], ![1, 2, 1, 1, 2, 0, -1, 0], ![0, 1, 2, 1, 1, 2, 0, -1],
      ![1, 1, 1, 3, 2, 1, 2, 0]]

/-- Each row is `X` times the row before, reduced by the first row. -/
theorem reductionTable_succ (i : Fin e.deg) (hi : i.val + 1 < e.deg) (j : Fin e.deg) :
    reductionTable e ⟨i + 1, hi⟩ j =
      (if j.val = 0 then 0 else reductionTable e i ⟨j - 1, by omega⟩) +
        reductionTable e i ⟨e.deg - 1, by omega⟩ * reductionTable e ⟨0, by omega⟩ j := by
  revert i j
  cases e <;> decide

variable {S : Type*} [CommRing S]

theorem pow_deg_eq {x : S} (h : e.modulusAt x = 0) :
    x ^ e.deg = ∑ j, ((e.reductionTable ⟨0, e.deg_pos⟩ j : ℤ) : S) * x ^ (j : ℕ) := by
  cases e with
  | three =>
    refine Eq.trans ?_ (Fin.sum_univ_three _).symm
    simp [modulusAt, reductionTable, deg] at h ⊢
    linear_combination h
  | four =>
    refine Eq.trans ?_ (Fin.sum_univ_four _).symm
    simp [modulusAt, reductionTable, deg] at h ⊢
    linear_combination h
  | five =>
    refine Eq.trans ?_ (Fin.sum_univ_five _).symm
    simp [modulusAt, reductionTable, deg] at h ⊢
    linear_combination h
  | six =>
    refine Eq.trans ?_ (Fin.sum_univ_six _).symm
    simp [modulusAt, reductionTable, deg] at h ⊢
    linear_combination h
  | seven =>
    refine Eq.trans ?_ (Fin.sum_univ_seven _).symm
    simp [modulusAt, reductionTable, deg] at h ⊢
    linear_combination h
  | eight =>
    refine Eq.trans ?_ (Fin.sum_univ_eight _).symm
    simp [modulusAt, reductionTable, deg] at h ⊢
    linear_combination h

theorem mul_sum_shift {n : ℕ} (hn : 0 < n) (f : Fin n → S) (x : S) :
    x * ∑ j, f j * x ^ (j : ℕ) =
      (∑ j : Fin n, (if j.val = 0 then 0 else f ⟨j - 1, by omega⟩) * x ^ (j : ℕ)) +
        f ⟨n - 1, by omega⟩ * x ^ n := by
  cases n with
  | zero => omega
  | succ m =>
    rw [Fin.sum_univ_castSucc, Fin.sum_univ_succ, mul_add, Finset.mul_sum]
    have hterm : ∀ j : Fin m, x * (f j.castSucc * x ^ (j.castSucc : ℕ)) =
        (if (j.succ : Fin (m + 1)).val = 0 then 0 else f ⟨j.succ - 1, by omega⟩) *
          x ^ (j.succ : ℕ) := by
      intro j
      simp only [Fin.val_castSucc, Fin.val_succ, pow_succ]
      change x * (f j.castSucc * x ^ (j : ℕ)) = f j.castSucc * (x ^ (j : ℕ) * x)
      ring
    rw [Finset.sum_congr rfl (fun j _ => hterm j)]
    simp only [Fin.val_zero, if_true, zero_mul, zero_add, Fin.val_last, pow_succ]
    change _ + x * (f (Fin.last m) * x ^ m) = _ + f (Fin.last m) * (x ^ m * x)
    ring

theorem pow_deg_add_eq {x : S} (h : e.modulusAt x = 0) (i : Fin e.deg) :
    x ^ (e.deg + i) = ∑ j, ((e.reductionTable i j : ℤ) : S) * x ^ (j : ℕ) := by
  obtain ⟨i, hi⟩ := i
  induction i with
  | zero => exact pow_deg_eq e h
  | succ i ih =>
    have hprev := ih (by omega)
    calc x ^ (e.deg + (i + 1)) = x * x ^ (e.deg + i) := by ring
      _ = x * ∑ j, ((e.reductionTable ⟨i, by omega⟩ j : ℤ) : S) * x ^ (j : ℕ) := by rw [hprev]
      _ = ∑ j, ((e.reductionTable ⟨i + 1, hi⟩ j : ℤ) : S) * x ^ (j : ℕ) := by
          rw [mul_sum_shift e.deg_pos, pow_deg_eq e h, Finset.mul_sum, ← Finset.sum_add_distrib]
          apply Finset.sum_congr rfl
          intro j _
          rw [reductionTable_succ e ⟨i, by omega⟩ hi j]
          split_ifs with hj
          · push_cast
            ring
          · push_cast
            ring

theorem map_modulusAt {T : Type*} [CommRing T] (g : S →+* T) (x : S) :
    g (e.modulusAt x) = e.modulusAt (g x) := by
  cases e <;> simp [modulusAt]

theorem modulusAt_X_eq : ∃ p : S[X], e.modulusAt (X : S[X]) = X ^ e.deg + p ∧ p.degree < e.deg := by
  have hlin : (X + 1 : S[X]).degree < (3 : ℕ) :=
    lt_of_le_of_lt (by compute_degree!) (by norm_num : ((1 : ℕ) : WithBot ℕ) < (3 : ℕ))
  cases e with
  | three => exact ⟨X + 1, by simp only [modulusAt, deg]; ring, hlin⟩
  | four | six | seven =>
    exact ⟨X + 1, by simp only [modulusAt, deg]; ring, hlin.trans (by norm_num [deg])⟩
  | five =>
    refine ⟨X ^ 2 + 1, by simp only [modulusAt, deg]; ring, ?_⟩
    exact lt_of_le_of_lt (by compute_degree!) (by norm_num : ((2 : ℕ) : WithBot ℕ) < (5 : ℕ))
  | eight =>
    refine ⟨X ^ 4 + X ^ 3 + X + 1, by simp only [modulusAt, deg]; ring, ?_⟩
    exact lt_of_le_of_lt (by compute_degree!) (by norm_num : ((4 : ℕ) : WithBot ℕ) < (8 : ℕ))

theorem monic_modulusAt_X : (e.modulusAt (X : S[X])).Monic := by
  obtain ⟨p, hp, hdeg⟩ := modulusAt_X_eq (S := S) e
  rw [hp]
  exact monic_X_pow_add hdeg

theorem degree_modulusAt_X [Nontrivial S] : (e.modulusAt (X : S[X])).degree = e.deg := by
  obtain ⟨p, hp, hdeg⟩ := modulusAt_X_eq (S := S) e
  rw [hp, degree_add_eq_left_of_degree_lt (by rwa [degree_X_pow]), degree_X_pow]

end ExtensionDegree

end ThresholdKms
