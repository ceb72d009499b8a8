import ThresholdKms.Share

/-!
# Sampling from TUniform

Every sample is assembled from its own window of shared bits: one bit, plus the number that the other
bits of the window write, minus the bound. The sum is linear, so the samples of all parties are
sharings of the sum of the secret bits. Over all bits of a window it takes the two endpoints once and
every value between them twice.
-/

open Polynomial

namespace ThresholdKms

open Outcome

/-- `1 << amount` as `u128`. -/
def shiftedOne (amount : ℕ) : Outcome ℕ :=
  if amount < 128 then .ok (2 ^ amount)
  else Outcome.panic "attempt to shift left with overflow"

/-- `nextBitVec` supplies the shared bits of the party. -/
def tUniform {Z : Type} [CommRing Z] (n bound : ℕ) (nextBitVec : ℕ → Outcome (List (Share Z))) :
    Outcome (List (Share Z)) := do
  let requiredBits := n * (bound + 2)
  let b ← nextBitVec requiredBits
  (List.range n).mapM (fun e => do
    let top := requiredBits - 1 - e * (bound + 2)
    let first ← indexVec b top
    let offset ← shiftedOne bound
    (List.range' 1 (bound + 1)).foldlM (fun (ei : Share Z) j => do
      let bit ← indexVec b (top - j)
      let factor ← shiftedOne (j - 1)
      return ⟨ei.owner, ei.value + bit.value * factor⟩) ⟨first.owner, first.value - offset⟩)

section Windows

variable {R : Type*} [CommRing R] {bound : ℕ}

/-- The sample that the bits of a window make. -/
def windowSum (b : Fin (bound + 2) → R) : R :=
  b 0 - (2 ^ bound : ℕ) + ∑ j : Fin (bound + 1), b j.succ * (2 ^ (j : ℕ) : ℕ)

variable (a : Fin (bound + 2) → Fin 2)

def windowValue : ℤ := windowSum fun k => (a k : ℤ)

/-- The windows count down from the last bit. -/
def bitWindow (n bound : ℕ) : Fin n × Fin (bound + 2) ≃ Fin (n * (bound + 2)) :=
  finProdFinEquiv.trans Fin.revPerm

theorem map_windowSum {S : Type*} [CommRing S] (f : R →+* S) (b : Fin (bound + 2) → R) :
    f (windowSum b) = windowSum (fun k => f (b k)) := by
  simp only [windowSum, map_add, map_sub, map_sum, map_mul, map_natCast]

theorem natDegree_windowSum_le {t : ℕ} {b : Fin (bound + 2) → R[X]}
    (h : ∀ k, (b k).natDegree ≤ t) : (windowSum b).natDegree ≤ t := by
  refine natDegree_add_le_of_degree_le (natDegree_sub_C.trans_le (h 0)) ?_
  exact natDegree_sum_le_of_forall_le _ _ fun j _ => (natDegree_mul_C_le _ _).trans (h j.succ)

theorem windowValue_eq : windowValue a =
    ((a 0 + finFunctionFinEquiv (fun j => a j.succ) : ℕ) : ℤ) - (2 ^ bound : ℕ) := by
  rw [windowValue, windowSum, finFunctionFinEquiv_apply]
  push_cast
  ring

theorem windowValue_mem :
    windowValue a ∈ Set.Icc (-2 ^ bound : ℤ) (2 ^ bound) := by
  have hpow : (2 : ℤ) ^ bound = (2 ^ bound : ℕ) := rfl
  rw [windowValue_eq, Set.mem_Icc]
  omega

theorem card_add_eq (m u : ℕ) : Fintype.card {x : Fin 2 × Fin m // (x.1 + x.2 : ℕ) = u} =
    (if u < m then 1 else 0) + if 1 ≤ u ∧ u ≤ m then 1 else 0 := by
  rw [Fintype.card_subtype, Finset.card_filter, Fintype.sum_prod_type, Fin.sum_univ_two,
    Fin.sum_univ_eq_sum_range (fun y => if ((0 : Fin 2) + y : ℕ) = u then 1 else 0) m,
    Fin.sum_univ_eq_sum_range (fun y => if ((1 : Fin 2) + y : ℕ) = u then 1 else 0) m]
  cases u with
  | zero => simp
  | succ u => simp [add_comm 1]

/-- The endpoints come from one window each, the values between them from two. -/
theorem card_windowValue_eq {v : ℤ} (hv : v ∈ Set.Icc (-2 ^ bound : ℤ) (2 ^ bound)) :
    Fintype.card {a : Fin (bound + 2) → Fin 2 // windowValue a = v} =
      if v = -2 ^ bound ∨ v = 2 ^ bound then 1 else 2 := by
  have hpos : 0 < 2 ^ bound := by positivity
  have hsucc : 2 ^ (bound + 1) = 2 * 2 ^ bound := by ring
  have hpow : (2 : ℤ) ^ bound = (2 ^ bound : ℕ) := rfl
  rw [hpow] at hv ⊢
  obtain ⟨hlow, hhigh⟩ := hv
  obtain ⟨u, hu⟩ := Int.eq_ofNat_of_zero_le (neg_le_iff_add_nonneg.mp hlow)
  have hcard := Fintype.card_congr ((Fin.consEquiv (fun _ => Fin 2)).symm.trans
    ((Equiv.refl (Fin 2)).prodCongr (finFunctionFinEquiv (m := 2) (n := bound + 1))) |>.subtypeEquiv
      (p := fun a => windowValue a = v) (q := fun x => (x.1 + x.2 : ℕ) = u) (fun a => ?_))
  · rw [hcard, card_add_eq]
    split_ifs <;> omega
  · rw [windowValue_eq, sub_eq_iff_eq_add, hu]
    exact Nat.cast_inj

end Windows

theorem tUniform_eq {Z : Type} [CommRing Z] {n bound : ℕ} (hbound : bound + 2 ≤ 128)
    {nextBitVec : ℕ → Outcome (List (Share Z))} {p : Role} {x : Fin (n * (bound + 2)) → Z}
    (hbits : nextBitVec (n * (bound + 2)) = .ok (List.ofFn fun k => ⟨p, x k⟩)) :
    tUniform n bound nextBitVec =
      .ok (List.ofFn fun i => ⟨p, windowSum fun k => x (bitWindow n bound (i, k))⟩) := by
  have hbit : ∀ (i : Fin n) (k : Fin (bound + 2)), indexVec (List.ofFn fun k => (⟨p, x k⟩ : Share Z))
      (n * (bound + 2) - 1 - i * (bound + 2) - k) = .ok ⟨p, x (bitWindow n bound (i, k))⟩ := by
    intro i k
    have hval : n * (bound + 2) - 1 - i * (bound + 2) - k = bitWindow n bound (i, k) := by
      simp only [bitWindow, Equiv.trans_apply, Fin.revPerm_apply, Fin.val_rev, finProdFinEquiv_apply_val]
      rw [mul_comm (bound + 2)]
      omega
    rw [hval, indexVec_eq_ok, List.getElem?_ofFn, dif_pos (bitWindow n bound (i, k)).isLt]
  rw [tUniform, hbits, ok_bind, ← List.map_coe_finRange_eq_range, List.mapM_map]
  refine (mapM_eq_ok (fun i _ => ?_)).trans (congrArg Except.ok (List.ofFn_eq_map).symm)
  have hfirst := hbit i 0
  rw [Fin.val_zero, Nat.sub_zero] at hfirst
  simp only [Function.comp_apply, hfirst, ok_bind, shiftedOne, if_pos (show bound < 128 by omega)]
  rw [List.range'_eq_map_range, ← List.map_coe_finRange_eq_range, List.map_map, List.foldlM_map]
  refine (foldlM_sum (fun v => (⟨p, v⟩ : Share Z))
    (f := fun j : Fin (bound + 1) => x (bitWindow n bound (i, j.succ)) * (2 ^ (j : ℕ) : ℕ)) ?_ _).trans
    ?_
  · intro j _ acc
    have hj := hbit i j.succ
    rw [Fin.val_succ, add_comm (j : ℕ)] at hj
    simp only [Function.comp_apply, hj, ok_bind, Nat.add_sub_cancel_left,
      if_pos (show (j : ℕ) < 128 by omega), pure_eq_ok]
  · rw [← List.ofFn_eq_map, List.sum_ofFn]
    simp [windowSum]

/-- The samples come from disjoint windows that cover the bits. The secret of a sample is the value of
its window, a signed integer between the bounds, and the value is exactly distributed. -/
theorem tUniform_exact (z : BaseRing) (e : ExtensionDegree) (n t bound : ℕ)
    (hbound : bound + 2 ≤ z.bits) :
    ∃ window : Fin n × Fin (bound + 2) ≃ Fin (n * (bound + 2)),
      (∀ nextBitVec (p : Role) (x : Fin (n * (bound + 2)) → GaloisRing z.bits e),
        nextBitVec (n * (bound + 2)) = .ok (List.ofFn fun k => ⟨p, x k⟩) →
        tUniform n bound nextBitVec =
          .ok (List.ofFn fun i => ⟨p, windowSum fun k => x (window (i, k))⟩)) ∧
      (∀ (f : Fin (n * (bound + 2)) → (GaloisRing z.bits e)[X]) (bits : _ → Fin 2),
        (∀ k, (f k).natDegree ≤ t ∧ (f k).eval 0 = (bits k : ℕ)) →
        ∀ i, ∃ g : (GaloisRing z.bits e)[X], g.natDegree ≤ t ∧
          g.eval 0 = (windowValue fun k => bits (window (i, k))) ∧
          ∀ x, g.eval x = windowSum fun k => (f (window (i, k))).eval x) ∧
      (∀ a : Fin (bound + 2) → Fin 2, windowValue a ∈ Set.Icc (-2 ^ bound : ℤ) (2 ^ bound) ∧
        (BitVec.ofInt z.bits (windowValue a)).toInt = windowValue a) ∧
      ∀ v ∈ Set.Icc (-2 ^ bound : ℤ) (2 ^ bound),
        Fintype.card {a : Fin (bound + 2) → Fin 2 // windowValue a = v} =
          if v = -2 ^ bound ∨ v = 2 ^ bound then 1 else 2 := by
  have hbits : z.bits ≤ 128 := by cases z <;> decide
  refine ⟨bitWindow n bound, fun _ _ _ h => tUniform_eq (hbound.trans hbits) h,
    fun f bits h i => ⟨windowSum fun k => f (bitWindow n bound (i, k)), ?_, ?_, fun x => ?_⟩,
    fun a => ⟨windowValue_mem a, ?_⟩, fun v hv => card_windowValue_eq hv⟩
  · exact natDegree_windowSum_le fun k => (h _).1
  · rw [← coe_evalRingHom, map_windowSum, ← eq_intCast (Int.castRingHom _), windowValue, map_windowSum]
    simp [(h _).2]
  · rw [← coe_evalRingHom, map_windowSum]
  · obtain ⟨hlow, hhigh⟩ := windowValue_mem a
    have hlt : (2 : ℤ) ^ bound < 2 ^ (z.bits - 1) := pow_lt_pow_right₀ (by norm_num) (by omega)
    exact BitVec.toInt_ofInt_eq_self z.bits_pos (by omega) (by omega)

/-- Two samples between -2 and 2. -/
theorem tUniform_exact_two_samples :
    ∃ window : Fin 2 × Fin (1 + 2) ≃ Fin (2 * (1 + 2)),
      tUniform 2 1 (fun _ => .ok (List.ofFn fun k : Fin (2 * (1 + 2)) =>
          (⟨1, (k : ℕ)⟩ : Share (GaloisRing BaseRing.z64.bits .three)))) =
        .ok (List.ofFn fun i => ⟨1, windowSum fun k => ((window (i, k) : ℕ) : GaloisRing _ _)⟩) ∧
      Fintype.card {a : Fin (1 + 2) → Fin 2 // windowValue a = 2} = 1 := by
  obtain ⟨window, hrun, -, -, hcard⟩ := tUniform_exact .z64 .three 2 1 1 (by decide)
  exact ⟨window, hrun _ 1 (fun k => (k : ℕ)) rfl, hcard 2 (by norm_num)⟩

end ThresholdKms
