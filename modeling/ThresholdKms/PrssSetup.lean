import ThresholdKms.Prss
import ThresholdKms.ReplicatedSharing
import ThresholdKms.Reshare

/-!
# The setup of a party

The computed points of a set are the values of the polynomial that is one at zero and vanishes at the
parties outside the set. The sets of a party are all sets of `n - t` parties that contain it.
-/

open Polynomial ReplicatedSharing

namespace ThresholdKms

open Outcome

open GaloisRing

variable {w : ℕ} {e : ExtensionDegree} {n : ℕ}

theorem range'_one_eq (n : ℕ) : List.range' 1 n = partyRoles n := by
  apply List.ext_getElem
  · rw [List.length_range', partyRoles, List.length_ofFn]
  · intro i h₁ h₂
    simp [partyRoles, add_comm]

section Roots

theorem isUnit_fromByte (F : Type) [Field F] [G2p e F] (hw : 0 < w) (hn : n < 2 ^ e.deg) {p : Role}
    (hp : p ∈ partyRoles n) : IsUnit (fromByte p : GaloisRing w e) := by
  obtain ⟨i, rfl⟩ := List.mem_ofFn.mp hp
  rw [(dyadic F hw).isUnit_iff]
  have hres := residue_partyPoint (w := w) F hw hn i
  rw [partyPoint] at hres
  rw [hres]
  exact fromU8_party_ne_zero F hn i

theorem exists_normalizedRoot {z : BaseRing} {x : GaloisRing z.bits e} (hx : IsUnit x) :
    ∃ root : Poly (GaloisRing z.bits e),
      Poly.mul (Poly.add (Poly.fromCoefs [0, 1]) (Poly.fromCoefs [0 - x]))
        (Poly.fromCoefs [Ring.inverse (0 - x)]) = .ok root ∧ root.toPoly = normalizedRoot x := by
  have hinv : (Poly.fromCoefs [Ring.inverse (0 - x)]).toPoly = C (Ring.inverse (-x)) := by
    simp [CoefficientList.ofList_cons]
  have hne : (Poly.fromCoefs [Ring.inverse (0 - x)]).coefs ≠ [] := by
    apply Poly.coefs_ne_nil
    rw [hinv, ne_eq, C_eq_zero]
    exact hx.neg.ringInverse.ne_zero
  obtain ⟨root, hmul, hpoly⟩ := Poly.mul_eq_ok
    (a := Poly.add (Poly.fromCoefs [0, 1]) (Poly.fromCoefs [0 - x])) (Or.inr hne)
  refine ⟨root, hmul, ?_⟩
  rw [hpoly, Poly.toPoly_add, normalizedRoot]
  simp [CoefficientList.ofList_cons, sub_eq_add_neg]

variable (F : Type) [Field F] [DecidableEq F] [G2p e F]

theorem normalizedPartiesRoot_eq (z : BaseRing) (hn : n < 2 ^ e.deg) :
    ∃ roots : Fin n → Poly (GaloisRing z.bits e),
      normalizedPartiesRoot F n = .ok (List.ofFn roots, (List.range (n + 1)).map fromByte) ∧
        ∀ i, (roots i).toPoly = normalizedRoot (partyPoint i) := by
  have hunit : ∀ i : Fin n, IsUnit (partyPoint i : GaloisRing z.bits e) := fun i =>
    isUnit_fromByte F z.bits_pos hn (List.mem_ofFn.mpr ⟨i, rfl⟩)
  have hinverses : (partyRoles n).mapM (fun idx => do
      let gamma : GaloisRing z.bits e ← getFromExceptionalSequence idx
      invert F (0 - gamma)) =
        .ok (List.ofFn (fun i : Fin n => Ring.inverse (0 - partyPoint i))) := by
    apply mapM_ofFn
    intro i
    rw [getFromExceptionalSequence_of_lt (show (i : ℕ) + 1 < 2 ^ e.deg by omega)]
    exact invert_of_isUnit F z (by rw [zero_sub]; exact (hunit i).neg)
  have hcoords : (List.range (n + 1)).mapM getFromExceptionalSequence =
      .ok ((List.range (n + 1)).map (fromByte : ℕ → GaloisRing z.bits e)) := by
    apply mapM_eq_ok
    intro p hp
    exact getFromExceptionalSequence_of_lt (by have := List.mem_range.mp hp; omega)
  choose roots hmul hpoly using fun i => exists_normalizedRoot (hunit i)
  have hres : (partyRoles n).mapM (fun p =>
      Poly.mul (Poly.add (Poly.fromCoefs [0, 1])
        ((((List.range (n + 1)).map (fromByte : ℕ → GaloisRing z.bits e)).map
          (fun x => Poly.fromCoefs [0 - x])).getD p Poly.zero))
        (Poly.fromCoefs [(0 :: List.ofFn (fun i : Fin n =>
          Ring.inverse (0 - partyPoint i : GaloisRing z.bits e))).getD p 0])) =
      .ok (List.ofFn roots) := by
    apply mapM_ofFn
    intro i
    rw [List.getD_cons_succ, ← hmul i]
    simp [partyPoint]
  refine ⟨roots, ?_, hpoly⟩
  rw [normalizedPartiesRoot, range'_one_eq, hinverses, ok_bind]
  simp only []
  rw [hcoords, ok_bind, hres]
  rfl

end Roots

section Points

/-- The points of the parties outside a set. -/
def excludedPoints (n : ℕ) (s : List Role) : List (GaloisRing w e) :=
  ((partyRoles n).filter (fun p => decide (p ∉ s))).map fromByte

theorem foldlM_fAPoly {roots : Fin n → Poly (GaloisRing w e)} [Nontrivial (GaloisRing w e)]
    (hunit : ∀ i : Fin n, IsUnit (partyPoint i : GaloisRing w e))
    (hroots : ∀ i, (roots i).toPoly = normalizedRoot (partyPoint i)) (s : List Role)
    {l : List Role} (hl : l ⊆ partyRoles n) (poly : Poly (GaloisRing w e)) :
    ∃ res : Poly (GaloisRing w e), l.foldlM (fun poly p =>
        if p ∈ s then
          .ok poly
        else do
          let root ← indexByRole (List.ofFn roots) p
          Poly.mul poly root) poly = .ok res ∧
      res.toPoly = poly.toPoly * vanishing ((l.filter (fun p => decide (p ∉ s))).map fromByte) := by
  induction l generalizing poly with
  | nil => exact ⟨poly, rfl, by simp [vanishing]⟩
  | cons p l ih =>
    have hrest : l ⊆ partyRoles n := fun q hq => hl (List.mem_cons_of_mem p hq)
    by_cases hp : p ∈ s
    · obtain ⟨res, hrun, hpoly⟩ := ih hrest poly
      refine ⟨res, ?_, ?_⟩
      · rw [List.foldlM_cons, if_pos hp, ok_bind, hrun]
      · rw [hpoly, List.filter_cons_of_neg (by simpa using hp)]
    · obtain ⟨i, rfl⟩ := List.mem_ofFn.mp (hl List.mem_cons_self)
      have hindex := indexByRole_ofFn roots i
      have hne : (roots i).coefs ≠ [] := Poly.coefs_ne_nil
        (by rw [hroots]; exact normalizedRoot_ne_zero (hunit i))
      obtain ⟨next, hmul, hnext⟩ := Poly.mul_eq_ok (a := poly) (Or.inr hne)
      obtain ⟨res, hrun, hpoly⟩ := ih hrest next
      refine ⟨res, ?_, ?_⟩
      · rw [List.foldlM_cons, if_neg hp, hindex, ok_bind, hmul, ok_bind, hrun]
      · rw [hpoly, hnext, hroots, List.filter_cons_of_pos (by simpa using hp), List.map_cons,
          mul_assoc]
        rfl

variable (F : Type) [Field F] [DecidableEq F] [G2p e F]

theorem partyComputeFAPoints_eq (z : BaseRing) (hn : n < 2 ^ e.deg) (sets : List (List Role)) :
    partyComputeFAPoints F (partyRoles n) sets = .ok (sets.map (fun s => List.ofFn (fun i : Fin n =>
        (vanishing (excludedPoints n s)).eval (partyPoint i : GaloisRing z.bits e)))) := by
  obtain ⟨roots, hrun, hroots⟩ := normalizedPartiesRoot_eq F z hn
  rw [partyComputeFAPoints, length_partyRoles, hrun]
  apply mapM_eq_ok
  intro s _
  obtain ⟨poly, hpoly, heq⟩ := foldlM_fAPoly
    (fun i => isUnit_fromByte F z.bits_pos hn (List.mem_ofFn.mpr ⟨i, rfl⟩)) hroots s
    (List.Subset.refl (partyRoles n)) (Poly.fromCoefs [1])
  have hpoints : poly.toPoly = vanishing (excludedPoints n s) := by
    rw [heq]
    simp [CoefficientList.ofList_cons, excludedPoints]
  rw [fAPoly, hpoly, ok_bind, range'_one_eq, partyRoles, List.map_ofFn]
  refine congrArg (fun v => Except.ok (List.ofFn v)) (funext fun i => ?_)
  rw [Function.comp_apply, Poly.eval_eq, hpoints]
  simp [partyPoint]

end Points

section Sets

variable {α : Type}

theorem combinations_perm (k : ℕ) (l : List α) :
    (combinations k l).Perm (List.sublistsLen k l) := by
  induction l generalizing k with
  | nil =>
    cases k with
    | zero => rfl
    | succ k => rfl
  | cons x l ih =>
    cases k with
    | zero => rw [combinations, List.sublistsLen_zero]
    | succ k =>
      rw [List.sublistsLen_succ_cons]
      exact List.perm_append_comm.trans ((ih (k + 1)).append ((ih k).map _))

variable {k : ℕ}

theorem mem_combinations {l s : List α} : s ∈ combinations k l ↔ s.Sublist l ∧ s.length = k :=
  (combinations_perm k l).mem_iff.trans List.mem_sublistsLen

variable {l : List α}

theorem nodup_combinations (h : l.Nodup) : (combinations k l).Nodup :=
  (combinations_perm k l).nodup_iff.mpr (List.nodup_sublistsLen k h)

theorem combinations_ne_nil (h : k ≤ l.length) : combinations k l ≠ [] :=
  List.ne_nil_of_mem (mem_combinations.mpr ⟨List.take_sublist k l, List.length_take_of_le h⟩)

theorem exists_mem_combinations {x : α} (hx : x ∈ l)
    (hk : k + 1 ≤ l.length) : ∃ s ∈ combinations (k + 1) l, x ∈ s := by
  induction l generalizing k with
  | nil => cases hx
  | cons y l ih =>
    rw [List.length_cons] at hk
    rcases List.mem_cons.mp hx with rfl | hx
    · obtain ⟨s, hs⟩ := List.exists_mem_of_ne_nil _ (combinations_ne_nil (show k ≤ l.length by omega))
      exact ⟨x :: s, List.mem_append_left _ (List.mem_map.mpr ⟨s, hs, rfl⟩), List.mem_cons_self⟩
    · by_cases hlen : k + 1 ≤ l.length
      · obtain ⟨s, hs, hxs⟩ := ih hx hlen
        exact ⟨s, List.mem_append_right _ hs, hxs⟩
      · have hpos := List.length_pos_of_mem hx
        obtain ⟨m, rfl⟩ : ∃ m, k = m + 1 := ⟨k - 1, by omega⟩
        obtain ⟨s, hs, hxs⟩ := ih hx (show m + 1 ≤ l.length by omega)
        exact ⟨y :: s, List.mem_append_left _ (List.mem_map.mpr ⟨s, hs, rfl⟩),
          List.mem_cons_of_mem _ hxs⟩

variable {t : ℕ}

theorem length_excludedPoints_le (ht : t ≤ n) {s : List Role}
    (hs : s ∈ combinations (n - t) (partyRoles n)) :
    (excludedPoints n s : List (GaloisRing w e)).length ≤ t := by
  obtain ⟨hsub, hlen⟩ := mem_combinations.mp hs
  have hle : s.length ≤ ((partyRoles n).filter (fun p => decide (p ∈ s))).length := by
    apply (((nodup_partyRoles n).sublist hsub).subperm ?_).length_le
    intro p hp
    exact List.mem_filter.mpr ⟨hsub.subset hp, decide_eq_true hp⟩
  have hsplit := List.length_eq_length_filter_add (l := partyRoles n) (fun p => decide (p ∈ s))
  have hnot : (partyRoles n).filter (fun p => decide (p ∉ s)) =
      (partyRoles n).filter (fun p => !decide (p ∈ s)) := by
    simp only [decide_not]
  rw [excludedPoints, List.length_map, hnot]
  rw [length_partyRoles] at hsplit
  omega

/-- The sets that have a key. -/
abbrev allSets (n t : ℕ) : List (List Role) := combinations (n - t) (partyRoles n)

theorem createSets_eq (ht : t ≤ n) :
    createSets (partyRoles n) t = .ok (combinations (n - t) (partyRoles n)) := by
  rw [createSets, length_partyRoles, usizeSub_of_le ht]
  rfl

/-- The sets of a party. -/
def partySets (n t : ℕ) (p : Role) : List (List Role) :=
  (combinations (n - t) (partyRoles n)).filter (fun s => decide (p ∈ s))

theorem partySets_ne_nil (ht : t < n) {p : Role} (hp : p ∈ partyRoles n) :
    partySets n t p ≠ [] := by
  obtain ⟨s, hs, hps⟩ := exists_mem_combinations (k := n - t - 1) hp
    (by rw [length_partyRoles]; omega)
  rw [show n - t - 1 + 1 = n - t by omega] at hs
  exact List.ne_nil_of_mem (List.mem_filter.mpr ⟨hs, decide_eq_true hps⟩)

end Sets

end ThresholdKms
