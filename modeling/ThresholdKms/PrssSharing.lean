import ThresholdKms.PrssSetup

/-!
# Pseudorandom shares lie on polynomials

Each of the generators combines the values of all sets; what a party adds up is the value of that
combination at its point, because the polynomials of the other sets vanish there.
-/

open Polynomial ReplicatedSharing

namespace ThresholdKms

open Outcome

open GaloisRing

/-- The block cipher, the key of each set of parties, and the session. -/
structure PrssKeys where
  aes128 : PrfKey → AesBlock → AesBlock
  key : List Role → PrfKey
  sid : SessionId

def PrssKeys.prf (keys : PrssKeys) (s : List Role) : PrfAes :=
  PrfAes.new keys.aes128 (keys.key s) keys.sid

variable {counters : PRSSCounters}

section State

variable {w : ℕ} {e : ExtensionDegree} {n t : ℕ} (keys : PrssKeys)

/-- A party's point on the polynomial of a set. -/
noncomputable def setPoint (s : List Role) (i : Fin n) : GaloisRing w e :=
  (vanishing (excludedPoints n s)).eval (partyPoint i)

noncomputable def partySetup (n t : ℕ) (p : Role) : PRSSSetup w e where
  sets := (partySets n t p).map (fun s => ⟨s, keys.key s, List.ofFn (fun i : Fin n => setPoint s i)⟩)
  alphaPowers := List.ofFn (fun i : Fin n => computePowers (partyPoint i) t)

/-- A party's state in the session after any number of calls. -/
noncomputable def partyState (n t : ℕ) (counters : PRSSCounters) (p : Role) : PRSSState w e :=
  { (partySetup keys n t p).newPrssSessionState keys.aes128 keys.sid with counters := counters }

@[simp] theorem counters_partyState (n t : ℕ) (counters : PRSSCounters) (p : Role) :
    (partyState keys n t counters p : PRSSState w e).counters = counters := rfl

theorem embedPartiesAndComputeAlphaPowers_eq (hn : n < 2 ^ e.deg) (t : ℕ) :
    embedPartiesAndComputeAlphaPowers n t =
      .ok (List.ofFn (fun i : Fin n => computePowers (partyPoint i : GaloisRing w e) t)) := by
  have hparties : (partyRoles n).mapM getFromExceptionalSequence =
      .ok (List.ofFn (fun i : Fin n => (partyPoint i : GaloisRing w e))) :=
    mapM_ofFn (fun i => getFromExceptionalSequence_of_lt (by omega))
  rw [embedPartiesAndComputeAlphaPowers, range'_one_eq, hparties, ok_bind,
    computePowersList, List.map_ofFn]
  rfl

theorem prssSets_eq (F : Type) [Field F] [DecidableEq F] [G2p e F] (z : BaseRing)
    (hn : n < 2 ^ e.deg) (ht : t ≤ n) (p : Role) :
    prssSets F (partyRoles n) t p ((partySets n t p).map keys.key) =
      .ok (partySetup keys n t p : PRSSSetup z.bits e) := by
  have hfilter : (allSets n t).filter (fun s => decide (p ∈ s)) = partySets n t p := rfl
  rw [prssSets, createSets_eq ht, ok_bind, hfilter]
  simp only []
  rw [partyComputeFAPoints_eq F z hn, length_partyRoles,
    embedPartiesAndComputeAlphaPowers_eq hn, ok_bind,
    mapM_zipIdx (fun s idx hs => ?_)]
  · rfl
  · rw [assembleSet, List.getElem?_map, List.getElem?_map, hs]
    rfl

theorem setData_eq (caller : String) {i : Fin n} {set : PrssSet w e}
    {idx : ℕ} (h : (partySetup keys n t (i + 1) : PRSSSetup w e).sets[idx]? = some set) :
    setData caller (partyState keys n t counters (i + 1)) (i + 1) (set, idx) =
      .ok (keys.prf set.parties, setPoint set.parties i) := by
  rw [partySetup, List.getElem?_map, Option.map_eq_some_iff] at h
  obtain ⟨s, hs, rfl⟩ := h
  have hmem : (i : ℕ) + 1 ∈ s := of_decide_eq_true (List.mem_filter.mp (List.mem_of_getElem? hs)).2
  have hprf : (partyState keys n t counters ((i : ℕ) + 1) : PRSSState w e).prfs[idx]? =
      some (keys.prf s) := by
    simp only [partyState, partySetup, PRSSSetup.newPrssSessionState, List.map_map,
      List.getElem?_map, hs]
    rfl
  have hpoint : indexByRole (List.ofFn (fun j : Fin n => (setPoint s j : GaloisRing w e)))
      ((i : ℕ) + 1) = .ok (setPoint s i) := indexByRole_ofFn _ i
  rw [setData, if_pos hmem, hprf]
  simp only [hpoint]
  rfl

theorem map_parties_sets {β : Type*} (counters : PRSSCounters) (p : Role) (f : List Role → β) :
    (partyState keys n t counters p : PRSSState w e).prssSetup.sets.zipIdx.map
        (fun set => f set.1.parties) = (partySets n t p).map f := by
  have hsets : (partyState keys n t counters p : PRSSState w e).prssSetup.sets.map
      (fun set => f set.parties) = (partySets n t p).map f := List.map_map
  rw [← hsets, ← List.zipIdx_map_fst 0 (partyState keys n t counters p).prssSetup.sets,
    List.map_map, List.zipIdx_map_fst]
  rfl

theorem mapM_setData (caller : String) (counters : PRSSCounters) (i : Fin n) :
    (partyState keys n t counters (i + 1) : PRSSState w e).prssSetup.sets.zipIdx.mapM
        (setData caller (partyState keys n t counters (i + 1)) (i + 1)) =
      .ok ((partySets n t (i + 1)).map (fun s => (keys.prf s, setPoint s i))) := by
  refine (mapM_zipIdx (fun set idx h => setData_eq keys caller h)).trans ?_
  exact congrArg Except.ok List.map_map

end State

section Combination

variable {w : ℕ} {e : ExtensionDegree} {n t : ℕ}

/-- The sharing to which every set of parties contributes a value. -/
noncomputable def setSharing (n t : ℕ) (value : List Role → (GaloisRing w e)[X]) :
    (GaloisRing w e)[X] :=
  combination (combinations (n - t) (partyRoles n)) (excludedPoints n) value

theorem eval_setSharing (value : List Role → (GaloisRing w e)[X]) (i : Fin n) :
    (setSharing n t value).eval (partyPoint i) = ((partySets n t (i + 1)).map (fun s =>
      (value s).eval (partyPoint i) * setPoint s i)).sum := by
  apply eval_combination_filter
  intro s _ hs
  have hrole : (i : ℕ) + 1 ∈ partyRoles n := List.mem_ofFn.mpr ⟨i, rfl⟩
  exact List.mem_map.mpr ⟨(i : ℕ) + 1,
    List.mem_filter.mpr ⟨hrole, decide_eq_true (of_decide_eq_false hs)⟩, rfl⟩

theorem eval_zero_setSharing (F : Type) [Field F] [G2p e F] (hw : 0 < w) (hn : n < 2 ^ e.deg)
    (value : List Role → (GaloisRing w e)[X]) : (setSharing n t value).eval 0 =
      ((allSets n t).map (fun s => (value s).eval 0)).sum := by
  apply eval_zero_combination
  intro s _ a ha
  obtain ⟨p, hp, rfl⟩ := List.mem_map.mp ha
  exact isUnit_fromByte F hw hn (List.mem_filter.mp hp).1

theorem natDegree_setSharing_le (ht : t ≤ n) {d : ℕ} {value : List Role → (GaloisRing w e)[X]}
    (h : ∀ s, (value s).natDegree ≤ d) : (setSharing n t value).natDegree ≤ d + t :=
  natDegree_combination_le _ _ _ (fun s _ => h s) (fun _ hs => length_excludedPoints_le ht hs)

end Combination

section Prss

variable {z : BaseRing} {e : ExtensionDegree} {n t : ℕ} (keys : PrssKeys)

theorem u128Add_of_lt {a b : ℕ} (h : a + b < 2 ^ 128) : u128Add a b = .ok (a + b) := if_pos h

theorem nextBatch_eq {δ : Type} {data : Outcome δ} {d : δ}
    {element : δ → ℕ → Outcome (GaloisRing z.bits e)} {value : ℕ → GaloisRing z.bits e}
    {bound ctr amount : ℕ} (hdata : data = .ok d)
    (helement : ∀ c, c < bound → element d c = .ok (value c)) (hbound : bound < 2 ^ 128)
    (hctr : ctr + amount ≤ bound) :
    nextBatch data element ctr amount =
      .ok ((List.range amount).map (fun k => value (ctr + k)), ctr + amount) := by
  have hvalues : (List.range amount).mapM (fun idx => do
      let elementCtr ← u128Add ctr idx
      element d elementCtr) = .ok ((List.range amount).map (fun k => value (ctr + k))) := by
    apply mapM_eq_ok
    intro k hk
    rw [List.mem_range] at hk
    rw [u128Add_of_lt (by omega), ok_bind, helement _ (by omega)]
  rw [nextBatch, batchElements]
  split_ifs with hzero
  · rw [hzero, u128Add_of_lt (by omega)]
    rfl
  · rw [hdata, ok_bind, hvalues, u128Add_of_lt (by omega)]
    rfl

/-- The value of a set at a counter. -/
def psiOf (ctr : ℕ) (s : List Role) : GaloisRing z.bits e := prfValue (keys.prf s).psiAes ctr psiBlock

noncomputable def prssSharing (n t ctr : ℕ) : (GaloisRing z.bits e)[X] :=
  setSharing n t (fun s => C (psiOf keys ctr s))

theorem prssElement_eq {ctr : ℕ} (hctr : ctr < 2 ^ 112) (i : Fin n) :
    prssElement ((partySets n t (i + 1)).map
        (fun s => (keys.prf s, (setPoint s i : GaloisRing z.bits e)))) ctr =
      .ok ((prssSharing keys n t ctr).eval (partyPoint i)) := by
  rw [prssSharing, eval_setSharing]
  refine (foldlM_sum id
    (f := fun d : PrfAes × GaloisRing z.bits e => d.2 * prfValue d.1.psiAes ctr psiBlock) ?_ 0).trans
    ?_
  · intro d _ acc
    rw [psi_of_lt _ hctr]
    rfl
  · rw [List.map_map, zero_add]
    refine congrArg (fun l => Except.ok (List.sum l)) (List.map_congr_left fun s _ => ?_)
    rw [eval_C, mul_comm]
    rfl

theorem prssNextVec_eq {amount : ℕ}
    (hctr : counters.prssCtr + amount ≤ 2 ^ 112) (i : Fin n) :
    prssNextVec (partyState keys n t counters (i + 1)) (i + 1) amount =
      .ok ((List.range amount).map (fun k =>
          (prssSharing keys n t (counters.prssCtr + k)).eval (partyPoint i : GaloisRing z.bits e)),
        partyState keys n t { counters with prssCtr := counters.prssCtr + amount } (i + 1)) := by
  have hbatch := nextBatch_eq (mapM_setData keys "prss.next()" counters i)
    (fun c hc => prssElement_eq (z := z) (e := e) (t := t) keys hc i) (by norm_num) hctr
  rw [prssNextVec, counters_partyState, hbatch]
  rfl

end Prss

/-!
## Pseudorandom sharings of zero

Each set contributes a polynomial without a constant term, whose coefficients are the pseudorandom
values of the set, so the combination has twice the degree and the value zero at zero.
-/

variable {z : BaseRing} {e : ExtensionDegree} {n t : ℕ} (keys : PrssKeys)

def chiOf (ctr j : ℕ) (s : List Role) : GaloisRing z.bits e :=
  prfValue (keys.prf s).chiAes ctr (chiBlock j)

/-- The contribution of a set. -/
noncomputable def chiPoly (t ctr : ℕ) (s : List Role) : (GaloisRing z.bits e)[X] :=
  ∑ j : Fin t, C (chiOf keys ctr (j + 1) s) * X ^ ((j : ℕ) + 1)

noncomputable def przsSharing (n t ctr : ℕ) : (GaloisRing z.bits e)[X] :=
  setSharing n t (chiPoly keys t ctr)

theorem przsSharing_zero_threshold (n ctr : ℕ) :
    (przsSharing keys n 0 ctr : (GaloisRing z.bits e)[X]) = 0 := by
  simp [przsSharing, setSharing, combination, chiPoly]

theorem natDegree_chiPoly_le (t ctr : ℕ) (s : List Role) :
    (chiPoly keys t ctr s : (GaloisRing z.bits e)[X]).natDegree ≤ t := by
  refine natDegree_sum_le_of_forall_le _ _ (fun j _ => ?_)
  exact (natDegree_C_mul_X_pow_le _ _).trans j.isLt

theorem eval_zero_chiPoly (t ctr : ℕ) (s : List Role) :
    (chiPoly keys t ctr s : (GaloisRing z.bits e)[X]).eval 0 = 0 := by
  rw [chiPoly, eval_finsetSum]
  apply Finset.sum_eq_zero
  intro j _
  rw [eval_mul, eval_pow, eval_X, zero_pow (by omega), mul_zero]

theorem przsSetData_eq {i : Fin n} {set : PrssSet z.bits e} {idx : ℕ}
    (h : (partySetup keys n t (i + 1) : PRSSSetup z.bits e).sets[idx]? = some set) :
    przsSetData (partyState keys n t counters (i + 1)) (i + 1) t (set, idx) =
      .ok (keys.prf set.parties, List.ofFn (fun j : Fin t =>
        setPoint set.parties i * partyPoint i ^ ((j : ℕ) + 1))) := by
  have hpowers : indexByRole (partyState keys n t counters (i + 1) :
      PRSSState z.bits e).prssSetup.alphaPowers (i + 1) = .ok (computePowers (partyPoint i) t) :=
    indexByRole_ofFn (fun i : Fin n => computePowers (partyPoint i) t) i
  have hindex : ∀ j : Fin t, indexVec (computePowers (partyPoint i : GaloisRing z.bits e) t)
      ((j : ℕ) + 1) = .ok (partyPoint i ^ ((j : ℕ) + 1)) := by
    intro j
    rw [indexVec, computePowers_eq, List.getElem?_map, List.getElem?_range (by omega)]
    rfl
  have hproducts : (partyRoles t).mapM (fun j => do
      let powers ← indexByRole (partyState keys n t counters (i + 1) :
        PRSSState z.bits e).prssSetup.alphaPowers (i + 1)
      let alphaJ ← indexVec powers j
      return setPoint set.parties i * alphaJ) = .ok (List.ofFn (fun j : Fin t =>
        setPoint set.parties i * partyPoint i ^ ((j : ℕ) + 1))) := by
    apply mapM_ofFn
    intro j
    rw [hpowers, ok_bind, hindex j]
    rfl
  rw [przsSetData, setData_eq keys "przs.next()" h, ok_bind]
  simp only []
  rw [range'_one_eq, hproducts]
  rfl

theorem mapM_przsSetData (counters : PRSSCounters) (i : Fin n) :
    (partyState keys n t counters (i + 1) : PRSSState z.bits e).prssSetup.sets.zipIdx.mapM
        (przsSetData (partyState keys n t counters (i + 1)) (i + 1) t) =
      .ok ((partySets n t (i + 1)).map (fun s => (keys.prf s, List.ofFn (fun j : Fin t =>
        setPoint s i * partyPoint i ^ ((j : ℕ) + 1))))) := by
  refine (mapM_zipIdx (fun set idx h => przsSetData_eq keys h)).trans ?_
  exact congrArg Except.ok List.map_map

theorem przsElement_eq {ctr : ℕ} (hctr : ctr < 2 ^ 104) (i : Fin n) :
    przsElement ((partySets n t (i + 1)).map (fun s => (keys.prf s, List.ofFn (fun j : Fin t =>
        (setPoint s i * partyPoint i ^ ((j : ℕ) + 1) : GaloisRing z.bits e))))) ctr =
      .ok ((przsSharing keys n t ctr).eval (partyPoint i)) := by
  rw [przsSharing, eval_setSharing]
  refine (foldlM_sum id (f := fun d : PrfAes × List (GaloisRing z.bits e) =>
    (d.2.zipIdx.map (fun v => v.1 * prfValue d.1.chiAes ctr (chiBlock (v.2 + 1)))).sum) ?_ 0).trans ?_
  · intro d _ acc
    refine foldlM_sum id ?_ acc
    intro v _ acc
    rw [chi_of_lt _ hctr]
    rfl
  · rw [List.map_map, zero_add]
    refine congrArg (fun l => Except.ok (List.sum l)) (List.map_congr_left fun s _ => ?_)
    rw [Function.comp_apply, zipIdx_ofFn, List.map_ofFn, List.sum_ofFn, chiPoly, eval_finsetSum,
      Finset.sum_mul]
    apply Finset.sum_congr rfl
    intro j _
    rw [Function.comp_apply, eval_mul, eval_C, eval_pow, eval_X, chiOf]
    ring

theorem przsNextVec_eq {amount : ℕ}
    (hctr : counters.przsCtr + amount ≤ 2 ^ 104) (i : Fin n) :
    przsNextVec (partyState keys n t counters (i + 1)) (i + 1) t amount =
      .ok ((List.range amount).map (fun k =>
          (przsSharing keys n t (counters.przsCtr + k)).eval (partyPoint i : GaloisRing z.bits e)),
        partyState keys n t { counters with przsCtr := counters.przsCtr + amount } (i + 1)) := by
  have hbatch := nextBatch_eq (mapM_przsSetData keys counters i)
    (fun c hc => przsElement_eq (z := z) (e := e) (t := t) keys hc i) (by norm_num) hctr
  rw [przsNextVec, counters_partyState, hbatch]
  rfl

end ThresholdKms
