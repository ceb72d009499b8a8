import ThresholdKms.PrssRange
import ThresholdKms.TripleReconstruction

/-!
# One batch of triples

The shares of a batch are values of polynomials that all parties have in common: two factors and a
mask of degree `t`, and a sharing of zero of twice the degree. What an honest party does after the
broadcast is determined by these polynomials and by the broadcast values.
-/

open Polynomial ReceivedWord

namespace ThresholdKms

open GaloisRing Lockstep

/-- The sharings behind the shares of a batch. -/
structure BatchSharing (R : Type) [CommRing R] (t : ℕ) where
  x : ℕ → R[X]
  y : ℕ → R[X]
  v : ℕ → R[X]
  z : ℕ → R[X]
  natDegree_x_le : ∀ i, (x i).natDegree ≤ t
  natDegree_y_le : ∀ i, (y i).natDegree ≤ t
  natDegree_v_le : ∀ i, (v i).natDegree ≤ t
  natDegree_z_le : ∀ i, (z i).natDegree ≤ 2 * t
  eval_zero_z : ∀ i, (z i).eval 0 = 0

namespace BatchSharing

section Ring

variable {R : Type} [CommRing R] {t : ℕ} (batch : BatchSharing R t)

/-- The masked product. -/
noncomputable def product (i : ℕ) : R[X] := batch.x i * batch.y i + (batch.z i + batch.v i)

theorem natDegree_product_le (i : ℕ) : (batch.product i).natDegree ≤ 2 * t := by
  have hmul : (batch.x i * batch.y i).natDegree ≤ 2 * t := by
    have := natDegree_mul_le_of_le (batch.natDegree_x_le i) (batch.natDegree_y_le i)
    omega
  have hmask : (batch.v i).natDegree ≤ 2 * t := by
    have := batch.natDegree_v_le i
    omega
  exact natDegree_add_le_of_degree_le hmul
    (natDegree_add_le_of_degree_le (batch.natDegree_z_le i) hmask)

theorem eval_zero_product (i : ℕ) : (batch.product i).eval 0 =
    (batch.x i).eval 0 * (batch.y i).eval 0 + (batch.v i).eval 0 := by
  rw [product, eval_add, eval_mul, eval_add, batch.eval_zero_z, zero_add]

end Ring

variable {w : ℕ} {e : ExtensionDegree} {t : ℕ} (batch : BatchSharing (GaloisRing w e) t)

noncomputable def sharesAt (amount : ℕ) (p : Role) : BatchShares (GaloisRing w e) where
  x := (List.range amount).map (fun i => (batch.x i).eval (fromByte p))
  y := (List.range amount).map (fun i => (batch.y i).eval (fromByte p))
  v := (List.range amount).map (fun i => (batch.v i).eval (fromByte p))
  d := (List.range amount).map (fun i => (batch.product i).eval (fromByte p))

/-- The triple that a party makes of an opened masked product. -/
noncomputable def tripleAt (p : Role) (i : ℕ) (d : GaloisRing w e) : Triple (GaloisRing w e) :=
  ⟨⟨p, (batch.x i).eval (fromByte p)⟩, ⟨p, (batch.y i).eval (fromByte p)⟩,
    ⟨p, d - (batch.v i).eval (fromByte p)⟩⟩

noncomputable def triplesAt (n amount : ℕ)
    (dRecons : Role → BroadcastValue (SmallValue (GaloisRing w e))) (p : Role) :
    List (Triple (GaloisRing w e)) :=
  (List.range amount).filterMap (fun i =>
    (openedProduct n amount dRecons t i).map (batch.tripleAt p i))

end BatchSharing

/-- The indices whose masked product is not reconstructed. -/
noncomputable def badIndices {w : ℕ} {e : ExtensionDegree} (n amount t : ℕ)
    (dRecons : Role → BroadcastValue (SmallValue (GaloisRing w e))) : List ℕ :=
  (List.range amount).filter (fun i => (openedProduct n amount dRecons t i).isNone)

theorem slice_map_range {α : Type} (f : ℕ → α) {total start amount : ℕ}
    (h : start + amount ≤ total) :
    (((List.range total).map f).drop start).take amount =
      (List.range amount).map (fun i => f (start + i)) := by
  apply List.ext_getElem
  · simp
    omega
  · intro i h₁ h₂
    simp

section Assemble

variable {z : BaseRing} {e : ExtensionDegree} {t amount : ℕ}
  (batch : BatchSharing (GaloisRing z.bits e) t)

theorem batchShares_eq {p : Role}
    {f g : ℕ → GaloisRing z.bits e} (hx : ∀ i, f i = (batch.x i).eval (fromByte p))
    (hy : ∀ i, f (amount + i) = (batch.y i).eval (fromByte p))
    (hv : ∀ i, f (2 * amount + i) = (batch.v i).eval (fromByte p))
    (hz : ∀ i, g i = (batch.z i).eval (fromByte p)) :
    batchShares amount ((List.range (3 * amount)).map f) ((List.range amount).map g) =
      .ok (batch.sharesAt amount p) := by
  obtain rfl : g = fun i => (batch.z i).eval (fromByte p) := funext hz
  have hslice : ((List.range (3 * amount)).map f).take amount =
      (List.range amount).map (fun i => (batch.x i).eval (fromByte p)) := by
    have := slice_map_range f (show 0 + amount ≤ 3 * amount by omega)
    simpa only [List.drop_zero, zero_add, hx] using this
  have hd : (((((List.range amount).map (fun i => (batch.x i).eval (fromByte p))).zip
      ((List.range amount).map (fun i => (batch.y i).eval (fromByte p)))).zip
      ((List.range amount).map (fun i => (batch.v i).eval (fromByte p)))).zip
      ((List.range amount).map (fun i => (batch.z i).eval (fromByte p)))).map
      (fun q => q.1.1.1 * q.1.1.2 + (q.2 + q.1.2)) =
      (List.range amount).map (fun i => (batch.product i).eval (fromByte p)) := by
    apply List.ext_getElem
    · simp
    · intro i h₁ h₂
      simp [BatchSharing.product]
  rw [batchShares]
  simp only [hslice, slice_map_range f (show amount + amount ≤ 3 * amount by omega),
    slice_map_range f (show 2 * amount + amount ≤ 3 * amount by omega), hy, hv,
    List.length_map, List.length_range, ne_eq, not_true_eq_false, or_self, if_false]
  exact congrArg (fun d => Except.ok (BatchShares.mk _ _ _ d)) hd

theorem assembleTriples_eq (n : ℕ) (p : Role)
    (dRecons : Role → BroadcastValue (SmallValue (GaloisRing z.bits e))) :
    assembleTriples p ((List.range amount).map (openedProduct n amount dRecons t))
        (batch.sharesAt amount p) =
      .ok (batch.triplesAt n amount dRecons p, badIndices n amount t dRecons) := by
  have hzip : (((List.range amount).map (fun i => (batch.x i).eval (fromByte p))).zip
      (((List.range amount).map (fun i => (batch.y i).eval (fromByte p))).zip
      ((List.range amount).map (fun i => (batch.v i).eval (fromByte p))))).zipIdx =
      (List.range amount).map (fun i => (((batch.x i).eval (fromByte p),
        (batch.y i).eval (fromByte p), (batch.v i).eval (fromByte p)), i)) := by
    apply List.ext_getElem
    · simp
    · intro i h₁ h₂
      simp
  rw [assembleTriples, BatchSharing.sharesAt, hzip, List.foldlM_map]
  refine Outcome.foldlM_range_eq (fun k => ((List.range k).filterMap (fun i =>
      (openedProduct n amount dRecons t i).map (batch.tripleAt p i)),
    (List.range k).filter (fun i => (openedProduct n amount dRecons t i).isNone))) fun i hi => ?_
  have hget : ((List.range amount).map (openedProduct n amount dRecons t))[i]? =
      some (openedProduct n amount dRecons t i) := by
    simp [hi]
  simp only [hget]
  cases hopened : openedProduct n amount dRecons t i with
  | some d => simp [List.range_succ, hopened, BatchSharing.tripleAt]
  | none => simp [List.range_succ, hopened]

end Assemble

/-!
## The first round of a batch

All honest parties hold setups for the same keys and are at the same counters. The shares that they
draw for a batch are then values of the polynomials of the batch, and the rest of the batch follows
from the values that are broadcast.
-/

open Outcome

section Draw

variable {z : BaseRing} {e : ExtensionDegree} {n t : ℕ} (keys : PrssKeys)
  {l : List (GaloisRing z.bits e)}

theorem nextBatch_eq_ok {δ : Type} {data : Outcome δ} {d : δ}
    {element : δ → ℕ → Outcome (GaloisRing z.bits e)} (value : ℕ → GaloisRing z.bits e)
    {ctr amount next : ℕ} (hdata : data = .ok d)
    (helement : ∀ c x, element d c = .ok x → x = value c)
    (h : nextBatch data element ctr amount = .ok (l, next)) :
    l = (List.range amount).map (fun k => value (ctr + k)) ∧ next = ctr + amount := by
  obtain ⟨values, hvalues, h⟩ := bind_eq_ok.mp h
  obtain ⟨next', hnext, h⟩ := bind_eq_ok.mp h
  cases h
  refine ⟨?_, (u128Add_eq_ok hnext).2⟩
  rw [batchElements, hdata, ok_bind] at hvalues
  split_ifs at hvalues with hzero
  · cases hvalues
    rw [hzero]
    rfl
  · have hforall := forall₂_of_mapM hvalues
    apply List.ext_getElem
    · rw [List.length_map]
      exact hforall.length_eq.symm
    · intro k h₁ h₂
      rw [List.length_map] at h₂
      obtain ⟨c, hc, hx⟩ := bind_eq_ok.mp (hforall.get h₂ h₁)
      have hvalue := helement c _ hx
      rw [(u128Add_eq_ok hc).2] at hvalue
      simpa using hvalue

variable {counters : PRSSCounters} {s : PRSSState z.bits e} {i : Fin n}

theorem prssNextVec_eq_ok (ht : t < n) {amount : ℕ}
    (h : prssNextVec (partyState keys n t counters (i + 1)) (i + 1) amount = .ok (l, s)) :
    l = (List.range amount).map (fun k =>
        (prssSharing keys n t (counters.prssCtr + k)).eval (partyPoint i)) ∧
      s = partyState keys n t { counters with prssCtr := counters.prssCtr + amount } (i + 1) := by
  obtain ⟨⟨values, next⟩, hbatch, h⟩ := bind_eq_ok.mp h
  cases h
  obtain ⟨hl, hnext⟩ := nextBatch_eq_ok (fun c => (prssSharing keys n t c).eval (partyPoint i))
    (mapM_setData keys "prss.next()" counters i) (fun c x hx => by
      have hc := prssElement_lt (by
        rw [Ne, List.map_eq_nil_iff]
        exact partySets_ne_nil ht (List.mem_ofFn.mpr ⟨i, rfl⟩)) hx
      rw [prssElement_eq keys hc i] at hx
      exact (Except.ok.inj hx).symm) hbatch
  rw [hl, hnext]
  exact ⟨rfl, rfl⟩

theorem przsElement_value (ht : t < n) {c : ℕ} {x : GaloisRing z.bits e}
    (h : przsElement ((partySets n t (i + 1)).map (fun s => (keys.prf s, List.ofFn (fun j : Fin t =>
      (setPoint s i * partyPoint i ^ ((j : ℕ) + 1) : GaloisRing z.bits e))))) c = .ok x) :
    x = (przsSharing keys n t c).eval (partyPoint i) := by
  rcases Nat.eq_zero_or_pos t with rfl | hpos
  · rw [przsElement_eq_zero (by simp)] at h
    rw [przsSharing_zero_threshold, eval_zero]
    exact (Except.ok.inj h).symm
  · have hc : c < 2 ^ 104 := by
      cases hcases : partySets n t (i + 1) with
      | nil => exact absurd hcases (partySets_ne_nil ht (List.mem_ofFn.mpr ⟨i, rfl⟩))
      | cons set sets =>
        rw [hcases] at h
        refine przsElement_lt ?_ h
        rw [Ne, List.ofFn_eq_nil_iff]
        exact hpos.ne'
    rw [przsElement_eq keys hc i] at h
    exact (Except.ok.inj h).symm

theorem przsNextVec_eq_ok (ht : t < n) {amount : ℕ}
    (h : przsNextVec (partyState keys n t counters (i + 1)) (i + 1) t amount = .ok (l, s)) :
    l = (List.range amount).map (fun k =>
        (przsSharing keys n t (counters.przsCtr + k)).eval (partyPoint i)) ∧
      s = partyState keys n t { counters with przsCtr := counters.przsCtr + amount } (i + 1) := by
  obtain ⟨⟨values, next⟩, hbatch, h⟩ := bind_eq_ok.mp h
  cases h
  obtain ⟨hl, hnext⟩ := nextBatch_eq_ok _ (mapM_przsSetData keys counters i)
    (fun c x hx => przsElement_value keys ht hx) hbatch
  rw [hl, hnext]
  exact ⟨rfl, rfl⟩

theorem natDegree_prssSharing_le (ht : t ≤ n) (ctr : ℕ) :
    (prssSharing keys n t ctr : (GaloisRing z.bits e)[X]).natDegree ≤ t := by
  have hdeg := natDegree_setSharing_le ht (d := 0)
    (fun s => (natDegree_C (psiOf keys ctr s : GaloisRing z.bits e)).le)
  rwa [zero_add] at hdeg

theorem natDegree_przsSharing_le (ht : t ≤ n) (ctr : ℕ) :
    (przsSharing keys n t ctr : (GaloisRing z.bits e)[X]).natDegree ≤ 2 * t := by
  rw [two_mul]
  exact natDegree_setSharing_le ht (natDegree_chiPoly_le keys t ctr)

theorem eval_zero_przsSharing (F : Type) [Field F] [G2p e F] (hn : n < 2 ^ e.deg) (ctr : ℕ) :
    (przsSharing keys n t ctr : (GaloisRing z.bits e)[X]).eval 0 = 0 := by
  rw [przsSharing, eval_zero_setSharing F z.bits_pos hn]
  simp [eval_zero_chiPoly]

/-- A batch consumes three random sharings and a sharing of zero for each triple. -/
def PRSSCounters.afterBatch (counters : PRSSCounters) (amount : ℕ) : PRSSCounters :=
  { counters with
    prssCtr := counters.prssCtr + 3 * amount
    przsCtr := counters.przsCtr + amount }

/-- The polynomials of the batch that starts at the counters. -/
noncomputable def prssBatch (F : Type) [Field F] [G2p e F] (ht : t ≤ n) (hn : n < 2 ^ e.deg)
    (counters : PRSSCounters) (amount : ℕ) : BatchSharing (GaloisRing z.bits e) t where
  x := fun i => prssSharing keys n t (counters.prssCtr + i)
  y := fun i => prssSharing keys n t (counters.prssCtr + (amount + i))
  v := fun i => prssSharing keys n t (counters.prssCtr + (2 * amount + i))
  z := fun i => przsSharing keys n t (counters.przsCtr + i)
  natDegree_x_le := fun _ => natDegree_prssSharing_le keys ht _
  natDegree_y_le := fun _ => natDegree_prssSharing_le keys ht _
  natDegree_v_le := fun _ => natDegree_prssSharing_le keys ht _
  natDegree_z_le := fun _ => natDegree_przsSharing_le keys ht _
  eval_zero_z := fun _ => eval_zero_przsSharing keys F hn _

end Draw

section Round

variable {z : BaseRing} {e : ExtensionDegree} {F : Type} [Field F] [DecidableEq F] [G2p e F]
  {n t amount : ℕ} {corrupt : Finset Role}
  {received : Role → BroadcastValue (SmallValue (GaloisRing z.bits e))}

variable (amount received) in
theorem corrupt_subset_uncountedRoles (hcorrupt : corrupt ⊆ (partyRoles n).toFinset) :
    corrupt ⊆ (uncountedRoles n amount (visible corrupt received)).toFinset := by
  intro r hr
  rw [List.mem_toFinset, mem_uncountedRoles, visible, if_pos hr]
  exact ⟨List.mem_toFinset.mp (hcorrupt hr), rfl⟩

variable (F) in
/-- A party broadcasts its shares of the masked products. After that, the parties that do not count
are corrupt, and the masked products that are not reconstructed are checked. -/
def RunsBatch (batch : BatchSharing (GaloisRing z.bits e) t) (n amount : ℕ) (corrupt : Finset Role)
    (counters : PRSSCounters) (p : Role) (prss : PRSSState z.bits e)
    (prog : SmallProg (GaloisRing z.bits e)
      (SmallSession z e × List (Triple (GaloisRing z.bits e)))) : Prop :=
  ∃ next, prog = .send (.payload (.ringVector (batch.sharesAt amount p).d)) next ∧
    ∀ received, p ∈ countedRoles n amount (visible corrupt received) →
      2 * t + 1 ≤ (countedRoles n amount (visible corrupt received)).length →
      next received = (badIndices n amount t (visible corrupt received)).foldlM (fun base i =>
          checkD F prss base (counters.prssCtr + i) (counters.przsCtr + i) amount
            (parseDShare (visible corrupt received) i))
          ⟨p, n, t, (uncountedRoles n amount (visible corrupt received)).toFinset⟩ >>=
        fun base => .done (⟨base, prss⟩, batch.triplesAt n amount (visible corrupt received) p)

variable {p : Role}

theorem nextTripleBatch_eq (store : LagrangeStore F)
    {prss prss₁ prss₂ : PRSSState z.bits e} {allPrss zDouble : List (GaloisRing z.bits e)}
    (batch : BatchSharing (GaloisRing z.bits e) t) (hn : n < 2 ^ e.deg)
    (hcorrupt : corrupt ⊆ (partyRoles n).toFinset)
    (hprss : prssNextVec prss p (3 * amount) = .ok (allPrss, prss₁))
    (hprzs : przsNextVec prss₁ p t amount = .ok (zDouble, prss₂))
    (hshares : batchShares amount allPrss zDouble = .ok (batch.sharesAt amount p)) :
    RunsBatch F batch n amount corrupt prss.counters p prss₂
      (nextTripleBatch store ⟨⟨p, n, t, corrupt⟩, prss⟩ amount) := by
  unfold nextTripleBatch
  simp only [hprss, hprzs, hshares, Prog.ofExcept_ok, Prog.done_bind]
  refine ⟨_, rfl, fun received hp hlen => ?_⟩
  set dRecons := visible corrupt received with hdRecons
  set silent := (partyRoles n).filter (fun role =>
    decide (role ∉ corrupt ∧ dRecons role = .bot)) with hsilent
  have hsub : silent.toFinset ⊆ (uncountedRoles n amount dRecons).toFinset := by
    intro r hr
    rw [List.mem_toFinset, List.mem_filter, decide_eq_true_eq] at hr
    rw [List.mem_toFinset, mem_uncountedRoles, hr.2.2]
    exact ⟨hr.1, rfl⟩
  have hnot : p ∉ uncountedRoles n amount dRecons := by
    intro hmem
    have hsome := (mem_countedRoles.mp hp).2
    rw [(mem_uncountedRoles.mp hmem).2] at hsome
    cases hsome
  have hstart : SessionAt (⟨p, n, t, corrupt⟩ : BaseSession) p n t corrupt := ⟨rfl, rfl, rfl, rfl⟩
  have hmark : SessionAt (markCorrupt (⟨p, n, t, corrupt⟩ : BaseSession) silent) p n t
      (corrupt ∪ silent.toFinset) := hstart.markCorrupt
    (fun hmem => hnot (List.mem_toFinset.mp (hsub (List.mem_toFinset.mpr hmem))))
  have hunion := Finset.union_subset (corrupt_subset_uncountedRoles amount received hcorrupt) hsub
  have hrecons := reconstructDValues_eq z.bits_pos hn store hmark hp hunion hlen
  have hend := (hmark.markCorrupt hnot).eq
  rw [Finset.union_eq_right.mpr hunion] at hend
  change (Prog.ofExcept (reconstructDValues store
    (markCorrupt (⟨p, n, t, corrupt⟩ : BaseSession) silent) amount dRecons) >>= fun r =>
      Prog.ofExcept (assembleTriples r.1.myRole r.2 (batch.sharesAt amount p)) >>= fun a =>
      a.2.foldlM (fun base i => checkD F prss₂ base (prss.counters.prssCtr + i)
        (prss.counters.przsCtr + i) amount (parseDShare dRecons i)) r.1 >>= fun base =>
      Prog.done ((⟨base, prss₂⟩ : SmallSession z e), a.1)) = _
  rw [hrecons, hend, Prog.ofExcept_ok, Prog.done_bind, assembleTriples_eq, Prog.ofExcept_ok,
    Prog.done_bind]

variable {honest : Finset Role} {batch : BatchSharing (GaloisRing z.bits e) t}

theorem vectorOf_honest (hp : p ∉ corrupt)
    (h : received p = .payload (.ringVector (batch.sharesAt amount p).d)) :
    vectorOf amount (visible corrupt received p) = some (batch.sharesAt amount p).d := by
  rw [visible, if_neg hp, h, vectorOf, if_pos]
  rw [BatchSharing.sharesAt, List.length_map, List.length_range]

theorem broadcastShare_honest (hp : p ∉ corrupt)
    (h : received p = .payload (.ringVector (batch.sharesAt amount p).d)) {i : ℕ} (hi : i < amount) :
    broadcastShare amount (visible corrupt received) i p = (batch.product i).eval (fromByte p) := by
  rw [broadcastShare, vectorOf_honest hp h, BatchSharing.sharesAt]
  simp [hi]

section Honest

variable (hmem : ∀ p ∈ honest, p ∈ partyRoles n) (hdisjoint : ∀ p ∈ honest, p ∉ corrupt)
  (hreceived : ∀ p ∈ honest, received p = .payload (.ringVector (batch.sharesAt amount p).d))

include hmem hdisjoint hreceived

theorem honest_subset_countedRoles :
    honest ⊆ (countedRoles n amount (visible corrupt received)).toFinset := by
  intro p hp
  rw [List.mem_toFinset, mem_countedRoles, vectorOf_honest (hdisjoint p hp) (hreceived p hp)]
  exact ⟨hmem p hp, rfl⟩

theorem card_honest_le_countedRoles :
    honest.card ≤ (countedRoles n amount (visible corrupt received)).length :=
  (Finset.card_le_card (honest_subset_countedRoles hmem hdisjoint hreceived)).trans
    (List.toFinset_card_le _)

theorem counted_of_honestMajority (hhonest : HonestMajority honest n t) :
    2 * t + 1 ≤ (countedRoles n amount (visible corrupt received)).length ∧
      ∀ p ∈ honest, p ∈ countedRoles n amount (visible corrupt received) :=
  ⟨hhonest.lt_card.trans_le (card_honest_le_countedRoles hmem hdisjoint hreceived), fun _ hp =>
    List.mem_toFinset.mp (honest_subset_countedRoles hmem hdisjoint hreceived hp)⟩

theorem disagreements_product_le {i : ℕ} (hi : i < amount) :
    disagreements (productWord n amount (visible corrupt received) i) (batch.product i) +
      honest.card ≤ (countedRoles n amount (visible corrupt received)).length := by
  classical
  rw [productWord, disagreements_map]
  set counted := countedRoles n amount (visible corrupt received) with hcounted
  set wrong := counted.filter (fun r => decide ((batch.product i).eval (fromByte r) ≠
    broadcastShare amount (visible corrupt received) i r)) with hwrong
  have hnodup : counted.Nodup := (nodup_partyRoles n).filter _
  have hdisj : Disjoint wrong.toFinset honest := by
    rw [Finset.disjoint_right]
    intro p hp hmem'
    rw [List.mem_toFinset, List.mem_filter, decide_eq_true_eq] at hmem'
    exact hmem'.2 (broadcastShare_honest (hdisjoint p hp) (hreceived p hp) hi).symm
  have hsub : wrong.toFinset ∪ honest ⊆ counted.toFinset := by
    apply Finset.union_subset
    · intro r hr
      exact List.mem_toFinset.mpr (List.mem_filter.mp (List.mem_toFinset.mp hr)).1
    · exact honest_subset_countedRoles hmem hdisjoint hreceived
  have hcard := Finset.card_le_card hsub
  rwa [Finset.card_union_of_disjoint hdisj, List.toFinset_card_of_nodup (hnodup.filter _),
    List.toFinset_card_of_nodup hnodup] at hcard

end Honest

end Round

end ThresholdKms
