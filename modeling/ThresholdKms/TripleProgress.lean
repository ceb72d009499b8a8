import ThresholdKms.PrssCheckRun
import ThresholdKms.TripleRun

/-!
# Identification of cheaters

For a masked product that was not reconstructed, the shares of all parties are recomputed at the
counters at which they were drawn. Whoever has not broadcast its share is added to the corrupt
parties, and no honest party is. So a batch that drops a triple finds a new corrupt party.
-/

open Polynomial ReceivedWord

namespace ThresholdKms

open GaloisRing Lockstep

section Check

variable {z : BaseRing} {e : ExtensionDegree} (F : Type) [Field F] [DecidableEq F] [G2p e F]
  {S : Type} [BaseSessionHandles S] [LawfulSession S] {keys : PrssKeys} {n t : ℕ}
  {honest corrupt : Finset Role} {session : Role → S}

omit [LawfulSession S] in
theorem foldlM_compareDShare {vecX vecY vecV vecZ : HashMap Role (GaloisRing z.bits e)}
    {x y v d : Role → GaloisRing z.bits e} {roles : List Role}
    (hx : ∀ r ∈ roles, vecX.lookup r = some (x r)) (hy : ∀ r ∈ roles, vecY.lookup r = some (y r))
    (hv : ∀ r ∈ roles, vecV.lookup r = some (v r)) (hz : ∀ r ∈ roles, vecZ.lookup r = some (d r))
    (sharedDDouble : Role → Option (GaloisRing z.bits e)) (s : S) :
    roles.foldlM (compareDShare vecX vecY vecV vecZ sharedDDouble) s =
      .ok (markCorrupt s (roles.filter (fun r =>
        decide (sharedDDouble r ≠ some (x r * y r + (v r + d r)))))) := by
  induction roles generalizing s with
  | nil => rfl
  | cons r roles ih =>
    rw [List.forall_mem_cons] at hx hy hv hz
    have hstep : compareDShare vecX vecY vecV vecZ sharedDDouble s r =
        .ok (if sharedDDouble r ≠ some (x r * y r + (v r + d r)) then (addCorrupt s r).1
          else s) := by
      simp only [compareDShare, expectedCheckValue, hx.1, hy.1, hv.1, hz.1, Outcome.ok_bind]
      rfl
    rw [List.foldlM_cons, hstep, Outcome.ok_bind, ih hx.2 hy.2 hv.2 hz.2]
    by_cases hne : sharedDDouble r ≠ some (x r * y r + (v r + d r))
    · rw [if_pos hne, List.filter_cons, if_pos (decide_eq_true hne), markCorrupt_cons]
    · rw [if_neg hne, List.filter_cons, if_neg (by simpa using hne)]

/-- The share of the masked product that a check expects. -/
noncomputable def expectedShare (keys : PrssKeys) (n t prssCtr przsCtr amount : ℕ) (r : Role) :
    GaloisRing z.bits e :=
  (prssSharing keys n t prssCtr).eval (fromByte r) *
      (prssSharing keys n t (prssCtr + amount)).eval (fromByte r) +
    ((prssSharing keys n t (prssCtr + 2 * amount)).eval (fromByte r) +
      (przsSharing keys n t przsCtr).eval (fromByte r))

theorem checkD_ensures (hhonest : HonestMajority honest n t) (hn : n < 2 ^ e.deg)
    (hsession : Synced honest n t corrupt session) {counters : PRSSCounters}
    {prssCtr przsCtr amount : ℕ} (hprss : prssCtr + 2 * amount < 2 ^ 112) (hprzs : przsCtr < 2 ^ 104)
    {sharedDDouble : Role → Option (GaloisRing z.bits e)}
    (hshared : ∀ r ∈ honest,
      sharedDDouble r = some (expectedShare keys n t prssCtr przsCtr amount r)) :
    Ensures (· ∈ honest)
      (fun out => ∃ corrupt', corrupt ⊆ corrupt' ∧ Synced honest n t corrupt' out ∧
        ∀ r ∈ partyRoles n,
          sharedDDouble r ≠ some (expectedShare keys n t prssCtr przsCtr amount r) → r ∈ corrupt')
      (fun p => checkD F (partyState keys n t counters p) (session p) prssCtr przsCtr amount
        sharedDDouble) := by
  refine (prssCheck_ensures F hhonest hn hsession (by omega)).bind ?_
  rintro outX ⟨⟨corruptX, hleX, hsyncX⟩, hX⟩
  refine (prssCheck_ensures F hhonest hn hsyncX (by omega)).bind ?_
  rintro outY ⟨⟨corruptY, hleY, hsyncY⟩, hY⟩
  refine (prssCheck_ensures F hhonest hn hsyncY hprss).bind ?_
  rintro outV ⟨⟨corruptV, hleV, hsyncV⟩, hV⟩
  refine (przsCheck_ensures F hhonest hn hsyncV hprzs).bind ?_
  rintro outZ ⟨⟨corruptZ, hleZ, hsyncZ⟩, hZ⟩
  have hwrong : ∀ r ∈ (partyRoles n).filter (fun r => decide (sharedDDouble r ≠
      some (expectedShare keys n t prssCtr przsCtr amount r))), r ∈ otherRoles honest n := by
    intro r hr
    rw [List.mem_filter, decide_eq_true_eq] at hr
    exact mem_otherRoles.mpr ⟨hr.1, fun hr' => hr.2 (hshared r hr')⟩
  refine .ofExcept (fun p hp => ?_) ⟨_, ?_, hsyncZ.markCorrupt hwrong, fun r hr hne => ?_⟩
  · have hat := hsyncZ.sessionAt p hp
    simp only [sessionRoles, hat.numParties_eq]
    exact foldlM_compareDShare (hX p hp) (hY p hp) (hV p hp) (hZ p hp) sharedDDouble (outZ p).1
  · exact (((hleX.trans hleY).trans hleV).trans hleZ).trans Finset.subset_union_left
  · exact Finset.mem_union_right _
      (List.mem_toFinset.mpr (List.mem_filter.mpr ⟨hr, decide_eq_true hne⟩))

end Check

section Batch

variable {z : BaseRing} {e : ExtensionDegree} {F : Type} [Field F] [DecidableEq F] [G2p e F]
  {keys : PrssKeys} {n t amount : ℕ} {honest corrupt : Finset Role} {counters : PRSSCounters}

theorem length_triplesAt_add {w : ℕ} (n amount : ℕ) (batch : BatchSharing (GaloisRing w e) t)
    (dRecons : Role → BroadcastValue (SmallValue (GaloisRing w e))) (p : Role) :
    (batch.triplesAt n amount dRecons p).length + (badIndices n amount t dRecons).length =
      amount := by
  have hsplit := List.length_eq_length_filter_add (l := List.range amount)
    (fun i => (openedProduct n amount dRecons t i).isSome)
  have hlen : (batch.triplesAt n amount dRecons p).length =
      ((List.range amount).filter (fun i => (openedProduct n amount dRecons t i).isSome)).length := by
    rw [BatchSharing.triplesAt, List.length_filterMap_eq_countP, List.countP_eq_length_filter]
    simp only [Option.isSome_map]
  simp only [List.length_range, Option.not_isSome] at hsplit
  rw [hlen]
  exact hsplit.symm

omit [DecidableEq F] in
theorem eval_product_prssBatch (ht : t ≤ n) (hn : n < 2 ^ e.deg) (i : ℕ) (r : Role) :
    ((prssBatch keys F ht hn counters amount : BatchSharing (GaloisRing z.bits e) t).product i).eval
        (fromByte r) =
      expectedShare keys n t (counters.prssCtr + i) (counters.przsCtr + i) amount r := by
  rw [BatchSharing.product, eval_add, eval_mul, eval_add, expectedShare, prssBatch]
  simp only []
  rw [show counters.prssCtr + (amount + i) = counters.prssCtr + i + amount by omega,
    show counters.prssCtr + (2 * amount + i) = counters.prssCtr + i + 2 * amount by omega,
    add_comm ((przsSharing keys n t (counters.przsCtr + i)).eval (fromByte r))]

variable {i : ℕ}

theorem parseDShare_eq_of_vectorOf {w : ℕ}
    {dRecons : Role → BroadcastValue (SmallValue (GaloisRing w e))} {r : Role}
    (hr : (vectorOf amount (dRecons r)).isSome) (hi : i < amount) :
    parseDShare dRecons i r = some (broadcastShare amount dRecons i r) := by
  obtain ⟨values, hvalues⟩ := Option.isSome_iff_exists.mp hr
  rw [broadcastShare, hvalues, parseDShare]
  unfold vectorOf at hvalues
  split at hvalues
  · split_ifs at hvalues
    cases hvalues
    rename_i heq _
    simp only [heq, Option.getD_some]
    rw [List.getElem?_eq_getElem (by omega), List.getD_eq_getElem _ _ (by omega)]
  · cases hvalues

/-- A masked product that is not opened has a wrong share of a party that counts. -/
theorem exists_wrong_share {w : ℕ} (batch : BatchSharing (GaloisRing w e) t)
    {dRecons : Role → BroadcastValue (SmallValue (GaloisRing w e))}
    (hi : i ∈ badIndices n amount t dRecons) :
    ∃ r ∈ countedRoles n amount dRecons,
      broadcastShare amount dRecons i r ≠ (batch.product i).eval (fromByte r) := by
  have hnone := (List.mem_filter.mp hi).2
  rw [Option.isNone_iff_eq_none, openedProduct, Option.map_eq_none_iff, decoded_eq_none_iff] at hnone
  have hpos := hnone _ (degree_lt_succ_iff.mpr (batch.natDegree_product_le i))
  obtain ⟨pair, hpair⟩ := List.exists_mem_of_length_pos (Nat.zero_lt_of_lt hpos)
  obtain ⟨hmem, hne⟩ := mem_errors.mp hpair
  obtain ⟨r, hr, rfl⟩ := List.mem_map.mp hmem
  exact ⟨r, hr, fun h => hne h.symm⟩

variable {received : Role → BroadcastValue (SmallValue (GaloisRing z.bits e))}

section Honest

variable (hhonest : HonestMajority honest n t) (ht : t ≤ n) (hn : n < 2 ^ e.deg)
  (hcorrupt : corrupt ⊆ otherRoles honest n)
  (hreceived : ∀ p ∈ honest, received p = .payload (.ringVector
    ((prssBatch keys F ht hn counters amount).sharesAt amount p).d))

include hhonest hcorrupt hreceived

omit hhonest [DecidableEq F] in
theorem parseDShare_honest {r : Role} (hr : r ∈ honest) (hi : i < amount) :
    parseDShare (visible corrupt received) i r =
      some (expectedShare keys n t (counters.prssCtr + i) (counters.przsCtr + i) amount r) := by
  have hr' : r ∉ corrupt := fun hmem => (mem_otherRoles.mp (hcorrupt hmem)).2 hr
  have hvector := vectorOf_honest hr' (hreceived r hr)
  rw [parseDShare_eq_of_vectorOf (by rw [hvector]; rfl) hi,
    broadcastShare_honest hr' (hreceived r hr) hi, eval_product_prssBatch]

omit hhonest [DecidableEq F] in
theorem synced_uncountedRoles :
    Synced honest n t (uncountedRoles n amount (visible corrupt received)).toFinset
      (fun p => (⟨p, n, t, (uncountedRoles n amount (visible corrupt received)).toFinset⟩ :
        BaseSession)) := by
  refine ⟨fun p _ => ⟨rfl, rfl, rfl, rfl⟩, fun r hr => ?_⟩
  obtain ⟨hrole, hnone⟩ := mem_uncountedRoles.mp (List.mem_toFinset.mp hr)
  refine mem_otherRoles.mpr ⟨hrole, fun hr' => ?_⟩
  have hr'' : r ∉ corrupt := fun hmem => (mem_otherRoles.mp (hcorrupt hmem)).2 hr'
  rw [vectorOf_honest hr'' (hreceived r hr')] at hnone
  cases hnone

section

variable (hprssCtr : counters.prssCtr + 3 * amount ≤ 2 ^ 112)
include hprssCtr

variable (hprzsCtr : counters.przsCtr + amount ≤ 2 ^ 104)
include hprzsCtr

theorem checkD_index_ensures (counters' : PRSSCounters) (hi : i < amount)
    {known : Finset Role} {base : Role → BaseSession} (hbase : Synced honest n t known base) :
    Ensures (· ∈ honest) (fun out => ∃ corrupt', known ⊆ corrupt' ∧
        Synced honest n t corrupt' out ∧ ∀ r ∈ partyRoles n,
          parseDShare (visible corrupt received) i r ≠
            some (expectedShare keys n t (counters.prssCtr + i) (counters.przsCtr + i) amount r) →
          r ∈ corrupt')
      (fun p => checkD F (partyState keys n t counters' p) (base p) (counters.prssCtr + i)
        (counters.przsCtr + i) amount (parseDShare (visible corrupt received) i)) :=
  checkD_ensures F hhonest hn hbase (by omega) (by omega)
    (fun r hr => parseDShare_honest ht hn hcorrupt hreceived hr hi)

theorem foldlM_checkD_ensures (counters' : PRSSCounters) {indices : List ℕ}
    (hindices : ∀ i ∈ indices, i < amount) {known : Finset Role} {base : Role → BaseSession}
    (hbase : Synced honest n t known base) :
    Ensures (· ∈ honest) (fun base : Role → BaseSession => ∃ corrupt',
        known ⊆ corrupt' ∧ Synced honest n t corrupt' base)
      (fun p => indices.foldlM (fun base i => checkD F (partyState keys n t counters' p) base
        (counters.prssCtr + i) (counters.przsCtr + i) amount
        (parseDShare (visible corrupt received) i)) (base p)) := by
  apply EnsuresWhen.foldlM
  · rintro j hj base ⟨corrupt', hle', hsynced'⟩
    refine (checkD_index_ensures hhonest ht hn hcorrupt hreceived hprssCtr hprzsCtr counters'
      (hindices j hj) hsynced').mono ?_
    rintro out ⟨corrupt'', hle'', hsynced'', -⟩
    exact ⟨corrupt'', hle'.trans hle'', hsynced''⟩
  · exact ⟨known, Finset.Subset.refl _, hbase⟩

/-- The checks of the masked products that were not opened end with a new corrupt party. -/
theorem checks_ensures (counters' : PRSSCounters) :
    Ensures (· ∈ honest) (fun base : Role → BaseSession => ∃ corrupt', corrupt ⊆ corrupt' ∧
        Synced honest n t corrupt' base ∧
        (badIndices n amount t (visible corrupt received) ≠ [] → corrupt ⊂ corrupt'))
      (fun p => (badIndices n amount t (visible corrupt received)).foldlM (fun base i =>
        checkD F (partyState keys n t counters' p) base (counters.prssCtr + i)
          (counters.przsCtr + i) amount (parseDShare (visible corrupt received) i))
        (⟨p, n, t, (uncountedRoles n amount (visible corrupt received)).toFinset⟩ :
          BaseSession)) := by
  have hstart := synced_uncountedRoles ht hn hcorrupt hreceived
  have hroles : corrupt ⊆ (partyRoles n).toFinset := hcorrupt.trans Finset.sdiff_subset
  have hle : corrupt ⊆ (uncountedRoles n amount (visible corrupt received)).toFinset :=
    corrupt_subset_uncountedRoles amount received hroles
  have hlt : ∀ i ∈ badIndices n amount t (visible corrupt received), i < amount :=
    fun i hi => List.mem_range.mp (List.mem_filter.mp hi).1
  cases hbad : badIndices n amount t (visible corrupt received) with
  | nil => exact .pure ⟨_, hle, hstart, fun h => absurd rfl h⟩
  | cons i rest =>
    have hi : i ∈ badIndices n amount t (visible corrupt received) := by
      rw [hbad]
      exact List.mem_cons_self
    obtain ⟨r, hr, hwrong⟩ := exists_wrong_share (prssBatch keys F ht hn counters amount) hi
    obtain ⟨hrole, hsome⟩ := mem_countedRoles.mp hr
    have hnew : r ∉ corrupt := by
      intro hmem
      rw [visible, if_pos hmem] at hsome
      cases hsome
    refine (checkD_index_ensures hhonest ht hn hcorrupt hreceived hprssCtr hprzsCtr counters'
      (hlt i hi) hstart).bind ?_
    rintro base ⟨known, hknown, hsynced, hcaught⟩
    have hmem : r ∈ known := by
      apply hcaught r hrole
      rw [parseDShare_eq_of_vectorOf hsome (hlt i hi), ← eval_product_prssBatch (F := F) ht hn]
      exact fun h => hwrong (Option.some.inj h)
    have hrest : ∀ j ∈ rest, j < amount := fun j hj =>
      hlt j (by rw [hbad]; exact List.mem_cons_of_mem _ hj)
    refine (foldlM_checkD_ensures hhonest ht hn hcorrupt hreceived hprssCtr hprzsCtr counters'
      hrest hsynced).mono ?_
    rintro out ⟨corrupt', hle', hsynced'⟩
    have hsub : corrupt ⊆ corrupt' := (hle.trans hknown).trans hle'
    exact ⟨corrupt', hsub, hsynced', fun _ =>
      (Finset.ssubset_iff_of_subset hsub).mpr ⟨r, hle' hmem, hnew⟩⟩

end

end Honest

/-- What the honest parties hold after a batch: if a triple was dropped, there is a new corrupt
party. -/
structure BatchDone (honest : Finset Role) (n t : ℕ) (corrupt : Finset Role) (keys : PrssKeys)
    (counters : PRSSCounters) (amount : ℕ) (corrupt' : Finset Role) (made : ℕ)
    (out : Role → SmallSession z e × List (Triple (GaloisRing z.bits e))) : Prop where
  session_eq : ∀ p ∈ honest, (out p).1 =
    ⟨⟨p, n, t, corrupt'⟩, partyState keys n t (counters.afterBatch amount) p⟩
  length_eq : ∀ p ∈ honest, (out p).2.length = made
  made_le : made ≤ amount
  subset : corrupt ⊆ corrupt'
  subset_others : corrupt' ⊆ otherRoles honest n
  ssubset : made < amount → corrupt ⊂ corrupt'

end Batch

/-!
## Progress of triple generation

Each batch that drops a triple adds a party to the corrupt ones, of which there are at most `t`. So the
loop asks for at most `t + 1` batches until it has all triples.
-/

section Batch

variable {z : BaseRing} {e : ExtensionDegree} {F : Type} [Field F] [DecidableEq F] [G2p e F]
  {keys : PrssKeys} {n t amount : ℕ} {honest corrupt : Finset Role} {counters : PRSSCounters}
  {store : LagrangeStore F}

/-- The session of a party, if all parties hold setups for the keys. -/
noncomputable def sessionWith (z : BaseRing) (e : ExtensionDegree) (keys : PrssKeys) (n t : ℕ)
    (corrupt : Finset Role) (counters : PRSSCounters) (p : Role) : SmallSession z e :=
  ⟨⟨p, n, t, corrupt⟩, partyState keys n t counters p⟩

theorem nextTripleBatch_ensures (store : LagrangeStore F) (keys : PrssKeys)
    (counters : PRSSCounters) (amount : ℕ) (hhonest : HonestMajority honest n t) (hn : n < 2 ^ e.deg)
    (hcorrupt : corrupt ⊆ otherRoles honest n)
    (hprssCtr : counters.prssCtr + 3 * amount ≤ 2 ^ 112)
    (hprzsCtr : counters.przsCtr + amount ≤ 2 ^ 104) :
    Ensures (· ∈ honest) (fun out => ∃ corrupt' made,
        BatchDone honest n t corrupt keys counters amount corrupt' made out)
      (fun p => nextTripleBatch store (sessionWith z e keys n t corrupt counters p) amount) := by
  have ht : t ≤ n := by have := hhonest.lt; omega
  have htn : t < n := by have := hhonest.lt; omega
  have hroles : corrupt ⊆ (partyRoles n).toFinset := hcorrupt.trans Finset.sdiff_subset
  have hdisjoint : ∀ p ∈ honest, p ∉ corrupt :=
    fun p hp hmem => (mem_otherRoles.mp (hcorrupt hmem)).2 hp
  let batch := prssBatch (z := z) keys F ht hn counters amount
  have hsend := fun p (hp : p ∈ honest) => nextTripleBatch_of_counters (z := z) (e := e) store
    keys htn hn hroles (hhonest.mem_roles p hp) hprssCtr hprzsCtr
  refine .of_send (fun p hp => ⟨_, (hsend p hp).choose_spec.1⟩) (fun received hreceived => ?_)
  obtain ⟨hlen, hcounted⟩ :=
    counted_of_honestMajority hhonest.mem_roles hdisjoint hreceived hhonest
  have hchecks := checks_ensures (F := F) hhonest ht hn hcorrupt hreceived hprssCtr hprzsCtr
    (counters.afterBatch amount)
  refine (hchecks.bind (f := fun p base =>
    .done (⟨base, partyState keys n t (counters.afterBatch amount) p⟩,
      batch.triplesAt n amount (visible corrupt received) p)) ?_).congr (fun p hp => ?_)
  · rintro base ⟨corrupt', hle, hsynced, hgrown⟩
    refine .pure ⟨corrupt', amount - (badIndices n amount t (visible corrupt received)).length,
      fun p hp => ?_, fun p hp => ?_, Nat.sub_le _ _, hle, hsynced.subset, fun hdropped => ?_⟩
    · rw [(hsynced.sessionAt p hp).eq]
    · have := length_triplesAt_add n amount batch (visible corrupt received) p
      change (batch.triplesAt n amount (visible corrupt received) p).length = _
      omega
    · apply hgrown
      intro hnil
      rw [hnil] at hdropped
      exact absurd hdropped (by simp)
  · obtain ⟨next, heq, hnext⟩ := hsend p hp
    rw [sessionWith, heq]
    exact hnext received (hcounted p hp) hlen

theorem generateTriples_of_le {batchSize : ℕ} (calls : ℕ) (session : SmallSession z e)
    {triples : List (Triple (GaloisRing z.bits e))} (h : batchSize ≤ triples.length) :
    generateTriples store batchSize calls (session, triples) = .done (session, triples) := by
  unfold generateTriples
  exact if_neg (not_lt.mpr h)

/-- What the honest parties hold after the loop. -/
def AllGenerated (honest : Finset Role) (n t : ℕ) (corrupt : Finset Role) (batchSize : ℕ)
    (out : Role → SmallSession z e × List (Triple (GaloisRing z.bits e))) : Prop :=
  ∃ corrupt', corrupt ⊆ corrupt' ∧ corrupt' ⊆ otherRoles honest n ∧
    ∀ p ∈ honest, (out p).1.baseSession = ⟨p, n, t, corrupt'⟩ ∧ (out p).2.length = batchSize

/-- The loop ends, since each of its rounds makes all missing triples or finds a corrupt party. -/
theorem generateTriples_ensures (hhonest : HonestMajority honest n t) (hn : n < 2 ^ e.deg)
    {batchSize calls made : ℕ} {triples : Role → List (Triple (GaloisRing z.bits e))}
    (hcorrupt : corrupt ⊆ otherRoles honest n) (hcalls : t < calls + corrupt.card)
    (hprssCtr : counters.prssCtr + 3 * (batchSize * calls) ≤ 2 ^ 112)
    (hprzsCtr : counters.przsCtr + batchSize * calls ≤ 2 ^ 104) (hmade : made ≤ batchSize)
    (htriples : ∀ p ∈ honest, (triples p).length = made) :
    Ensures (· ∈ honest) (AllGenerated honest n t corrupt batchSize)
      (fun p => generateTriples store batchSize calls
        (sessionWith z e keys n t corrupt counters p, triples p)) := by
  induction calls generalizing corrupt counters made triples with
  | zero =>
    have := (Finset.card_le_card hcorrupt).trans hhonest.card_otherRoles_le
    omega
  | succ calls ih =>
    rcases hmade.lt_or_eq with hlt | rfl
    · rw [Nat.mul_succ] at hprssCtr hprzsCtr
      refine EnsuresWhen.congr ?_
        (fun p hp => by rw [generateTriples, if_pos (by rwa [htriples p hp])])
      refine (EnsuresWhen.congr (nextTripleBatch_ensures store keys counters (batchSize - made)
        hhonest hn hcorrupt (by omega) (by omega)) (fun p hp => by rw [htriples p hp])).bind ?_
      rintro out ⟨corrupt', more, hdone⟩
      have hout : ∀ p ∈ honest, (triples p ++ (out p).2).length = made + more := by
        intro p hp
        rw [List.length_append, htriples p hp, hdone.length_eq p hp]
      rcases hdone.made_le.lt_or_eq with hdropped | hall
      · have hgrown := Finset.card_lt_card (hdone.ssubset hdropped)
        have hrest : Ensures (· ∈ honest) (AllGenerated honest n t corrupt' batchSize)
            (fun p => generateTriples store batchSize calls (sessionWith z e keys n t corrupt'
              (counters.afterBatch (batchSize - made)) p, triples p ++ (out p).2)) :=
          ih hdone.subset_others (by omega) (by simp only [PRSSCounters.afterBatch]; omega)
            (by simp only [PRSSCounters.afterBatch]; omega) (by omega) hout
        refine (hrest.congr ?_).mono ?_
        · intro p hp
          change generateTriples store batchSize calls ((out p).1, _) = _
          rw [hdone.session_eq p hp]
          rfl
        · rintro out' ⟨corrupt'', hle, hothers, hend⟩
          exact ⟨corrupt'', hdone.subset.trans hle, hothers, hend⟩
      · refine .done (fun p => ((out p).1, triples p ++ (out p).2)) (fun p hp => ?_)
          ⟨corrupt', hdone.subset, hdone.subset_others, fun p hp => ⟨?_, ?_⟩⟩
        · exact generateTriples_of_le calls _ (by rw [hout p hp]; omega)
        · exact congrArg SmallSession.baseSession (hdone.session_eq p hp)
        · rw [hout p hp]
          omega
    · refine .done (fun p => (sessionWith z e keys n t corrupt counters p, triples p))
        (fun p hp => generateTriples_of_le _ _ (htriples p hp).ge)
        ⟨corrupt, Finset.Subset.refl _, hcorrupt, fun p hp => ⟨rfl, htriples p hp⟩⟩

variable {setup : Role → PRSSSetup z.bits e}

/-- The program of a party that generates a batch of the given size in at most `calls` calls. -/
def tripleGenerationOf (store : LagrangeStore F) (keys : PrssKeys)
    (setup : Role → PRSSSetup z.bits e) (n t : ℕ) (corrupt : Finset Role) (counters : PRSSCounters)
    (batchSize calls : ℕ) (p : Role) :
    SmallProg (GaloisRing z.bits e) (SmallSession z e × List (Triple (GaloisRing z.bits e))) :=
  generateTriples store batchSize calls
    (⟨⟨p, n, t, corrupt⟩, sessionState keys (setup p) counters⟩, [])

theorem disjoint_of_subset_otherRoles (h : corrupt ⊆ otherRoles honest n) :
    Disjoint honest corrupt :=
  Finset.disjoint_left.mpr (fun _ hp hmem => (mem_otherRoles.mp (h hmem)).2 hp)

variable (store : LagrangeStore F) (hhonest : HonestMajority honest n t)
  (hsetup : ∀ p ∈ honest, prssSets F (partyRoles n) t p ((partySets n t p).map keys.key) =
    .ok (setup p)) (hcorrupt : corrupt ⊆ otherRoles honest n)

include hhonest hsetup hcorrupt

theorem tripleBatchOf_ensures (hprssCtr : counters.prssCtr + 3 * amount ≤ 2 ^ 112)
    (hprzsCtr : counters.przsCtr + amount ≤ 2 ^ 104) :
    Ensures (· ∈ honest) (fun out => ∃ corrupt' made,
        BatchDone honest n t corrupt keys counters amount corrupt' made out)
      (tripleBatchOf (z := z) store keys setup n t corrupt counters amount) :=
  (nextTripleBatch_ensures store keys counters amount hhonest (lt_of_setup hsetup hhonest) hcorrupt
    hprssCtr hprzsCtr).congr (fun p hp => by
      rw [tripleBatchOf, sessionState_of_setup hsetup hhonest counters hp, sessionWith])

/-- With `4 * t` parties, known corrupt ones counted twice, a batch returns correct triples whatever
the corrupt parties broadcast. -/
theorem tripleBatch_correct_of_le (hle : 4 * t ≤ n + corrupt.card)
    (hprssCtr : counters.prssCtr + 3 * amount ≤ 2 ^ 112)
    (hprzsCtr : counters.przsCtr + amount ≤ 2 ^ 104)
    {rounds : ℕ → Role → BroadcastValue (SmallValue (GaloisRing z.bits e))}
    (hdelivered : Delivered (· ∈ honest)
      (tripleBatchOf store keys setup n t corrupt counters amount) rounds) :
    ∃ out : Role → SmallSession z e × List (Triple (GaloisRing z.bits e)),
      (∀ p ∈ honest, (tripleBatchOf store keys setup n t corrupt counters amount p).run rounds =
        .ok (out p)) ∧ AreTriples honest t (fun p => (out p).2) := by
  have hn := lt_of_setup hsetup hhonest
  have ht : t ≤ n := by have := hhonest.lt; omega
  have hroles := hcorrupt.trans Finset.sdiff_subset
  have hdisjoint := disjoint_of_subset_otherRoles hcorrupt
  obtain ⟨out, hout, -⟩ := Ensures.run
    (tripleBatchOf_ensures store hhonest hsetup hcorrupt hprssCtr hprzsCtr) hdelivered
  obtain ⟨hreceived, htriples⟩ :=
    tripleBatchOf_run hsetup hhonest hroles hdisjoint hdelivered hout hn ht
  obtain ⟨hlen, -⟩ := counted_of_honestMajority hhonest.mem_roles
    (fun p hp => Finset.disjoint_left.mp hdisjoint hp) hreceived hhonest
  refine ⟨out, hout, ?_⟩
  rw [areTriples_congr htriples, areTriples_triplesAt_iff F z.bits_pos hhonest hn,
    opened_eq_product_iff_not_steered ht hn hlen]
  exact not_steered_of_le hhonest ht hn hroles hdisjoint hreceived hle

omit hhonest hsetup hcorrupt in
theorem tripleBatch_correct_silent_fourth :
    ∃ rounds, ∃ out : Role → SmallSession .z64 .three × List _,
      (∀ p ∈ ({1, 2, 3} : Finset Role), (tripleBatchOf (F := GF8) LagrangeStore.empty xorKeys
        (partySetup xorKeys 4 1) 4 1 ∅ ⟨0, 5, 9⟩ 2 p).run rounds = .ok (out p)) ∧
      AreTriples {1, 2, 3} 1 (fun p => (out p).2) := by
  obtain ⟨rounds, -, -, hdelivered, -⟩ := exists_run_silent_fourth
  exact ⟨rounds, tripleBatch_correct_of_le LagrangeStore.empty ⟨by decide, by decide, by decide⟩
    (fun p _ => prssSets_partySetup (n := 4) (t := 1) (by decide) (by decide) xorKeys p)
    (Finset.empty_subset _) (by decide) (by norm_num) (by norm_num) hdelivered⟩

theorem tripleGenerationOf_ensures {batchSize : ℕ}
    (hprssCtr : counters.prssCtr + 3 * (batchSize * (t + 1)) ≤ 2 ^ 112)
    (hprzsCtr : counters.przsCtr + batchSize * (t + 1) ≤ 2 ^ 104) :
    Ensures (· ∈ honest) (AllGenerated honest n t corrupt batchSize)
      (tripleGenerationOf store keys setup n t corrupt counters batchSize (t + 1)) := by
  have hloop : Ensures (· ∈ honest) (AllGenerated honest n t corrupt batchSize)
      (fun p => generateTriples store batchSize (t + 1)
        (sessionWith z e keys n t corrupt counters p, [])) :=
    generateTriples_ensures hhonest (lt_of_setup hsetup hhonest) hcorrupt (by omega) hprssCtr
      hprzsCtr (Nat.zero_le batchSize) (fun _ _ => rfl)
  refine hloop.congr (fun p hp => ?_)
  rw [tripleGenerationOf, sessionState_of_setup hsetup hhonest counters hp]
  rfl

/-- A call that drops a triple finds a new corrupt party, and the loop ends with all triples after at
most `t + 1` calls, as long as the counters of the generators last. -/
theorem tripleGeneration_progress (counters : PRSSCounters) :
    (∀ amount rounds, counters.prssCtr + 3 * amount ≤ 2 ^ 112 →
      counters.przsCtr + amount ≤ 2 ^ 104 →
      Delivered (· ∈ honest) (tripleBatchOf store keys setup n t corrupt counters amount) rounds →
      ∃ (session : Role → SmallSession z e) (triples : Role → List (Triple (GaloisRing z.bits e)))
        (corrupt' : Finset Role),
        (∀ p ∈ honest, (tripleBatchOf store keys setup n t corrupt counters amount p).run rounds =
            .ok (session p, triples p) ∧
          (session p).baseSession = ⟨p, n, t, corrupt'⟩ ∧ (triples p).length ≤ amount ∧
          ((triples p).length < amount → corrupt ⊂ corrupt')) ∧
        corrupt ⊆ corrupt' ∧ Disjoint honest corrupt') ∧
    ∀ batchSize rounds, counters.prssCtr + 3 * (batchSize * (t + 1)) ≤ 2 ^ 112 →
      counters.przsCtr + batchSize * (t + 1) ≤ 2 ^ 104 →
      Delivered (· ∈ honest)
        (tripleGenerationOf store keys setup n t corrupt counters batchSize (t + 1)) rounds →
      ∃ (session : Role → SmallSession z e) (triples : Role → List (Triple (GaloisRing z.bits e)))
        (corrupt' : Finset Role),
        (∀ p ∈ honest,
          (tripleGenerationOf store keys setup n t corrupt counters batchSize (t + 1) p).run rounds =
            .ok (session p, triples p) ∧
          (session p).baseSession = ⟨p, n, t, corrupt'⟩ ∧ (triples p).length = batchSize) ∧
        corrupt ⊆ corrupt' ∧ Disjoint honest corrupt' := by
  constructor
  · intro amount rounds hprssCtr hprzsCtr hdelivered
    obtain ⟨out, hout, corrupt', made, hdone⟩ := Ensures.run
      (tripleBatchOf_ensures store hhonest hsetup hcorrupt hprssCtr hprzsCtr) hdelivered
    refine ⟨fun p => (out p).1, fun p => (out p).2, corrupt', fun p hp => ⟨hout p hp, ?_, ?_, ?_⟩,
      hdone.subset, disjoint_of_subset_otherRoles hdone.subset_others⟩
    · exact congrArg SmallSession.baseSession (hdone.session_eq p hp)
    · exact (hdone.length_eq p hp).trans_le hdone.made_le
    · rw [hdone.length_eq p hp]
      exact hdone.ssubset
  · intro batchSize rounds hprssCtr hprzsCtr hdelivered
    obtain ⟨out, hout, corrupt', hle, hothers, hend⟩ := Ensures.run
      (tripleGenerationOf_ensures store hhonest hsetup hcorrupt hprssCtr hprzsCtr) hdelivered
    exact ⟨fun p => (out p).1, fun p => (out p).2, corrupt',
      fun p hp => ⟨hout p hp, (hend p hp).1, (hend p hp).2⟩, hle,
      disjoint_of_subset_otherRoles hothers⟩

end Batch

/-- The loop with a silent party of four returns all triples. -/
theorem tripleGeneration_progress_four_parties :
    ∃ rounds, (∀ k, rounds k 4 = .bot) ∧
      ∃ (session : Role → SmallSession .z64 .three)
        (triples : Role → List (Triple (GaloisRing BaseRing.z64.bits .three)))
        (corrupt' : Finset Role),
        (∀ p ∈ ({1, 2, 3} : Finset Role),
          (tripleGenerationOf (F := GF8) LagrangeStore.empty xorKeys (partySetup xorKeys 4 1) 4 1 ∅
            ⟨0, 5, 9⟩ 2 (1 + 1) p).run rounds = .ok (session p, triples p) ∧
          (session p).baseSession = ⟨p, 4, 1, corrupt'⟩ ∧ (triples p).length = 2) ∧
        ∅ ⊆ corrupt' ∧ Disjoint {1, 2, 3} corrupt' := by
  have hhonest : HonestMajority {1, 2, 3} 4 1 := ⟨by decide, by decide, by decide⟩
  have hsetup : ∀ p ∈ ({1, 2, 3} : Finset Role), prssSets GF8 (partyRoles 4) 1 p
      ((partySets 4 1 p).map xorKeys.key) = .ok (partySetup xorKeys 4 1 p) :=
    fun p _ => prssSets_partySetup (n := 4) (t := 1) (by decide) (by decide) xorKeys p
  obtain ⟨rounds, hdelivered, hsilent⟩ := (@tripleGenerationOf_ensures _ _ _ _ _ _ _ _ _ _ _
    ⟨0, 5, 9⟩ _ LagrangeStore.empty hhonest hsetup (Finset.empty_subset _) 2 (by norm_num)
    (by norm_num)).exists_delivered (fun _ _ => .bot)
  exact ⟨rounds, fun k => hsilent k 4 (by decide), (tripleGeneration_progress LagrangeStore.empty
    hhonest hsetup (Finset.empty_subset _) ⟨0, 5, 9⟩).2 2 rounds (by norm_num) (by norm_num)
    hdelivered⟩

end ThresholdKms
