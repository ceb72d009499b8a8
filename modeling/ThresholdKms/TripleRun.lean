import ThresholdKms.PrssConsistency
import ThresholdKms.TripleRound

/-!
# Correctness of triples

The error budget of the reconstruction is half of what the honest shares leave, and not the number of
wrong shares that there can be. So the broadcast shares may lie within the budget of a polynomial that
is not the masked product, and all honest parties then take its value for the opened one. Their triples
are correct exactly if no such polynomial has another value at zero. With at least `4 * t` parties,
known corrupt ones counted twice, none has; two of seven parties can choose one that does.
-/

open Polynomial ReceivedWord

namespace ThresholdKms

open GaloisRing Lockstep

/-- The polynomials of a triple. -/
structure TripleSharing (R : Type) [CommRing R] where
  a : R[X]
  b : R[X]
  c : R[X]

section Sharings

variable {w : ℕ} {e : ExtensionDegree}

noncomputable def TripleSharing.shareOf (s : TripleSharing (GaloisRing w e)) (p : Role) :
    Triple (GaloisRing w e) :=
  ⟨⟨p, s.a.eval (fromByte p)⟩, ⟨p, s.b.eval (fromByte p)⟩, ⟨p, s.c.eval (fromByte p)⟩⟩

structure TripleSharing.DegreeLe (t : ℕ) (s : TripleSharing (GaloisRing w e)) : Prop where
  a_le : s.a.natDegree ≤ t
  b_le : s.b.natDegree ≤ t
  c_le : s.c.natDegree ≤ t

/-- The triples of the honest parties are shares of triples of sharings of degree `t`, whose third
secret is the product of the other two. -/
def AreTriples (honest : Finset Role) (t : ℕ) (triples : Role → List (Triple (GaloisRing w e))) :
    Prop :=
  ∃ sharings : List (TripleSharing (GaloisRing w e)),
    (∀ s ∈ sharings, s.DegreeLe t ∧ s.c.eval 0 = s.a.eval 0 * s.b.eval 0) ∧
      ∀ p ∈ honest, triples p = sharings.map (fun s => s.shareOf p)

variable {honest : Finset Role} {n t : ℕ}

theorem areTriples_congr {triples triples' : Role → List (Triple (GaloisRing w e))}
    (h : ∀ p ∈ honest, triples p = triples' p) :
    AreTriples honest t triples ↔ AreTriples honest t triples' := by
  constructor
  · rintro ⟨sharings, hsharings, heq⟩
    exact ⟨sharings, hsharings, fun p hp => (h p hp).symm.trans (heq p hp)⟩
  · rintro ⟨sharings, hsharings, heq⟩
    exact ⟨sharings, hsharings, fun p hp => (h p hp).trans (heq p hp)⟩

theorem TripleSharing.eq_of_shareOf (F : Type) [Field F] [G2p e F] (hw : 0 < w)
    (hhonest : HonestMajority honest n t) (hn : n < 2 ^ e.deg)
    {s s' : TripleSharing (GaloisRing w e)} (hs : s.DegreeLe t) (hs' : s'.DegreeLe t)
    (h : ∀ p ∈ honest, s.shareOf p = s'.shareOf p) : s = s' := by
  have ht : t ≤ 2 * t := by omega
  have ha : s.a = s'.a := hhonest.eq_of_eval F hw hn ht hs.a_le hs'.a_le
    (fun p hp => congrArg (fun triple => triple.a.value) (h p hp))
  have hb : s.b = s'.b := hhonest.eq_of_eval F hw hn ht hs.b_le hs'.b_le
    (fun p hp => congrArg (fun triple => triple.b.value) (h p hp))
  have hc : s.c = s'.c := hhonest.eq_of_eval F hw hn ht hs.c_le hs'.c_le
    (fun p hp => congrArg (fun triple => triple.c.value) (h p hp))
  cases s
  cases s'
  simp_all

theorem TripleSharing.eq_of_map_shareOf (F : Type) [Field F] [G2p e F] (hw : 0 < w)
    (hhonest : HonestMajority honest n t) (hn : n < 2 ^ e.deg)
    {l l' : List (TripleSharing (GaloisRing w e))} (hl : ∀ s ∈ l, s.DegreeLe t)
    (hl' : ∀ s ∈ l', s.DegreeLe t)
    (h : ∀ p ∈ honest, l.map (fun s => s.shareOf p) = l'.map (fun s => s.shareOf p)) : l = l' := by
  obtain ⟨q, hq⟩ := hhonest.nonempty
  have hlen : l.length = l'.length := by simpa using congrArg List.length (h q hq)
  apply List.ext_getElem hlen
  intro k h₁ h₂
  apply TripleSharing.eq_of_shareOf F hw hhonest hn (hl _ (List.getElem_mem h₁))
    (hl' _ (List.getElem_mem h₂))
  intro p hp
  have hget := congrArg (fun m => m[k]?) (h p hp)
  simpa [h₁, h₂] using hget

variable (batch : BatchSharing (GaloisRing w e) t)

/-- The sharings of the triple made of an opened masked product. -/
noncomputable def BatchSharing.tripleSharing (i : ℕ) (d : GaloisRing w e) :
    TripleSharing (GaloisRing w e) := ⟨batch.x i, batch.y i, C d - batch.v i⟩

theorem BatchSharing.degreeLe_tripleSharing (i : ℕ) (d : GaloisRing w e) :
    (batch.tripleSharing i d).DegreeLe t where
  a_le := batch.natDegree_x_le i
  b_le := batch.natDegree_y_le i
  c_le := (natDegree_sub_le _ _).trans (max_le (by simp) (batch.natDegree_v_le i))

theorem BatchSharing.isProduct_tripleSharing (i : ℕ) (d : GaloisRing w e) :
    (batch.tripleSharing i d).c.eval 0 =
        (batch.tripleSharing i d).a.eval 0 * (batch.tripleSharing i d).b.eval 0 ↔
      d = (batch.product i).eval 0 := by
  rw [batch.eval_zero_product, tripleSharing]
  simp only [eval_sub, eval_C]
  exact sub_eq_iff_eq_add

noncomputable def BatchSharing.tripleSharings (n amount : ℕ)
    (dRecons : Role → BroadcastValue (SmallValue (GaloisRing w e))) :
    List (TripleSharing (GaloisRing w e)) :=
  (List.range amount).filterMap (fun i =>
    (openedProduct n amount dRecons t i).map (batch.tripleSharing i))

variable {batch} {amount : ℕ} {dRecons : Role → BroadcastValue (SmallValue (GaloisRing w e))}

theorem BatchSharing.mem_tripleSharings {s : TripleSharing (GaloisRing w e)} :
    s ∈ batch.tripleSharings n amount dRecons ↔ ∃ i < amount, ∃ d,
      openedProduct n amount dRecons t i = some d ∧ batch.tripleSharing i d = s := by
  simp [tripleSharings, List.mem_filterMap]

theorem BatchSharing.triplesAt_eq (p : Role) : batch.triplesAt n amount dRecons p =
    (batch.tripleSharings n amount dRecons).map (fun s => s.shareOf p) := by
  rw [tripleSharings, List.map_filterMap]
  apply List.filterMap_congr
  intro i _
  rw [Option.map_map]
  congr 1
  funext d
  simp [tripleAt, tripleSharing, TripleSharing.shareOf]

/-- The triples are correct exactly if every opened product is the masked product. -/
theorem areTriples_triplesAt_iff (F : Type) [Field F] [G2p e F] (hw : 0 < w)
    (hhonest : HonestMajority honest n t) (hn : n < 2 ^ e.deg) :
    AreTriples honest t (batch.triplesAt n amount dRecons) ↔
      ∀ i < amount, ∀ d, openedProduct n amount dRecons t i = some d →
        d = (batch.product i).eval 0 := by
  constructor
  · rintro ⟨sharings, hsharings, heq⟩ i hi d hd
    have hall : batch.tripleSharings n amount dRecons = sharings := by
      apply TripleSharing.eq_of_map_shareOf F hw hhonest hn
      · intro s hs
        obtain ⟨j, -, d', -, rfl⟩ := BatchSharing.mem_tripleSharings.mp hs
        exact batch.degreeLe_tripleSharing j d'
      · exact fun s hs => (hsharings s hs).1
      · intro p hp
        rw [← batch.triplesAt_eq, heq p hp]
    have hmem : batch.tripleSharing i d ∈ sharings := by
      rw [← hall]
      exact BatchSharing.mem_tripleSharings.mpr ⟨i, hi, d, hd, rfl⟩
    exact (batch.isProduct_tripleSharing i d).mp (hsharings _ hmem).2
  · intro h
    refine ⟨batch.tripleSharings n amount dRecons, fun s hs => ?_, fun p _ => batch.triplesAt_eq p⟩
    obtain ⟨i, hi, d, hd, rfl⟩ := BatchSharing.mem_tripleSharings.mp hs
    exact ⟨batch.degreeLe_tripleSharing i d, (batch.isProduct_tripleSharing i d).mpr (h i hi d hd)⟩

end Sharings

/-!
## Runs of a batch

The honest parties run a batch over an ideal broadcast. Each of them broadcasts its shares of the
masked products, and returns the triples of those that are opened; if all are opened, it returns after
the broadcast.
-/

theorem openedProduct_eq_some {w : ℕ} {e : ExtensionDegree} (F : Type) [Field F] [G2p e F]
    (hw : 0 < w) {n t amount : ℕ} (hn : n < 2 ^ e.deg)
    {dRecons : Role → BroadcastValue (SmallValue (GaloisRing w e))}
    (hlen : 2 * t + 1 ≤ (countedRoles n amount dRecons).length) {i : ℕ} {g : (GaloisRing w e)[X]}
    (hg : g.natDegree ≤ 2 * t)
    (hdis : disagreements (productWord n amount dRecons i) g ≤ errorBudget n amount dRecons t) :
    openedProduct n amount dRecons t i = some (g.eval 0) := by
  rw [openedProduct, (decoded_eq_some_iff (productWord_unitDifferences F hw hn i)
    (errorBudget_le hlen i)).mpr ⟨degree_lt_succ_iff.mpr hg, hdis⟩]
  rfl

section Run

variable {z : BaseRing} {e : ExtensionDegree} {F : Type} [Field F] [DecidableEq F] [G2p e F]

/-- The program of a party that has reached the counters of a session. -/
def tripleBatchOf (store : LagrangeStore F) (keys : PrssKeys) (setup : Role → PRSSSetup z.bits e)
    (n t : ℕ) (corrupt : Finset Role) (counters : PRSSCounters) (amount : ℕ) (p : Role) :
    SmallProg (GaloisRing z.bits e) (SmallSession z e × List (Triple (GaloisRing z.bits e))) :=
  nextTripleBatch store ⟨⟨p, n, t, corrupt⟩, sessionState keys (setup p) counters⟩ amount

variable {keys : PrssKeys} {n t : ℕ} {corrupt honest : Finset Role} {counters : PRSSCounters}
  {amount : ℕ} {setup : Role → PRSSSetup z.bits e} {store : LagrangeStore F}
  {received : Role → BroadcastValue (SmallValue (GaloisRing z.bits e))}

omit [DecidableEq F] in
/-- What a party draws at the counters are its shares of the batch. -/
theorem batchShares_of_drawn (ht : t < n) (hn : n < 2 ^ e.deg) {p : Role} (hp : p ∈ partyRoles n)
    {allPrss zDouble : List (GaloisRing z.bits e)} {prss₁ prss₂ : PRSSState z.bits e}
    (hprss : prssNextVec (partyState keys n t counters p) p (3 * amount) = .ok (allPrss, prss₁))
    (hprzs : przsNextVec prss₁ p t amount = .ok (zDouble, prss₂)) :
    batchShares amount allPrss zDouble =
      .ok ((prssBatch keys F ht.le hn counters amount).sharesAt amount p) := by
  obtain ⟨i, rfl⟩ := List.mem_ofFn.mp hp
  obtain ⟨rfl, rfl⟩ := prssNextVec_eq_ok keys ht hprss
  obtain ⟨rfl, -⟩ := przsNextVec_eq_ok keys ht hprzs
  exact batchShares_eq (prssBatch keys F ht.le hn counters amount) (fun _ => rfl) (fun _ => rfl)
    (fun _ => rfl) (fun _ => rfl)

/-- Below the bounds of the counters a party draws its shares and broadcasts the masked products. -/
theorem nextTripleBatch_of_counters (store : LagrangeStore F) (keys : PrssKeys) (ht : t < n)
    (hn : n < 2 ^ e.deg) (hcorrupt : corrupt ⊆ (partyRoles n).toFinset) {p : Role}
    (hp : p ∈ partyRoles n) (hprssCtr : counters.prssCtr + 3 * amount ≤ 2 ^ 112)
    (hprzsCtr : counters.przsCtr + amount ≤ 2 ^ 104) :
    RunsBatch (z := z) F (prssBatch keys F ht.le hn counters amount) n amount corrupt counters p
      (partyState keys n t (counters.afterBatch amount) p)
      (nextTripleBatch store ⟨⟨p, n, t, corrupt⟩, partyState keys n t counters p⟩ amount) := by
  have hrole := hp
  obtain ⟨i, rfl⟩ := List.mem_ofFn.mp hp
  have hprss := prssNextVec_eq (z := z) (e := e) (t := t) keys hprssCtr i
  have hprzs := przsNextVec_eq (z := z) (e := e) (t := t) keys
    (show ({ counters with prssCtr := counters.prssCtr + 3 * amount } :
      PRSSCounters).przsCtr + amount ≤ 2 ^ 104 from hprzsCtr) i
  exact nextTripleBatch_eq store _ hn hcorrupt hprss hprzs
    (batchShares_of_drawn ht hn hrole hprss hprzs)

/-- For some index, a polynomial within the error budget of the broadcast shares has another value at
zero than the masked product. -/
def Steered (keys : PrssKeys) (n t : ℕ) (corrupt : Finset Role) (counters : PRSSCounters)
    (amount : ℕ) (received : Role → BroadcastValue (SmallValue (GaloisRing z.bits e))) : Prop :=
  ∃ i < amount, ∃ g : (GaloisRing z.bits e)[X], g.natDegree ≤ 2 * t ∧
    disagreements (productWord n amount (visible corrupt received) i) g ≤
      errorBudget n amount (visible corrupt received) t ∧
    g.eval 0 ≠ (prssSharing keys n t (counters.prssCtr + i)).eval 0 *
        (prssSharing keys n t (counters.prssCtr + (amount + i))).eval 0 +
      (prssSharing keys n t (counters.prssCtr + (2 * amount + i))).eval 0

omit [DecidableEq F] in
theorem opened_eq_product_iff_not_steered (ht : t ≤ n) (hn : n < 2 ^ e.deg)
    (hlen : 2 * t + 1 ≤ (countedRoles n amount (visible corrupt received)).length) :
    (∀ i < amount, ∀ d, openedProduct n amount (visible corrupt received) t i = some d →
        d = ((prssBatch keys F ht hn counters amount).product i).eval 0) ↔
      ¬ Steered keys n t corrupt counters amount received := by
  have hdecoded : ∀ i (g : (GaloisRing z.bits e)[X]),
      decoded (productWord n amount (visible corrupt received) i) (2 * t + 1)
          (errorBudget n amount (visible corrupt received) t) = some g ↔
        g.natDegree ≤ 2 * t ∧ disagreements (productWord n amount (visible corrupt received) i) g ≤
          errorBudget n amount (visible corrupt received) t := by
    intro i g
    rw [← degree_lt_succ_iff]
    exact decoded_eq_some_iff (productWord_unitDifferences F z.bits_pos hn i) (errorBudget_le hlen i)
  constructor
  · rintro h ⟨i, hi, g, hg, hdis, hne⟩
    apply hne
    rw [h i hi (g.eval 0) (by rw [openedProduct, (hdecoded i g).mpr ⟨hg, hdis⟩]; rfl),
      BatchSharing.eval_zero_product]
    rfl
  · intro h i hi d hd
    obtain ⟨g, hg, rfl⟩ := Option.map_eq_some_iff.mp hd
    obtain ⟨hdeg, hdis⟩ := (hdecoded i g).mp hg
    rw [BatchSharing.eval_zero_product]
    by_contra hne
    exact h ⟨i, hi, g, hdeg, hdis, hne⟩

section Setup

variable (hsetup : ∀ p ∈ honest, prssSets F (partyRoles n) t p ((partySets n t p).map keys.key) =
  .ok (setup p)) (hhonest : HonestMajority honest n t)

include hsetup hhonest

theorem lt_of_setup : n < 2 ^ e.deg := by
  obtain ⟨p, hp⟩ := hhonest.nonempty
  have := hhonest.lt
  exact ((prssSets_eq_ok_iff keys F z (by omega) _ _).mp (hsetup p hp)).1

theorem sessionState_of_setup (counters : PRSSCounters) {p : Role} (hp : p ∈ honest) :
    sessionState keys (setup p) counters = partyState keys n t counters p := by
  have := hhonest.lt
  rw [((prssSets_eq_ok_iff keys F z (by omega) _ _).mp (hsetup p hp)).2]
  rfl

variable (hcorrupt : corrupt ⊆ (partyRoles n).toFinset) (hdisjoint : Disjoint honest corrupt)

include hcorrupt hdisjoint

/-- A batch whose masked products are all opened ends after the broadcast. -/
theorem tripleBatchOf_returns (store : LagrangeStore F) (hn : n < 2 ^ e.deg) (ht : t ≤ n)
    (hprssCtr : counters.prssCtr + 3 * amount ≤ 2 ^ 112)
    (hprzsCtr : counters.przsCtr + amount ≤ 2 ^ 104)
    (hreceived : ∀ p ∈ honest, received p = .payload (.ringVector
      ((prssBatch keys F ht hn counters amount).sharesAt amount p).d))
    (hopen : ∀ i < amount, openedProduct n amount (visible corrupt received) t i ≠ none) :
    Delivered (· ∈ honest) (tripleBatchOf store keys setup n t corrupt counters amount)
        (fun _ => received) ∧
      ∀ p ∈ honest,
        (tripleBatchOf store keys setup n t corrupt counters amount p).run (fun _ => received) =
          .ok (⟨⟨p, n, t, (uncountedRoles n amount (visible corrupt received)).toFinset⟩,
              partyState keys n t (counters.afterBatch amount) p⟩,
            (prssBatch keys F ht hn counters amount).triplesAt n amount (visible corrupt received) p) := by
  have htn : t < n := by have := hhonest.lt; omega
  obtain ⟨hlen, hcounted⟩ := counted_of_honestMajority hhonest.mem_roles
    (fun p hp => Finset.disjoint_left.mp hdisjoint hp) hreceived hhonest
  have hbad : badIndices n amount t (visible corrupt received) = [] := by
    rw [badIndices, List.filter_eq_nil_iff]
    intro i hi
    rw [Option.isNone_iff_eq_none]
    exact hopen i (List.mem_range.mp hi)
  refine forall₂_and.mp fun p hp => ?_
  obtain ⟨next, heq, hnext⟩ := nextTripleBatch_of_counters store keys htn hn hcorrupt
    (hhonest.mem_roles p hp) hprssCtr hprzsCtr
  have hfinal := hnext received (hcounted p hp) hlen
  rw [hbad] at hfinal
  rw [← sessionState_of_setup hsetup hhonest counters hp] at heq
  exact ⟨fun k m hsent => (hreceived p hp).trans ((Prog.run_of_send heq hfinal).2 k m hsent).2.symm,
    (Prog.run_of_send heq hfinal).1⟩

variable {rounds : ℕ → Role → BroadcastValue (SmallValue (GaloisRing z.bits e))}
  (hdelivered : Delivered (· ∈ honest)
    (tripleBatchOf store keys setup n t corrupt counters amount) rounds)
  {session : Role → SmallSession z e} {triples : Role → List (Triple (GaloisRing z.bits e))}
  (hrun : ∀ p ∈ honest, (tripleBatchOf store keys setup n t corrupt counters amount p).run rounds =
    .ok (session p, triples p))

include hdelivered hrun

/-- A party that returns has broadcast its shares of the masked products, and its triples are those
of the opened ones. -/
theorem tripleBatchOf_run (hn : n < 2 ^ e.deg) (ht : t ≤ n) :
    (∀ p ∈ honest, rounds 0 p = .payload (.ringVector
      ((prssBatch keys F ht hn counters amount).sharesAt amount p).d)) ∧
    ∀ p ∈ honest, triples p = (prssBatch keys F ht hn counters amount).triplesAt n amount
      (visible corrupt (rounds 0)) p := by
  have htn : t < n := by have := hhonest.lt; omega
  have hsend : ∀ p ∈ honest, ∃ prss, RunsBatch F (prssBatch keys F ht hn counters amount) n amount
      corrupt counters p prss (tripleBatchOf store keys setup n t corrupt counters amount p) := by
    intro p hp
    have hstate := sessionState_of_setup hsetup hhonest counters hp
    have h := hrun p hp
    rw [tripleBatchOf, hstate] at h ⊢
    obtain ⟨⟨allPrss, prss₁⟩, hprss, h⟩ := Prog.run_ofExcept_bind h
    obtain ⟨⟨zDouble, prss₂⟩, hprzs, -⟩ := Prog.run_ofExcept_bind h
    exact ⟨prss₂, nextTripleBatch_eq store _ hn hcorrupt hprss hprzs
      (batchShares_of_drawn htn hn (hhonest.mem_roles p hp) hprss hprzs)⟩
  have hreceived : ∀ p ∈ honest, rounds 0 p = .payload (.ringVector
      ((prssBatch keys F ht hn counters amount).sharesAt amount p).d) := by
    intro p hp
    obtain ⟨prss, next, heq, -⟩ := hsend p hp
    apply hdelivered p hp 0
    rw [heq]
    rfl
  refine ⟨hreceived, fun p hp => ?_⟩
  obtain ⟨prss, next, heq, hnext⟩ := hsend p hp
  obtain ⟨hlen, hcounted⟩ := counted_of_honestMajority hhonest.mem_roles
    (fun p hp => Finset.disjoint_left.mp hdisjoint hp) hreceived hhonest
  have h := hrun p hp
  rw [heq, Prog.run, hnext (rounds 0) (hcounted p hp) hlen] at h
  obtain ⟨base, k, -, hdone⟩ := Prog.run_bind h
  exact (congrArg Prod.snd (Except.ok.inj hdone)).symm

/-- The triples of a batch are correct exactly if the broadcast shares do not steer the
reconstruction. -/
theorem tripleBatch_areTriples_iff :
    AreTriples honest t triples ↔ ¬ Steered keys n t corrupt counters amount (rounds 0) := by
  have hn := lt_of_setup hsetup hhonest
  have ht : t ≤ n := by have := hhonest.lt; omega
  obtain ⟨hreceived, htriples⟩ :=
    tripleBatchOf_run hsetup hhonest hcorrupt hdisjoint hdelivered hrun hn ht
  have hlen := card_honest_le_countedRoles hhonest.mem_roles
    (fun p hp => Finset.disjoint_left.mp hdisjoint hp) hreceived
  have hlt := hhonest.lt_card
  calc AreTriples honest t triples
      ↔ AreTriples honest t ((prssBatch keys F ht hn counters amount).triplesAt n amount
          (visible corrupt (rounds 0))) := areTriples_congr htriples
    _ ↔ _ := areTriples_triplesAt_iff F z.bits_pos hhonest hn
    _ ↔ _ := opened_eq_product_iff_not_steered ht hn (by omega)

end Setup

omit [DecidableEq F] in
/-- With enough parties no shares steer the reconstruction: the masked product has too many honest
shares for another polynomial to lie within the budget. -/
theorem not_steered_of_le (hhonest : HonestMajority honest n t) (ht : t ≤ n) (hn : n < 2 ^ e.deg)
    (hcorrupt : corrupt ⊆ (partyRoles n).toFinset) (hdisjoint : Disjoint honest corrupt)
    (hreceived : ∀ p ∈ honest, received p = .payload (.ringVector
      ((prssBatch keys F ht hn counters amount).sharesAt amount p).d))
    (hle : 4 * t ≤ n + corrupt.card) : ¬ Steered keys n t corrupt counters amount received := by
  rintro ⟨i, hi, g, hg, hdis, hne⟩
  have hdisj : ∀ p ∈ honest, p ∉ corrupt := fun p hp => Finset.disjoint_left.mp hdisjoint hp
  have hproduct := disagreements_product_le hhonest.mem_roles hdisj hreceived hi
  have hlen := card_honest_le_countedRoles hhonest.mem_roles hdisj hreceived
  have hcounted : (countedRoles n amount (visible corrupt received)).length + corrupt.card ≤ n := by
    have hcard := (Finset.card_le_card
      (corrupt_subset_uncountedRoles amount received hcorrupt)).trans (List.toFinset_card_le _)
    have := length_countedRoles_add n amount (visible corrupt received)
    omega
  have hle_card := hhonest.le_card
  have hlt := hhonest.lt
  apply hne
  have hfew : disagreements (productWord n amount (visible corrupt received) i) g +
      disagreements (productWord n amount (visible corrupt received) i)
        ((prssBatch keys F ht hn counters amount).product i) + (2 * t + 1) ≤
      (productWord n amount (visible corrupt received) i).length := by
    rw [length_productWord]
    rw [errorBudget] at hdis
    omega
  have heq : g = (prssBatch keys F ht hn counters amount).product i :=
    eq_of_disagreements (productWord_unitDifferences F z.bits_pos hn i) (degree_lt_succ_iff.mpr hg)
      (degree_lt_succ_iff.mpr ((prssBatch keys F ht hn counters amount).natDegree_product_le i)) hfew
  rw [heq, BatchSharing.eval_zero_product]
  rfl

end Run

section Runs

/-- The values of a round in which a party of the set broadcasts its shares, and the others what is
given. -/
noncomputable def batchRound {w : ℕ} {e : ExtensionDegree} {t : ℕ}
    (batch : BatchSharing (GaloisRing w e) t) (amount : ℕ) (honest : Finset Role)
    (others : Role → BroadcastValue (SmallValue (GaloisRing w e))) (p : Role) :
    BroadcastValue (SmallValue (GaloisRing w e)) :=
  if p ∈ honest then .payload (.ringVector (batch.sharesAt amount p).d) else others p

theorem prssSets_partySetup {n t : ℕ} (ht : t ≤ n) (hn : n < 2 ^ ExtensionDegree.three.deg)
    (keys : PrssKeys) (p : Role) :
    prssSets GF8 (partyRoles n) t p ((partySets n t p).map keys.key) =
      .ok (partySetup keys n t p : PRSSSetup BaseRing.z64.bits .three) :=
  prssSets_eq keys GF8 .z64 hn ht p

/-- A run in which the last of four parties is silent, so that the budget is zero. -/
theorem exists_run_silent_fourth :
    ∃ (rounds : ℕ → Role → BroadcastValue (SmallValue (GaloisRing BaseRing.z64.bits .three)))
      (session : Role → SmallSession .z64 .three)
      (triples : Role → List (Triple (GaloisRing BaseRing.z64.bits .three))),
      Delivered (· ∈ ({1, 2, 3} : Finset Role)) (tripleBatchOf (F := GF8) LagrangeStore.empty xorKeys
        (partySetup xorKeys 4 1) 4 1 ∅ ⟨0, 5, 9⟩ 2) rounds ∧
      ∀ p ∈ ({1, 2, 3} : Finset Role), (tripleBatchOf (F := GF8) LagrangeStore.empty xorKeys
        (partySetup xorKeys 4 1) 4 1 ∅ ⟨0, 5, 9⟩ 2 p).run rounds = .ok (session p, triples p) := by
  have hhonest : HonestMajority {1, 2, 3} 4 1 := ⟨by decide, by decide, by decide⟩
  have hn : 4 < 2 ^ ExtensionDegree.three.deg := by decide
  let batch : BatchSharing (GaloisRing BaseRing.z64.bits .three) 1 :=
    prssBatch (n := 4) xorKeys GF8 (by decide) hn ⟨0, 5, 9⟩ 2
  let received := batchRound batch 2 {1, 2, 3} (fun _ => .bot)
  have hreceived : ∀ p ∈ ({1, 2, 3} : Finset Role),
      received p = .payload (.ringVector (batch.sharesAt 2 p).d) := fun p hp => if_pos hp
  have hdisj : ∀ p ∈ ({1, 2, 3} : Finset Role), p ∉ (∅ : Finset Role) := by simp
  have hcounted : (countedRoles 4 2 (visible ∅ received)).length ≤ 3 := by
    have hmem : 4 ∈ uncountedRoles 4 2 (visible ∅ received) :=
      mem_uncountedRoles.mpr ⟨by decide, rfl⟩
    have hpos := List.length_pos_of_mem hmem
    have := length_countedRoles_add 4 2 (visible ∅ received)
    omega
  have hcard : ({1, 2, 3} : Finset Role).card = 3 := by decide
  have hopen : ∀ i < 2, openedProduct 4 2 (visible ∅ received) 1 i ≠ none := by
    intro i hi
    have hdis := disagreements_product_le hhonest.mem_roles hdisj hreceived hi
    rw [openedProduct_eq_some GF8 BaseRing.z64.bits_pos hn (by omega)
      (batch.natDegree_product_le i) (by omega)]
    simp
  obtain ⟨hdelivered, hrun⟩ := tripleBatchOf_returns (F := GF8)
    (fun p _ => prssSets_partySetup (n := 4) (t := 1) (by decide) hn xorKeys p)
    hhonest (Finset.empty_subset _) (Finset.disjoint_empty_right _) LagrangeStore.empty hn (by decide)
    (by norm_num) (by norm_num) hreceived hopen
  exact ⟨_, _, _, hdelivered, hrun⟩

theorem tripleBatch_areTriples_four_parties :
    ∃ (rounds : ℕ → Role → BroadcastValue (SmallValue (GaloisRing BaseRing.z64.bits .three)))
      (session : Role → SmallSession .z64 .three)
      (triples : Role → List (Triple (GaloisRing BaseRing.z64.bits .three))),
      (∀ p ∈ ({1, 2, 3} : Finset Role), (tripleBatchOf (F := GF8) LagrangeStore.empty xorKeys
        (partySetup xorKeys 4 1) 4 1 ∅ ⟨0, 5, 9⟩ 2 p).run rounds = .ok (session p, triples p)) ∧
      (AreTriples {1, 2, 3} 1 triples ↔ ¬ Steered xorKeys 4 1 ∅ ⟨0, 5, 9⟩ 2 (rounds 0)) := by
  obtain ⟨rounds, session, triples, hdelivered, hrun⟩ := exists_run_silent_fourth
  exact ⟨rounds, session, triples, hrun, tripleBatch_areTriples_iff
    (fun p _ => prssSets_partySetup (n := 4) (t := 1) (by decide) (by decide) xorKeys p)
    ⟨by decide, by decide, by decide⟩ (Finset.empty_subset _) (Finset.disjoint_empty_right _)
    hdelivered hrun⟩

/-- A polynomial that vanishes at the points of the parties up to four, but not at zero. -/
noncomputable def steeringPoly : (GaloisRing BaseRing.z64.bits .three)[X] :=
  (X - C (fromByte 1)) * (X - C (fromByte 2)) * (X - C (fromByte 3)) * (X - C (fromByte 4))

theorem natDegree_steeringPoly_le : steeringPoly.natDegree ≤ 2 * 2 := by
  unfold steeringPoly
  compute_degree

theorem eval_steeringPoly {r : Role} (hr : r = 1 ∨ r = 2 ∨ r = 3 ∨ r = 4) :
    steeringPoly.eval (fromByte r) = 0 := by
  rcases hr with rfl | rfl | rfl | rfl <;> simp [steeringPoly]

theorem eval_zero_steeringPoly_ne : steeringPoly.eval 0 ≠ 0 := by
  have hunit : ∀ r ∈ partyRoles 7, IsUnit (fromByte r : GaloisRing BaseRing.z64.bits .three) :=
    fun r hr => isUnit_fromByte GF8 BaseRing.z64.bits_pos (n := 7) (by decide) hr
  have hprod : IsUnit (steeringPoly.eval 0) := by
    simp only [steeringPoly, eval_mul, eval_sub, eval_X, eval_C, zero_sub]
    exact (((hunit 1 (by decide)).neg.mul (hunit 2 (by decide)).neg).mul
      (hunit 3 (by decide)).neg).mul (hunit 4 (by decide)).neg
  exact hprod.ne_zero

/-- Two of seven parties add the values of the steering polynomial to their shares of the masked
product. The sum is wrong for the fifth party only, which is within the budget. -/
theorem steered_two_of_seven :
    ∃ (setup : Role → PRSSSetup BaseRing.z64.bits .three)
      (rounds : ℕ → Role → BroadcastValue (SmallValue (GaloisRing BaseRing.z64.bits .three)))
      (session : Role → SmallSession .z64 .three)
      (triples : Role → List (Triple (GaloisRing BaseRing.z64.bits .three))),
      HonestMajority {1, 2, 3, 4, 5} 7 2 ∧
      (∀ p ∈ ({1, 2, 3, 4, 5} : Finset Role), prssSets GF8 (partyRoles 7) 2 p
        ((partySets 7 2 p).map xorKeys.key) = .ok (setup p)) ∧
      Delivered (· ∈ ({1, 2, 3, 4, 5} : Finset Role)) (tripleBatchOf (F := GF8) LagrangeStore.empty
        xorKeys setup 7 2 ∅ ⟨0, 0, 0⟩ 1) rounds ∧
      (∀ p ∈ ({1, 2, 3, 4, 5} : Finset Role), (tripleBatchOf (F := GF8) LagrangeStore.empty xorKeys
        setup 7 2 ∅ ⟨0, 0, 0⟩ 1 p).run rounds = .ok (session p, triples p)) ∧
      ¬ AreTriples {1, 2, 3, 4, 5} 2 triples := by
  have hhonest : HonestMajority {1, 2, 3, 4, 5} 7 2 := ⟨by decide, by decide, by decide⟩
  have hn : 7 < 2 ^ ExtensionDegree.three.deg := by decide
  have hsetup := fun p (_ : p ∈ ({1, 2, 3, 4, 5} : Finset Role)) =>
    prssSets_partySetup (n := 7) (t := 2) (by decide) hn xorKeys p
  let batch : BatchSharing (GaloisRing BaseRing.z64.bits .three) 2 :=
    prssBatch (n := 7) xorKeys GF8 (by decide) hn ⟨0, 0, 0⟩ 1
  let received := batchRound batch 1 {1, 2, 3, 4, 5} (fun p =>
    .payload (.ringVector [(batch.product 0 + steeringPoly).eval (fromByte p)]))
  have hreceived : ∀ p ∈ ({1, 2, 3, 4, 5} : Finset Role),
      received p = .payload (.ringVector (batch.sharesAt 1 p).d) := fun p hp => if_pos hp
  have hothers : ∀ p ∉ ({1, 2, 3, 4, 5} : Finset Role), received p =
      .payload (.ringVector [(batch.product 0 + steeringPoly).eval (fromByte p)]) :=
    fun p hp => if_neg hp
  have hdisj : ∀ p ∈ ({1, 2, 3, 4, 5} : Finset Role), p ∉ (∅ : Finset Role) := by simp
  have hcounted : countedRoles 7 1 (visible ∅ received) = partyRoles 7 := by
    apply List.filter_eq_self.mpr
    intro r _
    by_cases hr : r ∈ ({1, 2, 3, 4, 5} : Finset Role)
    · rw [vectorOf_honest (hdisj r hr) (hreceived r hr)]
      rfl
    · rw [visible, hothers r hr]
      rfl
  have hshare : ∀ r ∈ partyRoles 7, r ≠ 5 → (batch.product 0 + steeringPoly).eval (fromByte r) =
      broadcastShare 1 (visible ∅ received) 0 r := by
    intro r hr hne
    by_cases hmem : r ∈ ({1, 2, 3, 4, 5} : Finset Role)
    · rw [broadcastShare_honest (hdisj r hmem) (hreceived r hmem) one_pos, eval_add,
        eval_steeringPoly (by simpa [hne] using hmem), add_zero]
    · rw [broadcastShare, visible, hothers r hmem]
      rfl
  have hdis : disagreements (productWord 7 1 (visible ∅ received) 0)
      (batch.product 0 + steeringPoly) ≤ 1 := by
    classical
    rw [productWord, disagreements_map]
    calc _ ≤ ((partyRoles 7).filter (fun r => decide (r = 5))).length := by
          rw [← List.countP_eq_length_filter, ← List.countP_eq_length_filter]
          apply List.countP_mono_left
          intro r hr hwrong
          rw [decide_eq_true_eq] at hwrong ⊢
          by_contra hne
          exact hwrong (hshare r hr hne)
      _ ≤ 1 := by decide
  have hlen : 2 * 2 + 1 ≤ (countedRoles 7 1 (visible ∅ received)).length := by
    rw [hcounted]
    decide
  have hopened := openedProduct_eq_some GF8 BaseRing.z64.bits_pos hn hlen
    (natDegree_add_le_of_degree_le (batch.natDegree_product_le 0) natDegree_steeringPoly_le)
    (show _ ≤ errorBudget 7 1 (visible ∅ received) 2 by
      rw [errorBudget, hcounted]
      exact hdis)
  obtain ⟨hdelivered, hrun⟩ := tripleBatchOf_returns (F := GF8) hsetup hhonest
    (Finset.empty_subset _) (Finset.disjoint_empty_right _) LagrangeStore.empty hn (by decide)
    (by norm_num) (by norm_num) hreceived (by
      intro i hi
      rw [Nat.lt_one_iff.mp hi, hopened]
      simp)
  refine ⟨_, _, _, _, hhonest, hsetup, hdelivered, hrun, ?_⟩
  rw [areTriples_triplesAt_iff GF8 BaseRing.z64.bits_pos hhonest hn]
  intro h
  have hzero := h 0 one_pos _ hopened
  rw [eval_add] at hzero
  exact eval_zero_steeringPoly_ne (left_eq_add.mp hzero.symm)

end Runs

end ThresholdKms
