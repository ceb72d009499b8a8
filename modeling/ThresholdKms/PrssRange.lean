import ThresholdKms.PrssSharing

/-!
# Pseudorandom masks

A mask is the sum of two bounded pseudorandom integers for each set. The masks of a batch are computed
in chunks, and the chunks are put together in order.
-/

open Polynomial ReplicatedSharing

namespace ThresholdKms

open Outcome GaloisRing ResiduePoly

section Chunks

variable {α : Type*} (g : ℕ → α)

theorem flatten_first_chunks (chunk amount c : ℕ) : ((List.range c).map (fun i =>
        List.ofFn (fun j : Fin (min chunk (amount - i * chunk)) => g (i * chunk + j)))).flatten =
      (List.range (min amount (c * chunk))).map g := by
  induction c with
  | zero => simp
  | succ c ih =>
    have hlen : min amount ((c + 1) * chunk) =
        min amount (c * chunk) + min chunk (amount - c * chunk) := by
      rw [Nat.succ_mul]
      omega
    rw [List.range_succ, List.map_append, List.flatten_append, hlen, List.range_add,
      List.map_append, List.map_singleton, List.flatten_singleton]
    congr 1
    apply List.ext_getElem
    · simp
    · intro k hk _
      have hmin : min amount (c * chunk) = c * chunk := by
        rw [List.length_ofFn] at hk
        omega
      simp [hmin]

theorem flatten_chunks {chunk : ℕ} (hchunk : 0 < chunk) (amount : ℕ) :
    ((List.range ((amount + chunk - 1) / chunk)).map (fun c =>
        List.ofFn (fun j : Fin (min chunk (amount - c * chunk)) => g (c * chunk + j)))).flatten =
      (List.range amount).map g := by
  have hcover : amount ≤ (amount + chunk - 1) / chunk * chunk := by
    have hmod := Nat.mod_lt (amount + chunk - 1) hchunk
    have hdiv := Nat.div_add_mod' (amount + chunk - 1) chunk
    omega
  rw [flatten_first_chunks, min_eq_left hcover]

theorem chunk_start_lt {chunk amount c : ℕ} (hchunk : 0 < chunk)
    (hc : c < (amount + chunk - 1) / chunk) : c * chunk < amount := by
  have hle := Nat.mul_le_mul_right chunk (Nat.succ_le_of_lt hc)
  have hdiv := Nat.div_mul_le_self (amount + chunk - 1) chunk
  rw [Nat.succ_mul] at hle
  omega

end Chunks

variable {e : ExtensionDegree} {n t : ℕ} (keys : PrssKeys)

/-- The mask of a set at a counter. -/
def phiOf (ctr bd1 : ℕ) (s : List Role) : ℤ :=
  phiValue (keys.prf s).phiAes ctr bd1 + phiValue (keys.prf s).phiAes (ctr + 1) bd1

noncomputable def maskSharing (n t ctr bd1 : ℕ) : (GaloisRing BaseRing.z128.bits e)[X] :=
  setSharing n t (fun s => C ((phiOf keys ctr bd1 s : ℤ) : GaloisRing BaseRing.z128.bits e))

theorem i128Add_phiValue (aes : AesBlock → AesBlock) (c₀ c₁ : ℕ) {bd1 : ℕ} (hpos : 0 < bd1)
    (hbd : bd1 ≤ 2 ^ 126) :
    i128Add (phiValue aes c₀ bd1) (phiValue aes c₁ bd1) =
      .ok (phiValue aes c₀ bd1 + phiValue aes c₁ bd1) := by
  have h₀ := phiValue_bounds aes c₀ hpos
  have h₁ := phiValue_bounds aes c₁ hpos
  exact if_pos ⟨by omega, by omega⟩

theorem mulByI128_eq (x : GaloisRing BaseRing.z128.bits e) (scalar : ℤ) :
    mulByI128 .z128 x scalar = .ok ((scalar : GaloisRing BaseRing.z128.bits e) * x) := by
  refine congrArg Except.ok ?_
  ext1
  funext i
  have hcoef : ((scalar : GaloisRing BaseRing.z128.bits e) * x).coefs i =
      (scalar : BitVec BaseRing.z128.bits) * x.coefs i := coefs_fromScalar_mul _ x i
  rw [hcoef, mul_comm]
  rfl

section States

variable {z : BaseRing} {s : PRSSState z.bits e} {p : Role}

/-- What one set adds to the mask at a counter. -/
def maskTerm (ctr bd1 : ℕ) (d : PrfAes × GaloisRing z.bits e) : GaloisRing z.bits e :=
  ((phiValue d.1.phiAes ctr bd1 + phiValue d.1.phiAes (ctr + 1) bd1 : ℤ) : GaloisRing z.bits e) * d.2

variable {d : PrfAes × GaloisRing z.bits e} {set : PrssSet z.bits e × ℕ}

theorem maskAddSet_eq (hz : z = .z128) {lo m bd1 : ℕ} (hpos : 0 < bd1) (hbd : bd1 ≤ 2 ^ 126)
    (hctr : s.counters.maskCtr + 2 * (lo + m) ≤ 2 ^ 120)
    (h : setData "prss.mask_next()" s p set = .ok d) (v : Fin m → GaloisRing z.bits e) :
    maskAddSet s p bd1 lo (List.ofFn v) set = .ok (List.ofFn (v + fun j : Fin m =>
        maskTerm (s.counters.maskCtr + 2 * (lo + j)) bd1 d)) := by
  subst hz
  obtain ⟨prf, fA⟩ := d
  have hindex : ∀ k, k < 2 * m → indexVec ((List.range (2 * m)).map (fun k =>
      phiValue prf.phiAes (s.counters.maskCtr + 2 * lo + k) bd1)) k =
        .ok (phiValue prf.phiAes (s.counters.maskCtr + 2 * lo + k) bd1) := by
    intro k hk
    rw [indexVec, List.getElem?_map, List.getElem?_range hk]
    rfl
  rw [maskAddSet, h, ok_bind]
  simp only []
  rw [u128Add_of_lt (by omega), ok_bind, List.length_ofFn,
    phiRange_eq_ok _ hpos hbd (by omega), zipIdx_ofFn]
  apply mapM_ofFn
  intro j
  rw [hindex _ (by omega), ok_bind, hindex _ (by omega), ok_bind,
    i128Add_phiValue _ _ _ hpos hbd, ok_bind, mulByI128_eq, ← add_assoc,
    add_assoc s.counters.maskCtr, ← mul_add]
  rfl

/-- The data of a set, where the party has it. -/
def maskData (s : PRSSState z.bits e) (p : Role) (set : PrssSet z.bits e × ℕ) :
    PrfAes × GaloisRing z.bits e :=
  (setData "prss.mask_next()" s p set).toOption.getD (⟨id, id, id⟩, 0)

theorem maskData_of_ok (h : setData "prss.mask_next()" s p set = .ok d) : maskData s p set = d := by
  rw [maskData, h]
  rfl

/-- The mask at a counter. -/
def maskDraw (s : PRSSState z.bits e) (p : Role) (bd1 ctr : ℕ) : GaloisRing z.bits e :=
  (s.prssSetup.sets.zipIdx.map (fun set => maskTerm ctr bd1 (maskData s p set))).sum

/-- The masks are defined up to a counter: the party has the data of all sets, and unless there are
none, the ring, the bound and the counters are the ones that masks can be computed for. -/
structure MaskReady (s : PRSSState z.bits e) (p : Role) (bd1 last : ℕ) : Prop where
  data : ∀ set ∈ s.prssSetup.sets.zipIdx,
    setData "prss.mask_next()" s p set = .ok (maskData s p set)
  bounds : s.prssSetup.sets ≠ [] → z = .z128 ∧ 0 < bd1 ∧ bd1 ≤ 2 ^ 126 ∧ last ≤ 2 ^ 120

theorem MaskReady.mono {bd1 last last' : ℕ} (h : MaskReady s p bd1 last') (hle : last ≤ last') :
    MaskReady s p bd1 last where
  data := h.data
  bounds hne := by
    obtain ⟨hz, hpos, hbd, hlast⟩ := h.bounds hne
    exact ⟨hz, hpos, hbd, hle.trans hlast⟩

theorem foldlM_maskAddSet {bd1 : ℕ} (lo m : ℕ)
    (h : MaskReady s p bd1 (s.counters.maskCtr + 2 * (lo + m))) :
    s.prssSetup.sets.zipIdx.foldlM (maskAddSet s p bd1 lo) (List.replicate m 0) =
      .ok (List.ofFn (fun j : Fin m =>
        maskDraw s p bd1 (s.counters.maskCtr + 2 * (lo + j)))) := by
  rw [← List.ofFn_const]
  refine (foldlM_sum List.ofFn (f := fun (set : PrssSet z.bits e × ℕ) (j : Fin m) =>
    maskTerm (s.counters.maskCtr + 2 * (lo + j)) bd1 (maskData s p set)) ?_ 0).trans ?_
  · intro set hset acc
    obtain ⟨hz, hpos, hbd, hctr⟩ := h.bounds (fun hnil => by rw [hnil] at hset; cases hset)
    exact maskAddSet_eq hz hpos hbd hctr (h.data set hset) acc
  · refine congrArg (fun v => Except.ok (List.ofFn v)) (funext fun j => ?_)
    rw [zero_add, Pi.list_sum_apply, List.map_map]
    rfl

theorem maskNextVec_of_ready (prssGenParMinChunk : ℕ) {bd amount : ℕ}
    (hlt : s.counters.maskCtr + 2 * amount < 2 ^ 128) (h : 0 < amount →
      MaskReady s p (bd * 2 ^ statsec % 2 ^ 128) (s.counters.maskCtr + 2 * amount)) :
    maskNextVec prssGenParMinChunk s p bd amount = .ok ((List.range amount).map (fun k =>
          maskDraw s p (bd * 2 ^ statsec % 2 ^ 128) (s.counters.maskCtr + 2 * k)),
        { s with counters := { s.counters with maskCtr := s.counters.maskCtr + 2 * amount } }) := by
  have hchunk : 0 < max prssGenParMinChunk 1 := by omega
  have hchunks := mapM_eq_ok (fun c (hc : c ∈ List.range
      ((amount + max prssGenParMinChunk 1 - 1) / max prssGenParMinChunk 1)) => by
    have hstart := chunk_start_lt hchunk (List.mem_range.mp hc)
    exact foldlM_maskAddSet (c * max prssGenParMinChunk 1)
      (min (max prssGenParMinChunk 1) (amount - c * max prssGenParMinChunk 1))
      ((h (by omega)).mono (by omega)))
  rw [maskNextVec, maskChunks]
  rw [hchunks, u128Add_of_lt hlt, ok_bind,
    flatten_chunks (fun k => maskDraw s p (bd * 2 ^ statsec % 2 ^ 128)
      (s.counters.maskCtr + 2 * k)) hchunk amount]
  rfl

end States

theorem maskNextVec_eq (prssGenParMinChunk : ℕ) {counters : PRSSCounters} {bd amount : ℕ}
    (hpos : 0 < bd * 2 ^ statsec % 2 ^ 128) (hbd : bd * 2 ^ statsec % 2 ^ 128 ≤ 2 ^ 126)
    (hctr : counters.maskCtr + 2 * amount ≤ 2 ^ 120) (i : Fin n) :
    maskNextVec prssGenParMinChunk (partyState keys n t counters (i + 1)) (i + 1) bd amount =
      .ok ((List.range amount).map (fun k =>
          (maskSharing keys n t (counters.maskCtr + 2 * k) (bd * 2 ^ statsec % 2 ^ 128)).eval
            (partyPoint i : GaloisRing BaseRing.z128.bits e)),
        partyState keys n t { counters with maskCtr := counters.maskCtr + 2 * amount } (i + 1)) := by
  have hdata : ∀ set ∈ (partyState keys n t counters (i + 1) :
      PRSSState BaseRing.z128.bits e).prssSetup.sets.zipIdx,
      setData "prss.mask_next()" (partyState keys n t counters (i + 1)) (i + 1) set =
        .ok (keys.prf set.1.parties, setPoint set.1.parties i) := fun set hset =>
    setData_eq keys _ (List.mk_mem_zipIdx_iff_getElem?.mp hset)
  rw [maskNextVec_of_ready _ (by simp only [counters_partyState]; omega) (fun _ =>
    ⟨fun set hset => (maskData_of_ok (hdata set hset)).symm ▸ hdata set hset,
      fun _ => ⟨rfl, hpos, hbd, hctr⟩⟩)]
  refine congrArg (fun l => Except.ok (l, _)) (List.map_congr_left fun k _ => ?_)
  rw [maskDraw,
    List.map_congr_left (fun set hset => congrArg (maskTerm _ _) (maskData_of_ok (hdata set hset))),
    counters_partyState, maskSharing, eval_setSharing,
    map_parties_sets keys counters ((i : ℕ) + 1) (fun s => maskTerm (counters.maskCtr + 2 * k)
      (bd * 2 ^ statsec % 2 ^ 128) (keys.prf s, setPoint s i))]
  refine congrArg List.sum (List.map_congr_left fun s _ => ?_)
  rw [eval_C]
  rfl

/-!
## When a pseudorandom share is returned

A generator refuses the counters that would reach into the bytes of a block that hold its indices, and
a setup refuses more parties than there are exceptional points.
-/

variable {p : Role}

theorem lt_of_getFromExceptionalSequence {w idx : ℕ} {x : GaloisRing w e}
    (h : getFromExceptionalSequence idx = .ok x) : idx < 2 ^ e.deg := by
  rw [getFromExceptionalSequence] at h
  split_ifs at h with hle
  · cases h
  · exact not_le.mp hle

section Setup

variable (F : Type) [Field F] [DecidableEq F] [G2p e F]

/-- A party that assembled its setup could embed all parties and has one row of powers for each. -/
theorem prssSets_bounds {w : ℕ} {allRoles : List Role} {ars : List PrfKey} {setup : PRSSSetup w e}
    (h : prssSets F allRoles t p ars = .ok setup) :
    allRoles.length < 2 ^ e.deg ∧ setup.alphaPowers.length = allRoles.length := by
  obtain ⟨sets, -, h⟩ := bind_eq_ok.mp h
  obtain ⟨points, -, h⟩ := bind_eq_ok.mp h
  obtain ⟨powers, hpowers, h⟩ := bind_eq_ok.mp h
  obtain ⟨assembled, -, h⟩ := bind_eq_ok.mp h
  obtain rfl := Except.ok.inj h
  obtain ⟨parties, hparties, hpowers⟩ := bind_eq_ok.mp hpowers
  obtain rfl := Except.ok.inj hpowers
  constructor
  · rcases Nat.eq_zero_or_pos allRoles.length with hzero | hpos
    · rw [hzero]
      positivity
    · obtain ⟨x, hx⟩ := ok_of_mem_mapM hparties
        (List.mem_range'.mpr ⟨allRoles.length - 1, by omega, rfl⟩)
      have := lt_of_getFromExceptionalSequence hx
      omega
  · rw [computePowersList, List.length_map, ← (forall₂_of_mapM hparties).length_eq,
      List.length_range']

variable (z : BaseRing) (ht : t ≤ n) (p : Role) (setup : PRSSSetup z.bits e)
include ht

theorem prssSets_eq_ok_iff :
    prssSets F (partyRoles n) t p ((partySets n t p).map keys.key) = .ok setup ↔
      n < 2 ^ e.deg ∧ setup = partySetup keys n t p := by
  constructor
  · intro h
    have hn := (prssSets_bounds F h).1
    rw [length_partyRoles] at hn
    rw [prssSets_eq keys F z hn ht p] at h
    exact ⟨hn, (Except.ok.inj h).symm⟩
  · rintro ⟨hn, rfl⟩
    exact prssSets_eq keys F z hn ht p

/-- The setup of a session also refuses more sets than it can hold. -/
theorem prssInit_eq_ok_iff :
    prssInit F (partyRoles n) t p ((partySets n t p).map keys.key) = .ok setup ↔
      n.choose t ≤ prssSizeMax ∧ n < 2 ^ e.deg ∧ setup = partySetup keys n t p := by
  rw [prssInit, length_partyRoles]
  split_ifs with hsize
  · constructor
    · intro h
      cases h
    · rintro ⟨hle, -⟩
      omega
  · rw [prssSets_eq_ok_iff keys F z ht p setup]
    exact ⟨fun h => ⟨not_lt.mp hsize, h⟩, fun h => h.2⟩

end Setup

section Generators

variable {z : BaseRing}

theorem u128Add_eq_ok {a b c : ℕ} (h : u128Add a b = .ok c) : a + b < 2 ^ 128 ∧ c = a + b := by
  rw [u128Add] at h
  split_ifs at h with hlt
  · exact ⟨hlt, (Except.ok.inj h).symm⟩
  · cases h

variable {x : GaloisRing z.bits e} {s : PRSSState z.bits e}

theorem nextOf_eq_ok {missing : String} {batch : Outcome (List (GaloisRing z.bits e) ×
    PRSSState z.bits e)}
    (h : nextOf missing batch = .ok (x, s)) : ∃ l, batch = .ok (x :: l, s) := by
  obtain ⟨⟨values, s'⟩, hbatch, h⟩ := bind_eq_ok.mp h
  cases values with
  | nil => cases h
  | cons v l =>
    cases h
    exact ⟨l, hbatch⟩

variable {ctr : ℕ}

theorem nextBatch_one_eq_ok {δ : Type} {data : Outcome δ}
    {element : δ → ℕ → Outcome (GaloisRing z.bits e)}
    {r : List (GaloisRing z.bits e) × ℕ} (h : nextBatch data element ctr 1 = .ok r) :
    ∃ d x, data = .ok d ∧ element d ctr = .ok x ∧ r = ([x], ctr + 1) := by
  obtain ⟨values, hvalues, h⟩ := bind_eq_ok.mp h
  obtain ⟨d, hd, hvalues⟩ := bind_eq_ok.mp hvalues
  obtain ⟨ctr', hctr', h⟩ := bind_eq_ok.mp h
  obtain ⟨hlt, rfl⟩ := u128Add_eq_ok hctr'
  cases h
  rw [List.range_one, List.mapM_cons, u128Add_of_lt (show ctr + 0 < 2 ^ 128 by omega)] at hvalues
  obtain ⟨x, hx, hvalues⟩ := bind_eq_ok.mp hvalues
  cases hvalues
  exact ⟨d, x, hd, hx, rfl⟩

theorem prssElement_lt {data : List (PrfAes × GaloisRing z.bits e)} (hdata : data ≠ [])
    (h : prssElement data ctr = .ok x) : ctr < 2 ^ 112 := by
  cases data with
  | nil => exact absurd rfl hdata
  | cons d data =>
    obtain ⟨x₁, h, -⟩ := foldlM_cons_eq_ok.mp h
    obtain ⟨v, hpsi, -⟩ := bind_eq_ok.mp h
    rw [psi] at hpsi
    split_ifs at hpsi with hle
    · cases hpsi
    · exact not_le.mp hle

variable {data : List (PrfAes × List (GaloisRing z.bits e))}

theorem przsElement_lt {d : PrfAes × List (GaloisRing z.bits e)} (hd : d.2 ≠ [])
    (h : przsElement (d :: data) ctr = .ok x) : ctr < 2 ^ 104 := by
  obtain ⟨x₁, h, -⟩ := foldlM_cons_eq_ok.mp h
  obtain ⟨prf, points⟩ := d
  cases points with
  | nil => exact absurd rfl hd
  | cons v points =>
    obtain ⟨x₂, h, -⟩ := foldlM_cons_eq_ok.mp h
    obtain ⟨c, hchi, -⟩ := bind_eq_ok.mp h
    rw [chi] at hchi
    split_ifs at hchi with hle
    · cases hchi
    · exact not_le.mp hle

theorem przsElement_eq_zero
    (h : ∀ d ∈ data, d.2 = []) (ctr : ℕ) : przsElement data ctr = .ok 0 := by
  refine (foldlM_sum id (f := fun _ => (0 : GaloisRing z.bits e)) ?_ 0).trans ?_
  · intro d hd acc
    rw [h d hd, add_zero]
    rfl
  · simp

theorem phiRange_bounds {aes : AesBlock → AesBlock} {start count bd1 : ℕ} {l : List ℤ}
    (hcount : 0 < count) (h : phiRange aes start count bd1 = .ok l) :
    0 < bd1 ∧ bd1 ≤ 2 ^ 126 ∧ start + count ≤ 2 ^ 120 := by
  rw [phiRange, if_neg hcount.ne'] at h
  simp only [] at h
  split_ifs at h with hbd hctr hzero
  · cases h
  · cases h
  · cases h
  · exact ⟨by omega, by omega, by omega⟩

theorem mulByI128_ring {x y : GaloisRing z.bits e} {scalar : ℤ}
    (h : mulByI128 z x scalar = .ok y) : z = .z128 := by
  cases z with
  | z64 => cases h
  | z128 => rfl

theorem maskAddSet_bounds {bd1 lo : ℕ}
    {v : GaloisRing z.bits e} {out out' : List (GaloisRing z.bits e)} {set : PrssSet z.bits e × ℕ}
    (h : maskAddSet s p bd1 lo (v :: out) set = .ok out') :
    z = .z128 ∧ 0 < bd1 ∧ bd1 ≤ 2 ^ 126 ∧
      s.counters.maskCtr + 2 * lo + 2 * (out.length + 1) ≤ 2 ^ 120 := by
  obtain ⟨⟨prf, point⟩, -, h⟩ := bind_eq_ok.mp h
  obtain ⟨start, hstart, h⟩ := bind_eq_ok.mp h
  obtain ⟨phiVals, hphi, h⟩ := bind_eq_ok.mp h
  obtain ⟨y, hy⟩ := ok_of_mem_mapM h List.mem_cons_self
  obtain ⟨phi₀, -, hy⟩ := bind_eq_ok.mp hy
  obtain ⟨phi₁, -, hy⟩ := bind_eq_ok.mp hy
  obtain ⟨phi, -, hy⟩ := bind_eq_ok.mp hy
  obtain ⟨term, hterm, -⟩ := bind_eq_ok.mp hy
  obtain ⟨hpos, hbd, hctr⟩ := phiRange_bounds (by simp) hphi
  obtain ⟨-, rfl⟩ := u128Add_eq_ok hstart
  exact ⟨mulByI128_ring hterm, hpos, hbd, hctr⟩

theorem maskNextVec_bounds {prssGenParMinChunk : ℕ} {bd amount : ℕ}
    {r : List (GaloisRing z.bits e) × PRSSState z.bits e} (hsets : s.prssSetup.sets ≠ [])
    (hamount : 0 < amount) (h : maskNextVec prssGenParMinChunk s p bd amount = .ok r) :
    z = .z128 ∧ 0 < bd * 2 ^ statsec % 2 ^ 128 ∧ bd * 2 ^ statsec % 2 ^ 128 ≤ 2 ^ 126 ∧
      s.counters.maskCtr + 2 * amount ≤ 2 ^ 120 := by
  have hchunk : 0 < max prssGenParMinChunk 1 := by omega
  obtain ⟨chunks, hchunks, -⟩ := bind_eq_ok.mp h
  rw [maskChunks] at hchunks
  generalize max prssGenParMinChunk 1 = chunk at hchunk hchunks
  -- the last chunk reaches the end of the counters
  have hlast : (amount - 1) / chunk < (amount + chunk - 1) / chunk := by
    have heq : amount + chunk - 1 = amount - 1 + chunk := by omega
    rw [heq, Nat.add_div_right _ hchunk]
    exact Nat.lt_succ_self _
  obtain ⟨out, hout⟩ := ok_of_mem_mapM hchunks (List.mem_range.mpr hlast)
  have hmod := Nat.mod_lt (amount - 1) hchunk
  have hdiv := Nat.div_add_mod' (amount - 1) chunk
  have hlen : min chunk (amount - (amount - 1) / chunk * chunk) =
      amount - (amount - 1) / chunk * chunk - 1 + 1 := by omega
  rw [hlen] at hout
  cases hcases : s.prssSetup.sets with
  | nil => exact absurd hcases hsets
  | cons set sets =>
    rw [hcases] at hout
    obtain ⟨out₁, hout₁, -⟩ := foldlM_cons_eq_ok.mp hout
    obtain ⟨hz, hpos, hbd, hctr⟩ := maskAddSet_bounds hout₁
    rw [List.length_replicate] at hctr
    exact ⟨hz, hpos, hbd, by omega⟩

end Generators

end ThresholdKms
