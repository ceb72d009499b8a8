import ThresholdKms.SyndromeField

/-!
# Computing the syndrome over the ring

For shares of the parties `1, …, n` the computed polynomial is the syndrome of the values at the
parties' points.
-/

open Polynomial ExceptionalInterpolation

namespace ThresholdKms

open Outcome

open GaloisRing

variable {w : ℕ} {e : ExtensionDegree} {n : ℕ}

/-- The points of the parties `1, …, n`. -/
def partyPoint (i : Fin n) : GaloisRing w e := fromByte (i + 1)

/-- One value for each of the parties `1, …, n`. -/
def sharingOf {R : Type} (y : Fin n → R) : ShamirSharings R :=
  ⟨List.ofFn (fun i => ⟨i + 1, y i⟩)⟩

def partyRoles (n : ℕ) : List Role := List.ofFn (fun i : Fin n => (i : ℕ) + 1)

theorem length_partyRoles (n : ℕ) : (partyRoles n).length = n := by
  rw [partyRoles, List.length_ofFn]

theorem owners_sharingOf {R : Type} (y : Fin n → R) : (sharingOf y).owners = partyRoles n := by
  rw [ShamirSharings.owners, sharingOf, List.map_ofFn]
  rfl

theorem nodup_partyRoles (n : ℕ) : (partyRoles n).Nodup := by
  rw [partyRoles, List.nodup_ofFn]
  intro i j hij
  exact Fin.ext (by simpa using hij)

theorem pairwise_partyRoles (n : ℕ) : (partyRoles n).Pairwise (· < ·) := by
  rw [partyRoles, List.pairwise_ofFn]
  intro i j hij
  exact Nat.succ_lt_succ (Fin.lt_def.mp hij)

theorem mem_partyRoles_iff {n : ℕ} {role : Role} : role ∈ partyRoles n ↔ 1 ≤ role ∧ role ≤ n := by
  rw [partyRoles, List.mem_ofFn]
  constructor
  · rintro ⟨i, rfl⟩
    exact ⟨Nat.succ_pos _, i.isLt⟩
  · rintro ⟨hpos, hle⟩
    have hlt : role - 1 < n := (Nat.sub_lt hpos Nat.one_pos).trans_le hle
    exact ⟨⟨role - 1, hlt⟩, Nat.sub_add_cancel hpos⟩

theorem embeddable_partyRoles (hn : n < 2 ^ e.deg) : Embeddable e (partyRoles n) := by
  constructor
  · exact nodup_partyRoles n
  · intro o ho
    obtain ⟨i, rfl⟩ := List.mem_ofFn.mp ho
    change (i : ℕ) + 1 < 2 ^ e.deg
    omega

variable (F : Type) [Field F] [G2p e F]

theorem residue_partyPoint (hw : 0 < w) (hn : n < 2 ^ e.deg) (i : Fin n) :
    (dyadic F hw).residue (partyPoint i : GaloisRing w e) = G2p.fromU8 e (i + 1) :=
  residue_fromByte F hw (show (i : ℕ) + 1 < 2 ^ e.deg by omega)

theorem injective_fromU8_party (hn : n < 2 ^ e.deg) :
    Function.Injective (fun i : Fin n => (G2p.fromU8 e (i + 1) : F)) := by
  intro i j hij
  have h := G2p.fromU8_injOn e (show (i : ℕ) + 1 < 2 ^ e.deg by omega)
    (show (j : ℕ) + 1 < 2 ^ e.deg by omega) hij
  exact Fin.ext (by omega)

theorem fromU8_party_ne_zero (hn : n < 2 ^ e.deg) (i : Fin n) :
    (G2p.fromU8 e ((i : ℕ) + 1) : F) ≠ 0 := by
  rw [← G2p.fromU8_zero e]
  intro h
  have := G2p.fromU8_injOn e (show (i : ℕ) + 1 < 2 ^ e.deg by omega) (by positivity) h
  omega

theorem exceptional_partyPoint (F : Type) [Field F] [G2p e F] (hw : 0 < w) (hn : n < 2 ^ e.deg) :
    Exceptional (partyPoint : Fin n → GaloisRing w e) := by
  intro i j hij
  rw [(dyadic F hw).isUnit_iff, map_sub, residue_partyPoint F hw hn, residue_partyPoint F hw hn,
    sub_ne_zero]
  exact (injective_fromU8_party F hn).ne hij

theorem exceptional_fromU8_party (hn : n < 2 ^ e.deg) :
    Exceptional (fun i : Fin n => (G2p.fromU8 e (i + 1) : F)) := by
  intro i j hij
  rw [isUnit_iff_ne_zero, sub_ne_zero]
  exact (injective_fromU8_party F hn).ne hij

variable {threshold : ℕ}

section Compute

variable [DecidableEq F]

theorem syndromeCoef_eq (z : BaseRing) {α y : Fin n → GaloisRing z.bits e} (hex : Exceptional α)
    {polys : Fin n → Poly (GaloisRing z.bits e)} (hpolys : ∀ i, (polys i).toPoly = numerator α i)
    {r j : ℕ} (hj : j < r) :
    syndromeCoef F (List.ofFn α) (List.ofFn y) (List.ofFn polys)
      (computePowersList (List.ofFn α) r) j = .ok (∑ i, y i * α i ^ j * weight α i) := by
  rw [syndromeCoef, List.length_ofFn]
  refine (foldlM_range_sum (fun i => y i * α i ^ j * weight α i) ?_ 0).trans
    (by rw [zero_add])
  intro i coef
  have hpow : ((computePowersList (List.ofFn α) r).getD i []).getD j 0 = α i ^ j := by
    rw [computePowersList, List.map_ofFn, getD_ofFn, Function.comp_apply,
      getD_computePowers _ hj.le]
  simp only [hpow, getD_ofFn, Poly.eval_eq, hpolys]
  rw [invert_of_isUnit F z (hex.isUnit_eval_numerator i)]
  rfl

theorem syndromeCompute_sharingOf (z : BaseRing) (hn : n < 2 ^ e.deg)
    (ht : threshold + 1 ≤ n) (y : Fin n → GaloisRing z.bits e) :
    ∃ S : Poly (GaloisRing z.bits e), syndromeCompute F (sharingOf y) threshold = .ok S ∧
      S.toPoly = syndrome partyPoint (n - (threshold + 1)) y := by
  have hex := exceptional_partyPoint F z.bits_pos hn
  have hlen : (sharingOf y).shares.length = n := by rw [sharingOf, List.length_ofFn]
  have hys : (sharingOf y).shares.map Share.value = List.ofFn y := by
    rw [sharingOf, List.map_ofFn]
    rfl
  have hparties : (partyRoles n).map fromByte =
      List.ofFn (partyPoint : Fin n → GaloisRing z.bits e) := by
    rw [partyRoles, List.map_ofFn]
    rfl
  obtain ⟨polys, hpolys, hnum⟩ :=
    lagrangeNumerators_ofFn (partyPoint : Fin n → GaloisRing z.bits e)
  rw [syndromeCompute, hlen, usizeSub_of_le ht, ok_bind, owners_sharingOf,
    (embeddable_partyRoles hn).mapM_ring, ok_bind, hparties, hpolys, hys]
  apply foldlM_range_ok
    (fun j (res : Poly (GaloisRing z.bits e)) => res.toPoly = syndrome partyPoint j y)
  · intro j res hj hres
    refine ⟨res.setCoef j (∑ i, y i * partyPoint i ^ j * weight partyPoint i), ?_, ?_⟩
    · rw [syndromeCoef_eq F z hex hnum hj]
      rfl
    · have hzero : res.coef j = 0 := by
        rw [← Poly.coeff_toPoly, hres, coeff_syndrome, if_neg (lt_irrefl j)]
      rw [Poly.toPoly_setCoef_of_zero hzero, hres, syndrome, syndrome, Finset.sum_range_succ]
  · rw [syndrome, Finset.sum_range_zero, Poly.toPoly_zero]

/-- The computed syndrome keeps its trailing zeros. -/
theorem length_coefs_syndromeCompute {sharing : ShamirSharings (GaloisRing w e)}
    {S : Poly (GaloisRing w e)} (h : syndromeCompute F sharing threshold = .ok S) :
    S.coefs.length = sharing.shares.length - (threshold + 1) := by
  obtain ⟨r, hr, h⟩ := bind_eq_ok.mp h
  obtain ⟨parties, -, h⟩ := bind_eq_ok.mp h
  obtain ⟨polys, -, hrun⟩ := bind_eq_ok.mp h
  have hlen : S.coefs.length = r := by
    refine foldlM_range_of_ok (fun j res => res.coefs.length = j) ?_ rfl hrun
    rintro j res res' - rfl hstep
    obtain ⟨coef, -, hret⟩ := bind_eq_ok.mp hstep
    cases hret
    exact Poly.length_setCoef_length res coef
  rw [usizeSub] at hr
  split_ifs at hr with hle
  · cases hr
    exact hlen
  · cases hr

end Compute

/-- Only the errors of the shares of a polynomial enter their syndrome. -/
theorem syndrome_shares (F : Type) [Field F] [G2p e F] (hw : 0 < w) (hn : n < 2 ^ e.deg)
    (ht : threshold + 1 ≤ n) {f : (GaloisRing w e)[X]} (hf : f.natDegree ≤ threshold)
    (errs : Fin n → GaloisRing w e) :
    syndrome partyPoint (n - (threshold + 1)) (fun i => f.eval (partyPoint i) + errs i) =
      syndrome partyPoint (n - (threshold + 1)) errs := by
  have hclean := (exceptional_partyPoint F hw hn).syndrome_eval
    (show f.natDegree + (n - (threshold + 1)) < n by omega)
  rw [syndrome_add, hclean, zero_add]

/-!
## Syndrome decoding over the ring

Before round `i` the errors are the errors found so far plus `2 ^ i` times the errors still to be
found, and the syndrome is the syndrome of the latter. Positions without an error never enter the
decoded digits, so every digit vector stays within the correction radius.
-/

variable [DecidableEq F]

/-- The errors found so far, and the errors still to be found with their syndrome. -/
structure SyndromeInvariant (r : ℕ) (errs : Fin n → GaloisRing w e) (i : ℕ) (s : SyndromeState w e)
    (found rest : Fin n → GaloisRing w e) : Prop where
  eRes_eq : s.eRes = List.ofFn found
  split : ∀ k, errs k = found k + 2 ^ i * rest k
  clean : ∀ k, errs k = 0 → found k = 0
  syndrome_eq : s.syndromePoly.toPoly = C (2 ^ i) * syndrome partyPoint r rest

section Step

variable {r : ℕ} {errs found rest : Fin n → GaloisRing w e} {i : ℕ} {s : SyndromeState w e}

omit [DecidableEq F] in
/-- A position without an error has a zero digit. -/
theorem SyndromeInvariant.residue_eq_zero (hw : 0 < w) (hi : i < w)
    (h : SyndromeInvariant r errs i s found rest) {k : Fin n} (hk : errs k = 0) :
    (dyadic F hw).residue (rest k) = 0 := by
  apply (dyadic F hw).residue_of_two_pow_mul i _ hi
  have hsplit := h.split k
  rw [hk, h.clean k hk, zero_add] at hsplit
  exact hsplit.symm

theorem card_residue_le (hw : 0 < w) (hi : i < w) (h : SyndromeInvariant r errs i s found rest) :
    (Finset.univ.filter (fun k => (dyadic F hw).residue (rest k) ≠ 0)).card ≤
      (Finset.univ.filter (fun k => errs k ≠ 0)).card := by
  apply Finset.card_le_card
  intro k hk
  rw [Finset.mem_filter] at hk ⊢
  exact ⟨hk.1, fun hzero => hk.2 (h.residue_eq_zero F hw hi hzero)⟩

/-- The digits of the syndrome are the syndrome of the digits. -/
theorem toPoly_slicedSyndrome (hw : 0 < w) (hn : n < 2 ^ e.deg) (hi : i < w)
    (h : SyndromeInvariant r errs i s found rest) :
    (Poly.fromCoefs (s.syndromePoly.coefs.map (fun c => bitCompose F c i))).toPoly =
      syndrome (fun k : Fin n => (G2p.fromU8 e (k + 1) : F)) r
        (fun k => (dyadic F hw).residue (rest k)) := by
  have hmap := (exceptional_partyPoint F hw hn).map_syndrome (dyadic F hw).residue r rest
  simp only [residue_partyPoint F hw hn] at hmap
  rw [← hmap, Poly.toPoly_fromCoefs]
  ext k
  have hzero : bitCompose F (0 : GaloisRing w e) i = 0 := by
    have h0 := bitCompose_two_pow_mul (F := F) hw hi (0 : GaloisRing w e)
    rwa [mul_zero, map_zero] at h0
  have hcoef : s.syndromePoly.coefs.getD k 0 = 2 ^ i * (syndrome partyPoint r rest).coeff k := by
    have h1 := Poly.coeff_toPoly s.syndromePoly k
    rw [h.syndrome_eq, coeff_C_mul] at h1
    exact h1.symm
  rw [CoefficientList.coeff_ofList, coeff_map, ← bitCompose_two_pow_mul hw hi, ← hcoef,
    List.getD_eq_getElem?_getD, List.getD_eq_getElem?_getD, List.getElem?_map]
  cases s.syndromePoly.coefs[k]? with
  | none => exact hzero.symm
  | some c => rfl

theorem syndromeDecodingZ2_eq (hn : n < 2 ^ e.deg) {threshold : ℕ} (ht : threshold + 1 ≤ n)
    {y : Fin n → F} {S : Poly F}
    (hcard : (Finset.univ.filter (fun k => y k ≠ 0)).card ≤ (n - (threshold + 1)) / 2)
    (hS : S.toPoly = syndrome (fun k : Fin n => (G2p.fromU8 e (k + 1) : F))
      (n - (threshold + 1)) y) :
    syndromeDecodingZ2 e (partyRoles n) S threshold = .ok (List.ofFn y) := by
  have hbyte : 2 ^ e.deg ≤ 2 ^ 8 := Nat.pow_le_pow_right (by norm_num) e.deg_le_eight
  have hpoints : (partyRoles n).map (fun s => (G2p.fromU8 e (s % 256) : F)) =
      List.ofFn (fun k : Fin n => (G2p.fromU8 e (k + 1) : F)) := by
    rw [partyRoles, List.map_ofFn]
    congr 1
    funext k
    have hk : ((k : ℕ) + 1) % 256 = k + 1 := Nat.mod_eq_of_lt (by omega)
    rw [Function.comp_apply, hk]
  have hlen : (partyRoles n).length = n := by rw [partyRoles, List.length_ofFn]
  rw [syndromeDecodingZ2, hlen, usizeSub_of_le ht, hpoints]
  exact decodeSyndrome_eq (fromU8_party_ne_zero F hn) (injective_fromU8_party F hn)
    (exceptional_fromU8_party F hn) hcard hS

end Step

section Run

variable (z : BaseRing) (hn : n < 2 ^ e.deg) (ht : threshold + 1 ≤ n)
  {errs : Fin n → GaloisRing z.bits e}
  (herrs : (Finset.univ.filter (fun k => errs k ≠ 0)).card ≤ (n - (threshold + 1)) / 2)
include hn ht herrs

/-- A round finds the next digits of the errors. -/
theorem syndromeDecodeStep_eq_ok {i : ℕ} (hi : i < z.bits) {s : SyndromeState z.bits e}
    {found rest : Fin n → GaloisRing z.bits e}
    (h : SyndromeInvariant (n - (threshold + 1)) errs i s found rest) :
    ∃ s' found' rest', syndromeDecodeStep F (partyRoles n) threshold s i = .ok s' ∧
      SyndromeInvariant (n - (threshold + 1)) errs (i + 1) s' found' rest' := by
  set D := (dyadic F z.bits_pos : DyadicRing (GaloisRing z.bits e) F) with hD
  have hdecode := syndromeDecodingZ2_eq F hn ht
    ((card_residue_le F z.bits_pos hi h).trans herrs) (toPoly_slicedSyndrome F z.bits_pos hn hi h)
  set lifted : Fin n → GaloisRing z.bits e := fun k => 2 ^ i * D.lift (D.residue (rest k))
    with hlifted
  have hlift : (List.ofFn (fun k => D.residue (rest k))).map
      (fun x => (bitLift x i : GaloisRing z.bits e)) = List.ofFn lifted := by
    rw [List.map_ofFn]
    congr 1
    funext k
    exact bitLift_eq z.bits_pos hi _
  have hcorrected : (⟨(List.ofFn lifted).zipIdx.map
      (fun v => (⟨v.2 + 1, v.1⟩ : Share (GaloisRing z.bits e)))⟩ :
        ShamirSharings (GaloisRing z.bits e)) = sharingOf lifted := by
    rw [zipIdx_ofFn, List.map_ofFn]
    rfl
  obtain ⟨S, hcompute, hS⟩ := syndromeCompute_sharingOf F z hn ht lifted
  choose rest' hrest' using fun k => D.exists_sub_lift_eq (rest k)
  refine ⟨⟨Poly.sub s.syndromePoly S, List.ofFn (fun k => found k + lifted k)⟩,
    fun k => found k + lifted k, rest', ?_, rfl, ?_, ?_, ?_⟩
  · have hlen : s.eRes.length = (List.ofFn lifted).length := by
      rw [h.eRes_eq, List.length_ofFn, List.length_ofFn]
    simp only [syndromeDecodeStep]
    rw [hdecode, ok_bind, hlift, if_pos hlen, hcorrected, hcompute, h.eRes_eq, zipWith_ofFn]
    rfl
  · intro k
    have hk := hrest' k
    rw [h.split k]
    linear_combination (2 ^ i : GaloisRing z.bits e) * hk
  · intro k hk
    have hzero := h.residue_eq_zero F z.bits_pos hi hk
    simp only [hlifted]
    rw [h.clean k hk, hzero, D.lift_zero, mul_zero, add_zero]
  · have hsplit : syndrome partyPoint (n - (threshold + 1)) rest =
        syndrome partyPoint (n - (threshold + 1)) (fun k => D.lift (D.residue (rest k))) +
          C 2 * syndrome partyPoint (n - (threshold + 1)) rest' := by
      rw [← syndrome_mul, ← syndrome_add]
      congr 1
      funext k
      exact hrest' k
    rw [Poly.toPoly_sub, hS, h.syndrome_eq, syndrome_mul, hsplit, pow_succ, C_mul]
    ring

variable {S : Poly (GaloisRing z.bits e)}

variable (hS : S.toPoly = syndrome partyPoint (n - (threshold + 1)) errs)
include hS

omit hn ht herrs in
theorem syndromeInvariant_init :
    SyndromeInvariant (n - (threshold + 1)) errs 0 ⟨S, List.replicate (partyRoles n).length 0⟩
      (fun _ => 0) errs := by
  refine ⟨?_, ?_, fun _ _ => rfl, ?_⟩
  · rw [partyRoles, List.length_ofFn, List.ofFn_const]
  · intro k
    rw [pow_zero, one_mul, zero_add]
  · rw [hS, pow_zero, C_1, one_mul]

/-- Decoding the syndrome of the errors returns the errors. -/
theorem syndromeDecode_eq_ok :
    syndromeDecode F S (partyRoles n) threshold = .ok (List.ofFn errs) := by
  obtain ⟨s, hrun, found, rest, hinv⟩ := foldlM_range_ok
    (fun i s => ∃ found rest, SyndromeInvariant (n - (threshold + 1)) errs i s found rest)
    ⟨S, List.replicate (partyRoles n).length 0⟩
    (fun i s hi ⟨found, rest, hinv⟩ => by
      obtain ⟨s', found', rest', hstep, hinv'⟩ :=
        syndromeDecodeStep_eq_ok F z hn ht herrs hi hinv
      exact ⟨s', hstep, found', rest', hinv'⟩)
    ⟨_, errs, syndromeInvariant_init z hS⟩
  have hwidth : (2 : GaloisRing z.bits e) ^ z.bits = 0 := (dyadic F z.bits_pos).two_pow_width
  rw [syndromeDecode, hrun, ok_bind, hinv.eRes_eq]
  refine congrArg (fun v => Except.ok (List.ofFn v)) ?_
  funext k
  rw [hinv.split k, hwidth, zero_mul, add_zero]

end Run

/-- Decoding the syndrome of shares returns their errors, whatever polynomial was shared. -/
theorem syndromeDecode_syndromeCompute (z : BaseRing) (hn : n < 2 ^ e.deg) (threshold : ℕ)
    (ht : threshold + 1 ≤ n) (f : (GaloisRing z.bits e)[X]) (hf : f.natDegree ≤ threshold)
    (errs : Fin n → GaloisRing z.bits e)
    (herrs : (Finset.univ.filter (fun k => errs k ≠ 0)).card ≤ (n - (threshold + 1)) / 2) :
    (do
      let syndromePoly ← syndromeCompute F
        (sharingOf (fun i => f.eval (partyPoint i) + errs i)) threshold
      syndromeDecode F syndromePoly (partyRoles n) threshold) = .ok (List.ofFn errs) := by
  obtain ⟨S, hcompute, hS⟩ :=
    syndromeCompute_sharingOf F z hn ht (fun i => f.eval (partyPoint i) + errs i)
  rw [hcompute]
  exact syndromeDecode_eq_ok F z hn ht herrs
    (hS.trans (syndrome_shares F z.bits_pos hn ht hf errs))

/-- Four shares of the constant one, the last of them off by five. -/
theorem syndromeDecode_four_parties : (do
      let syndromePoly ← syndromeCompute GF8
        (sharingOf (fun i : Fin 4 =>
          (1 : (GaloisRing BaseRing.z64.bits .three)[X]).eval (partyPoint i) +
            if i = 3 then 5 else 0)) 1
      syndromeDecode GF8 syndromePoly (partyRoles 4) 1) = .ok [0, 0, 0, 5] := by
  have hcard : (Finset.univ.filter (fun k : Fin 4 =>
      (if k = 3 then 5 else 0 : GaloisRing BaseRing.z64.bits .three) ≠ 0)).card ≤ 1 := by
    refine (Finset.card_le_card (t := {3}) ?_).trans (Finset.card_singleton _).le
    intro k hk
    rw [Finset.mem_filter] at hk
    rw [Finset.mem_singleton]
    by_contra hne
    exact hk.2 (if_neg hne)
  exact syndromeDecode_syndromeCompute GF8 .z64 (by decide) 1 (by decide) 1 (by simp)
    (fun i => if i = 3 then 5 else 0) hcard

end ThresholdKms
