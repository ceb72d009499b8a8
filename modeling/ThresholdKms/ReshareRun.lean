import ThresholdKms.Reshare

/-!
# Opened syndromes

The rows of syndrome coefficients keep their trailing zeros, so that the opened vector falls into one
syndrome for each position. Decoding each of them and combining the corrected shares gives the value
at zero. With fewer shares than resharers the rows are too short for that.
-/

open Polynomial ExceptionalInterpolation

namespace ThresholdKms

open Outcome

open GaloisRing

variable {w : ℕ} {e : ExtensionDegree} {n len : ℕ} (F : Type) [Field F] [DecidableEq F] [G2p e F]

/-- The coefficients of a syndrome, with the trailing zeros. -/
noncomputable def syndromeRow (r : ℕ) (y : Fin n → GaloisRing w e) : List (GaloisRing w e) :=
  List.ofFn (fun c : Fin r => (syndrome partyPoint r y).coeff c)

theorem ofList_syndromeRow (r : ℕ) (y : Fin n → GaloisRing w e) :
    CoefficientList.ofList (syndromeRow r y) = syndrome partyPoint r y := by
  apply Polynomial.ext
  intro k
  rw [CoefficientList.coeff_ofList]
  by_cases hk : k < r
  · exact getD_ofFn (fun c : Fin r => (syndrome partyPoint r y).coeff c) ⟨k, hk⟩ 0
  · rw [coeff_syndrome, if_neg hk, syndromeRow, List.getD_eq_default]
    rw [List.length_ofFn]
    omega

theorem coefs_eq_syndromeRow {r : ℕ} {S : Poly (GaloisRing w e)} {y : Fin n → GaloisRing w e}
    (hlen : S.coefs.length = r) (hS : S.toPoly = syndrome partyPoint r y) :
    S.coefs = syndromeRow r y := by
  apply List.ext_getElem
  · rw [syndromeRow, List.length_ofFn, hlen]
  · intro c h₁ h₂
    have hcoef := Poly.coeff_toPoly S c
    rw [hS, Poly.coef, List.getD_eq_getElem _ _ h₁] at hcoef
    simp only [syndromeRow, List.getElem_ofFn]
    exact hcoef.symm

variable {threshold : ℕ} (z : BaseRing)

theorem syndromeShares_eq (hn : n < 2 ^ e.deg)
    (ht : threshold + 1 ≤ n) {rows : Fin len → List (Share (GaloisRing z.bits e))}
    {y : Fin len → Fin n → GaloisRing z.bits e}
    (h : ∀ k, ShamirSharings.create (rows k) = sharingOf (y k)) :
    syndromeShares F (List.ofFn rows) threshold = .ok (List.ofFn (fun k => sharingOf (y k)),
      (List.ofFn (fun k => syndromeRow (n - (threshold + 1)) (y k))).flatten) := by
  have hrow : ∀ k, (do
      let shamirSharing := ShamirSharings.create (rows k)
      let syndromeShare ← syndromeCompute F shamirSharing threshold
      return (shamirSharing, syndromeShare.coefs)) =
        .ok (sharingOf (y k), syndromeRow (n - (threshold + 1)) (y k)) := by
    intro k
    obtain ⟨S, hcompute, hS⟩ := syndromeCompute_sharingOf F z hn ht (y k)
    have hlen := length_coefs_syndromeCompute F hcompute
    rw [sharingOf, List.length_ofFn] at hlen
    simp only [h k]
    rw [hcompute, ok_bind, coefs_eq_syndromeRow hlen hS]
    rfl
  rw [syndromeShares, mapM_ofFn hrow, ok_bind, List.map_ofFn, List.map_ofFn]
  rfl

/-- The coefficient of a party's share in the value at zero. -/
noncomputable def delta (j : Fin n) : GaloisRing w e :=
  weight partyPoint j * (numerator partyPoint j).eval 0

theorem delta0i_eq (hn : n < 2 ^ e.deg) {polys : Fin n → Poly (GaloisRing z.bits e)}
    (hpolys : ∀ j, (polys j).toPoly = numerator partyPoint j) (j : Fin n) :
    delta0i F (List.ofFn polys) (j + 1) = .ok (delta j) := by
  have hex := exceptional_partyPoint (n := n) F z.bits_pos hn
  have hzero : getFromExceptionalSequence 0 = .ok (0 : GaloisRing z.bits e) := by
    rw [getFromExceptionalSequence_of_lt (by positivity), fromByte_zero]
  have hpoint : embedRole ((j : ℕ) + 1) = .ok (partyPoint j : GaloisRing z.bits e) :=
    getFromExceptionalSequence_of_lt (show (j : ℕ) + 1 < 2 ^ e.deg by omega)
  have hindex := indexByRole_ofFn polys j
  rw [delta0i, hzero, ok_bind, hpoint, ok_bind, hindex, ok_bind,
    Poly.eval_eq, Poly.eval_eq, hpolys, invert_of_isUnit F z (hex.isUnit_eval_numerator j)]
  rfl

theorem exists_deltas (hn : n < 2 ^ e.deg) :
    ∃ numerators : List (Poly (GaloisRing z.bits e)),
      makeLagrangeNumerators (partyRoles n) = .ok numerators ∧
        (partyRoles n).mapM (delta0i F numerators) = .ok (List.ofFn fun j : Fin n => delta j) := by
  obtain ⟨polys, hpolys, hnum⟩ :=
    lagrangeNumerators_ofFn (partyPoint : Fin n → GaloisRing z.bits e)
  have hparties : (partyRoles n).map fromByte =
      List.ofFn (partyPoint : Fin n → GaloisRing z.bits e) := by
    rw [partyRoles, List.map_ofFn]
    rfl
  refine ⟨List.ofFn polys, ?_, mapM_ofFn (delta0i_eq F z hn hnum)⟩
  rw [makeLagrangeNumerators, (embeddable_partyRoles hn).mapM_ring, ok_bind, hparties, hpolys]

theorem zipWith3_ofFn {α β γ δ : Type*} (f : α → β → γ → δ) (x : Fin n → α) (y : Fin n → β)
    (v : Fin n → γ) :
    List.zipWith3 f (List.ofFn x) (List.ofFn y) (List.ofFn v) =
      List.ofFn (fun i => f (x i) (y i) (v i)) := by
  induction n with
  | zero => rfl
  | succ n ih =>
    simp only [List.ofFn_succ, List.zipWith3]
    rw [ih]

theorem correctErrors_eq (hn : n < 2 ^ e.deg)
    (ht : threshold + 1 ≤ n) {errs y : Fin n → GaloisRing z.bits e}
    (herrs : (Finset.univ.filter (fun k => errs k ≠ 0)).card ≤ (n - (threshold + 1)) / 2)
    {chunk : List (GaloisRing z.bits e)} (hchunk : chunk = syndromeRow (n - (threshold + 1)) errs)
    (myRole : Role) :
    correctErrors F (partyRoles n) threshold myRole (List.ofFn fun j : Fin n => delta j)
      (chunk, sharingOf y) = .ok ⟨myRole, ∑ j, delta j * (y j - errs j)⟩ := by
  have hS : (Poly.fromCoefs chunk).toPoly = syndrome partyPoint (n - (threshold + 1)) errs := by
    rw [Poly.toPoly_fromCoefs, hchunk]
    exact ofList_syndromeRow _ _
  rw [correctErrors, syndromeDecode_eq_ok F z hn ht herrs hS, ok_bind]
  simp only [sharingOf]
  rw [zipWith3_ofFn, List.sum_ofFn]
  rfl

theorem correctOpenedSyndromes_eq (hn : n < 2 ^ e.deg)
    (ht : threshold + 1 < n) {errs y : Fin len → Fin n → GaloisRing z.bits e}
    (herrs : ∀ k, (Finset.univ.filter (fun j => errs k j ≠ 0)).card ≤ (n - (threshold + 1)) / 2)
    (myRole : Role) :
    correctOpenedSyndromes F (partyRoles n) threshold myRole
        (List.ofFn (fun k => sharingOf (y k)))
        (List.ofFn (fun k => syndromeRow (n - (threshold + 1)) (errs k))).flatten =
      .ok (List.ofFn (fun k => ⟨myRole, ∑ j, delta j * (y k j - errs k j)⟩)) := by
  have hchunks : chunksExact (n - (threshold + 1))
      (List.ofFn (fun k => syndromeRow (n - (threshold + 1)) (errs k))).flatten =
      .ok (List.ofFn (fun k => syndromeRow (n - (threshold + 1)) (errs k))) := by
    apply chunksExact_flatten (by omega)
    intro row hrow
    obtain ⟨k, rfl⟩ := List.mem_ofFn.mp hrow
    rw [syndromeRow, List.length_ofFn]
  obtain ⟨numerators, hnumerators, hdeltas⟩ := exists_deltas F z hn
  rw [correctOpenedSyndromes, length_partyRoles, usizeSub_of_le (by omega), ok_bind,
    hchunks, ok_bind, if_neg (by simp), hnumerators, ok_bind, hdeltas,
    List.zip, zipWith_ofFn]
  exact mapM_ofFn (fun k => correctErrors_eq F z hn ht.le (herrs k) rfl myRole)

/-- The number of opened values decides whether the chunks fit the sharings. -/
theorem length_of_correctOpenedSyndromes (ht : threshold + 1 ≤ n) {myRole : Role}
    {allShamirShares : List (ShamirSharings (GaloisRing w e))}
    {allSyndromePolys : List (GaloisRing w e)} {out : List (Share (GaloisRing w e))}
    (h : correctOpenedSyndromes F (partyRoles n) threshold myRole allShamirShares
      allSyndromePolys = .ok out) :
    threshold + 1 < n ∧
      allShamirShares.length * (n - (threshold + 1)) ≤ allSyndromePolys.length := by
  rw [correctOpenedSyndromes, length_partyRoles, usizeSub_of_le ht, ok_bind] at h
  obtain ⟨chunks, hchunks, h⟩ := bind_eq_ok.mp h
  rw [chunksExact] at hchunks
  split_ifs at hchunks with hsize
  · cases hchunks
  · split_ifs at h with hlen
    · cases h
    · cases hchunks
      rw [List.length_map, List.length_range, not_not] at hlen
      refine ⟨by omega, ?_⟩
      rw [← hlen]
      exact Nat.div_mul_le_self _ _

theorem length_syndromeShares {threshold m : ℕ} {rows : List (List (Share (GaloisRing w e)))}
    (hrows : ∀ row ∈ rows, row.length = m)
    {res : List (ShamirSharings (GaloisRing w e)) × List (GaloisRing w e)}
    (h : syndromeShares F rows threshold = .ok res) :
    res.1.length = rows.length ∧ res.2.length = rows.length * (m - (threshold + 1)) := by
  obtain ⟨computed, hcomputed, hret⟩ := bind_eq_ok.mp h
  cases hret
  have hforall := forall₂_of_mapM hcomputed
  have hlen : ∀ coefs ∈ computed.map Prod.snd, coefs.length = m - (threshold + 1) := by
    intro coefs hcoefs
    obtain ⟨p, hp, rfl⟩ := List.mem_map.mp hcoefs
    obtain ⟨row, hrow, hstep⟩ := exists_of_mem_mapM hcomputed hp
    obtain ⟨S, hS, hret⟩ := bind_eq_ok.mp hstep
    cases hret
    rw [length_coefs_syndromeCompute F hS, ← hrows row hrow]
    exact congrArg (· - (threshold + 1)) (List.length_mergeSort row)
  rw [length_flatten_of_rows hlen, List.length_map, List.length_map, hforall.length_eq]
  exact ⟨rfl, rfl⟩

/-!
## Resharing preserves the secrets

The receivers' syndrome shares lie on polynomials whose values at zero are the syndromes of the
contributions without their masks. Their errors are at most the corrupt resharers', so decoding
removes them, and what is left interpolates to a sharing of the old secrets.
-/

/-- What was shared, what the receivers agreed on, and how each of them runs the resharing. The
parties of both sets are numbered from one, and hash maps are iterated in any order. -/
structure Resharing (z : BaseRing) (e : ExtensionDegree) (n₁ t₁ n₂ t₂ len : ℕ) where
  f : Fin len → (GaloisRing z.bits e)[X]
  degree_f : ∀ k, (f k).natDegree ≤ t₁
  mask : Fin n₁ → Fin len → (GaloisRing z.bits e)[X]
  degree_mask : ∀ j k, (mask j k).natDegree ≤ t₂
  agreed : Role → Option (List (GaloisRing z.bits e))
  mem_agreed : ∀ role, (agreed role).isSome → role ∈ partyRoles n₁
  corrupt : Finset (Fin n₁)
  card_corrupt : corrupt.card ≤ t₁
  honest : ∀ j ∉ corrupt, agreed ((j : ℕ) + 1) =
    some (List.ofFn (fun k => (f k).eval (partyPoint j) + (mask j k).eval 0))
  contributions : Fin n₂ → HashMap Role (List (GaloisRing z.bits e))
  lookup_contributions : ∀ i role, (contributions i).lookup role = agreed role
  masks : Fin n₂ → HashMap Role (List (GaloisRing z.bits e))
  lookup_masks : ∀ i (j : Fin n₁), (masks i).lookup ((j : ℕ) + 1) =
    some (List.ofFn (fun k => (mask j k).eval (partyPoint i)))
  resharingSet : Fin n₂ → List Role
  resharingSet_perm : ∀ i, (resharingSet i).Perm (partyRoles n₁)
  robustOpenListToAll : Fin n₂ → List (GaloisRing z.bits e) → ℕ →
    Outcome (Option (List (GaloisRing z.bits e)))

/-- One value for each share, and the shared values where the shares lie on polynomials. -/
structure IsOpening {R : Type} [CommRing R] {n : ℕ} (point : Fin n → R) (degree : ℕ)
    (sent : Fin n → List R) (opened : List R) : Prop where
  length_eq : ∀ i, opened.length = (sent i).length
  eq_secrets : ∀ g : List R[X], (∀ p ∈ g, p.natDegree ≤ degree) →
    (∀ i, sent i = g.map (eval (point i))) → opened = g.map (eval 0)

namespace Resharing

variable {z : BaseRing} {n₁ t₁ n₂ t₂ len : ℕ} (s : Resharing z e n₁ t₁ n₂ t₂ len)

/-- The syndrome shares that a receiver puts into the opening. -/
def sent (i : Fin n₂) : Outcome (List (GaloisRing z.bits e)) := do
  let unmasked ← unmaskResharedShares (s.contributions i) (s.masks i) len
  let shares ← syndromeShares F unmasked t₁
  return shares.2

def OpensCorrectly : Prop :=
  ∀ sent : Fin n₂ → List (GaloisRing z.bits e), (∀ i, s.sent F i = .ok (sent i)) →
    ∃ opened, IsOpening partyPoint t₂ sent opened ∧
      ∀ i, s.robustOpenListToAll i (sent i) t₂ = .ok (some opened)

def output (i : Fin n₂) : Outcome (List (Share (GaloisRing z.bits e))) := do
  let unmasked ← unmaskResharedShares (s.contributions i) (s.masks i) len
  openSyndromesAndCorrectErrors F (s.robustOpenListToAll i) (i + 1) t₂ unmasked (s.resharingSet i) t₁

/-- The receivers hold shares of the old secrets. -/
def PreservesSecrets : Prop :=
  ∃ g : Fin len → (GaloisRing z.bits e)[X],
    (∀ k, (g k).natDegree ≤ t₂ ∧ (g k).eval 0 = (s.f k).eval 0) ∧
    ∀ i, s.output F i = .ok (List.ofFn (fun k => ⟨i + 1, (g k).eval (partyPoint i)⟩))

/-- The contribution of a resharer at a position, zero if there is none. -/
def contribution (j : Fin n₁) (k : Fin len) : GaloisRing z.bits e :=
  ((s.agreed ((j : ℕ) + 1)).getD []).getD k 0

variable (k : Fin len)

/-- The unmasked contribution as a function of the receiver's point. -/
noncomputable def unmasked (j : Fin n₁) : (GaloisRing z.bits e)[X] :=
  C (s.contribution j k) - s.mask j k

noncomputable def error (j : Fin n₁) : GaloisRing z.bits e :=
  (s.unmasked k j).eval 0 - (s.f k).eval (partyPoint j)

/-- The coefficients of the syndromes as functions of the receiver's point. -/
noncomputable def syndromePoly (c : ℕ) : (GaloisRing z.bits e)[X] :=
  ∑ j, s.unmasked k j * C (partyPoint j ^ c * weight partyPoint j)

/-- The new sharing. -/
noncomputable def reshared : (GaloisRing z.bits e)[X] :=
  ∑ j, C (delta j) * (s.unmasked k j - C (s.error k j))

theorem natDegree_unmasked_le (j : Fin n₁) : (s.unmasked k j).natDegree ≤ t₂ :=
  (natDegree_sub_le _ _).trans (by simpa using s.degree_mask j k)

theorem natDegree_syndromePoly_le (c : ℕ) : (s.syndromePoly k c).natDegree ≤ t₂ := by
  refine natDegree_sum_le_of_forall_le _ _ (fun j _ => ?_)
  exact natDegree_mul_C_le _ _ |>.trans (s.natDegree_unmasked_le k j)

theorem natDegree_reshared_le : (s.reshared k).natDegree ≤ t₂ := by
  refine natDegree_sum_le_of_forall_le _ _ (fun j _ => ?_)
  refine (natDegree_C_mul_le _ _).trans ((natDegree_sub_le _ _).trans ?_)
  simpa using s.natDegree_unmasked_le k j

theorem eval_unmasked (j : Fin n₁) (x : GaloisRing z.bits e) :
    (s.unmasked k j).eval x = s.contribution j k - (s.mask j k).eval x := by
  rw [unmasked, eval_sub, eval_C]

theorem error_eq_zero {j : Fin n₁} (hj : j ∉ s.corrupt) (k : Fin len) : s.error k j = 0 := by
  have hcontribution : s.contribution j k = (s.f k).eval (partyPoint j) + (s.mask j k).eval 0 := by
    rw [contribution, s.honest j hj, Option.getD_some, getD_ofFn]
  rw [error, eval_unmasked, hcontribution]
  ring

theorem card_errors_le : (Finset.univ.filter (fun j => s.error k j ≠ 0)).card ≤ t₁ := by
  refine (Finset.card_le_card ?_).trans s.card_corrupt
  intro j hj
  by_contra hclean
  exact (Finset.mem_filter.mp hj).2 (s.error_eq_zero hclean k)

theorem eval_reshared (x : GaloisRing z.bits e) :
    (s.reshared k).eval x = ∑ j, delta j * ((s.unmasked k j).eval x - s.error k j) := by
  rw [reshared, eval_finsetSum]
  apply Finset.sum_congr rfl
  intro j _
  rw [eval_mul, eval_C, eval_sub, eval_C]

theorem eval_zero_reshared (F : Type) [Field F] [G2p e F] (hn : n₁ < 2 ^ e.deg) (ht : t₁ < n₁)
    (k : Fin len) : (s.reshared k).eval 0 = (s.f k).eval 0 := by
  have hdegree : (s.f k).degree < n₁ := by
    refine degree_le_natDegree.trans_lt ?_
    have := s.degree_f k
    exact_mod_cast (by omega : (s.f k).natDegree < n₁)
  rw [(exceptional_partyPoint F z.bits_pos hn).eval_eq_sum hdegree, eval_reshared]
  apply Finset.sum_congr rfl
  intro j _
  rw [error, sub_sub_cancel, delta]

theorem eval_syndromePoly {r : ℕ} (c : Fin r) (x : GaloisRing z.bits e) :
    (s.syndromePoly k c).eval x =
      (syndrome partyPoint r (fun j => (s.unmasked k j).eval x)).coeff c := by
  rw [syndromePoly, eval_finsetSum, coeff_syndrome, if_pos c.isLt]
  apply Finset.sum_congr rfl
  intro j _
  rw [eval_mul, eval_C, mul_assoc]

/-- The receivers' syndrome shares, as polynomials in the receiver's point. -/
noncomputable def syndromePolys (r : ℕ) : List (GaloisRing z.bits e)[X] :=
  (List.ofFn (fun k => List.ofFn (fun c : Fin r => s.syndromePoly k c))).flatten

theorem map_eval_syndromePolys (r : ℕ) (x : GaloisRing z.bits e) :
    (s.syndromePolys r).map (eval x) =
      (List.ofFn (fun k => syndromeRow r (fun j => (s.unmasked k j).eval x))).flatten := by
  rw [syndromePolys, List.map_flatten, List.map_ofFn]
  congr 2
  funext k
  rw [Function.comp_apply, List.map_ofFn]
  congr 1
  funext c
  exact s.eval_syndromePoly k c x

theorem natDegree_of_mem_syndromePolys {r : ℕ} {p : (GaloisRing z.bits e)[X]}
    (hp : p ∈ s.syndromePolys r) : p.natDegree ≤ t₂ := by
  obtain ⟨row, hrow, hp⟩ := List.mem_flatten.mp hp
  obtain ⟨k, rfl⟩ := List.mem_ofFn.mp hrow
  obtain ⟨c, rfl⟩ := List.mem_ofFn.mp hp
  exact s.natDegree_syndromePoly_le k c

section Receiver

variable (i : Fin n₂)

def maskShare (role : Role) (k : Fin len) : GaloisRing z.bits e :=
  (((s.masks i).lookup role).getD []).getD k 0

theorem maskShare_eq (j : Fin n₁) (k : Fin len) :
    s.maskShare i ((j : ℕ) + 1) k = (s.mask j k).eval (partyPoint i) := by
  rw [maskShare, s.lookup_masks i j, Option.getD_some, getD_ofFn]

theorem lookup_masks_eq {role : Role} (h : role ∈ partyRoles n₁) :
    (s.masks i).lookup role = some (List.ofFn (s.maskShare i role)) := by
  obtain ⟨j, rfl⟩ := List.mem_ofFn.mp h
  rw [s.lookup_masks i j]
  refine congrArg (fun v => some (List.ofFn v)) (funext fun k => ?_)
  exact (s.maskShare_eq i j k).symm

theorem mem_partyRoles {role : Role} (h : role ∈ s.contributions i) : role ∈ partyRoles n₁ := by
  apply s.mem_agreed
  rw [← s.lookup_contributions i]
  exact AList.lookup_isSome.mpr h

theorem unmaskResharedShares_eq_ok :
    unmaskResharedShares (s.contributions i) (s.masks i) len =
      .ok (List.ofFn (fun k => unmaskedRow (s.maskShare i) k (s.contributions i).entries)) :=
  unmaskResharedShares_eq (s.maskShare i)
    (fun _ hrole => s.lookup_masks_eq i (s.mem_partyRoles i hrole))

/-- With a contribution of every resharer the receiver sorts one share of each of them. -/
theorem create_unmaskedRow (hall : ∀ j : Fin n₁, (s.agreed ((j : ℕ) + 1)).isSome) (k : Fin len) :
    ShamirSharings.create (unmaskedRow (s.maskShare i) k (s.contributions i).entries) =
      sharingOf (fun j => (s.unmasked k j).eval (partyPoint i)) := by
  have hrow : ∀ j : Fin n₁, (s.contributions i).lookup ((j : ℕ) + 1) =
      some ((s.agreed ((j : ℕ) + 1)).getD []) := by
    intro j
    rw [s.lookup_contributions]
    obtain ⟨row, hrow⟩ := Option.isSome_iff_exists.mp (hall j)
    rw [hrow, Option.getD_some]
  apply create_eq_sharingOf
  have hperm := (entries_perm_ofFn (fun role => s.mem_partyRoles i) hrow).map
    (fun c => (⟨c.1, c.2.getD k 0 - s.maskShare i c.1 k⟩ : Share (GaloisRing z.bits e)))
  rw [List.map_ofFn] at hperm
  refine hperm.trans (List.Perm.of_eq ?_)
  refine congrArg List.ofFn (funext fun j => congrArg (Share.mk _) ?_)
  have hvalue : s.contribution j k - s.maskShare i ((j : ℕ) + 1) k =
      (s.unmasked k j).eval (partyPoint i) := by rw [eval_unmasked, maskShare_eq]
  exact hvalue

end Receiver

section Success

variable (h₁ : 3 * t₁ < n₁) (hn : n₁ < 2 ^ e.deg) (hall : len = 0 ∨ ∀ j : Fin n₁,
  (s.agreed ((j : ℕ) + 1)).isSome)
include h₁ hn hall

theorem syndromeShares_eq_ok (i : Fin n₂) :
    syndromeShares F
        (List.ofFn (fun k => unmaskedRow (s.maskShare i) k (s.contributions i).entries)) t₁ =
      .ok (List.ofFn (fun k => sharingOf (fun j => (s.unmasked k j).eval (partyPoint i))),
        (s.syndromePolys (n₁ - (t₁ + 1))).map (eval (partyPoint i))) := by
  rw [map_eval_syndromePolys]
  apply syndromeShares_eq F z hn (by omega)
  intro k
  rcases hall with hlen | hall
  · exact absurd k.isLt (by omega)
  · exact s.create_unmaskedRow i hall k

theorem sent_eq_ok (i : Fin n₂) :
    s.sent F i = .ok ((s.syndromePolys (n₁ - (t₁ + 1))).map (eval (partyPoint i))) := by
  rw [sent, s.unmaskResharedShares_eq_ok i, ok_bind, s.syndromeShares_eq_ok F h₁ hn hall i]
  rfl

omit hall in
theorem opened_eq (F : Type) [Field F] [G2p e F] : (s.syndromePolys (n₁ - (t₁ + 1))).map (eval 0) =
      (List.ofFn (fun k => syndromeRow (n₁ - (t₁ + 1)) (s.error k))).flatten := by
  rw [map_eval_syndromePolys]
  refine congrArg (fun rows => (List.ofFn rows).flatten) (funext fun k => ?_)
  have hsplit : (fun j => (s.unmasked k j).eval 0) =
      fun j => (s.f k).eval (partyPoint j) + s.error k j := by
    funext j
    rw [error]
    ring
  rw [syndromeRow, syndromeRow, hsplit,
    syndrome_shares F z.bits_pos hn (by omega) (s.degree_f k) (s.error k)]

theorem output_eq_correctOpened {i : Fin n₂} {opened : List (GaloisRing z.bits e)}
    (hrobust : s.robustOpenListToAll i
      ((s.syndromePolys (n₁ - (t₁ + 1))).map (eval (partyPoint i))) t₂ = .ok (some opened)) :
    s.output F i = correctOpenedSyndromes F (partyRoles n₁) t₁ (i + 1)
      (List.ofFn (fun k => sharingOf (fun j => (s.unmasked k j).eval (partyPoint i)))) opened := by
  rw [output, s.unmaskResharedShares_eq_ok i, ok_bind, openSyndromesAndCorrectErrors,
    mergeSort_resharingSet (s.resharingSet_perm i), s.syndromeShares_eq_ok F h₁ hn hall i,
    ok_bind]
  simp only []
  rw [hrobust, ok_bind]

theorem output_eq_ok (h₂ : 2 ≤ n₁) (hopen : s.OpensCorrectly F) (i : Fin n₂) :
    s.output F i = .ok (List.ofFn (fun k => ⟨i + 1, (s.reshared k).eval (partyPoint i)⟩)) := by
  obtain ⟨opened, hopening, hrobust⟩ := hopen _ (s.sent_eq_ok F h₁ hn hall)
  have hopened := (hopening.eq_secrets _ (fun p => s.natDegree_of_mem_syndromePolys)
    (fun _ => rfl)).trans (s.opened_eq h₁ hn F)
  rw [s.output_eq_correctOpened F h₁ hn hall (hrobust i), hopened,
    correctOpenedSyndromes_eq F z hn (by omega) (fun k => (s.card_errors_le k).trans (by omega))]
  simp only [eval_reshared]

end Success

end Resharing

/-!
## When resharing preserves the secrets

The syndrome of a sharing has a fixed number of coefficients less than it has shares. A resharer
without a contribution therefore makes all opened syndromes too short, and a single resharer makes
them empty; in all other cases the receivers obtain shares of the old secrets.
-/

namespace Resharing

variable {z : BaseRing} {n₁ t₁ n₂ t₂ len : ℕ} (s : Resharing z e n₁ t₁ n₂ t₂ len)

/-- A receiver can only succeed with an opening of its syndrome shares. -/
theorem exists_of_output_eq_ok {i : Fin n₂} {out : List (Share (GaloisRing z.bits e))}
    (h : s.output F i = .ok out) :
    ∃ sharings sent, s.sent F i = .ok sent ∧ sharings.length = len ∧
      sent.length = len * ((s.contributions i).entries.length - (t₁ + 1)) ∧
      ∀ opened, s.robustOpenListToAll i sent t₂ = .ok (some opened) →
        correctOpenedSyndromes F (partyRoles n₁) t₁ (i + 1) sharings opened = .ok out := by
  rw [output, s.unmaskResharedShares_eq_ok i, Outcome.ok_bind, openSyndromesAndCorrectErrors,
    mergeSort_resharingSet (s.resharingSet_perm i)] at h
  obtain ⟨⟨sharings, sent⟩, hshares, h⟩ := Outcome.bind_eq_ok.mp h
  obtain ⟨hsharings, hsent⟩ := length_syndromeShares F (m := (s.contributions i).entries.length)
    (fun row hrow => by
      obtain ⟨k, rfl⟩ := List.mem_ofFn.mp hrow
      rw [unmaskedRow, List.length_map]) hshares
  rw [List.length_ofFn] at hsharings hsent
  refine ⟨sharings, sent, ?_, hsharings, hsent, ?_⟩
  · rw [Resharing.sent, s.unmaskResharedShares_eq_ok i, Outcome.ok_bind, hshares]
    rfl
  · intro opened hopened
    simp only [] at h
    rwa [hopened] at h

theorem isSome_agreed_of_length {i : Fin n₂} (h : n₁ ≤ (s.contributions i).entries.length)
    (j : Fin n₁) : (s.agreed ((j : ℕ) + 1)).isSome := by
  have hsubset : (s.contributions i).keys ⊆ partyRoles n₁ := fun role hrole =>
    s.mem_partyRoles i (AList.mem_keys.mpr hrole)
  have hlength : (partyRoles n₁).length ≤ (s.contributions i).keys.length := by
    rw [length_partyRoles, AList.keys, List.keys, List.length_map]
    exact h
  have hperm := ((s.contributions i).keys_nodup.subperm hsubset).perm_of_length_le hlength
  have hmem : (j : ℕ) + 1 ∈ s.contributions i :=
    AList.mem_keys.mpr (hperm.mem_iff.mpr (List.mem_ofFn.mpr ⟨j, rfl⟩))
  rw [← s.lookup_contributions i]
  exact AList.lookup_isSome.mpr hmem

theorem of_outputs_eq_ok (h₁ : 3 * t₁ < n₁) (hopen : s.OpensCorrectly F)
    (hout : ∀ i, ∃ out, s.output F i = .ok out) (i : Fin n₂) :
    2 ≤ n₁ ∧ (len = 0 ∨ ∀ j : Fin n₁, (s.agreed ((j : ℕ) + 1)).isSome) := by
  choose out hout using hout
  choose sharings sent hsent hsharings hlength hfinish using
    fun i => s.exists_of_output_eq_ok F (hout i)
  obtain ⟨opened, hopening, hrobust⟩ := hopen sent hsent
  obtain ⟨hsize, hfit⟩ := length_of_correctOpenedSyndromes F (show t₁ + 1 ≤ n₁ by omega)
    (hfinish i opened (hrobust i))
  refine ⟨by omega, ?_⟩
  by_cases hlen : len = 0
  · exact Or.inl hlen
  · right
    rw [hsharings, hopening.length_eq i, hlength] at hfit
    have hle := Nat.le_of_mul_le_mul_left hfit (Nat.pos_of_ne_zero hlen)
    exact s.isSome_agreed_of_length (i := i) (by omega)

end Resharing

/-- The receivers obtain shares of the old secrets exactly when there are at least two resharers and
no resharer is missing from the agreed contributions. -/
theorem reshare_preservesSecrets_iff {z : BaseRing} {e : ExtensionDegree} {n₁ t₁ n₂ t₂ len : ℕ}
    (F : Type) [Field F] [DecidableEq F] [G2p e F] (s : Resharing z e n₁ t₁ n₂ t₂ len)
    (h₁ : 3 * t₁ < n₁) (hn : n₁ < 2 ^ e.deg) (h₂ : 0 < n₂) (hopen : s.OpensCorrectly F) :
    s.PreservesSecrets F ↔ 2 ≤ n₁ ∧ (len = 0 ∨ ∀ j : Fin n₁, (s.agreed ((j : ℕ) + 1)).isSome) := by
  constructor
  · rintro ⟨g, -, hout⟩
    exact s.of_outputs_eq_ok F h₁ hopen (fun i => ⟨_, hout i⟩) ⟨0, h₂⟩
  · rintro ⟨htwo, hall⟩
    refine ⟨s.reshared, fun k => ⟨s.natDegree_reshared_le k, ?_⟩,
      s.output_eq_ok F h₁ hn hall htwo hopen⟩
    exact s.eval_zero_reshared F hn (by omega) k

section Instances

variable (n₁ t₁ : ℕ) (contributions : HashMap Role (List (GaloisRing BaseRing.z64.bits .three)))
  (hmem : ∀ role ∈ contributions.keys, role ∈ partyRoles n₁) (corrupt : Finset (Fin n₁))
  (hcard : corrupt.card ≤ t₁)
  (honest : ∀ j ∉ corrupt, contributions.lookup ((j : ℕ) + 1) = some [1])

/-- A resharing of the constant one to a single receiver with masks zero. -/
noncomputable def Resharing.ofContributions : Resharing .z64 .three n₁ t₁ 1 0 1 where
  f := fun _ => 1
  degree_f := fun _ => by simp
  mask := fun _ _ => 0
  degree_mask := fun _ _ => by simp
  agreed := fun role => contributions.lookup role
  mem_agreed := fun role h => hmem role (AList.mem_keys.mp (AList.lookup_isSome.mp h))
  corrupt := corrupt
  card_corrupt := hcard
  honest := fun j hj => by rw [honest j hj]; simp
  contributions := fun _ => contributions
  lookup_contributions := fun _ _ => rfl
  masks := fun _ => ⟨List.ofFn (fun j : Fin n₁ => ⟨(j : ℕ) + 1, [0]⟩), by
    rw [List.NodupKeys, List.keys, List.map_ofFn, List.nodup_ofFn]
    intro i j hij
    exact Fin.ext (by simpa using hij)⟩
  lookup_masks := fun _ j => by
    refine AList.mem_lookup_iff.mpr (List.mem_ofFn.mpr ⟨j, ?_⟩)
    simp
  resharingSet := fun _ => partyRoles n₁
  resharingSet_perm := fun _ => List.Perm.refl _
  robustOpenListToAll := fun _ shares _ => .ok (some shares)

theorem isOpening_self {R : Type} [CommRing R] (point : Fin 1 → R) (sent : Fin 1 → List R) :
    IsOpening point 0 sent (sent 0) := by
  refine ⟨fun i => by rw [Subsingleton.elim i 0], ?_⟩
  intro g hdegree hsent
  rw [hsent 0]
  apply List.map_congr_left
  intro p hp
  rw [eq_C_of_natDegree_le_zero (hdegree p hp), eval_C, eval_C]

variable {n₁ t₁ contributions corrupt} in
theorem Resharing.opensCorrectly_ofContributions :
    (ofContributions n₁ t₁ contributions hmem corrupt hcard honest).OpensCorrectly GF8 := by
  intro sent _
  refine ⟨sent 0, isOpening_self partyPoint sent, fun i => ?_⟩
  rw [Subsingleton.elim i 0]
  rfl

/-- The fourth of four resharers contributes a wrong value. -/
noncomputable def wrongContribution : Resharing .z64 .three 4 1 1 0 1 :=
  .ofContributions 4 1 [⟨4, [7]⟩, ⟨2, [1]⟩, ⟨1, [1]⟩, ⟨3, [1]⟩].toAList (by decide) {Fin.last 3}
    (by decide) (by decide)

/-- The fourth of four resharers contributes nothing. -/
noncomputable def missingContribution : Resharing .z64 .three 4 1 1 0 1 :=
  .ofContributions 4 1 [⟨2, [1]⟩, ⟨1, [1]⟩, ⟨3, [1]⟩].toAList (by decide) {Fin.last 3}
    (by decide) (by decide)

/-- A single resharer, who is honest. -/
noncomputable def singleResharer : Resharing .z64 .three 1 0 1 0 1 :=
  .ofContributions 1 0 [⟨1, [1]⟩].toAList (by decide) ∅ (by decide) (by decide)

theorem wrongContribution_preservesSecrets : wrongContribution.PreservesSecrets GF8 :=
  (reshare_preservesSecrets_iff GF8 wrongContribution (by decide) (by decide) (by decide)
    (Resharing.opensCorrectly_ofContributions _ _ _)).mpr ⟨by decide, Or.inr (by decide)⟩

/-- The chunks of an empty syndrome panic, and a missing contribution stops the receiver. -/
theorem reshare_single_and_missing :
    singleResharer.output GF8 0 = Outcome.panic "chunk size must be non-zero" ∧
      ∀ out, missingContribution.output GF8 0 ≠ .ok out := by
  constructor
  · rw [singleResharer.output_eq_correctOpened GF8 (by decide) (by decide) (Or.inr (by decide)) rfl]
    rfl
  · intro out hout
    have hall := missingContribution.of_outputs_eq_ok GF8 (by decide)
      (Resharing.opensCorrectly_ofContributions _ _ _)
      (fun i => ⟨out, by rw [Subsingleton.elim i 0]; exact hout⟩) 0
    rcases hall.2 with hlen | hall
    · cases hlen
    · exact absurd (hall 3) (by decide)

end Instances

end ThresholdKms
