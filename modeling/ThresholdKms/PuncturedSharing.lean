import ThresholdKms.BackupSharing
import ThresholdKms.PrssSetup

/-!
# Punctured sharings

A party shares a secret so that the parties it is in dispute with have the share zero. A random
polynomial is multiplied by the roots of these parties, each divided by its value at zero. Every
polynomial with the values that are asked for is sampled by exactly one choice of the coefficients.
-/

open Polynomial CoefficientList

namespace ReplicatedSharing

variable {R : Type*} [CommRing R] {l : List R} {t : ℕ} {secret : R}

/-- The polynomials of degree at most `t` with the given value at zero and the given zeros. -/
def Punctured (l : List R) (t : ℕ) (secret : R) : Set R[X] :=
  {f | f.natDegree ≤ t ∧ f.eval 0 = secret ∧ ∀ a ∈ l, f.eval a = 0}

theorem bijOn_ofList_cons :
    Set.BijOn (fun cs => ofList (secret :: cs)) {cs | cs.length = t} (Punctured [] t secret) := by
  refine ⟨fun cs hcs => ⟨?_, by simp, by simp⟩, fun cs hcs cs' hcs' heq => ?_, ?_⟩
  · exact natDegree_le_iff_coeff_eq_zero.mpr fun k hk => coeff_ofList_of_le (hcs.trans_lt hk)
  · refine List.ext_getElem (hcs.trans hcs'.symm) fun i h h' => ?_
    have hcoeff := congrArg (coeff · (i + 1)) heq
    simpa [coeff_ofList, h, h'] using hcoeff
  · rintro f ⟨hdeg, rfl, -⟩
    refine ⟨(List.range t).map fun i => f.coeff (i + 1), by simp, ?_⟩
    ext i
    rw [coeff_ofList]
    cases i with
    | zero => exact (coeff_zero_eq_eval_zero f).symm
    | succ i =>
      by_cases hi : i < t
      · simp [hi]
      · simp [hi, coeff_eq_zero_of_natDegree_lt (show f.natDegree < i + 1 by omega)]

theorem bijOn_normalizedRoot_mul {a : R} (ha : IsUnit a) (hl : ∀ b ∈ l, IsUnit (a - b)) :
    Set.BijOn (normalizedRoot a * ·) (Punctured l t secret) (Punctured (a :: l) (t + 1) secret) := by
  have hmul : ∀ g, normalizedRoot a * (C (-a) * g) = (X - C a) * g := by
    intro g
    rw [normalizedRoot, mul_assoc, ← mul_assoc (C _), ← C_mul, Ring.inverse_mul_cancel _ ha.neg, C_1,
      one_mul]
  refine ⟨?_, fun g _ g' _ heq => ?_, ?_⟩
  · rintro g ⟨hdeg, hzero, hroots⟩
    refine ⟨?_, ?_, List.forall_mem_cons.mpr ⟨?_, fun b hb => ?_⟩⟩
    · exact (natDegree_mul_le_of_le (natDegree_normalizedRoot_le a) hdeg).trans_eq (add_comm 1 t)
    · rw [eval_mul, eval_zero_normalizedRoot ha, one_mul, hzero]
    · rw [eval_mul, eval_normalizedRoot_self, zero_mul]
    · rw [eval_mul, hroots b hb, mul_zero]
  · apply (monic_X_sub_C a).isRegular.left
    have hcancel := congrArg (C (-a) * ·) heq
    simpa only [mul_left_comm (C (-a)), hmul] using hcancel
  · rintro f ⟨hdeg, hzero, hroots⟩
    obtain ⟨g, rfl⟩ := dvd_iff_isRoot.mpr (hroots a List.mem_cons_self)
    refine ⟨C (-a) * g, ⟨?_, ?_, fun b hb => ?_⟩, hmul g⟩
    · refine (natDegree_C_mul_le _ _).trans ?_
      by_cases hg : g = 0
      · simp [hg]
      · have : Nontrivial R := nontrivial_iff.mp ⟨g, 0, hg⟩
        rw [(monic_X_sub_C a).natDegree_mul' hg, natDegree_X_sub_C] at hdeg
        omega
    · simpa using hzero
    · have hroot := hroots b (List.mem_cons_of_mem a hb)
      rw [eval_mul, eval_sub, eval_X, eval_C, ← neg_sub, neg_mul, neg_eq_zero] at hroot
      rw [eval_mul, (hl b hb).mul_right_eq_zero.mp hroot, mul_zero]

theorem bijOn_mul_vanishing (hunits : ∀ a ∈ l, IsUnit a) (hl : l.Pairwise fun a b => IsUnit (a - b))
    (ht : l.length ≤ t) (secret : R) :
    Set.BijOn (fun cs => ofList (secret :: cs) * vanishing l) {cs | cs.length = t - l.length}
      (Punctured l t secret) := by
  induction l generalizing t with
  | nil => simpa [vanishing] using bijOn_ofList_cons
  | cons a l ih =>
    obtain ⟨hdiff, hl⟩ := List.pairwise_cons.mp hl
    cases t with
    | zero => cases ht
    | succ t =>
      rw [List.length_cons, Nat.add_sub_add_right]
      refine ((bijOn_normalizedRoot_mul (hunits a List.mem_cons_self) hdiff).comp
        (ih (fun b hb => hunits b (List.mem_cons_of_mem a hb)) hl (Nat.le_of_succ_le_succ ht))).congr
          fun cs _ => ?_
      rw [vanishing_cons, mul_left_comm]
      rfl

end ReplicatedSharing

namespace ThresholdKms

open GaloisRing ReplicatedSharing

variable {w : ℕ} {e : ExtensionDegree} (F : Type) [Field F] [DecidableEq F] [G2p e F]

/-- The polynomial of `evaluate_w_new_roots` and the points that it is evaluated at. -/
def polyWNewRoots (numParties : ℕ) (pointsOfNewRoots : List Role) (basePoly : Poly (GaloisRing w e)) :
    Outcome (Poly (GaloisRing w e) × List (GaloisRing w e)) := do
  let (normalizedPartiesRoot, xCoords) ← normalizedPartiesRoot F numParties
  let poly ← pointsOfNewRoots.foldlM (fun poly p => do
    let root ← indexByRole normalizedPartiesRoot p
    Poly.mul poly root) basePoly
  return (poly, xCoords)

def evaluateWNewRoots (numParties : ℕ) (pointsOfNewRoots : List Role)
    (basePoly : Poly (GaloisRing w e)) : Outcome (List (GaloisRing w e)) := do
  let (poly, xCoords) ← polyWNewRoots F numParties pointsOfNewRoots basePoly
  return xCoords.map poly.eval

/-- The sampled values are the first ones of `rng`. -/
def interpolatePolyWPunctures (rng : ℕ → GaloisRing w e) (numParties threshold : ℕ)
    (disputePartyIds : List Role) (secret : GaloisRing w e) : Outcome (List (GaloisRing w e)) :=
  if threshold < disputePartyIds.length then
    Outcome.err s!"Too many disputes, {disputePartyIds}, for threshold {threshold}"
  else do
    let degree := threshold - disputePartyIds.length
    let points ← evaluateWNewRoots F numParties disputePartyIds
      (randomPoly ((List.range degree).map rng) secret)
    return points.tail

variable {F} {z : BaseRing} {n : ℕ} {disputed : List Role}

theorem polyWNewRoots_eq (hn : n < 2 ^ e.deg) (hdisputed : disputed ⊆ partyRoles n)
    (basePoly : Poly (GaloisRing z.bits e)) :
    ∃ poly, polyWNewRoots F n disputed basePoly = .ok (poly, (List.range (n + 1)).map fromByte) ∧
      poly.toPoly = basePoly.toPoly * vanishing (disputed.map fromByte) := by
  obtain ⟨roots, hrun, hroots⟩ := normalizedPartiesRoot_eq F z hn
  obtain ⟨poly, hpoly, heq⟩ := foldlM_fAPoly
    (fun i => isUnit_fromByte F z.bits_pos hn (List.mem_ofFn.mpr ⟨i, rfl⟩)) hroots [] hdisputed basePoly
  simp only [List.not_mem_nil, if_false, not_false_eq_true, decide_true, List.filter_true]
    at hpoly heq
  refine ⟨poly, ?_, heq⟩
  rw [polyWNewRoots, hrun, Outcome.ok_bind]
  simp only []
  rw [hpoly]
  rfl

/-- The shares lie on a polynomial that has the secret at zero and vanishes at the disputed parties,
and every such polynomial comes from exactly one choice of the sampled values. -/
theorem interpolatePolyWPunctures_bijOn (z : BaseRing) (e : ExtensionDegree) (F : Type) [Field F]
    [DecidableEq F] [G2p e F] (n t : ℕ) (hn : n < 2 ^ e.deg) (disputed : List Role)
    (hnodup : disputed.Nodup) (hdisputed : disputed ⊆ partyRoles n) (ht : disputed.length ≤ t)
    (secret : GaloisRing z.bits e) :
    ∃ poly : List (GaloisRing z.bits e) → (GaloisRing z.bits e)[X],
      Set.BijOn poly {sampled | sampled.length = t - disputed.length}
        (Punctured (disputed.map fromByte) t secret) ∧
      ∀ rng sampled, sampled = (List.range (t - disputed.length)).map rng →
        (∃ p xCoords, polyWNewRoots F n disputed (randomPoly sampled secret) = .ok (p, xCoords) ∧
          p.toPoly = poly sampled) ∧
        interpolatePolyWPunctures F rng n t disputed secret =
          .ok ((partyRoles n).map fun role => (poly sampled).eval (fromByte role)) := by
  have hunits : ∀ a ∈ disputed.map (fromByte : ℕ → GaloisRing z.bits e), IsUnit a := by
    intro a ha
    obtain ⟨role, hrole, rfl⟩ := List.mem_map.mp ha
    exact isUnit_fromByte F z.bits_pos hn (hdisputed hrole)
  have hembeddable : Embeddable e disputed :=
    ⟨hnodup, fun role hrole => (mem_partyRoles_iff.mp (hdisputed hrole)).2.trans_lt hn⟩
  have hbij := bijOn_mul_vanishing hunits (hembeddable.unitDifferences F z.bits_pos)
    ((List.length_map _).trans_le ht) secret
  rw [List.length_map] at hbij
  refine ⟨_, hbij, ?_⟩
  intro rng sampled hsampled
  obtain ⟨p, hrun, hp⟩ := polyWNewRoots_eq (F := F) hn hdisputed (randomPoly sampled secret)
  rw [randomPoly, Poly.toPoly_fromCoefs] at hp
  refine ⟨⟨p, _, hrun, hp⟩, ?_⟩
  rw [interpolatePolyWPunctures, if_neg (not_lt.mpr ht)]
  simp only [← hsampled, evaluateWNewRoots, hrun, Outcome.ok_bind, Outcome.pure_eq_ok]
  rw [List.range_eq_range', List.range'_succ, range'_one_eq, List.map_map, List.map_cons, ← hp]
  exact congrArg Except.ok (List.map_congr_left fun role _ => p.eval_eq _)

/-- Four parties, of which the second is disputed. -/
theorem interpolatePolyWPunctures_bijOn_four_parties :
    ∃ poly : List (GaloisRing BaseRing.z64.bits .three) → (GaloisRing BaseRing.z64.bits .three)[X],
      Set.BijOn poly {sampled | sampled.length = 1} (Punctured [fromByte 2] 2 1) ∧
      interpolatePolyWPunctures GF8 (fun _ => 1) 4 2 [2] 1 =
        .ok ((partyRoles 4).map fun role => (poly [1]).eval (fromByte role)) := by
  obtain ⟨poly, hbij, hrun⟩ := interpolatePolyWPunctures_bijOn .z64 .three GF8 4 2 (by decide) [2]
    (by decide) (by decide) (by decide) 1
  exact ⟨poly, hbij, (hrun (fun _ => 1) [1] rfl).2⟩

end ThresholdKms
