import Mathlib.RingTheory.Polynomial.DegreeLT
import ThresholdKms.ErrorCorrection

/-!
# The digit loop decodes ring sharings

Before round `i` every valid share is its original value minus the value of the accumulated
polynomial and is divisible by `2 ^ i`, and the evicted shares fit the error budget. A round evicts
exactly the shares whose digit disagrees with the decoded digit polynomial. When some polynomial
lies within the budget, the accumulated polynomial agrees with it modulo `2 ^ i` and no share on it
is ever evicted.
-/

open Polynomial ReceivedWord

namespace ThresholdKms

open Outcome

open GaloisRing

variable {w : ℕ} {e : ExtensionDegree} {F : Type} [Field F] [G2p e F]

/-- The sharing as a received word over the exceptional points of its owners. -/
def sharingWord (sharing : ShamirSharings (GaloisRing w e)) :
    List (GaloisRing w e × GaloisRing w e) :=
  sharing.shares.map (fun s => (fromByte s.owner, s.value))

variable (v : Share (GaloisRing w e) → GaloisRing w e) (valid : Share (GaloisRing w e) → Bool)
  (orig : List (Share (GaloisRing w e)))

/-- The loop's shares as functions of the original shares. -/
def flagged : List (FlaggedShare w e) :=
  orig.map (fun o => (⟨o.owner, v o⟩, valid o))

theorem computeBinaryShares_flagged (i : ℕ) :
    computeBinaryShares F (flagged v valid orig) i =
      (orig.filter valid).map (fun o => ⟨o.owner, bitCompose F (v o) i⟩) := by
  rw [computeBinaryShares, flagged, List.filter_map, List.map_map]
  rfl

variable (F) in
/-- The digits of the valid shares as a received word over the quotient field. -/
def digitWord (i : ℕ) : List (F × F) :=
  (orig.filter valid).map (fun o => (G2p.fromU8 e o.owner, bitCompose F (v o) i))

variable {fi : Poly F}

theorem correctShare_eq_ok (hw : 0 < w) {i degree : ℕ} (hi : i < w)
    (hfi : fi.coefs.length ≤ degree + 1) (s : FlaggedShare w e) (x : GaloisRing w e) :
    ∃ s' : FlaggedShare w e,
      correctShare (fi.coefs.map (G2p.toU8 e)) i (s, computePowers x degree) = .ok s' ∧
      s'.1.owner = s.1.owner ∧
      (s.2 = true → s'.1.value = s.1.value - 2 ^ i * ((dyadic F hw).liftPoly fi.toPoly).eval x) ∧
      (s'.2 = true ↔ s.2 = true ∧ (2 : GaloisRing w e) ^ (i + 1) ∣ s'.1.value) := by
  by_cases hs : s.2 = true
  · obtain ⟨b, hb, hdvd⟩ := multiplePow2_eq (show i + 1 ≤ w by omega)
      (s.1.value - 2 ^ i * ((dyadic F hw).liftPoly fi.toPoly).eval x)
    refine ⟨(⟨s.1.owner, s.1.value - 2 ^ i * ((dyadic F hw).liftPoly fi.toPoly).eval x⟩, b), ?_,
      rfl, fun _ => rfl, ?_⟩
    · simp only [correctShare, hs, if_true, lazyEval_powers hw fi x hfi, ok_bind,
        shl_eq hi, hb, pure_eq_ok]
    · simp only [hs, true_and]
      exact hdvd
  · refine ⟨s, ?_, rfl, fun h => absurd h hs, ?_⟩
    · simp only [correctShare, hs]
      rfl
    · simp [hs]

theorem applyBitCorrection_flagged (hw : 0 < w) {i degree : ℕ} (hi : i < w)
    (hfi : fi.coefs.length ≤ degree + 1) (res : Poly (GaloisRing w e)) :
    ∃ v' valid' evicted, applyBitCorrection ⟨flagged v valid orig, res⟩
        (orig.map (fun o => computePowers (fromByte o.owner) degree)) fi i =
        .ok (⟨flagged v' valid' orig, accumulateAndLiftBitwisePoly res fi i⟩, evicted) ∧
      ∀ o, (valid o = true → v' o =
          v o - 2 ^ i * ((dyadic F hw).liftPoly fi.toPoly).eval (fromByte o.owner)) ∧
        (valid' o = true ↔ valid o = true ∧ (2 : GaloisRing w e) ^ (i + 1) ∣ v' o) := by
  choose s' hok howner hvalue hflag using fun o : Share (GaloisRing w e) =>
    correctShare_eq_ok hw hi hfi ((⟨o.owner, v o⟩, valid o) : FlaggedShare w e)
      (fromByte o.owner)
  refine ⟨fun o => (s' o).1.value, fun o => (s' o).2,
    (((flagged v valid orig).zip (orig.map s')).filter (fun p => p.1.2 && !p.2.2)).map
      (fun p => p.2.1.owner), ?_, fun o => ⟨hvalue o, hflag o⟩⟩
  have hflagged : flagged (fun o => (s' o).1.value) (fun o => (s' o).2) orig = orig.map s' := by
    apply List.map_congr_left
    intro o _
    exact Prod.ext (by rw [← howner o]) rfl
  have hmap : ((flagged v valid orig).zip
      (orig.map (fun o => computePowers (fromByte o.owner) degree))).mapM
        (correctShare (fi.coefs.map (G2p.toU8 e)) i) = .ok (orig.map s') := by
    rw [flagged, List.zip_map', List.mapM_map]
    exact mapM_eq_ok (fun o _ => hok o)
  rw [applyBitCorrection, hmap, hflagged]
  rfl

structure LiftInvariant (orig : List (Share (GaloisRing w e))) (degree maxErrors i : ℕ)
    (s : LiftState w e) (v : Share (GaloisRing w e) → GaloisRing w e)
    (valid : Share (GaloisRing w e) → Bool) : Prop where
  shares_eq : s.shares = flagged v valid orig
  degree_lt : s.res.toPoly.degree < (degree + 1 : ℕ)
  value_eq : ∀ o ∈ orig, valid o = true → v o = o.value - s.res.toPoly.eval (fromByte o.owner)
  dvd : ∀ o ∈ orig, valid o = true → (2 : GaloisRing w e) ^ i ∣ v o
  evicted_le : orig.length ≤ (orig.filter valid).length + maxErrors

variable [DecidableEq F] {l : List (Share F)}

theorem errorCorrection_decodes (store : LagrangeStore F) {k b : ℕ}
    (howners : Embeddable e (l.map Share.owner)) (hb : 2 * b + (k + 1) ≤ l.length) :
    DecodesWithin (l.map (fun o => (G2p.fromU8 e o.owner, o.value))) (k + 1) b
        (errorCorrection e store l k b) ∧
      ∀ h, errorCorrection e store l k b = .ok h → h.compress = h := by
  have hxs := howners.nodup_fromU8 F
  have hlen : (l.map Share.value).length = ((l.map Share.owner).map (G2p.fromU8 e : ℕ → F)).length := by
    simp
  have hzip : ((l.map Share.owner).map (G2p.fromU8 e : ℕ → F)).zip (l.map Share.value) =
      l.map (fun o => (G2p.fromU8 e o.owner, o.value)) := by
    rw [List.map_map, List.zip_map']
    rfl
  have hrun : errorCorrection e store l k b =
      gaoDecoding store ((l.map Share.owner).map (G2p.fromU8 e)) (l.map Share.value) (k + 1) b := by
    rw [errorCorrection, howners.mapM_field F, ok_bind]
  have hdec := gaoDecoding_decodes store hxs hlen (k := k + 1) (e := b) (by omega) (by simpa using hb)
  rw [hzip] at hdec
  rw [hrun]
  refine ⟨hdec, fun h hok => ?_⟩
  obtain ⟨polys, hpolys, -⟩ := lagrangePolynomials_eq_ok hxs
  obtain ⟨vanishing, hvanishing, -⟩ :=
    vanishingPoly_eq_ok ((l.map Share.owner).map (G2p.fromU8 e : ℕ → F))
  rw [gaoDecoding_eq_withFieldHints store hpolys hvanishing] at hok
  exact gaoDecodingWithFieldHints_compressed hok

theorem errorCorrection_of_too_many (store : LagrangeStore F) {k b : ℕ}
    (howners : Embeddable e (l.map Share.owner)) (hb : l.length ≤ 2 * b + k) :
    ∃ msg, errorCorrection e store l k b = Outcome.err msg := by
  rw [errorCorrection, howners.mapM_field F]
  apply gaoDecoding_of_too_many store (howners.nodup_fromU8 F) (by simp)
  simp only [List.length_map]
  omega

theorem degree_add_C_mul_lt {R : Type*} [CommRing R] {p q : R[X]} {c : R} {k : ℕ}
    (hp : p.degree < k) (hq : q.degree < k) : (p + C c * q).degree < k := by
  rw [← mem_degreeLT] at hp hq ⊢
  rw [← smul_eq_C_mul]
  exact add_mem hp (Submodule.smul_mem _ c hq)

theorem length_filter_filter_add {ι : Type*} (l : List ι) (p q p' : ι → Bool)
    (h : ∀ o ∈ l, (p' o = true ↔ p o = true ∧ q o = false)) :
    (l.filter p').length + ((l.filter p).filter q).length = (l.filter p).length := by
  have hfilter : l.filter p' = (l.filter p).filter (fun o => !q o) := by
    rw [List.filter_filter]
    apply List.filter_congr
    intro o ho
    have := h o ho
    cases hp : p o <;> cases hq : q o <;> cases hp' : p' o <;> simp_all
  rw [hfilter, add_comm]
  exact (List.length_eq_length_filter_add q).symm

theorem length_filter_add_le {ι : Type*} (l : List ι) (p q r : ι → Bool)
    (hpq : ∀ o ∈ l, p o = true → q o = true → r o = true) (hp : ∀ o ∈ l, p o = false → r o = true) :
    ((l.filter p).filter q).length + l.length ≤ (l.filter r).length + (l.filter p).length := by
  induction l with
  | nil => simp
  | cons o l ih =>
    have hrest := ih (fun o ho => hpq o (by simp [ho])) (fun o ho => hp o (by simp [ho]))
    have h₁ := hpq o (by simp)
    have h₂ := hp o (by simp)
    cases hpo : p o <;> cases hqo : q o <;> cases hro : r o <;>
      simp_all <;> omega

/-- The error budget left when `valid` flags the shares. -/
def budgetLeft (maxErrors : ℕ)
    (valid : Share (GaloisRing w e) → Bool) : ℕ :=
  maxErrors - (orig.length - (orig.filter valid).length)

omit [DecidableEq F] in
theorem digitWord_unitDifferences (howners : Embeddable e (orig.map Share.owner)) (i : ℕ) :
    UnitDifferences ((digitWord F v valid orig i).map Prod.fst) := by
  rw [unitDifferences_iff_nodup, digitWord, List.map_map]
  have hsub : ((orig.filter valid).map Share.owner).Sublist (orig.map Share.owner) :=
    List.filter_sublist.map Share.owner
  have hnodup := (howners.sublist hsub).nodup_fromU8 F
  rwa [List.map_map] at hnodup

variable {v valid orig} {degree maxErrors i : ℕ} {s : LiftState w e}

omit [DecidableEq F] in
theorem two_pow_succ_dvd_iff_digit (hw : 0 < w) (hi : i < w) {o : Share (GaloisRing w e)}
    (howner : o.owner < 2 ^ e.deg) {x : GaloisRing w e} (hx : (2 : GaloisRing w e) ^ i ∣ x)
    (f : F[X]) :
    (2 : GaloisRing w e) ^ (i + 1) ∣
        x - 2 ^ i * ((dyadic F hw).liftPoly f).eval (fromByte o.owner) ↔
      f.eval (G2p.fromU8 e o.owner) = bitCompose F x i := by
  obtain ⟨y, rfl⟩ := hx
  rw [(dyadic F hw).two_pow_succ_dvd_sub_iff hi, residue_fromByte F hw howner,
    bitCompose_two_pow_mul hw hi]

section Round

variable (hinv : LiftInvariant orig degree maxErrors i s v valid)
include hinv

omit [DecidableEq F] in
theorem roundBudget_flagged :
    roundBudget orig.length maxErrors (computeBinaryShares F s.shares i) =
      .ok (budgetLeft orig maxErrors valid) := by
  have hle := List.length_filter_le valid orig
  have hev := hinv.evicted_le
  rw [hinv.shares_eq, computeBinaryShares_flagged, roundBudget, List.length_map,
    usizeSub_of_le hle, ok_bind, usizeSub_of_le (by omega)]
  rfl

variable (hw : 0 < w) (hi : i < w)
include hi

theorem LiftInvariant.next (hdeg : fi.toPoly.degree < (degree + 1 : ℕ))
    (hdis : disagreements (digitWord F v valid orig i) fi.toPoly ≤ budgetLeft orig maxErrors valid)
    {v' : Share (GaloisRing w e) → GaloisRing w e} {valid' : Share (GaloisRing w e) → Bool}
    (hv' : ∀ o, valid o = true → v' o =
      v o - 2 ^ i * ((dyadic F hw).liftPoly fi.toPoly).eval (fromByte o.owner))
    (hvalid' : ∀ o, valid' o = true ↔ valid o = true ∧ (2 : GaloisRing w e) ^ (i + 1) ∣ v' o)
    (hdigit : ∀ o ∈ orig, (valid' o = true ↔
      valid o = true ∧ fi.toPoly.eval (G2p.fromU8 e o.owner) = bitCompose F (v o) i)) :
    LiftInvariant orig degree maxErrors (i + 1)
      ⟨flagged v' valid' orig, accumulateAndLiftBitwisePoly s.res fi i⟩ v' valid' := by
  have hres := toPoly_accumulateAndLift hw s.res fi hi
  refine ⟨rfl, ?_, ?_, fun o _ h => ((hvalid' o).mp h).2, ?_⟩
  · rw [hres]
    exact degree_add_C_mul_lt hinv.degree_lt ((dyadic F hw).degree_liftPoly_lt hdeg)
  · intro o ho h
    have hval := ((hvalid' o).mp h).1
    rw [hres, hv' o hval, hinv.value_eq o ho hval, eval_add, eval_mul, eval_C]
    ring
  · rw [digitWord, disagreements_map] at hdis
    have hcount := length_filter_filter_add orig valid
      (fun o => decide (fi.toPoly.eval (G2p.fromU8 e o.owner) ≠ bitCompose F (v o) i)) valid'
      (fun o ho => by simpa using hdigit o ho)
    have hev := hinv.evicted_le
    rw [budgetLeft] at hdis
    omega

variable (howners : Embeddable e (orig.map Share.owner))
  (hmax : 2 * maxErrors + (degree + 1) ≤ orig.length)
include howners hmax

/-- A round either decodes the digits and keeps the invariant or fails because no digit polynomial
lies within the remaining budget. -/
theorem shamirErrorCorrectStep_spec (store : LagrangeStore F) :
    (∃ fi : Poly F, fi.toPoly.degree < (degree + 1 : ℕ) ∧
      disagreements (digitWord F v valid orig i) fi.toPoly ≤ budgetLeft orig maxErrors valid ∧
      ∃ s' v' valid', shamirErrorCorrectStep store
          (orig.map (fun o => computePowers (fromByte o.owner) degree)) degree maxErrors
          orig.length s i = .ok s' ∧
        LiftInvariant orig degree maxErrors (i + 1) s' v' valid' ∧
        s'.res.toPoly = s.res.toPoly + C (2 ^ i) * (dyadic F hw).liftPoly fi.toPoly ∧
        ∀ o ∈ orig, (valid' o = true ↔
          valid o = true ∧ fi.toPoly.eval (G2p.fromU8 e o.owner) = bitCompose F (v o) i)) ∨
    ((∃ msg, shamirErrorCorrectStep store
        (orig.map (fun o => computePowers (fromByte o.owner) degree)) degree maxErrors
        orig.length s i = Outcome.err msg) ∧
      ∀ f : F[X], f.degree < (degree + 1 : ℕ) →
        budgetLeft orig maxErrors valid < disagreements (digitWord F v valid orig i) f) := by
  have hev := hinv.evicted_le
  set b := budgetLeft orig maxErrors valid with hb
  have hbin : computeBinaryShares F s.shares i =
      (orig.filter valid).map (fun o => ⟨o.owner, bitCompose F (v o) i⟩) := by
    rw [hinv.shares_eq, computeBinaryShares_flagged]
  have hlen : 2 * b + (degree + 1) ≤ (computeBinaryShares F s.shares i).length := by
    rw [hbin, List.length_map, hb, budgetLeft]
    omega
  have hembed : Embeddable e ((computeBinaryShares F s.shares i).map Share.owner) := by
    rw [hbin, List.map_map]
    exact howners.sublist (List.filter_sublist.map Share.owner)
  have hword : (computeBinaryShares F s.shares i).map
      (fun o => ((G2p.fromU8 e o.owner : F), o.value)) = digitWord F v valid orig i := by
    rw [hbin, List.map_map]
    rfl
  obtain ⟨hdec, hcompress⟩ := errorCorrection_decodes store hembed hlen
  rw [hword] at hdec
  rw [shamirErrorCorrectStep]
  simp only [roundBudget_flagged hinv, ok_bind, ← hb]
  rcases hdec with ⟨fi, hok, hdeg, hdis⟩ | ⟨⟨msg, herr⟩, hnone⟩
  · left
    have hfi : fi.coefs.length ≤ degree + 1 :=
      Poly.length_le_of_compressed (hcompress fi hok) hdeg
    obtain ⟨v', valid', evicted, happly, hspec⟩ :=
      applyBitCorrection_flagged v valid orig hw hi hfi s.res
    have hs : s = ⟨flagged v valid orig, s.res⟩ := by rw [← hinv.shares_eq]
    have hdigit : ∀ o ∈ orig, (valid' o = true ↔
        valid o = true ∧ fi.toPoly.eval (G2p.fromU8 e o.owner) = bitCompose F (v o) i) := by
      intro o ho
      rw [(hspec o).2]
      refine and_congr_right (fun hval => ?_)
      rw [(hspec o).1 hval]
      exact two_pow_succ_dvd_iff_digit hw hi (howners.lt _ (List.mem_map_of_mem ho))
        (hinv.dvd o ho hval) fi.toPoly
    refine ⟨fi, hdeg, hdis, _, v', valid', ?_,
      hinv.next hw hi hdeg hdis (fun o => (hspec o).1) (fun o => (hspec o).2) hdigit,
      toPoly_accumulateAndLift hw s.res fi hi, hdigit⟩
    rw [hok, ok_bind, hs, happly]
    rfl
  · right
    refine ⟨⟨msg, ?_⟩, hnone⟩
    rw [herr]
    rfl

end Round

/-!
## Robust decoding of ring sharings

The runs of the digit loop: every run returns a polynomial within the error budget or an error, and
a run on a sharing that has a polynomial within the budget follows that polynomial digit by digit.
-/

theorem degree_lt_succ_iff {R : Type*} [CommRing R] {f : R[X]} {n : ℕ} :
    f.degree < (n + 1 : ℕ) ↔ f.natDegree ≤ n :=
  (degree_lt_iff_coeff_zero f (n + 1)).trans natDegree_le_iff_coeff_eq_zero.symm

/-- The accumulated polynomial follows `f`, and no share on `f` has been evicted. -/
structure Follows (orig : List (Share (GaloisRing w e))) (degree i : ℕ) (f : (GaloisRing w e)[X])
    (s : LiftState w e) (valid : Share (GaloisRing w e) → Bool) : Prop where
  digits : ∃ g : (GaloisRing w e)[X], g.degree < (degree + 1 : ℕ) ∧
    f = s.res.toPoly + C (2 ^ i) * g
  keeps : ∀ o ∈ orig, f.eval (fromByte o.owner) = o.value → valid o = true

section Step

variable {f g : (GaloisRing w e)[X]} (hinv : LiftInvariant orig degree maxErrors i s v valid)
  (hw : 0 < w) (hi : i < w) (howners : Embeddable e (orig.map Share.owner))
include hinv howners

omit [DecidableEq F] in
/-- At most one digit polynomial lies within the remaining budget. -/
theorem digit_unique (hmax : 2 * maxErrors + (degree + 1) ≤ orig.length) {p q : F[X]}
    (hp : p.degree < (degree + 1 : ℕ)) (hq : q.degree < (degree + 1 : ℕ))
    (hpdis : disagreements (digitWord F v valid orig i) p ≤ budgetLeft orig maxErrors valid)
    (hqdis : disagreements (digitWord F v valid orig i) q ≤ budgetLeft orig maxErrors valid) :
    p = q := by
  have hle := List.length_filter_le valid orig
  have hev := hinv.evicted_le
  have hlen : (digitWord F v valid orig i).length = (orig.filter valid).length := by
    rw [digitWord, List.length_map]
  rw [budgetLeft] at hpdis hqdis
  exact eq_of_disagreements (digitWord_unitDifferences v valid orig howners i) hp hq (by omega)

include hi

omit [DecidableEq F] in
/-- The digit of a share on `f` is the value of the residue of the remaining factor. -/
theorem digit_of_share_on (hg : f = s.res.toPoly + C (2 ^ i) * g)
    {o : Share (GaloisRing w e)} (ho : o ∈ orig) (hval : valid o = true)
    (hon : f.eval (fromByte o.owner) = o.value) :
    (g.map (dyadic F hw).residue).eval (G2p.fromU8 e o.owner) = bitCompose F (v o) i := by
  have hv : v o = 2 ^ i * g.eval (fromByte o.owner) := by
    rw [hinv.value_eq o ho hval, ← hon, hg, eval_add, eval_mul, eval_C]
    ring
  rw [hv, bitCompose_two_pow_mul hw hi, ← eval_map_apply,
    residue_fromByte F hw (howners.lt _ (List.mem_map_of_mem ho))]

theorem digit_disagreements_le (hg : f = s.res.toPoly + C (2 ^ i) * g)
    (hkeeps : ∀ o ∈ orig, f.eval (fromByte o.owner) = o.value → valid o = true)
    (hdis : disagreements (orig.map (fun s => (fromByte s.owner, s.value))) f ≤ maxErrors) :
    disagreements (digitWord F v valid orig i) (g.map (dyadic F hw).residue) ≤
      budgetLeft orig maxErrors valid := by
  rw [disagreements_map] at hdis
  rw [digitWord, disagreements_map, budgetLeft]
  have hcount := length_filter_add_le orig valid
    (fun o => decide ((g.map (dyadic F hw).residue).eval (G2p.fromU8 e o.owner) ≠
      bitCompose F (v o) i))
    (fun o => decide (f.eval (fromByte o.owner) ≠ o.value))
    (fun o ho hval hq => by
      simp only [decide_eq_true_eq] at hq ⊢
      exact fun hon => hq (digit_of_share_on hinv hw hi howners hg ho hval hon))
    (fun o ho hval => by
      simp only [decide_eq_true_eq]
      intro hon
      rw [hkeeps o ho hon] at hval
      cases hval)
  have hle := List.length_filter_le valid orig
  omega

include hw in
/-- A polynomial within the budget is followed through a round. -/
theorem Follows.next (store : LagrangeStore F)
    (hmax : 2 * maxErrors + (degree + 1) ≤ orig.length)
    (hdis : disagreements (orig.map (fun s => (fromByte s.owner, s.value))) f ≤ maxErrors)
    (hfollows : Follows orig degree i f s valid) :
    ∃ s' v' valid', shamirErrorCorrectStep store
        (orig.map (fun o => computePowers (fromByte o.owner) degree)) degree maxErrors
        orig.length s i = .ok s' ∧
      LiftInvariant orig degree maxErrors (i + 1) s' v' valid' ∧
      Follows orig degree (i + 1) f s' valid' := by
  obtain ⟨g, hgdeg, hg⟩ := hfollows.digits
  have hgdis := digit_disagreements_le (F := F) hinv hw hi howners hg hfollows.keeps hdis
  have hgres : (g.map (dyadic F hw).residue).degree < (degree + 1 : ℕ) :=
    degree_map_le.trans_lt hgdeg
  rcases shamirErrorCorrectStep_spec hinv hw hi howners hmax store with
    ⟨fi, hfideg, hfidis, s', v', valid', hstep, hinv', hres, hdigit⟩ | ⟨-, hnone⟩
  · have hfi : fi.toPoly = g.map (dyadic F hw).residue :=
      digit_unique hinv howners hmax hfideg hgres hfidis hgdis
    refine ⟨s', v', valid', hstep, hinv', ?_, ?_⟩
    · obtain ⟨g', hg'deg, hg'⟩ := (dyadic F hw).exists_next_digit hgdeg hg
      exact ⟨g', hg'deg, by rw [hres, hfi]; exact hg'⟩
    · intro o ho hon
      have hval := hfollows.keeps o ho hon
      rw [hdigit o ho, hfi]
      exact ⟨hval, digit_of_share_on hinv hw hi howners hg ho hval hon⟩
  · exact absurd (hnone _ hgres) (by omega)

end Step

section Run

variable (sharing : ShamirSharings (GaloisRing w e)) (degree maxErrors : ℕ)

theorem liftInvariant_init :
    LiftInvariant sharing.shares degree maxErrors 0 (LiftState.init sharing)
      (fun o => o.value) (fun _ => true) := by
  refine ⟨rfl, ?_, ?_, ?_, ?_⟩
  · exact WithBot.bot_lt_coe _
  · intro o _ _
    rw [LiftState.init, Poly.toPoly_zero, eval_zero, sub_zero]
  · intro o _ _
    exact one_dvd _
  · simp

variable {f : (GaloisRing w e)[X]}

theorem follows_init (hf : f.degree < (degree + 1 : ℕ)) :
    Follows sharing.shares degree 0 f (LiftState.init sharing) (fun _ => true) := by
  refine ⟨⟨f, hf, ?_⟩, fun _ _ _ => rfl⟩
  rw [LiftState.init, Poly.toPoly_zero, pow_zero, C_1, one_mul, zero_add]

/-- After the last round the valid shares lie on the accumulated polynomial. -/
theorem disagreements_le_of_final (hw : 0 < w) {s : LiftState w e}
    {v : Share (GaloisRing w e) → GaloisRing w e} {valid : Share (GaloisRing w e) → Bool} (F : Type)
    [Field F] [G2p e F] (hinv : LiftInvariant sharing.shares degree maxErrors w s v valid) :
    disagreements (sharingWord sharing) s.res.toPoly ≤ maxErrors := by
  have hon : ∀ o ∈ sharing.shares, valid o = true →
      s.res.toPoly.eval (fromByte o.owner) = o.value := by
    intro o ho hval
    have hdvd := hinv.dvd o ho hval
    rw [show (2 : GaloisRing w e) ^ w = 0 from (dyadic F hw).two_pow_width, zero_dvd_iff,
      hinv.value_eq o ho hval, sub_eq_zero] at hdvd
    exact hdvd.symm
  have hev := hinv.evicted_le
  have hsplit := List.length_eq_length_filter_add (l := sharing.shares) valid
  rw [sharingWord, disagreements_map, ← List.countP_eq_length_filter]
  calc
    _ ≤ sharing.shares.countP (fun o => !valid o) := by
      apply List.countP_mono_left
      intro o ho hne
      by_contra hval
      exact (of_decide_eq_true hne) (hon o ho (by simpa using hval))
    _ ≤ maxErrors := by
      rw [List.countP_eq_length_filter]
      omega

theorem mapM_exceptionalSet (howners : Embeddable e sharing.owners) :
    sharing.owners.mapM (exceptionalSet degree) = .ok (sharing.shares.map
        (fun o => computePowers (fromByte o.owner : GaloisRing w e) degree)) := by
  rw [ShamirSharings.owners, List.mapM_map]
  apply mapM_eq_ok
  intro o ho
  have hlt : o.owner < 2 ^ e.deg := howners.lt o.owner (List.mem_map_of_mem ho)
  simp only [Function.comp_apply, exceptionalSet, embedRole,
    getFromExceptionalSequence_of_lt hlt, ok_bind, pure_eq_ok]

variable (store : LagrangeStore F)

/-- The digit loop of the decoder. -/
abbrev digitLoop : Outcome (LiftState w e) :=
  (List.range w).foldlM (shamirErrorCorrectStep store
    (sharing.shares.map (fun o => computePowers (fromByte o.owner) degree)) degree maxErrors
    sharing.shares.length) (LiftState.init sharing)

variable {degree maxErrors} (hw : 0 < w) (howners : Embeddable e sharing.owners)
  (hmax : 2 * maxErrors + (degree + 1) ≤ sharing.shares.length)
include hw howners hmax

theorem digitLoop_sound : (∃ s, digitLoop sharing degree maxErrors store = .ok s ∧
      ∃ v valid, LiftInvariant sharing.shares degree maxErrors w s v valid) ∨
    ∃ msg, digitLoop sharing degree maxErrors store = Outcome.err msg := by
  apply foldlM_range_or_err
    (fun i s => ∃ v valid, LiftInvariant sharing.shares degree maxErrors i s v valid)
  · rintro i s hi ⟨v, valid, hinv⟩
    rcases shamirErrorCorrectStep_spec hinv hw hi howners hmax store with
      ⟨-, -, -, s', v', valid', hstep, hinv', -⟩ | ⟨hmsg, -⟩
    · exact Or.inl ⟨s', hstep, v', valid', hinv'⟩
    · exact Or.inr hmsg
  · exact ⟨_, _, liftInvariant_init sharing degree maxErrors⟩

theorem digitLoop_complete (hf : f.degree < (degree + 1 : ℕ))
    (hdis : disagreements (sharingWord sharing) f ≤ maxErrors) :
    ∃ s, digitLoop sharing degree maxErrors store = .ok s ∧
      ∃ v valid, LiftInvariant sharing.shares degree maxErrors w s v valid ∧
        Follows sharing.shares degree w f s valid := by
  apply foldlM_range_ok
    (fun i s => ∃ v valid, LiftInvariant sharing.shares degree maxErrors i s v valid ∧
      Follows sharing.shares degree i f s valid)
  · rintro i s hi ⟨v, valid, hinv, hfollows⟩
    obtain ⟨s', v', valid', hstep, hinv', hfollows'⟩ :=
      hfollows.next hinv hw hi howners store hmax hdis
    exact ⟨s', hstep, v', valid', hinv', hfollows'⟩
  · exact ⟨_, _, liftInvariant_init sharing degree maxErrors, follows_init sharing degree hf⟩

/-- The digit loop is a bounded distance decoder over the ring. -/
theorem shamirErrorCorrect_decodes : DecodesWithin (sharingWord sharing) (degree + 1) maxErrors
      (shamirErrorCorrect store sharing degree maxErrors) := by
  rw [shamirErrorCorrect, mapM_exceptionalSet sharing degree howners]
  change DecodesWithin _ _ _ (digitLoop sharing degree maxErrors store >>= _)
  rcases digitLoop_sound sharing store hw howners hmax with
    ⟨s, hrun, v, valid, hinv⟩ | ⟨msg, hrun⟩
  · left
    refine ⟨s.res, by rw [hrun]; rfl, hinv.degree_lt, ?_⟩
    exact disagreements_le_of_final sharing degree maxErrors hw F hinv
  · right
    refine ⟨⟨msg, by rw [hrun]; rfl⟩, ?_⟩
    intro f hf
    by_contra hdis
    obtain ⟨s, hok, -⟩ := digitLoop_complete sharing store hw howners hmax hf (not_lt.mp hdis)
    rw [hrun] at hok
    cases hok

end Run

theorem sharingWord_unitDifferences (F : Type) [Field F] [G2p e F] (hw : 0 < w)
    {sharing : ShamirSharings (GaloisRing w e)} (howners : Embeddable e sharing.owners) :
    UnitDifferences ((sharingWord sharing).map Prod.fst) := by
  have hunit := howners.unitDifferences F hw
  rw [ShamirSharings.owners, List.map_map] at hunit
  rw [sharingWord, List.map_map]
  exact hunit

/-- Reconstruction returns, so in particular no subtraction underflows; it succeeds exactly when
some polynomial lies within the error budget, and then returns that polynomial. -/
theorem shamirErrorCorrect_boundedDistance (z : BaseRing) (store : LagrangeStore F)
    (sharing : ShamirSharings (GaloisRing z.bits e)) (howners : Embeddable e sharing.owners)
    (degree maxErrors : ℕ) (hmax : 2 * maxErrors < sharing.shares.length - degree) :
    (shamirErrorCorrect store sharing degree maxErrors).Returns ∧
      ((∃ g, shamirErrorCorrect store sharing degree maxErrors = .ok g) ↔
        ∃ f : (GaloisRing z.bits e)[X], f.natDegree ≤ degree ∧
          disagreements (sharingWord sharing) f ≤ maxErrors) ∧
      ∀ g, shamirErrorCorrect store sharing degree maxErrors = .ok g →
        ∀ f : (GaloisRing z.bits e)[X], f.natDegree ≤ degree →
          disagreements (sharingWord sharing) f ≤ maxErrors → g.toPoly = f := by
  have hdec := shamirErrorCorrect_decodes sharing store z.bits_pos howners
    (show 2 * maxErrors + (degree + 1) ≤ sharing.shares.length by omega)
  refine ⟨hdec.returns, ?_, ?_⟩
  · simpa only [degree_lt_succ_iff] using hdec.ok_iff
  · intro g hok f hf hdis
    refine hdec.unique (sharingWord_unitDifferences F z.bits_pos howners) ?_ hok
      (degree_lt_succ_iff.mpr hf) hdis
    rw [sharingWord, List.length_map]
    omega

/-- Four shares of the constant one, the last of them wrong. -/
theorem shamirErrorCorrect_corrects_one_share :
    ∃ g, shamirErrorCorrect (F := GF8) LagrangeStore.empty
        ⟨[⟨1, 1⟩, ⟨2, 1⟩, ⟨3, 1⟩, (⟨4, 0⟩ : Share (GaloisRing BaseRing.z64.bits .three))]⟩ 1 1 =
          .ok g ∧ g.toPoly = 1 := by
  have hdis : disagreements (sharingWord
      ⟨[⟨1, 1⟩, ⟨2, 1⟩, ⟨3, 1⟩, (⟨4, 0⟩ : Share (GaloisRing BaseRing.z64.bits .three))]⟩) 1 ≤ 1 := by
    rw [sharingWord, disagreements_map]
    simp only [eval_one, ne_eq, List.filter_cons, not_true, decide_false, Bool.false_eq_true,
      if_false, List.filter_nil]
    split_ifs <;> simp
  obtain ⟨-, hiff, huniq⟩ := shamirErrorCorrect_boundedDistance (F := GF8) .z64 LagrangeStore.empty
    ⟨[⟨1, 1⟩, ⟨2, 1⟩, ⟨3, 1⟩, (⟨4, 0⟩ : Share (GaloisRing BaseRing.z64.bits .three))]⟩
    ⟨by decide, by decide⟩ 1 1 (by decide)
  obtain ⟨g, hok⟩ := hiff.mpr ⟨1, by simp, hdis⟩
  exact ⟨g, hok, huniq g hok 1 (by simp) hdis⟩

end ThresholdKms
