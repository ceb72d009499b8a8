import ThresholdKms.ErrorCorrectionHints

/-!
# Robust reconstruction

Reconstruction in a synchronous network spends the part of the threshold that is not taken by known
bots as its error budget. In an asynchronous network with few parties it decodes with a budget that
grows with the number of parties heard from, and accepts a polynomial once more than
`degree + threshold` shares lie on it.

An accepted polynomial shares more than `degree` honest points with the dealt one, so no partial
set of shares opens to a wrong value. With at most `degree + 3 * threshold` parties the error budget
is computed from the parties heard from, while the decoder's capacity depends on the shares: the
full set of shares opens only for the least number of parties.
-/

open Polynomial ReceivedWord

namespace ThresholdKms

open Outcome GaloisRing

variable {w : ℕ} {e : ExtensionDegree} {F : Type} [Field F] [DecidableEq F] [G2p e F]
  (store : LagrangeStore F)

def errorReconstruct (sharing : ShamirSharings (GaloisRing w e))
    (degree maxErrors : ℕ) : Outcome (GaloisRing w e) := do
  let recon ← shamirErrorCorrect store sharing degree maxErrors
  return recon.eval 0

def errorReconstructWithHints (sharing : ShamirSharings (GaloisRing w e))
    (degree maxErrors : ℕ) (hints : ReconstructionHints (GaloisRing w e) F) :
    Outcome (GaloisRing w e) := do
  let recon ← shamirErrorCorrectWithHints store sharing degree maxErrors hints
  return recon.eval 0

def maxErrorsLeft (threshold numBots : ℕ) : Outcome ℕ :=
  if numBots ≤ threshold then
    .ok (threshold - numBots)
  else
    Outcome.err s!"Underflow in reconstruction computing max_errors:  num_bots ({numBots}) > threshold ({threshold})"

section Reconstruct

variable (numParties degree threshold numBots : ℕ) (sharing : ShamirSharings (GaloisRing w e))
  (hints : ReconstructionHints (GaloisRing w e) F)

def reconstructWErrorsSync : Outcome (Option (GaloisRing w e)) :=
  let numShares := sharing.shares.length
  let numHeardFrom := numShares + numBots
  if degree + 2 * threshold < numParties ∧ degree + 2 * threshold < numHeardFrom then do
    let maxErrors ← maxErrorsLeft threshold numBots
    let opened ← errorReconstructWithHints store sharing degree maxErrors hints
    return some opened
  else if numParties ≤ degree + 2 * threshold then
    Outcome.err s!"Can NOT reconstruct with {numShares} shares, degree {degree}, threshold {threshold} and num_parties {numParties}"
  else
    .ok none

/-- Counts the shares on the polynomial and stops as soon as there are more than `bound`. -/
def enoughSharesOnPoly (openedPoly : Poly (GaloisRing w e)) (bound : ℕ) :
    List (Share (GaloisRing w e)) → ℕ → Outcome Bool
  | [], _ => .ok false
  | share :: shares, numSharesOnPoly => do
      let point ← embedRole share.owner
      let count :=
        if share.value = openedPoly.eval point then numSharesOnPoly + 1 else numSharesOnPoly
      if bound < count then .ok true else enoughSharesOnPoly openedPoly bound shares count

def reconstructWErrorsAsync : Outcome (Option (GaloisRing w e)) :=
  let numHeardFrom := sharing.shares.length + numBots
  if degree + 3 * threshold < numParties then
    if degree + 2 * threshold < numHeardFrom then do
      let maxErrors ← maxErrorsLeft threshold numBots
      let opened ← errorReconstructWithHints store sharing degree maxErrors hints
      return some opened
    else
      .ok none
  else if degree + 2 * threshold < numParties then
    if degree + threshold < numHeardFrom then
      match shamirErrorCorrectWithHints store sharing degree
          (numHeardFrom - (degree + threshold + 1)) hints with
      | .ok openedPoly =>
        if openedPoly.deg ≤ degree then do
          let enough ← enoughSharesOnPoly openedPoly (degree + threshold) sharing.shares 0
          return if enough then some (openedPoly.eval 0) else none
        else
          .ok none
      | .error (.err _) => .ok none
      | .error fault => .error fault
    else
      .ok none
  else
    Outcome.err s!"Can NOT reconstruct with degree {degree}, threshold {threshold} and num_parties {numParties}"

end Reconstruct

theorem toOk_of_decodesWithin {word : List (GaloisRing w e × GaloisRing w e)} {k budget : ℕ}
    {out : Outcome (Poly (GaloisRing w e))} (h : DecodesWithin word k budget out)
    (hw : UnitDifferences (word.map Prod.fst)) (he : 2 * budget + k ≤ word.length) :
    Outcome.toOk (do let recon ← out; return recon.eval 0) =
      .ok ((decoded word k budget).map (eval 0)) := by
  rcases h with ⟨g, rfl, hdeg, hdis⟩ | ⟨⟨msg, rfl⟩, hnone⟩
  · rw [(decoded_eq_some_iff hw he).mpr ⟨hdeg, hdis⟩, ok_bind, Poly.eval_eq]
    rfl
  · rw [decoded_eq_none_iff.mpr hnone]
    rfl

variable {sharing : ShamirSharings (GaloisRing w e)} {degree maxErrors : ℕ}

theorem toOk_errorReconstruct (hw : 0 < w) (howners : Embeddable e sharing.owners)
    (hmax : 2 * maxErrors + (degree + 1) ≤ sharing.shares.length) :
    Outcome.toOk (errorReconstruct store sharing degree maxErrors) =
      .ok ((decoded (sharingWord sharing) (degree + 1) maxErrors).map (eval 0)) :=
  toOk_of_decodesWithin (shamirErrorCorrect_decodes sharing store hw howners hmax)
    (sharingWord_unitDifferences F hw howners) (by rwa [sharingWord, List.length_map])

theorem shamirErrorCorrectStep_of_too_many (howners : Embeddable e sharing.owners)
    (hmax : sharing.shares.length ≤ 2 * maxErrors + degree)
    (orderedPowers : List (List (GaloisRing w e))) :
    ∃ msg, shamirErrorCorrectStep store orderedPowers degree maxErrors sharing.shares.length
      (LiftState.init sharing) 0 = Outcome.err msg := by
  have hbinary := owners_computeBinaryShares (F := F) (LiftState.init sharing).shares 0
  rw [validParties_init] at hbinary
  have hlen : (computeBinaryShares F (LiftState.init sharing).shares 0).length =
      sharing.shares.length := by
    have := congrArg List.length hbinary
    rwa [List.length_map, ShamirSharings.owners, List.length_map] at this
  obtain ⟨msg, herr⟩ := errorCorrection_of_too_many store (hbinary ▸ howners) (hlen ▸ hmax)
  refine ⟨msg, ?_⟩
  rw [shamirErrorCorrectStep, roundBudget, hlen, usizeSub_of_le le_rfl, ok_bind,
    Nat.sub_self, usizeSub_of_le (Nat.zero_le _), ok_bind, Nat.sub_zero, herr]
  rfl

variable {store} {hints : ReconstructionHints (GaloisRing w e) F} {f : (GaloisRing w e)[X]}
  {threshold numBots : ℕ}

theorem maxErrorsLeft_of_le (h : numBots ≤ threshold) :
    maxErrorsLeft threshold numBots = .ok (threshold - numBots) := if_pos h

theorem enoughSharesOnPoly_eq (p : Poly (GaloisRing w e)) {bound : ℕ}
    {shares : List (Share (GaloisRing w e))} (howners : ∀ s ∈ shares, s.owner < 2 ^ e.deg)
    {count : ℕ} (hcount : count ≤ bound) :
    enoughSharesOnPoly p bound shares count = .ok (decide (bound < count +
      (shares.filter (fun s => decide (s.value = p.toPoly.eval (fromByte s.owner)))).length)) := by
  induction shares generalizing count with
  | nil =>
    rw [enoughSharesOnPoly, List.filter_nil, List.length_nil, decide_eq_false (by omega)]
  | cons s shares ih =>
    have hrest : ∀ t ∈ shares, t.owner < 2 ^ e.deg := fun t ht => howners t (by simp [ht])
    rw [enoughSharesOnPoly, embedRole,
      getFromExceptionalSequence_of_lt (howners s (by simp)), Outcome.ok_bind, Poly.eval_eq,
      List.filter_cons]
    by_cases hon : s.value = p.toPoly.eval (fromByte s.owner)
    · rw [if_pos hon, if_pos (decide_eq_true hon), List.length_cons]
      by_cases hb : bound < count + 1
      · rw [if_pos hb, decide_eq_true (by omega)]
      · rw [if_neg hb, ih hrest (by omega)]
        congr 2
        rw [add_right_comm, add_assoc]
    · rw [if_neg hon, if_neg (mt of_decide_eq_true hon), if_neg (show ¬ bound < count by omega),
        ih hrest hcount]

theorem length_on_poly_add_disagreements (sharing : ShamirSharings (GaloisRing w e))
    (p : (GaloisRing w e)[X]) :
    (sharing.shares.filter (fun s => decide (s.value = p.eval (fromByte s.owner)))).length +
      disagreements (sharingWord sharing) p = sharing.shares.length := by
  rw [sharingWord, disagreements_map, List.length_eq_length_filter_add
    (l := sharing.shares) (fun s => decide (s.value = p.eval (fromByte s.owner)))]
  congr 2
  apply List.filter_congr
  intro s _
  simp [eq_comm]

/-- A polynomial with more than `degree + threshold` shares on it is `f`. -/
theorem eq_of_enoughSharesOnPoly (hw : 0 < w) (F : Type) [Field F] [G2p e F]
    (howners : Embeddable e sharing.owners) (hf : f.natDegree ≤ degree) {threshold : ℕ}
    (hwrong : disagreements (sharingWord sharing) f ≤ threshold) {p : Poly (GaloisRing w e)}
    (hp : p.deg ≤ degree)
    (henough : enoughSharesOnPoly p (degree + threshold) sharing.shares 0 = .ok true) :
    p.toPoly = f := by
  have hlt : ∀ s ∈ sharing.shares, s.owner < 2 ^ e.deg :=
    fun s hs => howners.lt s.owner (List.mem_map_of_mem hs)
  rw [enoughSharesOnPoly_eq p hlt (Nat.zero_le _)] at henough
  have hcount := of_decide_eq_true (Except.ok.inj henough)
  have hsplit := length_on_poly_add_disagreements sharing p.toPoly
  rw [Poly.deg_eq_natDegree] at hp
  apply eq_of_disagreements (sharingWord_unitDifferences F hw howners)
    (degree_lt_succ_iff.mpr hp) (degree_lt_succ_iff.mpr hf)
  rw [sharingWord, List.length_map, ← sharingWord]
  omega

section Hints

variable (hw : 0 < w) (howners : Embeddable e sharing.owners)
  (hhints : ReconstructionHints.new store sharing degree = .ok hints)
include hw howners hhints

/-- Within half the distance of `f` the hinted decoder finds `f`. -/
theorem shamirErrorCorrectWithHints_finds
    (hmax : 2 * maxErrors + (degree + 1) ≤ sharing.shares.length) (hf : f.natDegree ≤ degree)
    (hdis : disagreements (sharingWord sharing) f ≤ maxErrors) :
    ∃ g, shamirErrorCorrectWithHints store sharing degree maxErrors hints = .ok g ∧
      g.toPoly = f := by
  have hdeg := degree_lt_succ_iff.mpr hf
  have hdec := shamirErrorCorrect_decodes sharing store hw howners hmax
  rw [shamirErrorCorrectWithHints_eq howners hhints]
  obtain ⟨g, hg⟩ := hdec.ok_iff.mpr ⟨f, hdeg, hdis⟩
  refine ⟨g, hg, hdec.unique (sharingWord_unitDifferences F hw howners) ?_ hg hdeg hdis⟩
  rwa [sharingWord, List.length_map]

theorem shamirErrorCorrectWithHints_of_too_many
    (hmax : sharing.shares.length ≤ 2 * maxErrors + degree) :
    ∃ msg, shamirErrorCorrectWithHints store sharing degree maxErrors hints = Outcome.err msg := by
  rw [shamirErrorCorrectWithHints_eq howners hhints, shamirErrorCorrect,
    mapM_exceptionalSet sharing degree howners, ok_bind]
  obtain ⟨msg, hstep⟩ := shamirErrorCorrectStep_of_too_many store howners hmax
    (sharing.shares.map (fun o => computePowers (fromByte o.owner) degree))
  obtain ⟨n, rfl⟩ : ∃ n, w = n + 1 := ⟨w - 1, by omega⟩
  refine ⟨msg, ?_⟩
  rw [List.range_succ_eq_map, List.foldlM_cons, hstep]
  rfl

/-- With few parties the shares must fit the budget computed from the parties heard from. -/
theorem reconstructWErrorsAsync_of_too_many {numParties : ℕ}
    (hn : degree + 2 * threshold < numParties) (hfew : numParties ≤ degree + 3 * threshold)
    (hheard : degree + threshold < sharing.shares.length + numBots)
    (hmany : degree + 2 * threshold + 2 ≤ sharing.shares.length + 2 * numBots) :
    reconstructWErrorsAsync store numParties degree threshold numBots sharing hints = .ok none := by
  have hmax : sharing.shares.length ≤
      2 * (sharing.shares.length + numBots - (degree + threshold + 1)) + degree := by omega
  obtain ⟨msg, herr⟩ := shamirErrorCorrectWithHints_of_too_many hw howners hhints hmax
  simp only [reconstructWErrorsAsync, if_neg (not_lt.mpr hfew), if_pos hn, if_pos hheard, herr,
    Outcome.err]

/-- All shares of the least number of parties open. -/
theorem reconstructWErrorsAsync_finds (hpos : 0 < threshold)
    (hcount : sharing.shares.length = degree + 2 * threshold + 1)
    (hf : f.natDegree ≤ degree) (hwrong : disagreements (sharingWord sharing) f ≤ threshold) :
    reconstructWErrorsAsync store (degree + 2 * threshold + 1) degree threshold 0 sharing hints =
      .ok (some (f.eval 0)) := by
  have hbudget : sharing.shares.length + 0 - (degree + threshold + 1) = threshold := by omega
  obtain ⟨g, hg, hgf⟩ := shamirErrorCorrectWithHints_finds hw howners hhints
    (show 2 * threshold + (degree + 1) ≤ sharing.shares.length by omega) hf hwrong
  have hlt : ∀ s ∈ sharing.shares, s.owner < 2 ^ e.deg :=
    fun s hs => howners.lt s.owner (List.mem_map_of_mem hs)
  have hsplit := length_on_poly_add_disagreements sharing f
  have henough : enoughSharesOnPoly g (degree + threshold) sharing.shares 0 = .ok true := by
    rw [enoughSharesOnPoly_eq g hlt (Nat.zero_le _), hgf, decide_eq_true (by omega)]
  have hdeg : g.deg ≤ degree := by rwa [Poly.deg_eq_natDegree, hgf]
  rw [reconstructWErrorsAsync]
  simp only [hbudget, hg]
  rw [if_neg (by omega), if_pos (by omega), if_pos (by omega), if_pos hdeg, henough,
    Poly.eval_eq, hgf]
  rfl

variable (hheard : degree + 2 * threshold < sharing.shares.length + numBots)
  (hf : f.natDegree ≤ degree)
  (hwrong : numBots + disagreements (sharingWord sharing) f ≤ threshold)
include hheard hf hwrong

/-- The opening within the part of the threshold that known bots leave is the value of `f`. -/
theorem errorReconstructWithHints_finds :
    errorReconstructWithHints store sharing degree (threshold - numBots) hints =
      .ok (f.eval 0) := by
  have hmax : 2 * (threshold - numBots) + (degree + 1) ≤ sharing.shares.length := by omega
  obtain ⟨g, hg, hgf⟩ :=
    shamirErrorCorrectWithHints_finds hw howners hhints hmax hf (by omega)
  rw [errorReconstructWithHints, hg, ok_bind, Poly.eval_eq, hgf]
  rfl

/-- In a synchronous network an opening succeeds as soon as enough parties are heard from. -/
theorem reconstructWErrorsSync_finds {numParties : ℕ} (hn : degree + 2 * threshold < numParties) :
    reconstructWErrorsSync store numParties degree threshold numBots sharing hints =
      .ok (some (f.eval 0)) := by
  rw [reconstructWErrorsSync, if_pos ⟨hn, hheard⟩, maxErrorsLeft_of_le (by omega), ok_bind,
    errorReconstructWithHints_finds hw howners hhints hheard hf hwrong]
  rfl

end Hints

section Example

/-- Shares of the constant one held by the first parties, the last of them wrong. -/
def onesWithOneError (numShares : ℕ) : ShamirSharings (GaloisRing BaseRing.z64.bits .three) :=
  ⟨(List.range numShares).map (fun i => ⟨i + 1, if i + 1 = numShares then 0 else 1⟩)⟩

theorem embeddable_onesWithOneError {numShares : ℕ} (h : numShares < 8) :
    Embeddable .three (onesWithOneError numShares).owners := by
  have howners : (onesWithOneError numShares).owners = (List.range numShares).map (· + 1) := by
    simp [onesWithOneError, ShamirSharings.owners]
  rw [howners]
  refine ⟨List.nodup_range.map (fun a b h => by simpa using h), ?_⟩
  intro o ho
  obtain ⟨i, hi, rfl⟩ := List.mem_map.mp ho
  have := List.mem_range.mp hi
  change i + 1 < 8
  omega

theorem disagreements_onesWithOneError (numShares : ℕ) :
    disagreements (sharingWord (onesWithOneError numShares)) 1 ≤ 1 := by
  rw [sharingWord, onesWithOneError, List.map_map, disagreements_map,
    ← List.countP_eq_length_filter]
  calc
    _ ≤ (List.range numShares).countP (· == numShares - 1) := by
      apply List.countP_mono_left
      intro i _ hne
      by_contra hi
      have hlast : i + 1 ≠ numShares := by
        intro h
        exact hi (by simp [← h])
      simp [hlast] at hne
    _ ≤ 1 := List.nodup_iff_count_le_one.mp List.nodup_range _

theorem exists_hints_onesWithOneError {numShares : ℕ} (h : numShares < 8) (degree : ℕ) :
    ∃ hints, ReconstructionHints.new (F := GF8) LagrangeStore.empty (onesWithOneError numShares)
      degree = .ok hints := by
  obtain ⟨fieldHints, -, hnew⟩ := reconstructionHints_new_eq_ok (F := GF8) LagrangeStore.empty
    (embeddable_onesWithOneError h) degree
  exact ⟨_, hnew⟩

end Example

section Opening

variable (z : BaseRing) (store : LagrangeStore F) (numParties degree threshold numBots : ℕ)
  (hn : degree + 2 * threshold < numParties)
include hn

/-- No partial set of shares opens to a wrong value. -/
theorem reconstructWErrorsAsync_safe (f : (GaloisRing z.bits e)[X]) (hf : f.natDegree ≤ degree)
    (sharing : ShamirSharings (GaloisRing z.bits e)) (howners : Embeddable e sharing.owners)
    (hwrong : numBots + disagreements (sharingWord sharing) f ≤ threshold)
    (hints : ReconstructionHints (GaloisRing z.bits e) F)
    (hhints : ReconstructionHints.new store sharing degree = .ok hints) (s : GaloisRing z.bits e)
    (hopen : reconstructWErrorsAsync store numParties degree threshold numBots sharing hints =
      .ok (some s)) :
    s = f.eval 0 := by
  unfold reconstructWErrorsAsync at hopen
  simp only at hopen
  split_ifs at hopen with hmany hheard hheard
  · rw [maxErrorsLeft_of_le (by omega), Outcome.ok_bind,
      errorReconstructWithHints_finds z.bits_pos howners hhints hheard hf hwrong] at hopen
    cases hopen
    rfl
  · cases hopen
  · cases hdec : shamirErrorCorrectWithHints store sharing degree
        (sharing.shares.length + numBots - (degree + threshold + 1)) hints with
    | error fault =>
      rw [hdec] at hopen
      cases fault <;> cases hopen
    | ok p =>
      rw [hdec] at hopen
      simp only at hopen
      split_ifs at hopen with hp
      · obtain ⟨enough, henough, hret⟩ := Outcome.bind_eq_ok.mp hopen
        cases enough with
        | false => cases hret
        | true =>
          cases hret
          rw [Poly.eval_eq, eq_of_enoughSharesOnPoly z.bits_pos F howners hf (by omega) hp
            henough]
      · cases hopen
  · cases hopen

omit hn in
theorem reconstructWErrorsAsync_safe_four_parties :
    ∃ hints s, ReconstructionHints.new (F := GF8) LagrangeStore.empty (onesWithOneError 4) 1 =
        .ok hints ∧
      reconstructWErrorsAsync LagrangeStore.empty 4 1 1 0 (onesWithOneError 4) hints =
        .ok (some s) ∧ s = (1 : (GaloisRing BaseRing.z64.bits .three)[X]).eval 0 := by
  obtain ⟨hints, hhints⟩ := exists_hints_onesWithOneError (show 4 < 8 by norm_num) 1
  have hopen := reconstructWErrorsAsync_finds BaseRing.z64.bits_pos
    (embeddable_onesWithOneError (by norm_num)) hhints (by norm_num) rfl
    (natDegree_one.trans_le (Nat.zero_le 1)) (disagreements_onesWithOneError 4)
  refine ⟨hints, _, hhints, hopen, ?_⟩
  exact reconstructWErrorsAsync_safe .z64 LagrangeStore.empty 4 1 1 0 (by norm_num) 1 (by simp)
    (onesWithOneError 4) (embeddable_onesWithOneError (by norm_num))
    (by simpa using disagreements_onesWithOneError 4) hints hhints _ hopen

/-- In the asynchronous branch for few parties, the full set of shares opens exactly for the least
number of parties and no known bot. -/
theorem reconstructWErrorsAsync_live_iff (hfew : numParties ≤ degree + 3 * threshold)
    (f : (GaloisRing z.bits e)[X]) (hf : f.natDegree ≤ degree) (sharing : ShamirSharings (GaloisRing z.bits e))
    (howners : Embeddable e sharing.owners) (hcount : sharing.shares.length + numBots = numParties)
    (hwrong : numBots + disagreements (sharingWord sharing) f ≤ threshold)
    (hints : ReconstructionHints (GaloisRing z.bits e) F)
    (hhints : ReconstructionHints.new store sharing degree = .ok hints) :
    reconstructWErrorsAsync store numParties degree threshold numBots sharing hints =
        .ok (some (f.eval 0)) ↔
      numParties = degree + 2 * threshold + 1 ∧ numBots = 0 := by
  constructor
  · intro hopen
    by_contra hcond
    rw [reconstructWErrorsAsync_of_too_many z.bits_pos howners hhints hn hfew (by omega)
      (by omega)] at hopen
    cases hopen
  · rintro ⟨rfl, rfl⟩
    exact reconstructWErrorsAsync_finds z.bits_pos howners hhints (by omega) (by omega) hf
      (by omega)

end Opening

theorem reconstructWErrorsAsync_four_parties_open :
    ∃ hints, ReconstructionHints.new (F := GF8) LagrangeStore.empty (onesWithOneError 4) 1 =
        .ok hints ∧
      reconstructWErrorsAsync LagrangeStore.empty 4 1 1 0 (onesWithOneError 4) hints =
        .ok (some ((1 : (GaloisRing BaseRing.z64.bits .three)[X]).eval 0)) := by
  obtain ⟨hints, hhints⟩ := exists_hints_onesWithOneError (show 4 < 8 by norm_num) 1
  refine ⟨hints, hhints, ?_⟩
  exact (reconstructWErrorsAsync_live_iff .z64 LagrangeStore.empty 4 1 1 0 (by norm_num)
    (by norm_num) 1 (by simp) (onesWithOneError 4) (embeddable_onesWithOneError (by norm_num)) rfl
    (by simpa using disagreements_onesWithOneError 4) hints hhints).mpr ⟨rfl, rfl⟩

/-- Seven parties tolerate two corruptions at degree one, but their shares do not open: the budget
of three errors exceeds what seven shares can correct. -/
theorem reconstructWErrorsAsync_seven_parties_stuck :
    ∃ hints, ReconstructionHints.new (F := GF8) LagrangeStore.empty (onesWithOneError 7) 1 =
        .ok hints ∧
      1 + 2 * 2 < 7 ∧ 7 ≤ 1 + 3 * 2 ∧ Embeddable .three (onesWithOneError 7).owners ∧
      (onesWithOneError 7).shares.length + 0 = 7 ∧
      0 + disagreements (sharingWord (onesWithOneError 7)) 1 ≤ 2 ∧
      reconstructWErrorsAsync LagrangeStore.empty 7 1 2 0 (onesWithOneError 7) hints = .ok none := by
  obtain ⟨hints, hhints⟩ := exists_hints_onesWithOneError (show 7 < 8 by norm_num) 1
  have howners := embeddable_onesWithOneError (show 7 < 8 by norm_num)
  have hdis := disagreements_onesWithOneError 7
  refine ⟨hints, hhints, by norm_num, by norm_num, howners, rfl, by omega, ?_⟩
  exact reconstructWErrorsAsync_of_too_many BaseRing.z64.bits_pos howners hhints (by norm_num)
    (by norm_num) (by decide) (by decide)

/-!
## Reconstruction does not depend on the caches

The Lagrange bases of the possible sets of parties are computed at startup, and the powers of the
parties' points when they are first needed. Both caches hold what their misses compute, so a
reconstruction returns the same polynomial whatever they hold, and with hints the same as without.
-/

abbrev LagrangeMap (F : Type) := HashMap (List F) (List (Poly F))

variable (map : LagrangeMap F)

def insertLagrangePolys (points : List F) : Outcome (LagrangeMap F) := do
  let polys ← lagrangePolynomials points
  return map.insert points polys

def buildLagrangeMap (e : ExtensionDegree) [G2p e F] (numParties minThreshold : ℕ) :
    Outcome (LagrangeMap F) := do
  let allPoints ← (List.range' 1 numParties).mapM (fieldFromExceptionalSequence e)
  let subsets := (List.range' (minThreshold + 1) (numParties - minThreshold)).flatMap
    (fun size => allPoints.sublistsLen size)
  subsets.foldlM insertLagrangePolys ∅

/-- Every basis in the map is the one its points have. -/
def HoldsBases : Prop :=
  ∀ points polys, map.lookup points = some polys → lagrangePolynomials points = .ok polys

theorem HoldsBases.insertLagrangePolys {map map' : LagrangeMap F} {points : List F}
    (h : HoldsBases map) (hinsert : insertLagrangePolys map points = .ok map') :
    HoldsBases map' := by
  obtain ⟨polys, hpolys, hret⟩ := bind_eq_ok.mp hinsert
  cases hret
  exact forall_lookup_insert h hpolys

theorem holdsBases_buildLagrangeMap {numParties minThreshold : ℕ} {map : LagrangeMap F}
    (h : buildLagrangeMap e numParties minThreshold = .ok map) : HoldsBases map := by
  obtain ⟨allPoints, -, hfold⟩ := bind_eq_ok.mp h
  refine foldlM_of_ok HoldsBases ?_ ?_ hfold
  · intro points _ map map' hmap hinsert
    exact hmap.insertLagrangePolys hinsert
  · intro points polys hlookup
    cases hlookup

def LagrangeStore.ofMap (h : HoldsBases map) : LagrangeStore F where
  cached := map.lookup
  cached_eq := h

/-- The powers that lookups have put into the store. -/
structure ExceptionalStore (w : ℕ) (e : ExtensionDegree) where
  powers : HashMap (ℕ × ℕ) (List (GaloisRing w e))
  powers_eq : ∀ index degree v, powers.lookup (index, degree) = some v →
    exceptionalSet degree index = .ok v

namespace ExceptionalStore

def empty : ExceptionalStore w e where
  powers := ∅
  powers_eq _ _ _ h := by
    rw [AList.lookup_empty] at h
    cases h

variable (store : ExceptionalStore w e)

def insert (index degree : ℕ) (v : List (GaloisRing w e))
    (hv : exceptionalSet degree index = .ok v) : ExceptionalStore w e where
  powers := store.powers.insert (index, degree) v
  powers_eq index' degree' := forall_lookup_insert
    (fun (key : ℕ × ℕ) v => store.powers_eq key.1 key.2 v) hv (index', degree')

/-- A lookup that misses computes the powers and stores them. -/
def exceptionalSet (degree : ℕ) (role : Role) :
    Outcome (List (GaloisRing w e) × ExceptionalStore w e) :=
  match store.powers.lookup (role, degree) with
  | some v => .ok (v, store)
  | none =>
    match h : ThresholdKms.exceptionalSet degree role with
    | .ok powers => .ok (powers, store.insert role degree powers h)
    | .error fault => .error fault

theorem exceptionalSet_fst (degree : ℕ) (role : Role) :
    (Prod.fst <$> store.exceptionalSet degree role) = ThresholdKms.exceptionalSet degree role := by
  rw [exceptionalSet]
  cases hlookup : store.powers.lookup (role, degree) with
  | some v => exact (store.powers_eq role degree v hlookup).symm
  | none =>
    dsimp only
    split
    · next powers h => exact h.symm
    · next fault h => exact h.symm

end ExceptionalStore

section Memoized

variable (store : LagrangeStore F) (memo : Role → ExceptionalStore w e)
  (sharing : ShamirSharings (GaloisRing w e)) (degree maxErrors : ℕ)

/-- The plain decoder with the memoized powers. The store is given as the lookup of each party
finds it, since other reconstructions may fill it between two lookups. -/
def shamirErrorCorrectMemoized : Outcome (Poly (GaloisRing w e)) := do
  let orderedPowers ← sharing.owners.mapM
    (fun role => Prod.fst <$> (memo role).exceptionalSet degree role)
  let s ← (List.range w).foldlM
    (shamirErrorCorrectStep store orderedPowers degree maxErrors sharing.shares.length)
    (LiftState.init sharing)
  return s.res

theorem shamirErrorCorrectMemoized_eq :
    shamirErrorCorrectMemoized store memo sharing degree maxErrors =
      shamirErrorCorrect store sharing degree maxErrors := by
  simp only [shamirErrorCorrectMemoized, ExceptionalStore.exceptionalSet_fst]
  rfl

end Memoized

variable (store store' : LagrangeStore F)

theorem LagrangeStore.match_cached {β : Type} (points : List F) (use : List (Poly F) → Outcome β) :
    (match store.cached points with
      | some polys => use polys
      | none => lagrangePolynomials points >>= use) = lagrangePolynomials points >>= use := by
  cases hcached : store.cached points with
  | some polys => rw [store.cached_eq points polys hcached, ok_bind]
  | none => rfl

theorem lagrangeInterpolation_eq_bind (points values : List F) :
    lagrangeInterpolation store points values =
      (lagrangePolynomials points >>= fun polys => lagrangeInterpolationWithPolys polys values) :=
  store.match_cached points _

theorem fieldHints_new_eq_bind (parties : List Role) : FieldHints.new e store parties = (do
      let embeddedPoints ← parties.mapM (fieldFromExceptionalSequence e)
      let lagrangePolys ← lagrangePolynomials embeddedPoints
      let vanishingPoly ← computeVanishingPoly embeddedPoints
      return ⟨embeddedPoints, lagrangePolys, vanishingPoly⟩) :=
  bind_congr (fun points => store.match_cached points _)

theorem errorCorrection_store : errorCorrection e store = errorCorrection e store' := by
  funext shares degree maxErrors
  simp only [errorCorrection, gaoDecoding, lagrangeInterpolation_eq_bind]

theorem shamirErrorCorrect_store :
    shamirErrorCorrect (w := w) (e := e) store = shamirErrorCorrect store' := by
  funext sharing degree maxErrors
  have hstep : shamirErrorCorrectStep (w := w) (e := e) store = shamirErrorCorrectStep store' := by
    funext orderedPowers degree maxErrors initialLength s bitIdx
    simp only [shamirErrorCorrectStep, errorCorrection_store store store']
  rw [shamirErrorCorrect, shamirErrorCorrect, hstep]

theorem reconstructionHints_new_store :
    ReconstructionHints.new (w := w) (e := e) store = ReconstructionHints.new store' := by
  have hfield : FieldHints.new e store = FieldHints.new e store' := by
    funext parties
    rw [fieldHints_new_eq_bind, fieldHints_new_eq_bind]
  funext sharing degree
  rw [ReconstructionHints.new, ReconstructionHints.new, ReconstructionHints.fromPartiesSorted,
    ReconstructionHints.fromPartiesSorted, hfield]

theorem embeddable_of_reconstructionHints {store : LagrangeStore F}
    {sharing : ShamirSharings (GaloisRing w e)} (hsorted : sharing.owners.Pairwise (· < ·))
    {degree : ℕ} {hints : ReconstructionHints (GaloisRing w e) F}
    (hhints : ReconstructionHints.new store sharing degree = .ok hints) :
    Embeddable e sharing.owners := by
  refine ⟨hsorted.imp (fun h => h.ne), fun o ho => ?_⟩
  obtain ⟨points, hpoints, -⟩ := bind_eq_ok.mp hhints
  obtain ⟨point, hpoint⟩ := ok_of_mem_mapM hpoints ho
  rw [embedRole, getFromExceptionalSequence, guard_eq_ok] at hpoint
  exact not_le.mp hpoint.1

/-- Whatever the caches hold when the hints are made and in the two decodings, the hinted decoder
returns a polynomial exactly when the plain one returns it. -/
theorem shamirErrorCorrectWithHints_ok_iff (hintStore hintedStore plainStore : LagrangeStore F)
    (memo : Role → ExceptionalStore w e) (sharing : ShamirSharings (GaloisRing w e))
    (hsorted : sharing.owners.Pairwise (· < ·)) (degree maxErrors : ℕ)
    (hints : ReconstructionHints (GaloisRing w e) F)
    (hhints : ReconstructionHints.new hintStore sharing degree = .ok hints)
    (g : Poly (GaloisRing w e)) :
    shamirErrorCorrectWithHints hintedStore sharing degree maxErrors hints = .ok g ↔
      shamirErrorCorrectMemoized plainStore memo sharing degree maxErrors = .ok g := by
  have howners := embeddable_of_reconstructionHints hsorted hhints
  rw [reconstructionHints_new_store hintStore hintedStore] at hhints
  rw [shamirErrorCorrectMemoized_eq, shamirErrorCorrectWithHints_eq howners hhints,
    shamirErrorCorrect_store hintedStore plainStore]

theorem shamirErrorCorrectWithHints_ok_iff_one_error :
    ∃ hints, ReconstructionHints.new (F := GF8) LagrangeStore.empty (onesWithOneError 4) 1 =
        .ok hints ∧
      ∀ g, shamirErrorCorrectWithHints LagrangeStore.empty (onesWithOneError 4) 1 1 hints = .ok g ↔
        shamirErrorCorrectMemoized (F := GF8) LagrangeStore.empty (fun _ => ExceptionalStore.empty)
          (onesWithOneError 4) 1 1 = .ok g := by
  obtain ⟨hints, hhints⟩ := exists_hints_onesWithOneError (show 4 < 8 by norm_num) 1
  exact ⟨hints, hhints, shamirErrorCorrectWithHints_ok_iff _ _ _ _ _ (by decide) 1 1 hints hhints⟩

end ThresholdKms
