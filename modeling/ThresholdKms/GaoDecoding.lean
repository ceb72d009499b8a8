import ThresholdKms.EuclideanStage
import ThresholdKms.Lagrange
import ThresholdKms.ReceivedWord

/-!
# Gao decoding

The decoder interpolates the received word, runs the extended Euclidean algorithm on the vanishing
polynomial and the interpolant until the remainder has degree below `(n + k) / 2`, and divides the
remainder by its cofactor. The loop carries fuel and reports `diverge` when it runs out; the
theorems show that it never does.
-/

open Polynomial CoefficientList EuclideanStage ReceivedWord

namespace ThresholdKms

open Outcome

variable {F : Type} [Field F] [DecidableEq F]

def partialXgcdLoop (stop : ℕ) : ℕ → Poly F → Poly F → Poly F → Poly F →
    Outcome (Poly F × Poly F)
  | 0, _, r1, _, t1 => if stop ≤ r1.deg then Outcome.diverge else .ok (r1, t1)
  | fuel + 1, r0, r1, t0, t1 =>
    if stop ≤ r1.deg then do
      let (q, r2) ← Poly.quoRem r0 r1
      let qt ← Poly.mul q t1
      partialXgcdLoop stop fuel r1 r2 t1 (Poly.sub t0 qt)
    else
      .ok (r1, t1)

def partialXgcd (a b : Poly F) (stop : ℕ) : Outcome (Poly F × Poly F) :=
  partialXgcdLoop stop (b.deg + 2) a b Poly.zero Poly.one

/-- The message polynomial is the quotient of the remainder by its cofactor. -/
def divideByLocator (q1 q0 : Poly F) : Outcome (Poly F × Poly F) :=
  if q0.deg = 0 ∧ q0.coef 0 ≠ 0 then do
    let h ← Poly.divScalar q1 (q0.coef 0)
    return (h, Poly.zero)
  else
    Poly.quoRem q1 q0

def tooHighDegree (deg k : ℕ) : Outcome (Poly F) := do
  let bound ← Outcome.usizeSub k 1
  Outcome.err s!"Gao decoding failure: Division result is of too high degree {deg}, but should be at most {bound}."

/-- The checks on the remainder and the cofactor of the Euclidean algorithm. -/
def gaoFinish (k maxErrors : ℕ) (q1 q0 : Poly F) : Outcome (Poly F) :=
  let found := q0.deg
  if maxErrors < found then
    Outcome.err s!"Gao decoding failure: Allowed at most {maxErrors} errors but xgcd factor degree indicates {found}."
  else do
    let (h, rem) ← divideByLocator q1 q0
    if rem.isZero = false then
      -- the source's text goes on with the debug form of the remainder, which the field's library has
      Outcome.err "Gao decoding failure: Division remainder is not zero but "
    else if k ≤ h.deg then
      tooHighDegree h.deg k
    else
      .ok h

def gaoDecodingCommon (n k maxErrors : ℕ) (r g : Poly F) : Outcome (Poly F) :=
  if n + 1 < k then
    Outcome.err "Gao decoding failure: overflow computing d"
  else if n + 1 - k ≤ 2 * maxErrors then
    Outcome.err "Gao decoding failure: expected max number of errors is too large for given code parameters"
  else if r.deg < (n + k) / 2 then
    if k ≤ r.deg then tooHighDegree r.deg k else .ok r
  else do
    let (q1, q0) ← partialXgcd g r ((n + k) / 2)
    gaoFinish k maxErrors q1 q0

def vanishingPoly (points : List F) : Outcome (Poly F) :=
  points.foldlM (fun g xi => Poly.mul g ⟨[-xi, 1]⟩) Poly.one

def gaoDecoding (store : LagrangeStore F) (points values : List F) (k maxErrors : ℕ) :
    Outcome (Poly F) :=
  if values.length ≠ points.length then
    Outcome.err "Gao decoding failure: mismatch between number of values and points"
  else do
    let r ← lagrangeInterpolation store points values
    let g ← vanishingPoly points
    gaoDecodingCommon points.length k maxErrors r g

def gaoDecodingWithFieldHints (points values : List F) (k maxErrors : ℕ)
    (lagrangePolys : List (Poly F)) (vanishing : Poly F) : Outcome (Poly F) :=
  if values.length ≠ points.length then
    Outcome.err "Gao decoding failure: mismatch between number of values and points"
  else do
    let r ← lagrangeInterpolationWithPolys lagrangePolys values
    gaoDecodingCommon points.length k maxErrors r vanishing

/-- The loop stops at the first stage whose remainder has degree below `stop`. -/
theorem partialXgcdLoop_eq_ok {stop : ℕ} (hstop : 1 ≤ stop) {a b : F[X]} (fuel : ℕ)
    (r0 r1 t0 t1 : Poly F) (hstage : Stage a b r0.toPoly r1.toPoly t0.toPoly t1.toPoly)
    (hr0 : stop ≤ r0.toPoly.natDegree) (hfuel : r1.toPoly.natDegree < fuel) :
    ∃ q1 q0 : Poly F, partialXgcdLoop stop fuel r0 r1 t0 t1 = .ok (q1, q0) ∧
      q1.toPoly.natDegree < stop ∧
      ∃ p0 s0, Stage a b p0 q1.toPoly s0 q0.toPoly ∧ stop ≤ p0.natDegree := by
  induction fuel generalizing r0 r1 t0 t1 with
  | zero => omega
  | succ fuel ih =>
    by_cases hdeg : stop ≤ r1.deg
    · have hr1 : r1.toPoly ≠ 0 := by
        intro h0
        rw [Poly.deg_eq_natDegree, h0, natDegree_zero] at hdeg
        omega
      obtain ⟨q, r2, hquo, hdiv, hlt⟩ := Poly.quoRem_eq_ok r0 hr1
      obtain ⟨qt, hmul, hqt⟩ :=
        Poly.mul_eq_ok (a := q) (Or.inr (Poly.coefs_ne_nil hstage.cof_ne_zero))
      have hnext : Stage a b r1.toPoly r2.toPoly t1.toPoly (Poly.sub t0 qt).toPoly := by
        rw [Poly.toPoly_sub, hqt]
        exact hstage.step hdiv hlt
      have hr2 : r2.toPoly.natDegree < fuel := by
        rw [Poly.deg_eq_natDegree] at hdeg
        by_cases h0 : r2.toPoly = 0
        · rw [h0, natDegree_zero]
          omega
        · have := natDegree_lt_natDegree h0 hlt
          omega
      rw [Poly.deg_eq_natDegree] at hdeg
      obtain ⟨q1, q0, hrun, hrest⟩ := ih r1 r2 t1 (Poly.sub t0 qt) hnext hdeg hr2
      refine ⟨q1, q0, ?_, hrest⟩
      rw [partialXgcdLoop, if_pos (by rwa [Poly.deg_eq_natDegree]), hquo]
      simp only [ok_bind, hmul]
      exact hrun
    · refine ⟨r1, t1, if_neg hdeg, ?_, r0.toPoly, t0.toPoly, hstage, hr0⟩
      rw [← Poly.deg_eq_natDegree]
      omega

theorem divideByLocator_eq_ok (q1 : Poly F) {q0 : Poly F} (hq0 : q0.toPoly ≠ 0) :
    ∃ h rem : Poly F, divideByLocator q1 q0 = .ok (h, rem) ∧
      q1.toPoly = h.toPoly * q0.toPoly + rem.toPoly ∧ rem.toPoly.degree < q0.toPoly.degree := by
  unfold divideByLocator
  split_ifs with hconst
  · have hC : q0.toPoly = C (q0.coef 0) := by
      rw [← Poly.coeff_toPoly]
      exact eq_C_of_natDegree_eq_zero (by rw [← Poly.deg_eq_natDegree]; exact hconst.1)
    refine ⟨q1.mulScalar (q0.coef 0)⁻¹, Poly.zero, ?_, ?_, ?_⟩
    · rw [Poly.divScalar_of_ne _ hconst.2]
      rfl
    · rw [Poly.toPoly_mulScalar, hC, Poly.toPoly_zero, add_zero, mul_right_comm, ← C_mul,
        inv_mul_cancel₀ hconst.2, C_1, one_mul]
    · exact bot_lt_iff_ne_bot.mpr (mt degree_eq_bot.mp hq0)
  · exact Poly.quoRem_eq_ok q1 hq0

theorem vanishingPoly_eq_ok (points : List F) :
    ∃ g : Poly F, vanishingPoly points = .ok g ∧
      g.toPoly = (points.map (fun x => X - C x)).prod := by
  obtain ⟨g, hfold, hg⟩ := Poly.foldlM_product Poly.mul_linear_eq_ok points Poly.one
  exact ⟨g, hfold, by rw [hg, Poly.toPoly_one, one_mul]⟩

section Compressed

theorem quoRem_compressed {a b q r : Poly F} (h : Poly.quoRem a b = .ok (q, r)) :
    q.compress = q := by
  by_cases hb : b.deg + 1 = 1 ∧ b.coef 0 = 0
  · rw [Poly.quoRem, if_pos hb] at h
    cases h
  · by_cases ha : a.deg + 1 = 1 ∧ a.coef 0 = 0
    · rw [Poly.quoRem, if_neg hb, if_pos ha] at h
      cases h
      rfl
    · rw [Poly.quoRem, if_neg hb, if_neg ha] at h
      obtain ⟨t, -, ht⟩ := bind_eq_ok.mp h
      cases ht
      exact Poly.compress_fromCoefs _

theorem divScalar_compressed {p q : Poly F} {x : F} (h : Poly.divScalar p x = .ok q) :
    q.compress = q := by
  obtain ⟨coefs, -, hc⟩ := bind_eq_ok.mp h
  cases hc
  exact Poly.compress_fromCoefs _

theorem divideByLocator_compressed {q1 q0 h rem : Poly F}
    (hdiv : divideByLocator q1 q0 = .ok (h, rem)) : h.compress = h := by
  unfold divideByLocator at hdiv
  split_ifs at hdiv with hconst
  · obtain ⟨p, hp, hret⟩ := bind_eq_ok.mp hdiv
    cases hret
    exact divScalar_compressed hp
  · exact quoRem_compressed hdiv

omit [Field F] [DecidableEq F] in
theorem tooHighDegree_ne_ok (deg k : ℕ) (h : Poly F) : tooHighDegree deg k ≠ .ok h := by
  intro hok
  obtain ⟨bound, -, hb⟩ := bind_eq_ok.mp hok
  cases hb

theorem gaoDecodingCommon_compressed {n k e : ℕ} {r g h : Poly F} (hr : r.compress = r)
    (hok : gaoDecodingCommon n k e r g = .ok h) : h.compress = h := by
  unfold gaoDecodingCommon at hok
  split_ifs at hok with h₁ h₂ h₃ h₄
  · cases hok
  · cases hok
  · exact absurd hok (tooHighDegree_ne_ok _ _ h)
  · cases hok
    exact hr
  · obtain ⟨⟨q1, q0⟩, -, hfinish⟩ := bind_eq_ok.mp hok
    simp only [gaoFinish] at hfinish
    split_ifs at hfinish with h₅
    · cases hfinish
    · obtain ⟨⟨p, rem⟩, hdiv, hret⟩ := bind_eq_ok.mp hfinish
      split_ifs at hret with h₆ h₇
      · cases hret
      · exact absurd hret (tooHighDegree_ne_ok _ _ h)
      · cases hret
        exact divideByLocator_compressed hdiv

variable {polys : List (Poly F)}

theorem lagrangeInterpolationWithPolys_compressed {values : List F}
    {r : Poly F} (h : lagrangeInterpolationWithPolys polys values = .ok r) : r.compress = r := by
  unfold lagrangeInterpolationWithPolys at h
  split_ifs at h with hlen
  · cases h
  · cases h
    exact Poly.compress_fromCoefs _

theorem gaoDecodingWithFieldHints_compressed {points values : List F} {k e : ℕ}
    {vanishing h : Poly F}
    (hok : gaoDecodingWithFieldHints points values k e polys vanishing = .ok h) :
    h.compress = h := by
  unfold gaoDecodingWithFieldHints at hok
  split_ifs at hok with hlen
  · cases hok
  · obtain ⟨r, hr, hcommon⟩ := bind_eq_ok.mp hok
    exact gaoDecodingCommon_compressed (lagrangeInterpolationWithPolys_compressed hr) hcommon

end Compressed

/-!
## Gao decoding is a bounded-distance decoder

Any stage of the Euclidean algorithm that straddles the stop bound determines every message within
the correction radius, and a zero remainder bounds the number of errors by the degree of the
cofactor. Both cases of the decoder, the fast path and the Euclidean loop, are instances.
-/

variable {F : Type} [Field F]

noncomputable def nodalOf (w : List (F × F)) : F[X] :=
  ((w.map Prod.fst).map (fun x => X - C x)).prod

theorem degree_nodalOf (w : List (F × F)) : (nodalOf w).degree = w.length := by
  rw [nodalOf, degree_eq_natDegree (monic_map_X_sub_C_prod _).ne_zero, natDegree_map_X_sub_C_prod,
    List.length_map]

theorem natDegree_lt_of_degree_lt {f : F[X]} {k : ℕ} (hk : 1 ≤ k) (hf : f.degree < k) :
    f.natDegree < k := by
  by_cases h0 : f = 0
  · rw [h0, natDegree_zero]
    omega
  · exact (natDegree_lt_iff_degree_lt h0).mpr hf

theorem degree_mul_lt_of_natDegree {p q : F[X]} {n : ℕ} (h : p.natDegree + q.natDegree < n) :
    (p * q).degree < n := by
  refine lt_of_le_of_lt degree_le_natDegree ?_
  exact_mod_cast natDegree_mul_le.trans_lt h

section Stages

variable {w : List (F × F)} {r p0 q1 s0 q0 : F[X]} (hw : (w.map Prod.fst).Nodup)
  (hr : ∀ p ∈ w, r.eval p.1 = p.2) (hstage : Stage (nodalOf w) r p0 q1 s0 q0)
include hw hr hstage

/-- A message within the correction radius is the quotient of the stage. -/
theorem message_of_stage {k e : ℕ} (hk : 1 ≤ k)
    (hlow : q1.natDegree < (w.length + k) / 2) (hhigh : (w.length + k) / 2 ≤ p0.natDegree)
    (he : 2 * e + k ≤ w.length) {f : F[X]} (hf : f.degree < k) (hdis : disagreements w f ≤ e) :
    q1 = f * q0 ∧ q0.natDegree ≤ e := by
  have hW0 : locator w f ≠ 0 := (locator_monic w f).ne_zero
  have hWdeg : (locator w f).natDegree ≤ e := by rwa [natDegree_locator]
  have hfdeg := natDegree_lt_of_degree_lt hk hf
  have hsum := hstage.natDegree_add
  have hn : (nodalOf w).natDegree = w.length :=
    natDegree_eq_of_degree_eq_some (degree_nodalOf w)
  have hfirst : (locator w f * q1).degree < (nodalOf w).degree := by
    rw [degree_nodalOf]
    exact degree_mul_lt_of_natDegree (by omega)
  have hsecond : (q0 * (locator w f * f)).degree < (nodalOf w).degree := by
    rw [degree_nodalOf]
    have hWf : (locator w f * f).natDegree ≤ e + (k - 1) :=
      natDegree_mul_le.trans (by omega)
    exact degree_mul_lt_of_natDegree (by omega)
  obtain ⟨hkey, hdvd⟩ :=
    hstage.key_equation (nodal_dvd_locator_mul_sub hw hr f) hfirst hsecond
  refine ⟨?_, (natDegree_le_of_dvd hdvd hW0).trans hWdeg⟩
  apply mul_left_cancel₀ hW0
  rw [hkey]
  ring

/-- The points in error are roots of the cofactor. -/
theorem disagreements_le_of_stage {h : F[X]} (hdiv : q1 = h * q0) :
    disagreements w h ≤ q0.natDegree := by
  have hsub : ((errors w h).map Prod.fst).Nodup := hw.sublist (List.filter_sublist.map _)
  rw [disagreements, ← List.length_map Prod.fst]
  apply length_le_natDegree hsub hstage.cof_ne_zero
  intro x hx
  obtain ⟨p, hp, rfl⟩ := List.mem_map.mp hx
  obtain ⟨hpw, hne⟩ := mem_errors.mp hp
  obtain ⟨c, hc⟩ := hstage.modulus_dvd
  have hroot : (nodalOf w).eval p.1 = 0 := by
    rw [nodalOf, eval_list_prod, List.map_map, List.map_map]
    exact List.prod_eq_zero (List.mem_map.mpr ⟨p, hpw, by simp⟩)
  have heval : q0.eval p.1 * (p.2 - h.eval p.1) = 0 := by
    have := congrArg (eval p.1) hc
    rw [hdiv, eval_sub, eval_mul, eval_mul, eval_mul, hr p hpw, hroot] at this
    linear_combination this
  rcases mul_eq_zero.mp heval with h0 | h0
  · exact h0
  · exact absurd (sub_eq_zero.mp h0).symm hne

end Stages

variable {points values : List F}

theorem interpolant_spec (hpoints : points.Nodup) (hlen : values.length = points.length) {r : F[X]}
    (hr : r = Lagrange.interpolate Finset.univ points.get
      (fun i => values.get (i.cast hlen.symm))) :
    r.degree < points.length ∧ ∀ p ∈ points.zip values, r.eval p.1 = p.2 := by
  have hinj : Function.Injective points.get := List.nodup_iff_injective_get.mp hpoints
  subst hr
  constructor
  · have := Lagrange.degree_interpolate_lt (s := Finset.univ)
      (fun i => values.get (i.cast hlen.symm)) hinj.injOn
    rwa [Finset.card_univ, Fintype.card_fin] at this
  · intro p hp
    obtain ⟨i, hi, hget⟩ := List.getElem_of_mem hp
    have hi' : i < points.length := by
      rw [List.length_zip] at hi
      omega
    have := Lagrange.eval_interpolate_at_node (fun i => values.get (i.cast hlen.symm))
      hinj.injOn (Finset.mem_univ (⟨i, hi'⟩ : Fin points.length))
    rw [← hget]
    simpa using this

section Outcomes

variable {R : Type} [CommRing R]

/-- What a bounded-distance decoder of radius `e` and dimension `k` may answer on a word. -/
def DecodesWithin (w : List (R × R)) (k e : ℕ) (out : Outcome (Poly R)) : Prop :=
  (∃ h : Poly R, out = .ok h ∧ h.toPoly.degree < k ∧ disagreements w h.toPoly ≤ e) ∨
    ((∃ msg, out = Outcome.err msg) ∧ ∀ f : R[X], f.degree < k → e < disagreements w f)

variable {w : List (R × R)} {k e : ℕ} {out : Outcome (Poly R)}

variable (h : DecodesWithin w k e out)
include h

theorem DecodesWithin.returns : out.Returns := by
  rcases h with ⟨p, rfl, -⟩ | ⟨⟨msg, rfl⟩, -⟩
  · exact returns_ok p
  · exact returns_err msg

theorem DecodesWithin.ok_iff :
    (∃ g, out = .ok g) ↔ ∃ f : R[X], f.degree < k ∧ disagreements w f ≤ e := by
  rcases h with ⟨p, rfl, hdeg, hdis⟩ | ⟨⟨msg, rfl⟩, hnone⟩
  · exact ⟨fun _ => ⟨p.toPoly, hdeg, hdis⟩, fun _ => ⟨p, rfl⟩⟩
  · constructor
    · rintro ⟨g, hg⟩
      cases hg
    · rintro ⟨f, hf, hdis⟩
      exact absurd (hnone f hf) (by omega)

theorem DecodesWithin.of_ok {g : Poly R} (hg : out = .ok g) :
    g.toPoly.degree < k ∧ disagreements w g.toPoly ≤ e := by
  rcases h with ⟨p, hp, hspec⟩ | ⟨⟨msg, hmsg⟩, -⟩
  · rw [hg] at hp
    cases hp
    exact hspec
  · rw [hg] at hmsg
    cases hmsg

theorem DecodesWithin.unique (hw : UnitDifferences (w.map Prod.fst))
    (he : 2 * e + k ≤ w.length) {g : Poly R} (hg : out = .ok g) {f : R[X]} (hf : f.degree < k)
    (hdis : disagreements w f ≤ e) : g.toPoly = f := by
  obtain ⟨hdeg, hle⟩ := h.of_ok hg
  exact eq_of_disagreements hw hdeg hf (by omega)

end Outcomes

theorem eq_of_exact_division {f h q rem : F[X]} (hquo : f * q = h * q + rem)
    (hrem : rem.degree < q.degree) : rem = 0 ∧ h = f := by
  have hdvd : q ∣ rem := ⟨f - h, by linear_combination -hquo⟩
  have hzero : rem = 0 := eq_zero_of_dvd_of_degree_lt hdvd hrem
  rw [hzero, add_zero] at hquo
  exact ⟨hzero, (mul_right_cancel₀ (ne_zero_of_degree_gt hrem) hquo).symm⟩

variable [DecidableEq F]

theorem degree_lt_of_deg_lt {h : Poly F} {k : ℕ} (hk : ¬ k ≤ h.deg) : h.toPoly.degree < k := by
  rw [Poly.deg_eq_natDegree] at hk
  exact lt_of_le_of_lt degree_le_natDegree (by exact_mod_cast Nat.lt_of_not_le hk)

omit [Field F] [DecidableEq F] in
theorem tooHighDegree_eq_err {deg k : ℕ} (hk : 1 ≤ k) :
    ∃ msg, (tooHighDegree deg k : Outcome (Poly F)) = Outcome.err msg := by
  rw [tooHighDegree, usizeSub_of_le hk, ok_bind]
  exact ⟨_, rfl⟩

variable {k e : ℕ}

theorem gaoFinish_decodes {w : List (F × F)} (hw : (w.map Prod.fst).Nodup) {r p0 s0 : F[X]}
    {q1 q0 : Poly F} (hr : ∀ p ∈ w, r.eval p.1 = p.2)
    (hstage : Stage (nodalOf w) r p0 q1.toPoly s0 q0.toPoly) (hk : 1 ≤ k)
    (hmessage : ∀ f : F[X], f.degree < k → disagreements w f ≤ e →
      q1.toPoly = f * q0.toPoly ∧ q0.toPoly.natDegree ≤ e) :
    DecodesWithin w k e (gaoFinish k e q1 q0) := by
  obtain ⟨h, rem, hdivide, hquo, hrem⟩ := divideByLocator_eq_ok q1 hstage.cof_ne_zero
  unfold gaoFinish
  simp only [hdivide, ok_bind]
  rw [Poly.deg_eq_natDegree q0]
  split_ifs with hmax hzero hkdeg
  · refine Or.inr ⟨⟨_, rfl⟩, fun f hf => ?_⟩
    by_contra hdis
    exact absurd (hmessage f hf (by omega)).2 (by omega)
  · refine Or.inr ⟨⟨_, rfl⟩, fun f hf => ?_⟩
    by_contra hdis
    rw [(hmessage f hf (by omega)).1] at hquo
    have := (Poly.isZero_iff rem).mpr (eq_of_exact_division hquo hrem).1
    rw [hzero] at this
    cases this
  · refine Or.inr ⟨tooHighDegree_eq_err hk, fun f hf => ?_⟩
    by_contra hdis
    rw [(hmessage f hf (by omega)).1] at hquo
    rw [Poly.deg_eq_natDegree, (eq_of_exact_division hquo hrem).2] at hkdeg
    exact absurd (natDegree_lt_of_degree_lt hk hf) (by omega)
  · have hrem0 : rem.toPoly = 0 := (Poly.isZero_iff rem).mp (by simpa using hzero)
    rw [hrem0, add_zero] at hquo
    refine Or.inl ⟨h, rfl, degree_lt_of_deg_lt hkdeg, ?_⟩
    have hle := disagreements_le_of_stage hw hr hstage hquo
    omega

theorem gaoDecodingCommon_decodes {w : List (F × F)} (hw : (w.map Prod.fst).Nodup) {r g : Poly F}
    (hg : g.toPoly = nodalOf w) (hrdeg : r.toPoly.degree < w.length)
    (hr : ∀ p ∈ w, r.toPoly.eval p.1 = p.2) (hk : 1 ≤ k) (he : 2 * e + k ≤ w.length) :
    DecodesWithin w k e (gaoDecodingCommon w.length k e r g) := by
  have hstart : Stage (nodalOf w) r.toPoly (nodalOf w) r.toPoly 0 1 :=
    Stage.start (by rwa [degree_nodalOf])
  have hnodal : (nodalOf w).natDegree = w.length :=
    natDegree_eq_of_degree_eq_some (degree_nodalOf w)
  rw [gaoDecodingCommon, if_neg (by omega), if_neg (by omega)]
  split_ifs with hfast hkdeg
  · rw [Poly.deg_eq_natDegree] at hfast
    refine Or.inr ⟨tooHighDegree_eq_err hk, fun f hf => ?_⟩
    by_contra hdis
    obtain ⟨heq, -⟩ := message_of_stage hw hr hstart hk hfast (by omega) he hf (by omega)
    rw [mul_one] at heq
    rw [Poly.deg_eq_natDegree, heq] at hkdeg
    exact absurd (natDegree_lt_of_degree_lt hk hf) (by omega)
  · refine Or.inl ⟨r, rfl, degree_lt_of_deg_lt hkdeg, ?_⟩
    have := disagreements_le_of_stage hw hr hstart (mul_one r.toPoly).symm
    rw [natDegree_one] at this
    omega
  · have hfuel : r.toPoly.natDegree < r.deg + 2 := by
      rw [Poly.deg_eq_natDegree]
      omega
    have hloop : Stage (nodalOf w) r.toPoly g.toPoly r.toPoly Poly.zero.toPoly Poly.one.toPoly := by
      rw [hg, Poly.toPoly_one]
      exact hstart
    have hstop : 1 ≤ (w.length + k) / 2 := by omega
    obtain ⟨q1, q0, hrun, hlow, p0, s0, hstage, hhigh⟩ :=
      partialXgcdLoop_eq_ok hstop (r.deg + 2) g r Poly.zero Poly.one hloop
        (by rw [hg]; omega) hfuel
    rw [partialXgcd, hrun]
    exact gaoFinish_decodes hw hr hstage hk
      (fun f hf hdis => message_of_stage hw hr hstage hk hlow hhigh he hf hdis)

section Points

variable (store : LagrangeStore F) {polys : List (Poly F)} {vanishing : Poly F}

theorem gaoDecoding_eq_withFieldHints
    (hpolys : lagrangePolynomials points = .ok polys)
    (hvanishing : vanishingPoly points = .ok vanishing) :
    gaoDecoding store points values k e =
      gaoDecodingWithFieldHints points values k e polys vanishing := by
  rw [gaoDecoding, lagrangeInterpolation_eq_of_polys store hpolys, hvanishing]
  rfl

variable (hpoints : points.Nodup) (hlen : values.length = points.length)
include hpoints hlen

theorem gaoDecodingWithFieldHints_decodes (hpolys : lagrangePolynomials points = .ok polys)
    (hvanishing : vanishingPoly points = .ok vanishing) (hk : 1 ≤ k)
    (he : 2 * e + k ≤ points.length) :
    DecodesWithin (points.zip values) k e
      (gaoDecodingWithFieldHints points values k e polys vanishing) := by
  obtain ⟨r, hinterp, hr⟩ := lagrangeInterpolationWithPolys_eq_ok hlen hpolys hpoints
  obtain ⟨hdeg, heval⟩ := interpolant_spec hpoints hlen hr
  obtain ⟨g, hgok, hg⟩ := vanishingPoly_eq_ok points
  rw [hvanishing] at hgok
  cases hgok
  have hfst : (points.zip values).map Prod.fst = points :=
    List.map_fst_zip (by omega)
  have hzip : (points.zip values).length = points.length := by
    rw [List.length_zip]
    omega
  rw [gaoDecodingWithFieldHints, if_neg (by omega), hinterp, ← hzip]
  exact gaoDecodingCommon_decodes (by rwa [hfst]) (by rw [hg, nodalOf, hfst])
    (by rwa [hzip]) heval hk (by omega)

theorem gaoDecoding_decodes (hk : 1 ≤ k) (he : 2 * e + k ≤ points.length) :
    DecodesWithin (points.zip values) k e (gaoDecoding store points values k e) := by
  obtain ⟨polys, hpolys, -⟩ := lagrangePolynomials_eq_ok hpoints
  obtain ⟨vanishing, hvanishing, -⟩ := vanishingPoly_eq_ok points
  rw [gaoDecoding_eq_withFieldHints store hpolys hvanishing]
  exact gaoDecodingWithFieldHints_decodes hpoints hlen hpolys hvanishing hk he

/-- Beyond half the distance the decoder refuses. -/
theorem gaoDecoding_of_too_many (he : points.length + 1 - k ≤ 2 * e) :
    ∃ msg, gaoDecoding store points values k e = Outcome.err msg := by
  obtain ⟨polys, hpolys, -⟩ := lagrangePolynomials_eq_ok hpoints
  obtain ⟨vanishing, hvanishing, -⟩ := vanishingPoly_eq_ok points
  obtain ⟨r, hinterp, -⟩ := lagrangeInterpolationWithPolys_eq_ok hlen hpolys hpoints
  rw [gaoDecoding_eq_withFieldHints store hpolys hvanishing, gaoDecodingWithFieldHints,
    if_neg (not_not.mpr hlen), hinterp, ok_bind, gaoDecodingCommon]
  by_cases hk : points.length + 1 < k
  · exact ⟨_, if_pos hk⟩
  · rw [if_neg hk, if_pos he]
    exact ⟨_, rfl⟩

end Points

/-- Gao decoding returns, succeeds exactly on the words within the correction radius, and then
returns the unique message. -/
theorem gaoDecoding_boundedDistance (store : LagrangeStore F) (points values : List F)
    (hpoints : points.Nodup) (hlen : values.length = points.length) (k maxErrors : ℕ)
    (hk : 1 ≤ k) (hmax : 2 * maxErrors < points.length + 1 - k) :
    (gaoDecoding store points values k maxErrors).Returns ∧
      ((∃ h, gaoDecoding store points values k maxErrors = .ok h) ↔
        ∃ f : F[X], f.degree < k ∧ disagreements (points.zip values) f ≤ maxErrors) ∧
      ∀ h, gaoDecoding store points values k maxErrors = .ok h → ∀ f : F[X], f.degree < k →
        disagreements (points.zip values) f ≤ maxErrors → h.toPoly = f := by
  have hdec := gaoDecoding_decodes store hpoints hlen hk (e := maxErrors) (by omega)
  have hfst : (points.zip values).map Prod.fst = points := List.map_fst_zip (by omega)
  have hwdiff : UnitDifferences ((points.zip values).map Prod.fst) := by
    rw [hfst]
    exact (unitDifferences_iff_nodup points).mpr hpoints
  refine ⟨hdec.returns, hdec.ok_iff, fun h hok f hf hdis => ?_⟩
  refine hdec.unique hwdiff ?_ hok hf hdis
  rw [List.length_zip]
  omega

theorem gaoDecoding_corrects_one_error :
    ∃ h, gaoDecoding LagrangeStore.empty [0, 1, 2] [1, 1, (0 : ZMod 3)] 1 1 = .ok h ∧
      h.toPoly = C 1 := by
  have hdeg : (C (1 : ZMod 3)).degree < (1 : ℕ) :=
    lt_of_le_of_lt degree_C_le (by exact_mod_cast Nat.zero_lt_one)
  have hdis : disagreements ([0, 1, 2].zip [1, 1, (0 : ZMod 3)]) (C 1) ≤ 1 := by
    simp [disagreements, errors]
  obtain ⟨-, hiff, huniq⟩ := gaoDecoding_boundedDistance LagrangeStore.empty [0, 1, 2]
    [1, 1, (0 : ZMod 3)] (by decide) rfl 1 1 le_rfl (by decide)
  obtain ⟨h, hok⟩ := hiff.mpr ⟨C 1, hdeg, hdis⟩
  exact ⟨h, hok, huniq h hok _ hdeg hdis⟩

end ThresholdKms
