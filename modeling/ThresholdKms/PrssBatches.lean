import ThresholdKms.PrssRange

/-!
# Batches of pseudorandom shares

Each element of a batch depends on its own counter only, not on the amount of the call nor on the
chunks in which the call computes. Two calls in a row therefore give what one call for both amounts
gives.
-/

namespace ThresholdKms

open GaloisRing Outcome

section Scalar

variable {α : Type} {f : ℕ → Outcome α} {step ctr a b : ℕ}

/-- The elements one by one, and the counter after them. -/
def scalarDraws (f : ℕ → Outcome α) (step ctr amount : ℕ) : Outcome (List α × ℕ) := do
  let values ← (List.range amount).mapM (fun k => f (ctr + step * k))
  let next ← u128Add ctr (step * amount)
  return (values, next)

variable {r : List α × ℕ}

theorem u128Add_bind_eq_ok {values : List α} {amount : ℕ} : (do
    let next ← u128Add ctr amount
    return (values, next)) = .ok r ↔
      values = r.1 ∧ ctr + amount < 2 ^ 128 ∧ r.2 = ctr + amount := by
  rw [bind_eq_ok]
  constructor
  · rintro ⟨next, hnext, h⟩
    cases h
    exact ⟨rfl, u128Add_eq_ok hnext⟩
  · rintro ⟨rfl, hlt, hnext⟩
    exact ⟨_, u128Add_of_lt hlt, by rw [← hnext]; rfl⟩

theorem scalarDraws_eq_ok {amount : ℕ} : scalarDraws f step ctr amount = .ok r ↔
    (List.range amount).mapM (fun k => f (ctr + step * k)) = .ok r.1 ∧
      ctr + step * amount < 2 ^ 128 ∧ r.2 = ctr + step * amount := by
  simp only [scalarDraws, bind_eq_ok (x := List.mapM _ _), u128Add_bind_eq_ok]
  constructor
  · rintro ⟨_, hvalues, rfl, hnext⟩
    exact ⟨hvalues, hnext⟩
  · rintro ⟨hvalues, hnext⟩
    exact ⟨r.1, hvalues, rfl, hnext⟩

theorem scalarDraws_add : scalarDraws f step ctr (a + b) = .ok r ↔
    ∃ r₁ r₂, scalarDraws f step ctr a = .ok r₁ ∧ scalarDraws f step r₁.2 b = .ok r₂ ∧
      r = (r₁.1 ++ r₂.1, r₂.2) := by
  have hnext : ctr + step * (a + b) = ctr + step * a + step * b := by ring
  have hsecond : ∀ k, ctr + step * (a + k) = ctr + step * a + step * k := fun k => by ring
  simp only [scalarDraws_eq_ok, List.range_add, List.mapM_append, List.mapM_map, hnext,
    bind_eq_ok, Function.comp_def, hsecond]
  constructor
  · rintro ⟨⟨l₁, hl₁, l₂, hl₂, hl⟩, hlt, hr⟩
    exact ⟨(l₁, _), (l₂, _), ⟨hl₁, by omega, rfl⟩, ⟨hl₂, hlt, rfl⟩,
      Prod.ext (Except.ok.inj hl).symm hr⟩
  · rintro ⟨r₁, r₂, ⟨hl₁, -, hr₁⟩, ⟨hl₂, hlt, hr₂⟩, rfl⟩
    rw [hr₁] at hl₂ hlt hr₂
    exact ⟨⟨r₁.1, hl₁, r₂.1, hl₂, rfl⟩, hlt, hr₂⟩

end Scalar

variable {z : BaseRing} {e : ExtensionDegree}

/-- A call on the state that the session holds. What it wrote before an error stays written. -/
abbrev PrssCall (z : BaseRing) (e : ExtensionDegree) := EStateM Fault (PRSSState z.bits e)

abbrev Elements (z : BaseRing) (e : ExtensionDegree) := List (GaloisRing z.bits e)

section InPlace

variable {α β : Type} {s s' : PRSSState z.bits e}

theorem PrssCall.bind_run_eq_ok {x : PrssCall z e α} {f : α → PrssCall z e β} {b : β} :
    (x >>= f).run s = .ok b s' ↔ ∃ a s₁, x.run s = .ok a s₁ ∧ (f a).run s₁ = .ok b s' := by
  rw [EStateM.run_bind]
  cases x.run s with
  | ok a s₁ => simp
  | error fault s₁ => simp

/-- The elements are computed first, then the counter is advanced, then the state is written. -/
def nextInPlace (compute : PRSSState z.bits e → Outcome (Elements z e))
    (advance : PRSSCounters → Outcome PRSSCounters) : PrssCall z e (Elements z e) := do
  let s ← get
  let res ← MonadExcept.ofExcept (compute s)
  let counters ← MonadExcept.ofExcept (advance s.counters)
  set { s with counters }
  return res

variable {compute : PRSSState z.bits e → Outcome (Elements z e)}
  {advance : PRSSCounters → Outcome PRSSCounters}

theorem nextInPlace_run : (nextInPlace compute advance).run s =
    match compute s, advance s.counters with
    | .ok res, .ok counters => .ok res { s with counters }
    | .error fault, _ => .error fault s
    | .ok _, .error fault => .error fault s := by
  change EStateM.bind (MonadExcept.ofExcept (compute s)) (fun res =>
    EStateM.bind (MonadExcept.ofExcept (advance s.counters)) (fun counters =>
      EStateM.bind (set { s with counters }) (fun _ => pure res))) s = _
  cases compute s with
  | error fault => rfl
  | ok res =>
    cases advance s.counters with
    | error fault => rfl
    | ok counters => rfl

theorem nextInPlace_run_eq_ok {values : Elements z e} :
    (nextInPlace compute advance).run s = .ok values s' ↔ (do
      let res ← compute s
      let counters ← advance s.counters
      return (res, { s with counters })) = (.ok (values, s') : Outcome _) := by
  rw [nextInPlace_run]
  cases compute s with
  | error fault => simp
  | ok res =>
    cases advance s.counters with
    | error fault => simp
    | ok counters => simp

theorem nextInPlace_run_error {fault : Fault}
    (h : (nextInPlace compute advance).run s = .error fault s') : s' = s := by
  rw [nextInPlace_run] at h
  split at h
  · cases h
  · exact (EStateM.Result.error.inj h).2.symm
  · exact (EStateM.Result.error.inj h).2.symm

end InPlace

/-- A generator: its counter in the state, and the element at a counter. -/
structure Generator (z : BaseRing) (e : ExtensionDegree) where
  step : ℕ
  get : PRSSState z.bits e → ℕ
  set : PRSSState z.bits e → ℕ → PRSSState z.bits e
  element : PRSSState z.bits e → ℕ → Outcome (GaloisRing z.bits e)
  get_set : ∀ s c, get (set s c) = c
  set_set : ∀ s c c', set (set s c) c' = set s c'
  element_set : ∀ s c, element (set s c) = element s

/-- A call succeeds with what the scalar draws of the generator give. -/
def Generator.Draws (g : Generator z e) (amount : ℕ) (next : PrssCall z e (Elements z e)) : Prop :=
  ∀ s values s', next.run s = .ok values s' ↔
    ∃ c, scalarDraws (g.element s) g.step (g.get s) amount = .ok (values, c) ∧ s' = g.set s c

/-- Two calls in a row. -/
def drawTwice (next₁ next₂ : PrssCall z e (Elements z e)) : PrssCall z e (Elements z e) := do
  let values₁ ← next₁
  let values₂ ← next₂
  return values₁ ++ values₂

theorem Generator.drawTwice_run_iff {g : Generator z e} {a b : ℕ}
    {next₁ next₂ next : PrssCall z e (Elements z e)}
    (h₁ : g.Draws a next₁) (h₂ : g.Draws b next₂) (h : g.Draws (a + b) next)
    (s s' : PRSSState z.bits e) (values : Elements z e) :
    (drawTwice next₁ next₂).run s = .ok values s' ↔ next.run s = .ok values s' := by
  rw [h s values s', drawTwice, PrssCall.bind_run_eq_ok]
  constructor
  · rintro ⟨values₁, s₁, hr₁, hr⟩
    obtain ⟨values₂, s₂, hr₂, hr⟩ := PrssCall.bind_run_eq_ok.mp hr
    cases hr
    obtain ⟨c₁, hd₁, hs₁⟩ := (h₁ s values₁ s₁).mp hr₁
    obtain ⟨c₂, hd₂, hs₂⟩ := (h₂ s₁ values₂ s').mp hr₂
    rw [hs₁, g.get_set, g.element_set] at hd₂
    refine ⟨c₂, scalarDraws_add.mpr ⟨_, _, hd₁, hd₂, rfl⟩, ?_⟩
    rw [hs₂, hs₁, g.set_set]
  · rintro ⟨c, hd, hs⟩
    obtain ⟨r₁, r₂, hd₁, hd₂, heq⟩ := scalarDraws_add.mp hd
    obtain ⟨rfl, rfl⟩ := Prod.mk.inj heq
    have hrun₂ : next₂.run (g.set s r₁.2) = .ok r₂.1 s' := by
      refine (h₂ _ _ _).mpr ⟨r₂.2, ?_, by rw [hs, g.set_set]⟩
      rw [g.get_set, g.element_set]
      exact hd₂
    exact ⟨r₁.1, g.set s r₁.2, (h₁ s _ _).mpr ⟨r₁.2, hd₁, rfl⟩,
      PrssCall.bind_run_eq_ok.mpr ⟨r₂.1, s', hrun₂, rfl⟩⟩

theorem nextBatch_eq_ok_iff {δ : Type} {data : Outcome δ}
    {element : δ → ℕ → Outcome (GaloisRing z.bits e)} {ctr amount : ℕ}
    {r : List (GaloisRing z.bits e) × ℕ} : nextBatch data element ctr amount = .ok r ↔
      scalarDraws (fun c => data >>= (element · c)) 1 ctr amount = .ok r := by
  have hcongr : ∀ d, data = .ok d → ctr + amount < 2 ^ 128 → (List.range amount).mapM (fun idx => do
      let elementCtr ← u128Add ctr idx
      element d elementCtr) = (List.range amount).mapM (fun k => data >>= (element · (ctr + k))) := by
    intro d hd hlt
    apply mapM_congr
    intro k hk
    rw [u128Add_of_lt (by have := List.mem_range.mp hk; omega), hd]
    rfl
  simp only [scalarDraws_eq_ok, nextBatch, batchElements, one_mul]
  split_ifs with hzero
  · subst hzero
    rw [ok_bind, u128Add_bind_eq_ok]
    simp
  · constructor
    · intro h
      obtain ⟨values, hvalues, h⟩ := bind_eq_ok.mp h
      obtain ⟨d, hd, hvalues⟩ := bind_eq_ok.mp hvalues
      obtain ⟨rfl, hlt, hr⟩ := u128Add_bind_eq_ok.mp h
      exact ⟨by rw [← hcongr d hd hlt, hvalues], hlt, hr⟩
    · rintro ⟨hvalues, hlt, hr⟩
      obtain ⟨x, hx⟩ := ok_of_mem_mapM hvalues (List.mem_range.mpr (Nat.pos_of_ne_zero hzero))
      obtain ⟨d, hd, -⟩ := bind_eq_ok.mp hx
      rw [← hcongr d hd hlt] at hvalues
      rw [hd, ok_bind, hvalues]
      exact u128Add_bind_eq_ok.mpr ⟨rfl, hlt, hr⟩

variable {r : List (GaloisRing z.bits e) × PRSSState z.bits e}

theorem nextBatch_bind_eq_ok {δ : Type} {data : Outcome δ}
    {element : δ → ℕ → Outcome (GaloisRing z.bits e)} {ctr amount : ℕ}
    (set : ℕ → PRSSState z.bits e) :
    (nextBatch data element ctr amount >>= fun r => (pure (r.1, set r.2) : Outcome _)) = .ok r ↔
      ∃ c, scalarDraws (fun c => data >>= (element · c)) 1 ctr amount = .ok (r.1, c) ∧
        r.2 = set c := by
  rw [bind_eq_ok]
  constructor
  · rintro ⟨r', hr', h⟩
    cases h
    exact ⟨r'.2, nextBatch_eq_ok_iff.mp hr', rfl⟩
  · rintro ⟨c, hc, hs⟩
    exact ⟨(r.1, c), nextBatch_eq_ok_iff.mpr hc, congrArg (fun s => Except.ok (r.1, s)) hs.symm⟩

variable (partyRole : Role)

def prssGenerator : Generator z e where
  step := 1
  get s := s.counters.prssCtr
  set s c := { s with counters := { s.counters with prssCtr := c } }
  element s c := s.prssSetup.sets.zipIdx.mapM (setData "prss.next()" s partyRole) >>=
    (prssElement · c)
  get_set _ _ := rfl
  set_set _ _ _ := rfl
  element_set _ _ := rfl

def przsGenerator (threshold : ℕ) : Generator z e where
  step := 1
  get s := s.counters.przsCtr
  set s c := { s with counters := { s.counters with przsCtr := c } }
  element s c := s.prssSetup.sets.zipIdx.mapM (przsSetData s partyRole threshold) >>=
    (przsElement · c)
  get_set _ _ := rfl
  set_set _ _ _ := rfl
  element_set _ _ := rfl

variable {s s' : PRSSState z.bits e} {values : Elements z e}

def prssNextVecMut (amount : ℕ) : PrssCall z e (Elements z e) :=
  nextInPlace (fun s => batchElements
      (s.prssSetup.sets.zipIdx.mapM (setData "prss.next()" s partyRole)) prssElement
      s.counters.prssCtr amount)
    (fun counters => do
      let prssCtr ← u128Add counters.prssCtr amount
      return { counters with prssCtr })

variable (threshold amount : ℕ)

def przsNextVecMut : PrssCall z e (Elements z e) :=
  nextInPlace (fun s => batchElements
      (s.prssSetup.sets.zipIdx.mapM (przsSetData s partyRole threshold)) przsElement
      s.counters.przsCtr amount)
    (fun counters => do
      let przsCtr ← u128Add counters.przsCtr amount
      return { counters with przsCtr })

def maskNextVecMut (prssGenParMinChunk bd amount : ℕ) : PrssCall z e (Elements z e) :=
  nextInPlace (fun s => do
      let chunks ← maskChunks prssGenParMinChunk s partyRole bd amount
      return chunks.flatten)
    (fun counters => do
      let maskCtr ← u128Add counters.maskCtr (2 * amount)
      return { counters with maskCtr })

theorem prssNextVecMut_run_eq_ok {amount : ℕ} :
    (prssNextVecMut partyRole amount).run s = .ok values s' ↔
      prssNextVec s partyRole amount = .ok (values, s') := by
  rw [prssNextVecMut, nextInPlace_run_eq_ok, prssNextVec, nextBatch]
  simp only [bind_assoc, pure_bind]

theorem przsNextVecMut_run_eq_ok {threshold amount : ℕ} :
    (przsNextVecMut partyRole threshold amount).run s = .ok values s' ↔
      przsNextVec s partyRole threshold amount = .ok (values, s') := by
  rw [przsNextVecMut, nextInPlace_run_eq_ok, przsNextVec, nextBatch]
  simp only [bind_assoc, pure_bind]

theorem maskNextVecMut_run_eq_ok {prssGenParMinChunk bd amount : ℕ} :
    (maskNextVecMut partyRole prssGenParMinChunk bd amount).run s = .ok values s' ↔
      maskNextVec prssGenParMinChunk s partyRole bd amount = .ok (values, s') := by
  rw [maskNextVecMut, nextInPlace_run_eq_ok, maskNextVec]
  simp only [bind_assoc, pure_bind]

theorem draws_prssNextVec (amount : ℕ) :
    (prssGenerator partyRole : Generator z e).Draws amount (prssNextVecMut partyRole amount) :=
  fun s _ _ => (prssNextVecMut_run_eq_ok partyRole).trans
    (nextBatch_bind_eq_ok ((prssGenerator partyRole).set s))

theorem draws_przsNextVec :
    (przsGenerator partyRole threshold : Generator z e).Draws amount
      (przsNextVecMut partyRole threshold amount) :=
  fun s _ _ => (przsNextVecMut_run_eq_ok partyRole).trans
    (nextBatch_bind_eq_ok ((przsGenerator partyRole threshold).set s))

/-- A call that succeeds for at least one mask has found the data of all sets. -/
theorem maskReady_of_maskNextVec {prssGenParMinChunk : ℕ} {s : PRSSState z.bits e} {p : Role}
    {bd amount : ℕ} (hamount : 0 < amount)
    (h : maskNextVec prssGenParMinChunk s p bd amount = .ok r) :
    MaskReady s p (bd * 2 ^ statsec % 2 ^ 128) (s.counters.maskCtr + 2 * amount) := by
  refine ⟨fun set hset => ?_, fun hsets => maskNextVec_bounds hsets hamount h⟩
  obtain ⟨chunks, hchunks, -⟩ := bind_eq_ok.mp h
  have hfirst : 0 < (amount + max prssGenParMinChunk 1 - 1) / max prssGenParMinChunk 1 :=
    Nat.div_pos (by omega) (by omega)
  obtain ⟨out, hout⟩ := ok_of_mem_mapM hchunks (List.mem_range.mpr hfirst)
  obtain ⟨out₁, out₂, hstep⟩ := foldlM_mem_ok hout hset
  obtain ⟨d, hd, -⟩ := bind_eq_ok.mp hstep
  rw [maskData_of_ok hd, hd]

open Classical in
noncomputable def maskGenerator (bd1 : ℕ) : Generator z e where
  step := 2
  get s := s.counters.maskCtr
  set s c := { s with counters := { s.counters with maskCtr := c } }
  element s c := if MaskReady s partyRole bd1 (c + 2) then .ok (maskDraw s partyRole bd1 c) else
    Outcome.err "no mask at this counter"
  get_set _ _ := rfl
  set_set _ _ _ := rfl
  element_set s c := by
    funext c'
    have hready : MaskReady { s with counters := { s.counters with maskCtr := c } } partyRole bd1
        (c' + 2) ↔ MaskReady s partyRole bd1 (c' + 2) :=
      ⟨fun h => ⟨h.data, h.bounds⟩, fun h => ⟨h.data, h.bounds⟩⟩
    simp only [hready]
    rfl

open Classical in
theorem draws_maskNextVec (prssGenParMinChunk : ℕ) (partyRole : Role) (bd amount : ℕ) :
    (maskGenerator partyRole (bd * 2 ^ statsec % 2 ^ 128) : Generator z e).Draws amount
      (maskNextVecMut partyRole prssGenParMinChunk bd amount) := by
  intro s values s'
  simp only [maskNextVecMut_run_eq_ok, scalarDraws_eq_ok, maskGenerator]
  have hvalues : (0 < amount → MaskReady s partyRole (bd * 2 ^ statsec % 2 ^ 128)
      (s.counters.maskCtr + 2 * amount)) → (List.range amount).mapM (fun k =>
        if MaskReady s partyRole (bd * 2 ^ statsec % 2 ^ 128) (s.counters.maskCtr + 2 * k + 2) then
          Except.ok (maskDraw s partyRole (bd * 2 ^ statsec % 2 ^ 128) (s.counters.maskCtr + 2 * k))
        else err "no mask at this counter") = .ok ((List.range amount).map (fun k =>
          maskDraw s partyRole (bd * 2 ^ statsec % 2 ^ 128) (s.counters.maskCtr + 2 * k))) := by
    intro hready
    apply mapM_eq_ok
    intro k hk
    rw [List.mem_range] at hk
    exact if_pos ((hready (by omega)).mono (by omega))
  constructor
  · intro h
    have hready := fun hamount => maskReady_of_maskNextVec hamount h
    obtain ⟨chunks, -, hctr⟩ := bind_eq_ok.mp h
    obtain ⟨c, hctr, -⟩ := bind_eq_ok.mp hctr
    have hlt := (u128Add_eq_ok hctr).1
    rw [maskNextVec_of_ready prssGenParMinChunk hlt hready] at h
    cases h
    exact ⟨_, ⟨hvalues hready, hlt, rfl⟩, rfl⟩
  · rintro ⟨c, ⟨hmapM, hlt, rfl⟩, hr⟩
    -- the last mask is in range, and with it all others
    have hready : 0 < amount → MaskReady s partyRole (bd * 2 ^ statsec % 2 ^ 128)
        (s.counters.maskCtr + 2 * amount) := by
      intro hamount
      obtain ⟨x, hx⟩ := ok_of_mem_mapM hmapM
        (List.mem_range.mpr (show amount - 1 < amount by omega))
      split_ifs at hx with hlast
      · exact hlast.mono (by omega)
      · cases hx
    rw [hvalues hready] at hmapM
    rw [maskNextVec_of_ready prssGenParMinChunk hlt hready, Except.ok.inj hmapM, hr]

/-- Two batches in a row are one batch, whatever the chunk sizes, and a call that fails leaves the
counters as they were. -/
theorem nextVec_batches (s s' : PRSSState z.bits e) (partyRole : Role) (a b threshold bd : ℕ)
    (chunk₁ chunk₂ chunk : ℕ) (values : Elements z e) :
    ((drawTwice (prssNextVecMut partyRole a) (prssNextVecMut partyRole b)).run s = .ok values s' ↔
      (prssNextVecMut partyRole (a + b)).run s = .ok values s') ∧
    ((drawTwice (przsNextVecMut partyRole threshold a)
        (przsNextVecMut partyRole threshold b)).run s = .ok values s' ↔
      (przsNextVecMut partyRole threshold (a + b)).run s = .ok values s') ∧
    ((drawTwice (maskNextVecMut partyRole chunk₁ bd a)
        (maskNextVecMut partyRole chunk₂ bd b)).run s = .ok values s' ↔
      (maskNextVecMut partyRole chunk bd (a + b)).run s = .ok values s') ∧
    ∀ next ∈ [prssNextVecMut partyRole a, przsNextVecMut partyRole threshold a,
        maskNextVecMut partyRole chunk bd a], ∀ fault, next.run s = .error fault s' →
      s'.counters = s.counters := by
  refine ⟨?_, ?_, ?_, fun next hnext fault h => ?_⟩
  · exact Generator.drawTwice_run_iff (draws_prssNextVec _ a) (draws_prssNextVec _ b)
      (draws_prssNextVec _ (a + b)) s s' values
  · exact Generator.drawTwice_run_iff (draws_przsNextVec _ _ a) (draws_przsNextVec _ _ b)
      (draws_przsNextVec _ _ (a + b)) s s' values
  · exact Generator.drawTwice_run_iff (draws_maskNextVec chunk₁ _ bd a)
      (draws_maskNextVec chunk₂ _ bd b) (draws_maskNextVec chunk _ bd (a + b)) s s' values
  · simp only [List.mem_cons, List.not_mem_nil, or_false] at hnext
    rcases hnext with rfl | rfl | rfl
    · rw [nextInPlace_run_error h]
    · rw [nextInPlace_run_error h]
    · rw [nextInPlace_run_error h]

end ThresholdKms
