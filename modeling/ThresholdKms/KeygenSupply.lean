import ThresholdKms.KeygenFill

/-!
# What the preprocessing delivers

Both ways of filling the store add exactly the planned amounts. For the orchestrator this is an
argument about the bit processor: as long as the batches hold the planned bits, no production is cut
short, since the bits left of a batch are carried over to the next production.
-/

namespace ThresholdKms

open ResourceStore Outcome

def noiseAt (k : NoiseKind) (n : ℕ) (r : Preprocessed) : ℕ :=
  if Preprocessed.noise k = r then n else 0

/-- What a list of noise productions adds to a store. -/
def supplyOf (list : List NoiseInfo) (r : Preprocessed) : ℕ :=
  (list.map fun i => noiseAt i.bound.kind i.amount r).sum

@[simp] theorem noiseAt_zero (k : NoiseKind) (r : Preprocessed) : noiseAt k 0 r = 0 := by
  simp [noiseAt]

theorem noiseAt_add (k : NoiseKind) (m n : ℕ) (r : Preprocessed) :
    noiseAt k (m + n) r = noiseAt k m r + noiseAt k n r := by
  unfold noiseAt
  split_ifs <;> simp

def bitsOf (list : List NoiseInfo) : ℕ := (list.map NoiseInfo.numBitsNeeded).sum

@[simp] theorem supplyOf_nil (r : Preprocessed) : supplyOf [] r = 0 := rfl

@[simp] theorem supplyOf_cons (i : NoiseInfo) (list : List NoiseInfo) (r : Preprocessed) :
    supplyOf (i :: list) r = noiseAt i.bound.kind i.amount r + supplyOf list r := by
  simp [supplyOf]

@[simp] theorem supplyOf_append (xs ys : List NoiseInfo) (r : Preprocessed) :
    supplyOf (xs ++ ys) r = supplyOf xs r + supplyOf ys r := by
  simp [supplyOf]

@[simp] theorem bitsOf_nil : bitsOf [] = 0 := rfl

@[simp] theorem bitsOf_cons (i : NoiseInfo) (list : List NoiseInfo) :
    bitsOf (i :: list) = i.numBitsNeeded + bitsOf list := by
  simp [bitsOf]

/-- The store that the plan of a configuration stands for. -/
def MetaParameters.planned (v : MetaParameters ℕ) (cfg : KeySetConfig) : DkgStore := fun r =>
  supplyOf (v.tuniformProductions cfg) r + (if .bits = r then v.numRawBits cfg else 0) +
    (if .triples = r then v.totalTriplesRequired cfg - v.totalBitsRequired cfg else 0) +
    (if .randoms = r then v.totalRandomnessRequired cfg - v.totalBitsRequired cfg else 0)

section fill

theorem FillState.fillNoises_ok {s out : FillState} {list : List NoiseInfo}
    (h : s.fillNoises list = .ok out) :
    (∀ r, out.store r = s.store r + supplyOf list r) ∧ out.bits + bitsOf list = s.bits := by
  induction list generalizing s with
  | nil =>
    cases h
    simp
  | cons i rest ih =>
    obtain ⟨s', hi, hrest⟩ := bind_eq_ok.mp h
    obtain ⟨hstore, hbits⟩ := ih hrest
    unfold fromNoiseInfo at hi
    split_ifs at hi with hle
    · cases hi
      refine ⟨fun r => ?_, ?_⟩
      · simp only [hstore, add_eq, supplyOf_cons, noiseAt]
        omega
      · rw [bitsOf_cons]
        dsimp only at hbits
        omega
    · cases hi

theorem MetaParameters.dkgFillFromTriplesAndBitPreproc_ok {v : MetaParameters ℕ}
    {cfg : KeySetConfig} {s out : FillState}
    (h : v.dkgFillFromTriplesAndBitPreproc cfg s = .ok out) :
    (∀ r, out.store r = s.store r + v.planned cfg r) ∧
      out.bits + v.totalBitsRequired cfg = s.bits := by
  obtain ⟨s₁, h₁, h⟩ := bind_eq_ok.mp h
  obtain ⟨s₂, h₂, h⟩ := bind_eq_ok.mp h
  obtain ⟨s₃, h₃, h₄⟩ := bind_eq_ok.mp h
  obtain ⟨hstore, hbits⟩ := FillState.fillNoises_ok h₁
  unfold FillState.fillBits at h₂
  unfold FillState.fillTriples at h₃
  unfold FillState.fillRandoms at h₄
  split_ifs at h₂ with hraw
  on_goal 2 => cases h₂
  cases h₂
  split_ifs at h₃ with htriples
  on_goal 2 => cases h₃
  cases h₃
  split_ifs at h₄ with hrandoms
  on_goal 2 => cases h₄
  cases h₄
  refine ⟨fun r => ?_, ?_⟩
  · simp only [add_eq, hstore, planned]
    omega
  · rw [v.totalBitsRequired_eq cfg]
    simp only [bitsOf] at hbits
    dsimp only
    omega

end fill

section orchestrator

theorem divCeil_mul_ge (a b : ℕ) (hb : 0 < b) : a ≤ divCeil a b * b := by
  have h := Nat.div_add_mod a b
  have hlt := Nat.mod_lt a hb
  unfold divCeil
  split_ifs with h0
  · rw [Nat.add_zero, Nat.mul_comm]
    omega
  · rw [Nat.add_mul, Nat.mul_comm (a / b)]
    omega

/-- The batches of a producer group hold at least what was asked for. -/
theorem produce_ok {batchSize totalSize sessions : ℕ} {l : List ℕ}
    (h : produce batchSize totalSize sessions = .ok l) : totalSize ≤ l.sum := by
  unfold produce at h
  split_ifs at h with h0
  · cases h
  · cases h
    have hd := divCeil_mul_ge totalSize (batchSize * sessions) (Nat.pos_of_ne_zero h0)
    rw [List.sum_replicate]
    calc totalSize ≤ divCeil totalSize (batchSize * sessions) * (batchSize * sessions) := hd
      _ = divCeil totalSize (batchSize * sessions) * sessions * batchSize := by ring

theorem aggregate_eq (needed : ℕ) (l : List ℕ) (h : needed ≤ l.sum) :
    aggregate needed l = needed := by
  induction l generalizing needed with
  | nil =>
    simp only [List.sum_nil] at h
    simp only [aggregate]
    omega
  | cons b rest ih =>
    rw [List.sum_cons] at h
    unfold aggregate
    split_ifs with h0
    · omega
    · rw [ih _ (by omega)]
      omega

/-- The noises made of the bits at hand use at most these bits. -/
theorem tuniform_split (bound amount n k : ℕ) (hk : k = min amount (n / (bound + 2))) :
    k * (bound + 2) ≤ n ∧ (amount - k) * (bound + 2) + k * (bound + 2) = amount * (bound + 2) := by
  have h₁ : k * (bound + 2) ≤ n / (bound + 2) * (bound + 2) :=
    Nat.mul_le_mul_right _ (hk ▸ min_le_right _ _)
  have h₂ : k ≤ amount := hk ▸ min_le_left _ _
  refine ⟨h₁.trans (Nat.div_mul_le_self _ _), ?_⟩
  rw [← Nat.add_mul, Nat.sub_add_cancel h₂]

/-- With enough bits ahead a production is completed, and takes its bits and no others. -/
theorem tuniformLoop_eq (bound amount batch : ℕ) (channel : List ℕ)
    (h : amount * (bound + 2) ≤ batch + channel.sum) :
    (tuniformLoop bound amount batch channel).needed = 0 ∧
      (tuniformLoop bound amount batch channel).batch +
        (tuniformLoop bound amount batch channel).channel.sum + amount * (bound + 2) =
          batch + channel.sum := by
  fun_induction tuniformLoop bound amount batch channel with
  | case1 batch channel => simp
  | case2 amount batch h0 hlt =>
    have : 1 * (bound + 2) ≤ amount * (bound + 2) := Nat.mul_le_mul_right _ (by omega)
    simp only [List.sum_nil] at h
    omega
  | case3 amount batch h0 hlt b rest k ih =>
    obtain ⟨h₁, h₂⟩ := tuniform_split bound amount (batch + b) k rfl
    rw [List.sum_cons] at h ⊢
    obtain ⟨h₃, h₄⟩ := ih (by omega)
    exact ⟨h₃, by omega⟩
  | case4 amount batch channel h0 hlt k ih =>
    obtain ⟨h₁, h₂⟩ := tuniform_split bound amount batch k rfl
    obtain ⟨h₃, h₄⟩ := ih (by omega)
    exact ⟨h₃, by omega⟩

theorem rawBitsLoop_eq (needed batch : ℕ) (channel : List ℕ) (h : needed ≤ batch + channel.sum) :
    (rawBitsLoop needed batch channel).needed = 0 := by
  fun_induction rawBitsLoop needed batch channel with
  | case1 batch channel => rfl
  | case2 needed h0 =>
    simp only [List.sum_nil] at h
    omega
  | case3 needed h0 b rest ih =>
    rw [List.sum_cons] at h
    exact ih (by omega)
  | case4 needed batch channel h0 hb ih => exact ih (by omega)

theorem dkgBitProcessor_eq (rawBits batch : ℕ) (channel : List ℕ) (store : DkgStore)
    (list : List NoiseInfo) (h : bitsOf list + rawBits ≤ batch + channel.sum) (r : Preprocessed) :
    dkgBitProcessor rawBits batch channel store list r =
      store r + supplyOf list r + if .bits = r then rawBits else 0 := by
  induction list generalizing batch channel store with
  | nil =>
    rw [bitsOf_nil, Nat.zero_add] at h
    rw [dkgBitProcessor, rawBitsLoop_eq rawBits batch channel h, add_eq]
    simp
  | cons i rest ih =>
    rw [bitsOf_cons, NoiseInfo.numBitsNeeded] at h
    obtain ⟨h₁, h₂⟩ := tuniformLoop_eq i.bound.bound i.amount batch channel (by omega)
    rw [dkgBitProcessor]
    simp only [h₁, if_true, Nat.sub_zero]
    rw [ih _ _ _ (by omega), add_eq, supplyOf_cons, noiseAt]
    omega

namespace MetaParameters

variable {v : MetaParameters ℕ} {cfg : KeySetConfig}

/-- The production left off the list is one of nothing. -/
theorem orchestratedProductions_eq (v : MetaParameters ℕ) (cfg : KeySetConfig) :
    bitsOf (v.orchestratedProductions cfg) = bitsOf (v.tuniformProductions cfg) ∧
      ∀ r, supplyOf (v.orchestratedProductions cfg) r = supplyOf (v.tuniformProductions cfg) r := by
  unfold orchestratedProductions tuniformProductions
  cases cfg with
  | decompressionOnly => simp [snsNoises]
  | standard k =>
    cases hs : v.noiseSquashingParameters with
    | none => simp [snsNoises, hs]
    | some s =>
      cases hc : s.compressionParameters with
      | none =>
        simp [snsNoises, hs, hc, NoiseSquashingParameters.numNeededNoiseSnsCompressionKey,
          NoiseInfo.numBitsNeeded]
      | some c => simp [snsNoises, hs, hc]

variable {sizes : BatchSizes}

theorem orchestrateDkgProcessing_ok {sessions : ℕ} {store out : DkgStore}
    (h : v.orchestrateDkgProcessing cfg sessions sizes store = .ok out) (r : Preprocessed) :
    out r = store r + v.planned cfg r := by
  unfold orchestrateDkgProcessing at h
  split_ifs at h with h0
  · cases h
  · obtain ⟨triples, ht, h⟩ := bind_eq_ok.mp h
    obtain ⟨bits, hb, h⟩ := bind_eq_ok.mp h
    obtain ⟨randoms, hr, h⟩ := bind_eq_ok.mp h
    cases h
    have hbits := produce_ok hb
    rw [v.totalBitsRequired_eq cfg] at hbits
    obtain ⟨hlist, hsupply⟩ := v.orchestratedProductions_eq cfg
    rw [dkgBitProcessor_eq _ _ _ _ _ (by rw [hlist, bitsOf]; omega), add_eq, add_eq,
      aggregate_eq _ _ (produce_ok ht), aggregate_eq _ _ (produce_ok hr), hsupply, planned]
    omega

theorem produce_eq_ok {batchSize sessions : ℕ} (totalSize : ℕ) (hb : 0 < batchSize)
    (hs : 0 < sessions) : ∃ l, produce batchSize totalSize sessions = .ok l := by
  have h0 : batchSize * sessions ≠ 0 := Nat.mul_ne_zero (by omega) (by omega)
  exact ⟨_, if_neg h0⟩

/-- Two sessions and positive batch sizes are all the orchestrator needs. -/
theorem orchestrateDkgProcessing_isOk (v : MetaParameters ℕ) (cfg : KeySetConfig) {sessions : ℕ}
    (store : DkgStore) (hn : 2 ≤ sessions) (ht : 0 < sizes.triples)
    (hb : 0 < sizes.bits) :
    ∃ out, v.orchestrateDkgProcessing cfg sessions sizes store = .ok out := by
  have hbasic : 0 < divCeil sessions 20 ∧ divCeil sessions 20 < sessions := by
    unfold divCeil
    split_ifs <;> omega
  obtain ⟨triples, hT⟩ :=
    produce_eq_ok (v.totalTriplesRequired cfg - v.totalBitsRequired cfg) ht hbasic.1
  obtain ⟨bits, hB⟩ := produce_eq_ok (v.totalBitsRequired cfg) hb (Nat.sub_pos_of_lt hbasic.2)
  have hrand : 0 < v.totalRandomnessRequired cfg - v.totalBitsRequired cfg := by
    unfold totalRandomnessRequired
    omega
  obtain ⟨randoms, hR⟩ :=
    produce_eq_ok (v.totalRandomnessRequired cfg - v.totalBitsRequired cfg) hrand Nat.one_pos
  have h0 : sessions ≠ 0 := by omega
  simp [orchestrateDkgProcessing, h0, hT, hB, hR]

end MetaParameters

end orchestrator

end ThresholdKms
