import ThresholdKms.KeygenSupply

/-!
# The plan covers the key generation

The demand of each part of a key generation is bounded by the noises and triples that the plan has
for it; summed up, no configuration asks for more than its plan.
-/

namespace ThresholdKms

open ResourceStore

@[simp] theorem demand_nextNoiseVec (i : NoiseInfo) (rest : List KeygenStep) (r : Preprocessed) :
    demand (nextNoiseVec i :: rest) r = noiseAt i.bound.kind i.amount r + demand rest r := rfl

@[simp] theorem demand_generateCompressedBootstrapKey (glweKey lweKey : ℕ) (i : NoiseInfo)
    (r : Preprocessed) :
    demand (generateCompressedBootstrapKey glweKey lweKey i) r = noiseAt i.bound.kind i.amount r +
        (if .triples = r then lweKey * glweKey else 0) := by
  simp [generateCompressedBootstrapKey]

theorem demand_modSwitch_le (t : ModulusSwitchType) (i : NoiseInfo) (r : Preprocessed) :
    demand (generateCompressedModSwitchNoiseReductionKey t i) r ≤
      noiseAt i.bound.kind i.amount r := by
  cases t <;> simp [generateCompressedModSwitchNoiseReductionKey]

theorem demand_sampleSeed_le {sec bitLength : ℕ} (h : sec ≤ bitLength) (r : Preprocessed) :
    demand (sampleSeed sec bitLength) r ≤ if .randoms = r then 1 else 0 := by
  have hd : divCeil sec bitLength ≤ 1 := by
    unfold divCeil
    rcases Nat.lt_or_eq_of_le h with hlt | heq
    · rw [Nat.div_eq_of_lt hlt]
      split_ifs <;> omega
    · subst heq
      rw [Nat.mod_self, if_pos rfl]
      exact Nat.div_le_of_le_mul (by omega)
  simp only [sampleSeed, demand_draw, demand_nil, Nat.add_zero]
  split_ifs <;> omega

namespace MetaParameters

variable (v : MetaParameters ℕ)

def compressionTriples : ℕ :=
  match v.compressionParameters with
  | some c => v.glweSkNumBits * (c.packingKsGlweDimension * c.packingKsPolynomialSize)
  | none => 0

def snsTriples : ℕ :=
  match v.noiseSquashingParameters with
  | some s => v.lweDimension * s.glweSkNumBitsSns
  | none => 0

theorem triples_standard (k : KeyGenSecretKeyConfig) :
    v.totalTriplesRequired (.standard k) - v.totalBitsRequired (.standard k) =
      2 * (v.lweDimension * v.glweSkNumBits) + v.snsTriples + v.compressionTriples := by
  cases hs : v.noiseSquashingParameters with
  | none | some s =>
    cases hc : v.compressionParameters <;>
      simp only [totalTriplesRequired, compressionTriples, snsTriples, hs, hc,
        Nat.add_sub_cancel_left] <;> ring

theorem triples_decompressionOnly :
    v.totalTriplesRequired .decompressionOnly - v.totalBitsRequired .decompressionOnly =
      v.compressionTriples := by
  cases hc : v.compressionParameters <;>
    simp [totalTriplesRequired, compressionTriples, hc]

section parts

variable {v} {ks : PrivateKeySet} (hm : ks.Matches v) (r : Preprocessed)

include hm

theorem demand_compressionKeys_le :
    demand (v.compressionKeys ks) r ≤
      supplyOf [v.numNeededNoiseCompressionKey, v.numNeededNoiseDecompressionKey] r +
        if .triples = r then v.compressionTriples else 0 := by
  have hk := hm.compression
  unfold compressionKeys compressionTriples
  cases hc : v.compressionParameters with
  | none => simp
  | some c =>
    simp only [privateKeySet, hc, Option.map_some] at hk
    simp only [hk, generateDecompressionKeys, List.cons_append, List.nil_append,
      demand_nextNoiseVec, demand_generateCompressedBootstrapKey, hm.glwe, supplyOf_cons,
      supplyOf_nil, Nat.mul_comm v.glweSkNumBits]
    omega

theorem demand_snsKeys_le (s : NoiseSquashingParameters ℕ)
    (hs : v.noiseSquashingParameters = some s) :
    demand (v.snsKeys ks) r ≤ supplyOf [v.allBkSnsNoise s, v.numNeededNoiseMsnrkSns s] r +
      if .triples = r then v.snsTriples else 0 := by
  have hk := hm.sns
  have hmod := demand_modSwitch_le s.modulusSwitchNoiseReductionParams
    (v.numNeededNoiseMsnrkSns s) r
  simp only [privateKeySet, hs, Option.map_some] at hk
  simp only [snsKeys, snsTriples, hs, hk, hm.lwe, demand_append,
    demand_generateCompressedBootstrapKey, supplyOf_cons, supplyOf_nil]
  omega

theorem demand_oprfKey_le :
    demand (v.oprfKey ks) r ≤ supplyOf [v.numNeededNoiseBk] r +
      if .triples = r then v.lweDimension * v.glweSkNumBits else 0 := by
  unfold oprfKey
  cases ho : ks.oprfSecretKeyShare with
  | none => simp
  | some n =>
    simp only [hm.oprf n ho, hm.glwe, demand_generateCompressedBootstrapKey, supplyOf_cons,
      supplyOf_nil]
    omega

end parts

section parts

variable (r : Preprocessed) (ks : PrivateKeySet)

theorem demand_pksk_le : demand v.pksk r ≤ supplyOf [v.numNeededNoisePksk] r := by
  unfold pksk
  split <;> simp

theorem demand_cpkReRandomization_le :
    demand v.cpkReRandomization r ≤
      supplyOf [v.numNeededNoiseRerandKsk, v.numNeededNoiseRerandPk] r := by
  unfold cpkReRandomization
  by_cases hd : v.usesDerivedRerand = true
  · simp [hd]
  · cases hr : v.rerandParams with
    | none => simp [hd]
    | some rerand =>
      dsimp only
      split_ifs <;> simp

theorem demand_snsCompressionKey_le (s : NoiseSquashingParameters ℕ)
    (hs : v.noiseSquashingParameters = some s) :
    demand (v.snsCompressionKey ks) r ≤ supplyOf [s.numNeededNoiseSnsCompressionKey] r := by
  simp only [snsCompressionKey, hs]
  split <;> simp

end parts

/-- The noises of the noise-squashing keys, key by key. -/
def snsNeeded : List NoiseInfo :=
  match v.noiseSquashingParameters with
  | some s =>
    [v.allBkSnsNoise s, v.numNeededNoiseMsnrkSns s, s.numNeededNoiseSnsCompressionKey]
  | none => []

/-- The noises of the public keys, key by key. -/
def neededNoises : List NoiseInfo :=
  [v.numNeededNoisePk, v.numNeededNoiseCompressionKey, v.numNeededNoiseDecompressionKey,
    v.numNeededNoiseKsk, v.numNeededNoiseBk, v.numNeededNoiseMsnrk] ++ v.snsNeeded ++
  [v.numNeededNoisePksk, v.numNeededNoiseRerandKsk, v.numNeededNoiseRerandPk, v.numNeededNoiseBk]

variable {ks : PrivateKeySet}

theorem demand_snsParts_le (hm : ks.Matches v) (r : Preprocessed) :
    demand (v.snsKeys ks) r + demand (v.snsCompressionKey ks) r ≤
      supplyOf v.snsNeeded r + if .triples = r then v.snsTriples else 0 := by
  cases hs : v.noiseSquashingParameters with
  | none => simp [snsKeys, snsCompressionKey, hs]
  | some s =>
    have h₁ := demand_snsKeys_le hm r s hs
    have h₂ := v.demand_snsCompressionKey_le r ks s hs
    simp only [snsNeeded, hs, supplyOf_cons, supplyOf_nil] at h₁ h₂ ⊢
    omega

theorem demand_generateAllCompressedPublicKeys_le (hm : ks.Matches v)
    (r : Preprocessed) :
    demand (v.generateAllCompressedPublicKeys ks) r ≤ supplyOf v.neededNoises r +
        if .triples = r then
          2 * (v.lweDimension * v.glweSkNumBits) + v.snsTriples + v.compressionTriples
        else 0 := by
  have h₁ := demand_compressionKeys_le hm r
  have h₂ := v.demand_snsParts_le hm r
  have h₃ := v.demand_pksk_le r
  have h₄ := v.demand_cpkReRandomization_le r
  have h₅ := demand_oprfKey_le hm r
  have h₆ := demand_modSwitch_le v.computeParameters.modulusSwitchNoiseReductionParams
    v.numNeededNoiseMsnrk r
  simp only [generateAllCompressedPublicKeys, neededNoises, demand_append, demand_nextNoiseVec,
    demand_nil, demand_generateCompressedBootstrapKey, hm.glwe, hm.lwe, supplyOf_append,
    supplyOf_cons, supplyOf_nil] at h₁ h₂ h₃ h₄ h₅ ⊢
  by_cases ht : Preprocessed.triples = r
  · simp only [if_pos ht] at h₁ h₂ h₅ ⊢
    omega
  · simp only [if_neg ht] at h₁ h₂ h₅ ⊢
    omega

section kinds

@[simp] theorem numNeededNoisePk_kind : v.numNeededNoisePk.bound.kind = .lweHat := by
  unfold numNeededNoisePk lweHatBound
  split <;> rfl

@[simp] theorem numNeededNoiseCompressionKey_kind :
    v.numNeededNoiseCompressionKey.bound.kind = .compressionKSK := by
  unfold numNeededNoiseCompressionKey
  split <;> rfl

variable (s : NoiseSquashingParameters ℕ)

@[simp] theorem numNeededNoiseSnsCompressionKey_kind :
    s.numNeededNoiseSnsCompressionKey.bound.kind = .snsCompressionKSK := by
  unfold NoiseSquashingParameters.numNeededNoiseSnsCompressionKey
  split <;> rfl

@[simp] theorem glweBound_kind : v.glweBound.kind = .glwe := rfl

@[simp] theorem lweBound_kind : v.lweBound.kind = .lwe := rfl

@[simp] theorem numNeededNoiseKsk_bound : v.numNeededNoiseKsk.bound = v.lweBound := rfl

@[simp] theorem numNeededNoiseMsnrk_bound : v.numNeededNoiseMsnrk.bound = v.lweBound := rfl

@[simp] theorem numNeededNoiseBk_bound : v.numNeededNoiseBk.bound = v.glweBound := rfl

@[simp] theorem numNeededNoiseRerandKsk_bound :
    v.numNeededNoiseRerandKsk.bound = v.glweBound := rfl

@[simp] theorem numNeededNoiseRerandPk_bound : v.numNeededNoiseRerandPk.bound = v.glweBound := rfl

@[simp] theorem allBkSnsNoise_kind : (v.allBkSnsNoise s).bound.kind = .glweSnS := rfl

@[simp] theorem numNeededNoiseMsnrkSns_bound :
    (v.numNeededNoiseMsnrkSns s).bound = v.lweBound := rfl

end kinds

/-- Grouped by kind, the noises of the keys are the productions of the plan. -/
theorem supplyOf_neededNoises (k : KeyGenSecretKeyConfig) (r : Preprocessed) :
    supplyOf v.neededNoises r = supplyOf (v.tuniformProductions (.standard k)) r := by
  have hsns : supplyOf v.snsNeeded r = supplyOf (v.snsNoises (.standard k)) r + noiseAt .lwe
        (v.noiseSquashingParameters.elim 0 fun s => (v.numNeededNoiseMsnrkSns s).amount) r := by
    unfold snsNeeded snsNoises
    cases v.noiseSquashingParameters with
    | none => simp
    | some s =>
      simp only [supplyOf_cons, supplyOf_nil, allBkSnsNoise_kind, numNeededNoiseMsnrkSns_bound,
        lweBound_kind, numNeededNoiseSnsCompressionKey_kind, Option.elim]
      omega
  simp only [neededNoises, tuniformProductions, supplyOf_append, supplyOf_cons, supplyOf_nil, hsns,
    allLweNoise_standard, allGlweNoise_standard, allCompressionKskNoise, allLweHatNoise,
    numNeededNoisePk_kind, numNeededNoiseCompressionKey_kind, numNeededNoiseDecompressionKey_bound,
    numNeededNoiseKsk_bound, numNeededNoiseBk_bound, numNeededNoiseMsnrk_bound,
    numNeededNoiseRerandKsk_bound, numNeededNoiseRerandPk_bound, lweBound_kind, glweBound_kind,
    noiseAt_add, Nat.two_mul]
  rcases v.numNeededNoisePksk_bound with hk | hk
  · simp only [hk, lweBound_kind, if_true, reduceCtorEq, if_false, noiseAt_zero]
    omega
  · simp only [hk, glweBound_kind, if_true, reduceCtorEq, if_false, noiseAt_zero]
    omega

end MetaParameters

/-!
## Preprocessing suffices for key generation

For every configuration the plan covers the demand of its key generation, and both ways of filling
the store deliver the plan. So no request of a key generation meets a shortage.
-/

variable (q : Preprocessed)

namespace MetaParameters

variable (v : MetaParameters ℕ)

theorem demand_lweSecretKeys :
    demand v.lweSecretKeys q =
      if .bits = q then v.lweDimension + v.lweHatSkNumBitsToSample else 0 := by
  unfold lweHatSkNumBitsToSample lweSecretKeys
  cases hd : v.dedicatedCompactPublicKeyParameters with
  | none => simp [lweHatDimension, hd]
  | some d =>
    simp only [demand_draw, demand_nil]
    split_ifs <;> omega

theorem demand_compressionSecretKey :
    demand v.compressionSecretKey q = if .bits = q then v.compressionSkNumBits else 0 := by
  unfold compressionSecretKey compressionSkNumBits
  cases v.compressionParameters <;> simp

theorem demand_snsSecretKeys :
    demand v.snsSecretKeys q = if .bits = q then v.noiseSquashingParameters.elim 0 fun s =>
        s.glweSkNumBitsSns + s.snsCompressionSkNumBits else 0 := by
  unfold snsSecretKeys
  cases v.noiseSquashingParameters with
  | none => simp
  | some s =>
    unfold NoiseSquashingParameters.snsCompressionSkNumBits
    cases hc : s.compressionParameters with
    | none => simp [hc]
    | some c =>
      simp only [hc, demand_draw, demand_nil, Option.elim, Nat.mul_comm c.packingKsPolynomialSize]
      split_ifs <;> omega

theorem numRawBits_standard (k : KeyGenSecretKeyConfig) :
    v.numRawBits (.standard k) = v.regularNumRawBits (.standard k) +
      v.noiseSquashingParameters.elim 0 fun s =>
        s.glweSkNumBitsSns + s.snsCompressionSkNumBits := by
  unfold numRawBits
  cases v.noiseSquashingParameters <;> rfl

theorem demand_generatePrivateKeySet :
    demand v.generatePrivateKeySet q =
      if .bits = q then v.numRawBits (.standard .generateAll) else 0 := by
  unfold generatePrivateKeySet
  rw [demand_append, demand_append, demand_append, demand_append, demand_lweSecretKeys,
    demand_compressionSecretKey, demand_snsSecretKeys, numRawBits_standard]
  simp only [demand_draw, demand_nil, regularNumRawBits]
  split_ifs <;> omega

theorem demand_ensureOprfSecretKeyShare_le (ks : PrivateKeySet) (q : Preprocessed) :
    demand (v.ensureOprfSecretKeyShare ks) q ≤
      if .bits = q then v.numRawBits (.standard .useExisting) else 0 := by
  rw [numRawBits_standard]
  unfold ensureOprfSecretKeyShare
  cases ks.oprfSecretKeyShare with
  | some n => simp
  | none =>
    simp only [demand_draw, demand_nil, regularNumRawBits]
    split_ifs <;> omega

theorem privateKeySet_matches : v.privateKeySet.Matches v where
  lwe := rfl
  oprf := fun _ h => (Option.some.inj h).symm
  glwe := rfl
  sns := rfl
  compression := rfl
  snsCompression := rfl

theorem withOprf_matches {ks : PrivateKeySet} (hm : ks.Matches v) : (v.withOprf ks).Matches v where
  lwe := hm.lwe
  oprf := fun n h => by
    cases ho : ks.oprfSecretKeyShare with
    | none =>
      simp only [withOprf, ho, Option.getD_none, Option.some.injEq] at h
      exact h.symm
    | some m =>
      simp only [withOprf, ho, Option.getD_some, Option.some.injEq] at h
      exact h ▸ hm.oprf m ho
  glwe := hm.glwe
  sns := hm.sns
  compression := hm.compression
  snsCompression := hm.snsCompression

end MetaParameters

namespace DKGParams

variable {p : DKGParams} {ring : SharingRing} {v : MetaParameters ℕ} {ks : PrivateKeySet}

theorem randomness_eq (v : MetaParameters ℕ) (cfg : KeySetConfig) :
    v.totalRandomnessRequired cfg - v.totalBitsRequired cfg = 1 :=
  Nat.add_sub_cancel_left _ _

theorem demand_fromExisting_le_parts :
    demand (p.compressedKeygenFromExistingPrivateKeyset ring v ks) q ≤
      demand (sampleSeed p.sec ring.bitLength) q +
        demand (v.generateAllCompressedPublicKeys ks) q := by
  unfold compressedKeygenFromExistingPrivateKeyset
  split_ifs <;> simp

variable (hsec : p.sec ≤ ring.bitLength)
include hsec

/-- Everything of the plan but the raw bits is for the seed and the public keys. -/
theorem demand_fromExisting_le (hm : ks.Matches v) (k : KeyGenSecretKeyConfig) (q : Preprocessed) :
    demand (p.compressedKeygenFromExistingPrivateKeyset ring v ks) q +
        (if .bits = q then v.numRawBits (.standard k) else 0) ≤ v.planned (.standard k) q := by
  have hpub := v.demand_generateAllCompressedPublicKeys_le hm q
  have hseed := demand_sampleSeed_le hsec q
  have hparts : demand (p.compressedKeygenFromExistingPrivateKeyset ring v ks) q ≤ _ :=
    demand_fromExisting_le_parts q
  rw [v.supplyOf_neededNoises k] at hpub
  rw [MetaParameters.planned, v.triples_standard, randomness_eq]
  omega

theorem demand_decompressionKeygen_le (hm : ks.Matches v) (q : Preprocessed) :
    demand (p.decompressionKeygen ring v ks) q ≤ v.planned .decompressionOnly q := by
  have hseed := demand_sampleSeed_le hsec q
  rw [MetaParameters.planned, v.triples_decompressionOnly, randomness_eq,
    MetaParameters.tuniformProductions, supplyOf_append, supplyOf_append, supplyOf_cons,
    supplyOf_cons, v.allGlweNoise_decompressionOnly]
  have hk := hm.compression
  unfold decompressionKeygen distributedDecompressionKeygen
  cases hc : v.compressionParameters with
  | none =>
    simp only [MetaParameters.privateKeySet, hc, Option.map_none] at hk
    simp [hk]
  | some c =>
    simp only [MetaParameters.privateKeySet, hc, Option.map_some] at hk
    simp only [hk, MetaParameters.generateDecompressionKeys, demand_append,
      demand_generateCompressedBootstrapKey, hm.glwe, MetaParameters.compressionTriples, hc,
      Nat.mul_comm v.glweSkNumBits]
    omega

/-- No configuration asks for more than its plan. -/
theorem demand_keygen_le (hm : ks.Matches v) (cfg : KeySetConfig)
    (q : Preprocessed) : demand (p.keygen ring v ks cfg) q ≤ v.planned cfg q := by
  cases cfg with
  | decompressionOnly => exact demand_decompressionKeygen_le hsec hm q
  | standard k =>
    cases k with
    | generateAll =>
      have h := demand_fromExisting_le hsec v.privateKeySet_matches .generateAll q
      rw [keygen, compressedKeygen, demand_append, v.demand_generatePrivateKeySet]
      omega
    | useExisting =>
      have h := demand_fromExisting_le hsec (v.withOprf_matches hm) .useExisting q
      have ho := v.demand_ensureOprfSecretKeyShare_le ks q
      rw [keygen, keygenFromExisting, demand_append]
      omega

omit hsec

variable {cfg : KeySetConfig}

theorem view_of_dkgFill {s out : FillState} (hv : p.view = .ok v)
    (h : p.dkgFill cfg s = .ok out) : v.dkgFillFromTriplesAndBitPreproc cfg s = .ok out := by
  simpa [dkgFill, hv] using h

theorem view_of_orchestrate {sessions : ℕ} {sizes : BatchSizes}
    {store out : DkgStore} (hv : p.view = .ok v)
    (h : p.orchestrate cfg ring sessions sizes store = .ok out) :
    v.orchestrateDkgProcessing cfg sessions sizes store = .ok out := by
  obtain ⟨⟨⟩, _, h⟩ := Outcome.bind_eq_ok.mp h
  simpa [hv] using h

/-- On conformant parameters no request of a key generation fails on a store filled for them, by
either route, and the planned bits are the raw bits and the bits of all noises. The planned triples
bound every count. The accessors can only panic on a dedicated public key without TUniform noise, and
then the filling panics too. -/
theorem keygen_preprocessing_suffices (isValid : DKGParams → Bool) (p : DKGParams)
    (ring : SharingRing) (cfg : KeySetConfig) (hc : p.checkConformance isValid = .ok ())
    (hsec : p.sec ≤ ring.bitLength) :
    ((∃ v, p.view = .ok v) ∨ ∃ d, p.params.dedicatedCompactPublicKeyParameters = some d ∧
      d.encryptionNoiseDistribution = .gaussian) ∧
    ∀ v, p.view = .ok v → v.totalBitsRequired cfg =
        v.numRawBits cfg + ((v.tuniformProductions cfg).map NoiseInfo.numBitsNeeded).sum ∧
      (v.numRawBits cfg ≤ v.totalTriplesRequired cfg ∧
        ∀ i ∈ v.tuniformProductions cfg, i.numBitsNeeded ≤ v.totalTriplesRequired cfg) ∧
      ∀ ks : PrivateKeySet, ks.Matches v → (∀ s out, p.dkgFill cfg s = .ok out →
          out.bits + v.totalBitsRequired cfg = s.bits ∧
          (∀ q, demand (p.keygen ring v ks cfg) q ≤ out.store q) ∧
          NeverShort (p.keygen ring v ks cfg) out.store) ∧
        (∀ sessions sizes store out, p.orchestrate cfg ring sessions sizes store = .ok out →
          (∀ q, demand (p.keygen ring v ks cfg) q ≤ out q) ∧
          NeverShort (p.keygen ring v ks cfg) out) := by
  refine ⟨view_of_checkConformance hc, fun v hv => ⟨v.totalBitsRequired_eq cfg,
    v.planned_le_totalTriplesRequired cfg, fun ks hm => ?_⟩⟩
  refine ⟨fun s out hfill => ?_, fun sessions sizes store out horch => ?_⟩
  · obtain ⟨hstore, hbits⟩ :=
      MetaParameters.dkgFillFromTriplesAndBitPreproc_ok (view_of_dkgFill hv hfill)
    have hdemand : ∀ q, demand (p.keygen ring v ks cfg) q ≤ out.store q := fun q => by
      have := demand_keygen_le hsec hm cfg q
      have := hstore q
      omega
    exact ⟨hbits, hdemand, neverShort_of_demand_le _ _ hdemand⟩
  · have hdemand : ∀ q, demand (p.keygen ring v ks cfg) q ≤ out q := fun q => by
      have := demand_keygen_le hsec hm cfg q
      have := MetaParameters.orchestrateDkgProcessing_ok (view_of_orchestrate hv horch) q
      omega
    exact ⟨hdemand, neverShort_of_demand_le _ _ hdemand⟩

section instances

/-- A small parameter set with every optional group. -/
def smallParameters (δ : Type) (noise : ℕ → δ) : MetaParameters δ where
  computeParameters := ⟨4, 1, 8, 2, 1, noise 3, noise 2, .big, .driftTechniqueNoiseReduction 5⟩
  dedicatedCompactPublicKeyParameters :=
    some ⟨6, noise 4, ⟨2, 3, .small⟩, some ⟨1, 3, .big⟩⟩
  compressionParameters := some ⟨1, 2, 4, 2, noise 1⟩
  noiseSquashingParameters :=
    some ⟨2, 8, 1, noise 5, .standard, some ⟨1, 4, 1, noise 6⟩⟩
  rerandConfiguration := some .legacyDedicatedCompactPublicKeyWithKeySwitch

def smallDkgParams : DKGParams :=
  ⟨.z128, 128, smallParameters DynamicDistribution .tUniform, .classic, .classic, .classic⟩

theorem keygen_preprocessing_suffices_small :
    ∃ out, smallDkgParams.orchestrate (.standard .generateAll) ⟨.z128, 4⟩ 2 ⟨10, 10⟩ (fun _ => 0) =
        .ok out ∧
      NeverShort (smallDkgParams.keygen ⟨.z128, 4⟩ (smallParameters ℕ id)
        (smallParameters ℕ id).privateKeySet (.standard .generateAll)) out := by
  have hv : smallDkgParams.view = .ok (smallParameters ℕ id) := rfl
  obtain ⟨out, hout⟩ := (smallParameters ℕ id).orchestrateDkgProcessing_isOk
    (.standard .generateAll) (fun _ => 0) (le_refl 2)
    (show 0 < (⟨10, 10⟩ : BatchSizes).triples by decide)
    (show 0 < (⟨10, 10⟩ : BatchSizes).bits by decide)
  have horch : smallDkgParams.orchestrate (.standard .generateAll) ⟨.z128, 4⟩ 2 ⟨10, 10⟩
      (fun _ => 0) = .ok out := by
    unfold orchestrate
    exact hout
  have h := keygen_preprocessing_suffices (fun _ => true) smallDkgParams ⟨.z128, 4⟩
    (.standard .generateAll) rfl (by decide)
  exact ⟨out, horch,
    ((h.2 _ hv).2.2 _ (smallParameters ℕ id).privateKeySet_matches).2 _ _ _ _ horch |>.2⟩

end instances

end DKGParams

end ThresholdKms
