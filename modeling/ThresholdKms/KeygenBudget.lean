import ThresholdKms.KeygenParameters

/-!
# The budget of a key generation

The noises each key needs, the raw bits of the secret keys, and the totals that the preprocessing
plans for a keyset configuration. The planned bits are the raw bits and the bits of all noises.
Counts are natural numbers; they are those of the source while the planned triples, which bound all
of them, are in the range of `usize`.
-/

namespace ThresholdKms

inductive NoiseKind where
  | lwe
  | lweHat
  | glwe
  | glweSnS
  | compressionKSK
  | snsCompressionKSK
  deriving DecidableEq

structure NoiseBounds where
  kind : NoiseKind
  bound : ℕ
  deriving DecidableEq

structure NoiseInfo where
  amount : ℕ
  bound : NoiseBounds

def NoiseInfo.numBitsNeeded (i : NoiseInfo) : ℕ := i.amount * (i.bound.bound + 2)

inductive KeyGenSecretKeyConfig where
  | generateAll
  | useExisting
  deriving DecidableEq

inductive KeySetConfig where
  | standard (secretKeyConfig : KeyGenSecretKeyConfig)
  | decompressionOnly
  deriving DecidableEq

/-- There is no arm for the noise of the compressed noise-squashing key. -/
def combineNoiseInfo (target : NoiseBounds) (list : List NoiseInfo) : NoiseInfo where
  amount := (list.map fun i =>
    if i.bound.kind = target.kind ∧ target.kind ≠ .snsCompressionKSK then i.amount else 0).sum
  bound := target

namespace NoiseSquashingParameters

variable (s : NoiseSquashingParameters ℕ)

def glweSkNumBitsSns : ℕ := s.polynomialSize * s.glweDimension

def snsCompressionSkNumBits : ℕ :=
  match s.compressionParameters with
  | some c => c.packingKsPolynomialSize * c.packingKsGlweDimension
  | none => 0

def numNeededNoiseSnsCompressionKey : NoiseInfo :=
  match s.compressionParameters with
  | some c =>
    ⟨s.glweDimension * s.polynomialSize * c.packingKsLevel * c.packingKsPolynomialSize,
      ⟨.snsCompressionKSK, c.packingKsKeyNoiseDistribution⟩⟩
  | none => ⟨0, ⟨.snsCompressionKSK, 0⟩⟩

end NoiseSquashingParameters

def ModulusSwitchType.zerosCount : ModulusSwitchType → ℕ
  | .driftTechniqueNoiseReduction n => n
  | .standard => 0
  | .centeredMeanNoiseReduction => 0

namespace MetaParameters

variable (v : MetaParameters ℕ)

def lweDimension : ℕ := v.computeParameters.lweDimension

def lweHatDimension : ℕ :=
  match v.dedicatedCompactPublicKeyParameters with
  | some d => d.encryptionLweDimension
  | none => v.lweDimension

def glweSkNumBits : ℕ := v.computeParameters.polynomialSize * v.computeParameters.glweDimension

def lweBound : NoiseBounds := ⟨.lwe, v.computeParameters.lweNoiseDistribution⟩

def glweBound : NoiseBounds := ⟨.glwe, v.computeParameters.glweNoiseDistribution⟩

def lweHatBound : NoiseBounds :=
  match v.dedicatedCompactPublicKeyParameters with
  | some d => ⟨.lweHat, d.encryptionNoiseDistribution⟩
  | none => ⟨.lweHat, v.computeParameters.lweNoiseDistribution⟩

def rerandParams : Option ShortintKeySwitchingParameters :=
  v.dedicatedCompactPublicKeyParameters.bind (·.reRandomizationParameters)

def usesDerivedRerand : Bool :=
  decide (v.rerandConfiguration = some .derivedCompactPublicKeyWithoutKeySwitch)

def rerandKskReusesPksk : Bool :=
  match v.rerandParams, v.dedicatedCompactPublicKeyParameters with
  | some rerand, some d => decide (rerand = d.kskParams)
  | _, _ => false

def compressionSkNumBits : ℕ :=
  match v.compressionParameters with
  | some c => c.packingKsGlweDimension * c.packingKsPolynomialSize
  | none => 0

section noises

def numNeededNoisePk : NoiseInfo := ⟨v.lweHatDimension, v.lweHatBound⟩

def numNeededNoiseKsk : NoiseInfo :=
  ⟨v.computeParameters.glweDimension * v.computeParameters.polynomialSize *
    v.computeParameters.ksLevel, v.lweBound⟩

def numNeededNoisePksk : NoiseInfo :=
  match v.dedicatedCompactPublicKeyParameters with
  | some d =>
    match d.kskParams.destinationKey with
    | .big => ⟨v.lweHatDimension * d.kskParams.ksLevel, v.glweBound⟩
    | .small => ⟨v.lweHatDimension * d.kskParams.ksLevel, v.lweBound⟩
  | none => ⟨0, v.lweBound⟩

def numNeededNoiseRerandKsk : NoiseInfo :=
  ⟨if v.rerandKskReusesPksk then 0
    else v.lweHatDimension * ((v.rerandParams.map (·.ksLevel)).getD 0), v.glweBound⟩

def numNeededNoiseRerandPk : NoiseInfo :=
  ⟨if v.usesDerivedRerand then v.glweSkNumBits else 0, v.glweBound⟩

def numNeededNoiseBk : NoiseInfo :=
  ⟨v.lweDimension * (v.computeParameters.glweDimension + 1) * v.computeParameters.pbsLevel *
    v.computeParameters.polynomialSize, v.glweBound⟩

def numNeededNoiseMsnrk : NoiseInfo :=
  ⟨v.computeParameters.modulusSwitchNoiseReductionParams.zerosCount, v.lweBound⟩

def numNeededNoiseCompressionKey : NoiseInfo :=
  match v.compressionParameters with
  | some c =>
    ⟨v.computeParameters.glweDimension * v.computeParameters.polynomialSize * c.packingKsLevel *
      c.packingKsPolynomialSize, ⟨.compressionKSK, c.packingKsKeyNoiseDistribution⟩⟩
  | none => ⟨0, ⟨.compressionKSK, 0⟩⟩

def numNeededNoiseDecompressionKey : NoiseInfo :=
  match v.compressionParameters with
  | some c =>
    ⟨c.packingKsPolynomialSize * c.packingKsGlweDimension *
      (v.computeParameters.glweDimension + 1) * v.computeParameters.polynomialSize * c.brLevel,
      v.glweBound⟩
  | none => ⟨0, v.glweBound⟩

def allBkSnsNoise (s : NoiseSquashingParameters ℕ) : NoiseInfo :=
  ⟨v.lweDimension * (s.glweDimension + 1) * s.decompLevelCount * s.polynomialSize,
    ⟨.glweSnS, s.glweNoiseDistribution⟩⟩

def numNeededNoiseMsnrkSns (s : NoiseSquashingParameters ℕ) : NoiseInfo :=
  ⟨s.modulusSwitchNoiseReductionParams.zerosCount, v.lweBound⟩

end noises

variable (cfg : KeySetConfig)

section totals

def lweHatSkNumBitsToSample : ℕ :=
  match v.dedicatedCompactPublicKeyParameters with
  | some _ => v.lweHatDimension
  | none => 0

def regularNumRawBits : KeySetConfig → ℕ
  | .standard .generateAll =>
    v.lweDimension + v.lweHatSkNumBitsToSample + v.lweDimension + v.glweSkNumBits +
      v.compressionSkNumBits
  | .standard .useExisting => v.lweDimension
  | .decompressionOnly => 0

def numRawBits : ℕ :=
  match v.noiseSquashingParameters, cfg with
  | some s, .standard _ =>
    v.regularNumRawBits cfg + (s.glweSkNumBitsSns + s.snsCompressionSkNumBits)
  | _, _ => v.regularNumRawBits cfg

def regularTotalBitsRequired : ℕ :=
  match cfg with
  | .standard _ =>
    v.regularNumRawBits cfg + v.numNeededNoisePk.numBitsNeeded +
      v.numNeededNoiseKsk.numBitsNeeded + v.numNeededNoiseBk.numBitsNeeded +
      v.numNeededNoiseBk.numBitsNeeded + v.numNeededNoisePksk.numBitsNeeded +
      v.numNeededNoiseCompressionKey.numBitsNeeded + v.numNeededNoiseMsnrk.numBitsNeeded +
      v.numNeededNoiseDecompressionKey.numBitsNeeded +
      v.numNeededNoiseRerandKsk.numBitsNeeded + v.numNeededNoiseRerandPk.numBitsNeeded
  | .decompressionOnly =>
    v.regularNumRawBits cfg + v.numNeededNoiseDecompressionKey.numBitsNeeded

def totalBitsRequired : ℕ :=
  match v.noiseSquashingParameters, cfg with
  | some s, .standard _ =>
    v.regularTotalBitsRequired cfg + s.glweSkNumBitsSns + (v.allBkSnsNoise s).numBitsNeeded +
      (v.numNeededNoiseMsnrkSns s).numBitsNeeded +
      s.numNeededNoiseSnsCompressionKey.numBitsNeeded + s.snsCompressionSkNumBits
  | _, _ => v.regularTotalBitsRequired cfg

def totalTriplesRequired : ℕ :=
  let compressionBkTriples := match v.compressionParameters with
    | some c => v.glweSkNumBits * (c.packingKsGlweDimension * c.packingKsPolynomialSize)
    | none => 0
  let triples := match cfg, v.noiseSquashingParameters with
    | .standard _, some s => v.lweDimension * (2 * v.glweSkNumBits + s.glweSkNumBitsSns)
    | .standard _, none => 2 * v.lweDimension * v.glweSkNumBits
    | .decompressionOnly, _ => 0
  v.totalBitsRequired cfg + (triples + compressionBkTriples)

def totalRandomnessRequired : ℕ := v.totalBitsRequired cfg + 1

def allLweNoise : KeySetConfig → NoiseInfo
  | .standard _ =>
    let regular := combineNoiseInfo v.numNeededNoiseKsk.bound
      [v.numNeededNoiseKsk, v.numNeededNoisePksk, v.numNeededNoiseMsnrk]
    match v.noiseSquashingParameters with
    | some s => combineNoiseInfo regular.bound [regular, v.numNeededNoiseMsnrkSns s]
    | none => regular
  | .decompressionOnly => ⟨0, v.lweBound⟩

def allLweHatNoise : KeySetConfig → NoiseInfo
  | .standard _ => v.numNeededNoisePk
  | .decompressionOnly => ⟨0, v.lweHatBound⟩

def allGlweNoise : KeySetConfig → NoiseInfo
  | .standard _ =>
    combineNoiseInfo v.numNeededNoiseBk.bound
      [v.numNeededNoiseBk, v.numNeededNoiseBk, v.numNeededNoisePksk,
        v.numNeededNoiseDecompressionKey, v.numNeededNoiseRerandKsk, v.numNeededNoiseRerandPk]
  | .decompressionOnly =>
    combineNoiseInfo v.numNeededNoiseBk.bound [v.numNeededNoiseDecompressionKey]

def allCompressionKskNoise : KeySetConfig → NoiseInfo
  | .standard _ => v.numNeededNoiseCompressionKey
  | .decompressionOnly => ⟨0, ⟨.compressionKSK, 0⟩⟩

/-- The noises of the noise-squashing keys. -/
def snsNoises : KeySetConfig → List NoiseInfo
  | .standard _ =>
    match v.noiseSquashingParameters with
    | some s => [v.allBkSnsNoise s, s.numNeededNoiseSnsCompressionKey]
    | none => []
  | .decompressionOnly => []

/-- Everything the preprocessing turns bits into, in its order. -/
def tuniformProductions : List NoiseInfo :=
  [v.allLweNoise cfg, v.allGlweNoise cfg, v.allCompressionKskNoise cfg] ++ v.snsNoises cfg ++
    [v.allLweHatNoise cfg]

end totals

section planned

theorem numNeededNoisePksk_bound :
    v.numNeededNoisePksk.bound = v.lweBound ∨ v.numNeededNoisePksk.bound = v.glweBound := by
  unfold numNeededNoisePksk
  split
  · split
    · exact .inr rfl
    · exact .inl rfl
  · exact .inl rfl

@[simp] theorem numNeededNoiseDecompressionKey_bound :
    v.numNeededNoiseDecompressionKey.bound = v.glweBound := by
  unfold numNeededNoiseDecompressionKey
  split <;> rfl

variable (k : KeyGenSecretKeyConfig)

theorem allLweNoise_standard :
    v.allLweNoise (.standard k) = ⟨v.numNeededNoiseKsk.amount +
        (if v.numNeededNoisePksk.bound.kind = .lwe then v.numNeededNoisePksk.amount else 0) +
        v.numNeededNoiseMsnrk.amount +
        (v.noiseSquashingParameters.elim 0 fun s => (v.numNeededNoiseMsnrkSns s).amount),
        v.lweBound⟩ := by
  cases hs : v.noiseSquashingParameters with
  | none =>
    simp [allLweNoise, hs, combineNoiseInfo, numNeededNoiseKsk, numNeededNoiseMsnrk, lweBound]
    omega
  | some s =>
    simp [allLweNoise, hs, combineNoiseInfo, numNeededNoiseKsk, numNeededNoiseMsnrk,
      numNeededNoiseMsnrkSns, lweBound]
    omega

theorem allGlweNoise_standard :
    v.allGlweNoise (.standard k) = ⟨2 * v.numNeededNoiseBk.amount +
        (if v.numNeededNoisePksk.bound.kind = .glwe then v.numNeededNoisePksk.amount else 0) +
        v.numNeededNoiseDecompressionKey.amount + v.numNeededNoiseRerandKsk.amount +
        v.numNeededNoiseRerandPk.amount, v.glweBound⟩ := by
  simp [allGlweNoise, combineNoiseInfo, numNeededNoiseBk, numNeededNoiseRerandKsk,
    numNeededNoiseRerandPk, glweBound]
  omega

theorem allGlweNoise_decompressionOnly :
    v.allGlweNoise .decompressionOnly = v.numNeededNoiseDecompressionKey := by
  have h := v.numNeededNoiseDecompressionKey_bound
  cases hd : v.numNeededNoiseDecompressionKey with
  | mk amount bound =>
    rw [hd] at h
    simp only at h
    simp [allGlweNoise, combineNoiseInfo, numNeededNoiseBk, hd, h, glweBound]

/-- The noise of the public key-switching key is counted with the kind its destination key has. -/
theorem pksk_bits :
    v.numNeededNoisePksk.numBitsNeeded =
      (if v.numNeededNoisePksk.bound.kind = .lwe then v.numNeededNoisePksk.amount else 0) *
          (v.lweBound.bound + 2) +
        (if v.numNeededNoisePksk.bound.kind = .glwe then v.numNeededNoisePksk.amount else 0) *
          (v.glweBound.bound + 2) := by
  rcases v.numNeededNoisePksk_bound with h | h
  · simp [NoiseInfo.numBitsNeeded, h, lweBound]
  · simp [NoiseInfo.numBitsNeeded, h, glweBound]

theorem decompressionKey_bits :
    v.numNeededNoiseDecompressionKey.numBitsNeeded =
      v.numNeededNoiseDecompressionKey.amount * (v.glweBound.bound + 2) := by
  rw [NoiseInfo.numBitsNeeded, numNeededNoiseDecompressionKey_bound]

/-- The noises planned for the regular keys, without those of noise squashing. -/
theorem regularTotalBitsRequired_eq :
    v.regularTotalBitsRequired (.standard k) +
        (v.noiseSquashingParameters.elim 0 fun s => (v.numNeededNoiseMsnrkSns s).numBitsNeeded) =
      v.regularNumRawBits (.standard k) + ((v.allLweNoise (.standard k)).numBitsNeeded +
        (v.allGlweNoise (.standard k)).numBitsNeeded +
        (v.allCompressionKskNoise (.standard k)).numBitsNeeded +
        (v.allLweHatNoise (.standard k)).numBitsNeeded) := by
  have hsns : (v.noiseSquashingParameters.elim 0 fun s =>
      (v.numNeededNoiseMsnrkSns s).numBitsNeeded) =
        (v.noiseSquashingParameters.elim 0 fun s => (v.numNeededNoiseMsnrkSns s).amount) *
          (v.lweBound.bound + 2) := by
    cases v.noiseSquashingParameters with
    | none => simp
    | some s => rfl
  rw [regularTotalBitsRequired, hsns, v.pksk_bits, v.decompressionKey_bits,
    v.allLweNoise_standard, v.allGlweNoise_standard]
  simp only [NoiseInfo.numBitsNeeded, numNeededNoiseKsk, numNeededNoiseBk, numNeededNoiseMsnrk,
    numNeededNoiseRerandKsk, numNeededNoiseRerandPk, allCompressionKskNoise, allLweHatNoise]
  ring

/-- The planned bits are the raw bits and the bits of all noises. -/
theorem totalBitsRequired_eq :
    v.totalBitsRequired cfg =
      v.numRawBits cfg + ((v.tuniformProductions cfg).map NoiseInfo.numBitsNeeded).sum := by
  cases cfg with
  | decompressionOnly =>
    simp [totalBitsRequired, numRawBits, regularTotalBitsRequired, tuniformProductions, snsNoises,
      allLweNoise, allCompressionKskNoise, allLweHatNoise, allGlweNoise_decompressionOnly,
      NoiseInfo.numBitsNeeded]
  | standard k =>
    have hregular := v.regularTotalBitsRequired_eq k
    cases hs : v.noiseSquashingParameters with
    | none | some s =>
      simp only [hs, Option.elim] at hregular
      simp [totalBitsRequired, numRawBits, tuniformProductions, snsNoises, hs]
      omega

/-- Nothing that is planned is more than the planned triples. -/
theorem planned_le_totalTriplesRequired :
    v.numRawBits cfg ≤ v.totalTriplesRequired cfg ∧
      ∀ i ∈ v.tuniformProductions cfg, i.numBitsNeeded ≤ v.totalTriplesRequired cfg := by
  have htotal : v.totalBitsRequired cfg ≤ v.totalTriplesRequired cfg := Nat.le_add_right _ _
  rw [totalBitsRequired_eq] at htotal
  refine ⟨(Nat.le_add_right _ _).trans htotal, fun i hi => ?_⟩
  have hsum := List.single_le_sum (fun _ _ => Nat.zero_le _) _
    (List.mem_map_of_mem (f := NoiseInfo.numBitsNeeded) hi)
  omega

end planned

end MetaParameters

end ThresholdKms
