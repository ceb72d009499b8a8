import ThresholdKms.KeygenBudget
import ThresholdKms.ResourceStore

/-!
# What a key generation draws

Key generation as the sequence of its calls of `next_random_vec`, `next_bit_vec`, `next_triple_vec`
and `next_noise_vec`, and of the errors and panics that end it early. A private keyset is modelled
by the lengths of its key shares, which is all the requests depend on.
-/

namespace ThresholdKms

open ResourceStore

inductive Preprocessed where
  | triples
  | randoms
  | bits
  | noise (kind : NoiseKind)
  deriving DecidableEq

abbrev DkgStore := Preprocessed → ℕ

abbrev KeygenStep := Step Preprocessed Fault

structure PrivateKeySet where
  lweEncryptionSecretKeyShare : ℕ
  lweSecretKeyShare : ℕ
  oprfSecretKeyShare : Option ℕ
  glweSecretKeyShare : ℕ
  glweSecretKeyShareSns : Option ℕ
  glweSecretKeyShareCompression : Option ℕ
  glweSecretKeyShareSnsCompression : Option ℕ

def nextNoiseVec (i : NoiseInfo) : KeygenStep := .draw (.noise i.bound.kind) i.amount

def divCeil (a b : ℕ) : ℕ := a / b + if a % b = 0 then 0 else 1

def sampleSeed (sec bitLength : ℕ) : List KeygenStep := [.draw .randoms (divCeil sec bitLength)]

/-- The noise of the key, and a triple for each product of a bit of the input key with a bit of the
output key. -/
def generateCompressedBootstrapKey (glweKey lweKey : ℕ) (noise : NoiseInfo) : List KeygenStep :=
  [nextNoiseVec noise, .draw .triples (lweKey * glweKey)]

def generateCompressedModSwitchNoiseReductionKey (t : ModulusSwitchType) (noise : NoiseInfo) :
    List KeygenStep :=
  match t with
  | .driftTechniqueNoiseReduction _ => [nextNoiseVec noise]
  | .standard => []
  | .centeredMeanNoiseReduction => []

namespace MetaParameters

variable (v : MetaParameters ℕ)

/-- The keyset that `generatePrivateKeySet` returns. -/
def privateKeySet : PrivateKeySet where
  lweEncryptionSecretKeyShare := v.lweHatDimension
  lweSecretKeyShare := v.lweDimension
  oprfSecretKeyShare := some v.lweDimension
  glweSecretKeyShare := v.glweSkNumBits
  glweSecretKeyShareSns := v.noiseSquashingParameters.map (·.glweSkNumBitsSns)
  glweSecretKeyShareCompression := v.compressionParameters.map fun c =>
    c.packingKsGlweDimension * c.packingKsPolynomialSize
  glweSecretKeyShareSnsCompression :=
    (v.noiseSquashingParameters.bind (·.compressionParameters)).map fun c =>
      c.packingKsGlweDimension * c.packingKsPolynomialSize

/-- Without a dedicated public key the LWE key is a copy of the encryption key. -/
def lweSecretKeys : List KeygenStep :=
  match v.dedicatedCompactPublicKeyParameters with
  | some _ => [.draw .bits v.lweHatDimension, .draw .bits v.lweDimension]
  | none => [.draw .bits v.lweHatDimension]

def compressionSecretKey : List KeygenStep :=
  match v.compressionParameters with
  | some c => [.draw .bits (c.packingKsGlweDimension * c.packingKsPolynomialSize)]
  | none => []

def snsSecretKeys : List KeygenStep :=
  match v.noiseSquashingParameters with
  | some s =>
    match s.compressionParameters with
    | some c =>
      [.draw .bits s.glweSkNumBitsSns,
        .draw .bits (c.packingKsGlweDimension * c.packingKsPolynomialSize)]
    | none => [.draw .bits s.glweSkNumBitsSns]
  | none => []

def generatePrivateKeySet : List KeygenStep :=
  v.lweSecretKeys ++ [.draw .bits v.glweSkNumBits] ++ v.compressionSecretKey ++ v.snsSecretKeys ++
    [.draw .bits v.lweDimension]

def ensureOprfSecretKeyShare (ks : PrivateKeySet) : List KeygenStep :=
  match ks.oprfSecretKeyShare with
  | some _ => []
  | none => [.draw .bits v.lweDimension]

def withOprf (ks : PrivateKeySet) : PrivateKeySet :=
  { ks with oprfSecretKeyShare := some (ks.oprfSecretKeyShare.getD v.lweDimension) }

section publicKeys

variable (ks : PrivateKeySet)

def generateDecompressionKeys (compressionKey : ℕ) : List KeygenStep :=
  generateCompressedBootstrapKey ks.glweSecretKeyShare compressionKey
    v.numNeededNoiseDecompressionKey

def compressionKeys : List KeygenStep :=
  match v.compressionParameters, ks.glweSecretKeyShareCompression with
  | some _, some key =>
    [nextNoiseVec v.numNeededNoiseCompressionKey] ++ v.generateDecompressionKeys ks key
  | some _, none => [.stop (.err "compression parameters exist but not compression key")]
  | none, _ => []

def snsKeys : List KeygenStep :=
  match v.noiseSquashingParameters, ks.glweSecretKeyShareSns with
  | some s, some key =>
    generateCompressedBootstrapKey key ks.lweSecretKeyShare (v.allBkSnsNoise s) ++
      generateCompressedModSwitchNoiseReductionKey s.modulusSwitchNoiseReductionParams
        (v.numNeededNoiseMsnrkSns s)
  | some _, none => [.stop (.panic "called `Option::unwrap()` on a `None` value")]
  | none, _ => []

def pksk : List KeygenStep :=
  match v.dedicatedCompactPublicKeyParameters with
  | some _ => [nextNoiseVec v.numNeededNoisePksk]
  | none => []

/-- The code also has an arm for re-randomization parameters without a public key-switching key;
both are read from the dedicated public key, so it is never taken. -/
def cpkReRandomization : List KeygenStep :=
  if v.usesDerivedRerand then [nextNoiseVec v.numNeededNoiseRerandPk]
  else match v.rerandParams with
    | some rerand =>
      if rerand.destinationKey = .big then
        if v.rerandKskReusesPksk then [] else [nextNoiseVec v.numNeededNoiseRerandKsk]
      else [.stop (.panic ("CompactPublicKey re-randomization can only be enabled " ++
        "targeting the large secret key."))]
    | none => []

def snsCompressionKey : List KeygenStep :=
  match v.noiseSquashingParameters with
  | some s =>
    match s.compressionParameters, ks.glweSecretKeyShareSns,
        ks.glweSecretKeyShareSnsCompression with
    | some _, some _, some _ => [nextNoiseVec s.numNeededNoiseSnsCompressionKey]
    | none, _, _ => []
    | _, _, _ => [.stop (.panic "called `Option::unwrap()` on a `None` value")]
  | none => []

def oprfKey : List KeygenStep :=
  match ks.oprfSecretKeyShare with
  | some key => generateCompressedBootstrapKey ks.glweSecretKeyShare key v.numNeededNoiseBk
  | none => [.stop (.err "missing OPRF secret key share")]

def generateAllCompressedPublicKeys : List KeygenStep :=
  [nextNoiseVec v.numNeededNoisePk] ++ v.compressionKeys ks ++ [nextNoiseVec v.numNeededNoiseKsk] ++
  generateCompressedBootstrapKey ks.glweSecretKeyShare ks.lweSecretKeyShare v.numNeededNoiseBk ++
  generateCompressedModSwitchNoiseReductionKey
    v.computeParameters.modulusSwitchNoiseReductionParams v.numNeededNoiseMsnrk ++
  v.snsKeys ks ++ v.pksk ++ v.cpkReRandomization ++ v.snsCompressionKey ks ++ v.oprfKey ks

end publicKeys

end MetaParameters

/-- The sharing ring: an extension of the given degree of `Z64` or `Z128`. -/
structure SharingRing where
  base : DkgMode
  extensionDegree : ℕ

def SharingRing.bitLength (r : SharingRing) : ℕ := r.base.expectedBitLength * r.extensionDegree

namespace DKGParams

variable (p : DKGParams) (r : SharingRing) (v : MetaParameters ℕ)

def compressedKeygenFromExistingPrivateKeyset (ks : PrivateKeySet) :
    List KeygenStep :=
  if r.base.expectedBitLength = 64 ∧ p.supportsSns = true then
    [.stop (.err "Can not generate Switch and Squash key with in Z64")]
  else if r.base.expectedBitLength ≠ p.dkgMode.expectedBitLength then
    [.stop (.err ("Inconsistent parameters: trying to do DKG in Z" ++
      toString r.base.expectedBitLength ++ " with DKGParams in Z" ++
      toString p.dkgMode.expectedBitLength))]
  else sampleSeed p.sec r.bitLength ++ v.generateAllCompressedPublicKeys ks

def compressedKeygen : List KeygenStep :=
  v.generatePrivateKeySet ++
    p.compressedKeygenFromExistingPrivateKeyset r v v.privateKeySet

def keygenFromExisting (ks : PrivateKeySet) : List KeygenStep :=
  v.ensureOprfSecretKeyShare ks ++
    p.compressedKeygenFromExistingPrivateKeyset r v (v.withOprf ks)

def distributedDecompressionKeygen (ks : PrivateKeySet)
    (compressionKey : ℕ) : List KeygenStep :=
  sampleSeed p.sec r.bitLength ++
  (match v.compressionParameters with
    | some _ => v.generateDecompressionKeys ks compressionKey
    | none => [.stop (.err "missing (de)compression parameters")])

def decompressionKeygen (ks : PrivateKeySet) : List KeygenStep :=
  match ks.glweSecretKeyShareCompression with
  | some key => p.distributedDecompressionKeygen r v ks key
  | none => [.stop (.err "missing compression secret key share")]

/-- The key generation of a configuration. `ks` is the stored keyset, which is not read when all
keys are generated. -/
def keygen (ks : PrivateKeySet) : KeySetConfig → List KeygenStep
  | .standard .generateAll => p.compressedKeygen r v
  | .standard .useExisting => p.keygenFromExisting r v ks
  | .decompressionOnly => p.decompressionKeygen r v ks

end DKGParams

/-- The stored key shares have the lengths of the parameters; the OPRF share may be missing. -/
structure PrivateKeySet.Matches (ks : PrivateKeySet) (v : MetaParameters ℕ) : Prop where
  lwe : ks.lweSecretKeyShare = v.lweDimension
  oprf : ∀ n, ks.oprfSecretKeyShare = some n → n = v.lweDimension
  glwe : ks.glweSecretKeyShare = v.glweSkNumBits
  sns : ks.glweSecretKeyShareSns = v.privateKeySet.glweSecretKeyShareSns
  compression : ks.glweSecretKeyShareCompression = v.privateKeySet.glweSecretKeyShareCompression
  snsCompression :
    ks.glweSecretKeyShareSnsCompression = v.privateKeySet.glweSecretKeyShareSnsCompression

/-!
## Filling the preprocessing store of a key generation

The two ways the store is filled. `dkgFillFromTriplesAndBitPreproc` takes everything from a base
preprocessing and a store of bits. The orchestrator runs producers that send batches over channels:
`DkgBitProcessor` turns bits into noises and raw bits, carrying what is left of a batch over to the
next noise, and the aggregators collect triples and randoms. A result of the producers is only
counted, and the channels of a round-robin reader, which all carry the same number of batches, are
one list of batches.
-/

variable (v : MetaParameters ℕ) (cfg : KeySetConfig)

section fill

structure FillState where
  store : DkgStore
  bits : ℕ
  triples : ℕ
  randoms : ℕ

namespace FillState

def fromNoiseInfo (s : FillState) (i : NoiseInfo) : Outcome FillState :=
  if i.numBitsNeeded ≤ s.bits then
    .ok { s with store := add s.store (.noise i.bound.kind) i.amount,
                 bits := s.bits - i.numBitsNeeded }
  else Outcome.err ("Not enough bits to drain, need " ++ toString i.numBitsNeeded ++ ", got " ++
    toString s.bits)

def fillNoises (s : FillState) : List NoiseInfo → Outcome FillState
  | [] => .ok s
  | i :: rest => do
      let s' ← s.fromNoiseInfo i
      s'.fillNoises rest

def fillBits (s : FillState) (n : ℕ) : Outcome FillState :=
  if n ≤ s.bits then .ok { s with store := add s.store .bits n, bits := s.bits - n }
  else Outcome.err ("Not enough bits to drain, need " ++ toString n ++ ", got " ++ toString s.bits)

def fillTriples (s : FillState) (n : ℕ) : Outcome FillState :=
  if n ≤ s.triples then .ok { s with store := add s.store .triples n, triples := s.triples - n }
  else Outcome.err ("Not enough triples to pop " ++ toString n)

def fillRandoms (s : FillState) (n : ℕ) : Outcome FillState :=
  if n ≤ s.randoms then .ok { s with store := add s.store .randoms n, randoms := s.randoms - n }
  else Outcome.err ("Not enough randomness to pop " ++ toString n)

end FillState

/-- The code appends the noises under the kind that their information carries. -/
def MetaParameters.dkgFillFromTriplesAndBitPreproc
    (s : FillState) : Outcome FillState := do
  let s ← s.fillNoises (v.tuniformProductions cfg)
  let s ← s.fillBits (v.numRawBits cfg)
  let s ← s.fillTriples (v.totalTriplesRequired cfg - v.totalBitsRequired cfg)
  s.fillRandoms (v.totalRandomnessRequired cfg - v.totalBitsRequired cfg)

end fill

section orchestrator

/-- A producer group: `sessions` producers that each send `num_loops` batches. -/
def produce (batchSize totalSize sessions : ℕ) : Outcome (List ℕ) :=
  if batchSize * sessions = 0 then Outcome.panic "attempt to divide by zero"
  else .ok (List.replicate (divCeil totalSize (batchSize * sessions) * sessions) batchSize)

/-- How many of the needed elements an aggregator collects. -/
def aggregate (needed : ℕ) : List ℕ → ℕ
  | [] => 0
  | batch :: rest =>
    if needed - min needed batch = 0 then min needed batch
    else min needed batch + aggregate (needed - min needed batch) rest

/-- What is left when the processor stops asking: the noises or raw bits still needed, the rest of
the current batch, and the batches not received. -/
structure BitReader where
  needed : ℕ
  batch : ℕ
  channel : List ℕ

/-- The loop over one noise production. It ends with noises still needed when the channel closes. -/
def tuniformLoop (bound amount batch : ℕ) (channel : List ℕ) : BitReader :=
  if amount = 0 then ⟨0, batch, channel⟩
  else if batch < bound + 2 then
    match channel with
    | [] => ⟨amount, batch, []⟩
    | b :: rest =>
      let k := min amount ((batch + b) / (bound + 2))
      tuniformLoop bound (amount - k) (batch + b - k * (bound + 2)) rest
  else
    let k := min amount (batch / (bound + 2))
    tuniformLoop bound (amount - k) (batch - k * (bound + 2)) channel
termination_by channel.length + amount
decreasing_by
  · calc rest.length + (amount - k)
        ≤ rest.length + amount := Nat.add_le_add_left (Nat.sub_le _ _) _
      _ < (b :: rest).length + amount := by simp
  · have hk : 0 < batch / (bound + 2) := Nat.div_pos (by omega) (by omega)
    omega

def rawBitsLoop (needed batch : ℕ) (channel : List ℕ) : BitReader :=
  if needed = 0 then ⟨0, batch, channel⟩
  else if batch = 0 then
    match channel with
    | [] => ⟨needed, 0, []⟩
    | b :: rest => rawBitsLoop (needed - min needed b) (b - min needed b) rest
  else rawBitsLoop (needed - min needed batch) (batch - min needed batch) channel
termination_by channel.length + needed
decreasing_by
  · simp only [List.length_cons]
    omega
  · omega

/-- The bit processor. When the channel closes early it returns an error that nobody reads, and the
store keeps what was appended until then. -/
def dkgBitProcessor (rawBits batch : ℕ) (channel : List ℕ) (store : DkgStore) :
    List NoiseInfo → DkgStore
  | [] => add store .bits (rawBits - (rawBitsLoop rawBits batch channel).needed)
  | i :: rest =>
    let r := tuniformLoop i.bound.bound i.amount batch channel
    let store' := add store (.noise i.bound.kind) (i.amount - r.needed)
    if r.needed = 0 then dkgBitProcessor rawBits r.batch r.channel store' rest else store'

/-- The compressed noise-squashing key is only on the list when there is one. -/
def MetaParameters.orchestratedProductions :
    List NoiseInfo :=
  [v.allLweNoise cfg, v.allGlweNoise cfg, v.allCompressionKskNoise cfg] ++
  (match cfg, v.noiseSquashingParameters with
    | .standard _, some s =>
      [v.allBkSnsNoise s] ++
      (if s.compressionParameters.isSome then [s.numNeededNoiseSnsCompressionKey] else [])
    | _, _ => []) ++
  [v.allLweHatNoise cfg]

structure BatchSizes where
  triples : ℕ
  bits : ℕ

/-- One in twenty sessions, and at least one, produces triples and randoms; the others produce
bits. -/
def MetaParameters.orchestrateDkgProcessing
    (sessions : ℕ) (sizes : BatchSizes) (store : DkgStore) : Outcome DkgStore :=
  if sessions = 0 then
    Outcome.panic "index out of bounds: the len is 0 but the index is 0"
  else do
    let numBits := v.totalBitsRequired cfg
    let numTriples := v.totalTriplesRequired cfg - numBits
    let numRandomness := v.totalRandomnessRequired cfg - numBits
    let numBasicSessions := divCeil sessions 20
    let tripleBatches ← produce sizes.triples numTriples numBasicSessions
    let bitBatches ← produce sizes.bits numBits (sessions - numBasicSessions)
    let randomBatches ← produce numRandomness numRandomness 1
    let store := add store .triples (aggregate numTriples tripleBatches)
    let store := add store .randoms (aggregate numRandomness randomBatches)
    pure (dkgBitProcessor (v.numRawBits cfg) 0 bitBatches store (v.orchestratedProductions cfg))

end orchestrator

namespace DKGParams

variable (p : DKGParams)

def dkgFill (s : FillState) : Outcome FillState := do
  let v ← p.view
  v.dkgFillFromTriplesAndBitPreproc cfg s

/-- The orchestrators of the two rings refuse parameters of the other one. -/
def newOrchestrator : DkgMode → Outcome Unit
  | .z64 => require (!p.supportsSns) "Cant have SnS with ResiduePolyF8Z64"
  | .z128 => require p.supportsSns "Should not have no SNS with ResiduePolyF8Z128"

def orchestrate (r : SharingRing) (sessions : ℕ) (sizes : BatchSizes) (store : DkgStore) :
    Outcome DkgStore := do
  p.newOrchestrator r.base
  let v ← p.view
  v.orchestrateDkgProcessing cfg sessions sizes store

end DKGParams

end ThresholdKms
