import ThresholdKms.Outcome

/-!
# Parameters of the TFHE key generation

The parameter groups that key generation and its preprocessing read. The groups are generic in what
stands for a noise distribution: the parameters as they are received carry a `DynamicDistribution`,
and the accessors of the code turn it into a TUniform bound or panic. `DKGParams.view` makes these
reads once; everything computed from the parameters is computed on the result. Parameter sets with
secret-key deviations are not modelled.
-/

namespace ThresholdKms

open Outcome

inductive DynamicDistribution where
  | tUniform (boundLog2 : ℕ)
  | gaussian
  deriving DecidableEq

inductive EncryptionKeyChoice where
  | big
  | small
  deriving DecidableEq

inductive ModulusSwitchType where
  | standard
  | driftTechniqueNoiseReduction (modulusSwitchZerosCount : ℕ)
  | centeredMeanNoiseReduction
  deriving DecidableEq

inductive ReRandomizationConfiguration where
  | legacyDedicatedCompactPublicKeyWithKeySwitch
  | derivedCompactPublicKeyWithoutKeySwitch
  deriving DecidableEq

inductive DkgMode where
  | z64
  | z128
  deriving DecidableEq

def DkgMode.expectedBitLength : DkgMode → ℕ
  | .z64 => 64
  | .z128 => 128

structure ClassicPBSParameters (δ : Type) where
  lweDimension : ℕ
  glweDimension : ℕ
  polynomialSize : ℕ
  ksLevel : ℕ
  pbsLevel : ℕ
  lweNoiseDistribution : δ
  glweNoiseDistribution : δ
  encryptionKeyChoice : EncryptionKeyChoice
  modulusSwitchNoiseReductionParams : ModulusSwitchType

structure ShortintKeySwitchingParameters where
  ksLevel : ℕ
  ksBaseLog : ℕ
  destinationKey : EncryptionKeyChoice
  deriving DecidableEq

structure DedicatedCompactPublicKeyParameters (δ : Type) where
  encryptionLweDimension : ℕ
  encryptionNoiseDistribution : δ
  kskParams : ShortintKeySwitchingParameters
  reRandomizationParameters : Option ShortintKeySwitchingParameters

structure ClassicCompressionParameters (δ : Type) where
  brLevel : ℕ
  packingKsLevel : ℕ
  packingKsPolynomialSize : ℕ
  packingKsGlweDimension : ℕ
  packingKsKeyNoiseDistribution : δ

structure NoiseSquashingCompressionParameters (δ : Type) where
  packingKsLevel : ℕ
  packingKsPolynomialSize : ℕ
  packingKsGlweDimension : ℕ
  packingKsKeyNoiseDistribution : δ

structure NoiseSquashingParameters (δ : Type) where
  glweDimension : ℕ
  polynomialSize : ℕ
  decompLevelCount : ℕ
  glweNoiseDistribution : δ
  modulusSwitchNoiseReductionParams : ModulusSwitchType
  compressionParameters : Option (NoiseSquashingCompressionParameters δ)

structure MetaParameters (δ : Type) where
  computeParameters : ClassicPBSParameters δ
  dedicatedCompactPublicKeyParameters : Option (DedicatedCompactPublicKeyParameters δ)
  compressionParameters : Option (ClassicCompressionParameters δ)
  noiseSquashingParameters : Option (NoiseSquashingParameters δ)
  rerandConfiguration : Option ReRandomizationConfiguration

/-- The variant a group comes in. Of a group that is not classic nothing else is read. -/
inductive ParameterVariant where
  | classic
  | other
  deriving DecidableEq

structure DKGParams where
  dkgMode : DkgMode
  sec : ℕ
  params : MetaParameters DynamicDistribution
  computeVariant : ParameterVariant
  compressionVariant : ParameterVariant
  noiseSquashingVariant : ParameterVariant

namespace DynamicDistribution

def isTUniform : DynamicDistribution → Bool
  | .tUniform _ => true
  | .gaussian => false

def tuniformBound (msg : String) : DynamicDistribution → Outcome ℕ
  | .tUniform b => .ok b
  | .gaussian => Outcome.panic msg

end DynamicDistribution

variable (p : DKGParams)

namespace DKGParams

def supportsSns : Bool := p.params.noiseSquashingParameters.isSome

def require (b : Bool) (msg : String) : Outcome Unit := if b then .ok () else Outcome.err msg

def requireTUniform (d : DynamicDistribution) : Outcome Unit :=
  require d.isTUniform "KMS only supports the TUniform noise distribution"

def checkRerand : Outcome Unit :=
  match p.params.rerandConfiguration with
  | some .derivedCompactPublicKeyWithoutKeySwitch =>
    if p.params.computeParameters.encryptionKeyChoice = .big then .ok ()
    else Outcome.err ("Derived re-randomization (DerivedCompactPublicKeyWithoutKeySwitch) " ++
      "requires KS_PBS (Big-key) compute parameters")
  | _ => .ok ()

def checkCompression : Outcome Unit :=
  match p.params.compressionParameters with
  | some c =>
    if p.compressionVariant = .classic then requireTUniform c.packingKsKeyNoiseDistribution
    else Outcome.err "KMS only supports classic compression parameters"
  | none => .ok ()

def checkNoiseSquashing : Outcome Unit :=
  match p.params.noiseSquashingParameters with
  | some s =>
    if p.noiseSquashingVariant = .classic then do
      requireTUniform s.glweNoiseDistribution
      match s.compressionParameters with
      | some c => requireTUniform c.packingKsKeyNoiseDistribution
      | none => .ok ()
    else Outcome.err "KMS only supports classic noise-squashing parameters"
  | none => .ok ()

/-- `isValid` is the library's own test of the parameters. The noise of the dedicated compact public
key is not looked at here. -/
def checkConformance (isValid : DKGParams → Bool) (p : DKGParams) : Outcome Unit := do
  require (isValid p) "MetaParameters are invalid"
  require (!p.supportsSns || decide (p.dkgMode = .z128)) "SnS parameters require Z128 dkg_mode"
  require (decide (p.computeVariant = .classic)) "KMS only supports the classic PBS atomic pattern"
  requireTUniform p.params.computeParameters.lweNoiseDistribution
  requireTUniform p.params.computeParameters.glweNoiseDistribution
  p.checkRerand
  p.checkCompression
  p.checkNoiseSquashing

end DKGParams

section view

def ClassicPBSParameters.view (c : ClassicPBSParameters DynamicDistribution) :
    Outcome (ClassicPBSParameters ℕ) := do
  let lwe ← c.lweNoiseDistribution.tuniformBound "We only support TUniform noise distribution!"
  let glwe ← c.glweNoiseDistribution.tuniformBound "We only support TUniform noise distribution!"
  pure { c with lweNoiseDistribution := lwe, glweNoiseDistribution := glwe }

def DedicatedCompactPublicKeyParameters.view
    (d : DedicatedCompactPublicKeyParameters DynamicDistribution) :
    Outcome (DedicatedCompactPublicKeyParameters ℕ) := do
  let b ← d.encryptionNoiseDistribution.tuniformBound
    "We only support TUniform noise distribution!"
  pure { d with encryptionNoiseDistribution := b }

def ClassicCompressionParameters.view (c : ClassicCompressionParameters DynamicDistribution) :
    Outcome (ClassicCompressionParameters ℕ) := do
  let b ← c.packingKsKeyNoiseDistribution.tuniformBound
    "We do not support non-Tuniform noise distribution"
  pure { c with packingKsKeyNoiseDistribution := b }

def NoiseSquashingCompressionParameters.view
    (c : NoiseSquashingCompressionParameters DynamicDistribution) :
    Outcome (NoiseSquashingCompressionParameters ℕ) := do
  let b ← c.packingKsKeyNoiseDistribution.tuniformBound
    "We do not support non-Tuniform noise distribution"
  pure { c with packingKsKeyNoiseDistribution := b }

def viewOption {α β : Type} (f : α → Outcome β) : Option α → Outcome (Option β)
  | none => .ok none
  | some a => do
      let b ← f a
      pure (some b)

def NoiseSquashingParameters.view (s : NoiseSquashingParameters DynamicDistribution) :
    Outcome (NoiseSquashingParameters ℕ) := do
  let b ← s.glweNoiseDistribution.tuniformBound "we only support tuniform!"
  let c ← viewOption NoiseSquashingCompressionParameters.view s.compressionParameters
  pure { s with glweNoiseDistribution := b, compressionParameters := c }

def requireClassic (v : ParameterVariant) (present : Bool) (msg : String) : Outcome Unit :=
  if present && decide (v ≠ .classic) then Outcome.panic msg else .ok ()

/-- What the accessors read of the parameters, or their panic. -/
def DKGParams.view : Outcome (MetaParameters ℕ) := do
  requireClassic p.computeVariant true "KMS only supports the classic PBS atomic pattern"
  requireClassic p.compressionVariant p.params.compressionParameters.isSome
    "We only support classic compression parameters!"
  requireClassic p.noiseSquashingVariant p.supportsSns
    "We do not support multi bit SnS params yet"
  let compute ← p.params.computeParameters.view
  let dedicated ← viewOption DedicatedCompactPublicKeyParameters.view
    p.params.dedicatedCompactPublicKeyParameters
  let compression ← viewOption ClassicCompressionParameters.view p.params.compressionParameters
  let squashing ← viewOption NoiseSquashingParameters.view p.params.noiseSquashingParameters
  pure ⟨compute, dedicated, compression, squashing, p.params.rerandConfiguration⟩

end view

section conformance

theorem viewOption_ok {α β : Type} {f : α → Outcome β} {o : Option α}
    (h : ∀ a, o = some a → ∃ b, f a = .ok b) : ∃ o', viewOption f o = .ok o' := by
  cases o with
  | none => exact ⟨none, rfl⟩
  | some a =>
    obtain ⟨b, hb⟩ := h a rfl
    exact ⟨some b, by simp [viewOption, hb]⟩

theorem DKGParams.require_eq_ok {b : Bool} {msg : String} (h : require b msg = .ok ()) :
    b = true := by
  cases b with
  | true => rfl
  | false => cases h

theorem tuniformBound_of_require {d : DynamicDistribution}
    (h : DKGParams.requireTUniform d = .ok ()) (msg : String) :
    ∃ b, d.tuniformBound msg = .ok b := by
  have htuniform : d.isTUniform = true := DKGParams.require_eq_ok h
  cases d with
  | tUniform b => exact ⟨b, rfl⟩
  | gaussian => cases htuniform

variable {isValid : DKGParams → Bool} {p}

theorem DKGParams.checkCompression_ok (h : p.checkCompression = .ok ()) :
    requireClassic p.compressionVariant p.params.compressionParameters.isSome
        "We only support classic compression parameters!" = .ok () ∧
      ∃ c, viewOption ClassicCompressionParameters.view p.params.compressionParameters = .ok c := by
  unfold checkCompression at h
  cases hc : p.params.compressionParameters with
  | none => exact ⟨rfl, none, rfl⟩
  | some c =>
    simp only [hc] at h
    split_ifs at h with hv
    · obtain ⟨b, hb⟩ := tuniformBound_of_require h
        "We do not support non-Tuniform noise distribution"
      refine ⟨by simp [requireClassic, hv], viewOption_ok fun a ha => ?_⟩
      cases ha
      simp [ClassicCompressionParameters.view, hb]
    · cases h

theorem DKGParams.checkNoiseSquashing_ok (h : p.checkNoiseSquashing = .ok ()) :
    requireClassic p.noiseSquashingVariant p.supportsSns
        "We do not support multi bit SnS params yet" = .ok () ∧
      ∃ s, viewOption NoiseSquashingParameters.view p.params.noiseSquashingParameters = .ok s := by
  unfold checkNoiseSquashing at h
  cases hs : p.params.noiseSquashingParameters with
  | none => exact ⟨by simp [requireClassic, supportsSns, hs], none, rfl⟩
  | some s =>
    simp only [hs] at h
    split_ifs at h with hv
    · obtain ⟨⟨⟩, hg, hc⟩ := bind_eq_ok.mp h
      obtain ⟨b, hb⟩ := tuniformBound_of_require hg "we only support tuniform!"
      refine ⟨by simp [requireClassic, hv], viewOption_ok fun a ha => ?_⟩
      cases ha
      obtain ⟨c, hcv⟩ : ∃ c, viewOption NoiseSquashingCompressionParameters.view
          s.compressionParameters = .ok c := by
        refine viewOption_ok fun a ha => ?_
        simp only [ha] at hc
        obtain ⟨b', hb'⟩ := tuniformBound_of_require hc
          "We do not support non-Tuniform noise distribution"
        simp [NoiseSquashingCompressionParameters.view, hb']
      simp [NoiseSquashingParameters.view, hb, hcv]
    · cases h

/-- On conformant parameters the accessors can only panic on the noise of the dedicated public
key, which the conformance test leaves out. -/
theorem DKGParams.view_of_checkConformance (h : p.checkConformance isValid = .ok ()) :
    (∃ v, p.view = .ok v) ∨ ∃ d, p.params.dedicatedCompactPublicKeyParameters = some d ∧
        d.encryptionNoiseDistribution = .gaussian := by
  obtain ⟨_, _, h⟩ := bind_eq_ok.mp h
  obtain ⟨_, _, h⟩ := bind_eq_ok.mp h
  obtain ⟨_, hcl, h⟩ := bind_eq_ok.mp h
  obtain ⟨⟨⟩, hlwe, h⟩ := bind_eq_ok.mp h
  obtain ⟨⟨⟩, hglwe, h⟩ := bind_eq_ok.mp h
  obtain ⟨_, _, h⟩ := bind_eq_ok.mp h
  obtain ⟨⟨⟩, hcomp, hsns⟩ := bind_eq_ok.mp h
  have hvar : p.computeVariant = .classic := of_decide_eq_true (require_eq_ok hcl)
  obtain ⟨bl, hbl⟩ := tuniformBound_of_require hlwe
    "We only support TUniform noise distribution!"
  obtain ⟨bg, hbg⟩ := tuniformBound_of_require hglwe
    "We only support TUniform noise distribution!"
  obtain ⟨hcc, c, hc⟩ := checkCompression_ok hcomp
  obtain ⟨hsc, s, hs⟩ := checkNoiseSquashing_ok hsns
  by_cases hd : ∃ d, p.params.dedicatedCompactPublicKeyParameters = some d ∧
      d.encryptionNoiseDistribution = .gaussian
  · exact .inr hd
  · obtain ⟨d, hdv⟩ : ∃ d, viewOption DedicatedCompactPublicKeyParameters.view
        p.params.dedicatedCompactPublicKeyParameters = .ok d := by
      refine viewOption_ok fun a ha => ?_
      cases hn : a.encryptionNoiseDistribution with
      | gaussian => exact absurd ⟨a, ha, hn⟩ hd
      | tUniform b =>
        simp [DedicatedCompactPublicKeyParameters.view, hn, DynamicDistribution.tuniformBound]
    have hcv : requireClassic p.computeVariant true
        "KMS only supports the classic PBS atomic pattern" = .ok () := by
      simp [requireClassic, hvar]
    left
    simp [view, hcv, hcc, hsc, ClassicPBSParameters.view, hbl, hbg, hdv, hc, hs]

end conformance

end ThresholdKms
