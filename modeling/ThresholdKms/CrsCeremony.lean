import ThresholdKms.Along
import ThresholdKms.SyndromeCompute

/-!
# The CRS ceremony

The parties take turns in the order of their roles. In its turn a party raises the elements of the
current parameters to the powers of its secret and broadcasts the result with a proof of knowledge of
the secret; the others adopt it if it passes their checks and keep what they have otherwise. Groups
are written additively, with scalars in a field.
-/

namespace ThresholdKms

/-- A bilinear group over a field of scalars. -/
structure BilinearGroup (F G₁ G₂ Gₜ : Type) [Field F] [AddCommGroup G₁] [AddCommGroup G₂]
    [AddCommGroup Gₜ] [Module F G₁] [Module F G₂] [Module F Gₜ] where
  gen₁ : G₁
  gen₂ : G₂
  pairing : G₁ →ₗ[F] G₂ →ₗ[F] Gₜ
  gen₁_ne_zero : gen₁ ≠ 0

structure InternalPublicParameter (G₁ G₂ : Type) where
  round : ℕ
  maxNumBits : ℕ
  g1s : List G₁
  g2s : List G₂
  deriving DecidableEq

def InternalPublicParameter.witnessDim {G₁ G₂ : Type} (pp : InternalPublicParameter G₁ G₂) : ℕ :=
  pp.g2s.length

/-- `pointsValid` says whether all points are in the groups. -/
structure PartialProof (F G₁ G₂ : Type) where
  hPok : F
  sPok : F
  pointsValid : Bool
  newPp : InternalPublicParameter G₁ G₂

/-- The hash of the proof of knowledge, over the round, the new and the old first element and the
commitment, and the hash of the parameters to two scalars. The session is fixed. -/
structure CeremonyHash (F G₁ G₂ : Type) where
  pok : ℕ → G₁ → G₁ → G₁ → F
  scalars : InternalPublicParameter G₁ G₂ → F × F

def zkDefaultMaxNumBits : ℕ := 2048

variable {F G₁ G₂ Gₜ : Type} [Field F] [AddCommGroup G₁] [AddCommGroup G₂] [AddCommGroup Gₜ]
  [Module F G₁] [Module F G₂] [Module F Gₜ]

section Protocol

variable (grp : BilinearGroup F G₁ G₂ Gₜ) (hash : CeremonyHash F G₁ G₂)

def InternalPublicParameter.new (witnessDim : ℕ) (maxNumBits : Option ℕ) :
    InternalPublicParameter G₁ G₂ where
  round := 0
  maxNumBits := maxNumBits.getD zkDefaultMaxNumBits
  g1s := List.replicate (witnessDim * 2) grp.gen₁
  g2s := List.replicate witnessDim grp.gen₂

/-- The parameters raised to the powers of the secret, punctured at the witness dimension. -/
def InternalPublicParameter.raise (pp : InternalPublicParameter G₁ G₂) (tau : F) (round : ℕ) :
    InternalPublicParameter G₁ G₂ where
  round := round
  maxNumBits := pp.maxNumBits
  g1s := pp.g1s.mapIdx fun i g => if i = pp.witnessDim then 0 else tau ^ (i + 1) • g
  g2s := pp.g2s.mapIdx fun i g => tau ^ (i + 1) • g

/-- Panics unless there are twice as many elements of the first group as of the second. -/
def makePartialProofDeterministic (pp : InternalPublicParameter G₁ G₂) (tau : F) (round : ℕ)
    (r : F) : Outcome (PartialProof F G₁ G₂) :=
  if pp.g1s.length ≠ 2 * pp.witnessDim then
    Outcome.panic ("assertion `left == right` failed: iterators must have the same length\n" ++
      s!"  left: {pp.g1s.length}\n right: {2 * pp.witnessDim}")
  else do
    let newPp := pp.raise tau round
    let old ← indexVec pp.g1s 0
    let new ← indexVec newPp.g1s 0
    let hPok := hash.pok round new old (r • old)
    return ⟨hPok, hPok * tau + r, true, newPp⟩

variable [DecidableEq F] [DecidableEq G₁] [DecidableEq Gₜ]

def verifyDlogProof (sPok hPok : F) (old new : G₁) (round : ℕ) : Outcome Unit :=
  if hash.pok round new old (sPok • old + (-hPok) • new) ≠ hPok then
    Outcome.err "dlog check failed"
  else .ok ()

/-- The second well-formedness equation, on elements given by their index. -/
def wellformedSums (dim : ℕ) (rho₁ rho₂ : F) (g : ℕ → G₁) (h : ℕ → G₂) : Prop :=
  let lhs₁ := ∑ i ∈ Finset.range (2 * dim),
    if i = dim ∨ i = dim + 1 then 0 else rho₁ ^ i • g i
  let lhs₂ := (∑ l ∈ Finset.range (dim - 1), rho₂ ^ (l + 1) • h l) + grp.gen₂
  let rhs₁ := (∑ i ∈ Finset.range (2 * dim - 1),
    if i = dim - 1 ∨ i = dim then 0 else rho₁ ^ (i + 1) • g i) + grp.gen₁
  let rhs₂ := ∑ l ∈ Finset.range dim, rho₂ ^ l • h l
  grp.pairing lhs₁ lhs₂ = grp.pairing rhs₁ rhs₂

instance (dim : ℕ) (rho₁ rho₂ : F) (g : ℕ → G₁) (h : ℕ → G₂) :
    Decidable (wellformedSums grp dim rho₁ rho₂ g h) :=
  inferInstanceAs (Decidable (_ = _))

def verifyWellformedness (newPp : InternalPublicParameter G₁ G₂) : Outcome Unit := do
  let dim := newPp.witnessDim
  let after ← indexVec newPp.g1s (dim + 1)
  let before ← indexVec newPp.g1s (dim - 1)
  let second ← indexVec newPp.g2s 1
  if grp.pairing after grp.gen₂ ≠ grp.pairing before second then
    Outcome.err "well-formedness check failed (1)"
  else
    let rhos := hash.scalars newPp
    if wellformedSums grp dim rhos.1 rhos.2 (fun i => newPp.g1s.getD i 0)
        (fun l => newPp.g2s.getD l 0) then .ok ()
    else Outcome.err "well-formedness check failed (2)"

/-- The round number is only compared with that of the current parameters, and the bound on the
number of bits is not checked. -/
def verifyProof (pp : InternalPublicParameter G₁ G₂) (proof : PartialProof F G₁ G₂) (round : ℕ) :
    Outcome (InternalPublicParameter G₁ G₂) :=
  if proof.pointsValid = false then Outcome.err "some points are not valid"
  else if proof.newPp.round ≤ pp.round then Outcome.err "bad round number"
  else do
    let newPp := proof.newPp
    let old ← indexVec pp.g1s 0
    let new ← indexVec newPp.g1s 0
    verifyDlogProof hash proof.sPok proof.hPok old new round
    if new = 0 then Outcome.err "non-degenerative check failed"
    else if newPp.g1s.length ≠ pp.witnessDim * 2 then
      Outcome.err "crs length check failed (g)"
    else if newPp.witnessDim ≠ pp.witnessDim then
      Outcome.err "crs length check failed (g_hat)"
    else do
      let punctured ← indexVec newPp.g1s pp.witnessDim
      if punctured ≠ 0 then Outcome.err "the list of G1s is not correctly punctured"
      else do
        verifyWellformedness grp hash newPp
        return newPp

/-- What the broadcast of a turn delivers to every honest party. -/
inductive CeremonyMessage (F G₁ G₂ : Type) where
  | partialProof (proof : PartialProof F G₁ G₂)
  | other
  | nothing

/-- A party whose turn it is not keeps its parameters unless the proof is verified. -/
def receiveContribution (round : ℕ) (message : CeremonyMessage F G₁ G₂)
    (pp : InternalPublicParameter G₁ G₂) :
    Outcome (InternalPublicParameter G₁ G₂) :=
  match message with
  | .partialProof proof =>
    match verifyProof grp hash pp proof round with
    | .ok newPp => .ok newPp
    | .error (.err _) => .ok pp
    | .error fault => .error fault
  | .other => .ok pp
  | .nothing => .ok pp

/-- The honest parties with their secrets and coins, and what the corrupt ones broadcast. -/
structure CeremonyParties (F G₁ G₂ : Type) where
  honest : Role → Bool
  tau : Role → F
  coins : Role → F
  corrupt : Role → CeremonyMessage F G₁ G₂

/-- The parameters of each party. -/
abbrev CeremonyState (G₁ G₂ : Type) := Role → Outcome (InternalPublicParameter G₁ G₂)

variable (parties : CeremonyParties F G₁ G₂) (state : CeremonyState G₁ G₂) (turn : Role × ℕ)

def contribute : Outcome (PartialProof F G₁ G₂) :=
  do
    let pp ← state turn.1
    makePartialProofDeterministic hash pp (parties.tau turn.1) turn.2 (parties.coins turn.1)

/-- The broadcast of a turn. -/
def broadcastOf : CeremonyMessage F G₁ G₂ :=
  if parties.honest turn.1 then
    match contribute hash parties state turn with
    | .ok proof => .partialProof proof
    | .error _ => .nothing
  else parties.corrupt turn.1

/-- One turn: its party takes its own new parameters, the others what they received. -/
def ceremonyTurn : CeremonyState G₁ G₂ := fun me =>
  if me = turn.1 then do
    let proof ← contribute hash parties state turn
    return proof.newPp
  else do
    let pp ← state me
    receiveContribution grp hash turn.2 (broadcastOf hash parties state turn) pp

/-- The roles in order, with their rounds, which start at one. -/
def ceremonyTurns (n : ℕ) : List (Role × ℕ) := (partyRoles n).zipIdx 1

/-- What each party returns. -/
def executeCeremony (n witnessDim : ℕ) (maxNumPtBits : Option ℕ) : CeremonyState G₁ G₂ :=
  (ceremonyTurns n).foldl (ceremonyTurn grp hash parties)
    (fun _ => .ok (InternalPublicParameter.new grp witnessDim maxNumPtBits))

end Protocol

/-!
## Parameters that are powers of one secret

Such parameters pass the well-formedness check whatever scalars the hash gives, and the update of a
party keeps them such, with its secret as a further factor.
-/

variable (grp : BilinearGroup F G₁ G₂ Gₜ) (dim : ℕ) (tau : F)

/-- The generator times the powers of `tau`, except for the element at the punctured index. -/
def BilinearGroup.power (punctured : G₁) (i : ℕ) : G₁ :=
  if i = dim then punctured else tau ^ (i + 1) • grp.gen₁

structure IsPowers (punctured : G₁) (pp : InternalPublicParameter G₁ G₂) : Prop where
  g1s : pp.g1s = (List.range (2 * dim)).map (grp.power dim tau punctured)
  g2s : pp.g2s = (List.range dim).map fun l => tau ^ (l + 1) • grp.gen₂

theorem isPowers_new (bits : Option ℕ) :
    IsPowers grp dim 1 grp.gen₁ (InternalPublicParameter.new grp dim bits) where
  g1s := by
    apply List.ext_getElem
    · simp [InternalPublicParameter.new, Nat.mul_comm]
    · intro i _ _
      simp [InternalPublicParameter.new, BilinearGroup.power]
  g2s := by simp [InternalPublicParameter.new]

variable {grp dim tau} {c : G₁} {pp : InternalPublicParameter G₁ G₂}
  (h : IsPowers grp dim tau c pp)
include h

theorem IsPowers.witnessDim_eq : pp.witnessDim = dim := by
  simp [InternalPublicParameter.witnessDim, h.g2s]

theorem IsPowers.length_g1s : pp.g1s.length = 2 * dim := by
  simp [h.g1s]

theorem IsPowers.index_g1s {i : ℕ} (hi : i < 2 * dim) :
    indexVec pp.g1s i = .ok (grp.power dim tau c i) := by
  simp [indexVec, h.g1s, hi]

theorem IsPowers.index_g2s {l : ℕ} (hl : l < dim) :
    indexVec pp.g2s l = .ok (tau ^ (l + 1) • grp.gen₂) := by
  simp [indexVec, h.g2s, hl]

theorem IsPowers.raise (t : F) (round : ℕ) :
    IsPowers grp dim (t * tau) 0 (pp.raise t round) where
  g1s := by
    apply List.ext_getElem
    · simp [InternalPublicParameter.raise, h.g1s]
    · intro i _ _
      by_cases hi : i = dim <;>
        simp [InternalPublicParameter.raise, h.witnessDim_eq, h.g1s, BilinearGroup.power, hi,
          smul_smul, mul_pow]
  g2s := by
    apply List.ext_getElem
    · simp [InternalPublicParameter.raise, h.g2s]
    · intro i _ _
      simp [InternalPublicParameter.raise, h.g2s, smul_smul, mul_pow]

omit h

section Sums

variable (rho : F)

/-- The first sum of the check for powers of `tau`, divided by `tau`. -/
def puncturedSum (dim : ℕ) (x : F) : F :=
  ∑ i ∈ Finset.range (2 * dim), if i = dim ∨ i = dim + 1 then 0 else x ^ i

variable (grp : BilinearGroup F G₁ G₂ Gₜ)

theorem sum_power_left (dim : ℕ) (tau : F) (c : G₁) : (∑ i ∈ Finset.range (2 * dim),
      if i = dim ∨ i = dim + 1 then 0 else rho ^ i • grp.power dim tau c i) =
      (tau * puncturedSum dim (rho * tau)) • grp.gen₁ := by
  rw [puncturedSum, Finset.mul_sum, Finset.sum_smul]
  refine Finset.sum_congr rfl fun i _ => ?_
  by_cases hi : i = dim ∨ i = dim + 1
  · simp [hi]
  · obtain ⟨hdim, -⟩ := not_or.mp hi
    rw [if_neg hi, if_neg hi, BilinearGroup.power, if_neg hdim, smul_smul]
    congr 1
    ring

theorem sum_power_right (hdim : 0 < dim) (tau : F) (c : G₁) : (∑ i ∈ Finset.range (2 * dim - 1),
      if i = dim - 1 ∨ i = dim then 0 else rho ^ (i + 1) • grp.power dim tau c i) + grp.gen₁ =
      puncturedSum dim (rho * tau) • grp.gen₁ := by
  obtain ⟨d, rfl⟩ : ∃ d, dim = d + 1 := ⟨dim - 1, by omega⟩
  rw [puncturedSum, show 2 * (d + 1) = (2 * d + 1) + 1 from by ring, Finset.sum_range_succ',
    add_smul, Finset.sum_smul]
  congr 1
  · refine Finset.sum_congr rfl fun i _ => ?_
    by_cases hi : i = d ∨ i = d + 1
    · simp [hi]
    · obtain ⟨-, hdim⟩ := not_or.mp hi
      have hi' : ¬ (i + 1 = d + 1 ∨ i + 1 = d + 1 + 1) := by omega
      rw [Nat.add_sub_cancel, if_neg hi, if_neg hi', BilinearGroup.power, if_neg hdim, smul_smul,
        mul_pow]
  · simp

theorem sum_hat_left (hdim : 0 < dim) (tau : F) :
    (∑ l ∈ Finset.range (dim - 1), rho ^ (l + 1) • tau ^ (l + 1) • grp.gen₂) + grp.gen₂ =
      (∑ l ∈ Finset.range dim, (rho * tau) ^ l) • grp.gen₂ := by
  obtain ⟨d, rfl⟩ : ∃ d, dim = d + 1 := ⟨dim - 1, by omega⟩
  rw [Finset.sum_range_succ', add_smul, Finset.sum_smul]
  simp [smul_smul, mul_pow]

theorem sum_hat_right (dim : ℕ) (tau : F) :
    (∑ l ∈ Finset.range dim, rho ^ l • tau ^ (l + 1) • grp.gen₂) =
      (tau * ∑ l ∈ Finset.range dim, (rho * tau) ^ l) • grp.gen₂ := by
  rw [Finset.mul_sum, Finset.sum_smul]
  refine Finset.sum_congr rfl fun l _ => ?_
  rw [smul_smul]
  congr 1
  ring

end Sums

theorem wellformedSums_power (hdim : 0 < dim) (rho₁ rho₂ : F) (c : G₁) :
    wellformedSums grp dim rho₁ rho₂ (grp.power dim tau c)
      (fun l => tau ^ (l + 1) • grp.gen₂) := by
  simp only [wellformedSums, sum_power_left, sum_power_right rho₁ grp hdim,
    sum_hat_left rho₂ grp hdim, sum_hat_right]
  simp only [map_smul, LinearMap.smul_apply, smul_smul]
  congr 1
  ring

theorem wellformedSums_congr {rho₁ rho₂ : F} {g g' : ℕ → G₁} {h h' : ℕ → G₂}
    (hg : ∀ i < 2 * dim, g i = g' i) (hh : ∀ l < dim, h l = h' l) :
    wellformedSums grp dim rho₁ rho₂ g h ↔ wellformedSums grp dim rho₁ rho₂ g' h' := by
  have h₁ : ∀ m ≤ 2 * dim, ∀ (p : ℕ → Prop) [DecidablePred p] (e : ℕ → F),
      (∑ i ∈ Finset.range m, if p i then 0 else e i • g i) =
        ∑ i ∈ Finset.range m, if p i then 0 else e i • g' i := by
    intro m hm p _ e
    refine Finset.sum_congr rfl fun i hi => ?_
    rw [hg i (lt_of_lt_of_le (Finset.mem_range.mp hi) hm)]
  have h₂ : ∀ m ≤ dim, ∀ e : ℕ → F,
      (∑ l ∈ Finset.range m, e l • h l) = ∑ l ∈ Finset.range m, e l • h' l := by
    intro m hm e
    refine Finset.sum_congr rfl fun l hl => ?_
    rw [hh l (lt_of_lt_of_le (Finset.mem_range.mp hl) hm)]
  simp only [wellformedSums, h₁ (2 * dim) le_rfl, h₁ (2 * dim - 1) (Nat.sub_le _ _),
    h₂ dim le_rfl, h₂ (dim - 1) (Nat.sub_le _ _)]

end ThresholdKms
