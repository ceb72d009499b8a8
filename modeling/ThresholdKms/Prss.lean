import ThresholdKms.Reshare

/-!
# The pseudorandom functions

The block cipher is a parameter. A key is used for three functions, told apart by a constant that is
added to it together with the session; a block holds the counter in its low bytes and the indices of
the output in its high bytes. Keys, sessions and blocks are read in little-endian order.
-/

namespace ThresholdKms

open GaloisRing

abbrev PrfKey := BitVec 128

abbrev SessionId := BitVec 128

abbrev AesBlock := BitVec 128

def phiXorConstant : BitVec 128 := 2

def chiXorConstant : BitVec 128 := 1

/-- The ciphers under the keys of one set. -/
structure PrfAes where
  phiAes : AesBlock → AesBlock
  psiAes : AesBlock → AesBlock
  chiAes : AesBlock → AesBlock

def PrfAes.new (aes128 : PrfKey → AesBlock → AesBlock) (key : PrfKey) (sid : SessionId) : PrfAes where
  phiAes := aes128 ((key ^^^ phiXorConstant) ^^^ sid)
  psiAes := aes128 (key ^^^ sid)
  chiAes := aes128 ((key ^^^ chiXorConstant) ^^^ sid)

def setByte (block : AesBlock) (idx byte : ℕ) : AesBlock :=
  (block &&& ~~~((255 : AesBlock) <<< (8 * idx))) |||
    (BitVec.ofNat 128 (byte % 256) <<< (8 * idx))

section Blocks

variable {z : BaseRing} {e : ExtensionDegree} (aes : AesBlock → AesBlock)

def fromU128Chunks (coefs : List AesBlock) : Outcome (GaloisRing z.bits e) :=
  if coefs.length = e.deg then
    .ok ⟨fun i => (coefs.getD i 0).setWidth z.bits⟩
  else
    Outcome.panic "assertion failed: coefs.len() == EXTENSION_DEGREE"

def numU128BaseRing (z : BaseRing) : ℕ := (z.bits + 127) / 128

/-- The blocks are encrypted in batches, which does not change their values. -/
def encryptIndexedPrfBlocks (ctr : ℕ) (encodeBlockIndices : AesBlock → ℕ → ℕ → AesBlock) :
    Outcome (GaloisRing z.bits e) :=
  fromU128Chunks ((List.range (e.deg * numU128BaseRing z)).map (fun idx =>
    aes (encodeBlockIndices (BitVec.ofNat 128 ctr) (idx / numU128BaseRing z)
      (idx % numU128BaseRing z))))

def psiBlock (block : AesBlock) (i v : ℕ) : AesBlock := setByte (setByte block 15 v) 14 i

def chiBlock (j : ℕ) (block : AesBlock) (i v : ℕ) : AesBlock :=
  setByte (setByte (setByte block 15 v) 14 i) 13 j

def psi (ctr : ℕ) : Outcome (GaloisRing z.bits e) :=
  if 2 ^ 112 ≤ ctr then
    Outcome.err s!"ctr in psi must be smaller than 2^112 but was {ctr}."
  else
    encryptIndexedPrfBlocks aes ctr psiBlock

def chi (ctr j : ℕ) : Outcome (GaloisRing z.bits e) :=
  if 2 ^ 104 ≤ ctr then
    Outcome.err s!"ctr in chi must be smaller than 2^104 but was {ctr}."
  else
    encryptIndexedPrfBlocks aes ctr (chiBlock j)

/-- The ring element whose coefficients are the encrypted blocks. -/
def prfValue (ctr : ℕ) (encode : AesBlock → ℕ → ℕ → AesBlock) :
    GaloisRing z.bits e :=
  ⟨fun i => (aes (encode (BitVec.ofNat 128 ctr) i 0)).setWidth z.bits⟩

theorem encryptIndexedPrfBlocks_eq (ctr : ℕ) (encode : AesBlock → ℕ → ℕ → AesBlock) :
    encryptIndexedPrfBlocks aes ctr encode = .ok (prfValue aes ctr encode : GaloisRing z.bits e) := by
  have hone : numU128BaseRing z = 1 := by cases z <;> rfl
  rw [encryptIndexedPrfBlocks, fromU128Chunks, hone, if_pos (by simp)]
  refine congrArg Except.ok ?_
  ext1
  funext i
  simp [prfValue, Nat.mod_one]

theorem psi_of_lt {ctr : ℕ} (h : ctr < 2 ^ 112) :
    psi aes ctr = .ok (prfValue aes ctr psiBlock : GaloisRing z.bits e) := by
  rw [psi, if_neg (not_le.mpr h), encryptIndexedPrfBlocks_eq]

theorem chi_of_lt {ctr : ℕ} (h : ctr < 2 ^ 104) (j : ℕ) :
    chi aes ctr j = .ok (prfValue aes ctr (chiBlock j) : GaloisRing z.bits e) := by
  rw [chi, if_neg (not_le.mpr h), encryptIndexedPrfBlocks_eq]

/-- A value in the range from `-bd1` to `bd1`. -/
def phiValue (ctr bd1 : ℕ) : ℤ :=
  -(bd1 : ℤ) + ((aes (setByte (BitVec.ofNat 128 ctr) 15 0)).toNat % (2 * bd1) : ℕ)

/-- The values of consecutive counters. -/
def phiRange (start count bd1 : ℕ) : Outcome (List ℤ) :=
  if count = 0 then
    .ok []
  else if 2 ^ 126 < bd1 then
    Outcome.err "Bd1 must be at most 2^126 to not overflow, but is larger"
  else
    let maxCtr := min (start + (count - 1)) (2 ^ 128 - 1)
    if 2 ^ 120 ≤ maxCtr then
      Outcome.err s!"ctr in phi must be smaller than 2^120 but was {maxCtr}."
    else if bd1 = 0 then
      Outcome.panic "attempt to calculate the remainder with a divisor of zero"
    else
      .ok ((List.range count).map (fun k => phiValue aes (start + k) bd1))

theorem phiRange_eq_ok {start count bd1 : ℕ} (hpos : 0 < bd1)
    (hbd : bd1 ≤ 2 ^ 126) (hctr : start + count ≤ 2 ^ 120) :
    phiRange aes start count bd1 =
      .ok ((List.range count).map (fun k => phiValue aes (start + k) bd1)) := by
  by_cases hcount : count = 0
  · rw [phiRange, hcount]
    rfl
  · have hmax : ¬ 2 ^ 120 ≤ min (start + (count - 1)) (2 ^ 128 - 1) := by omega
    rw [phiRange, if_neg hcount, if_neg (by omega)]
    simp only [hmax, if_false]
    rw [if_neg hpos.ne']

theorem phiValue_bounds (ctr : ℕ) {bd1 : ℕ} (hpos : 0 < bd1) :
    -(bd1 : ℤ) ≤ phiValue aes ctr bd1 ∧ phiValue aes ctr bd1 < bd1 := by
  have hmod := Nat.mod_lt (aes (setByte (BitVec.ofNat 128 ctr) 15 0)).toNat
    (show 0 < 2 * bd1 by omega)
  rw [phiValue]
  constructor
  · omega
  · omega

end Blocks

/-!
## Pseudorandom secret sharing

Every set of `n - t` parties shares a key. A party adds, over the sets to which it belongs, the
pseudorandom values of the set times its point on the polynomial that is one at zero and vanishes
outside the set. The setup of a party takes the agreed keys as given.
-/

section Setup

variable {w : ℕ} {e : ExtensionDegree} (F : Type) [Field F] [DecidableEq F] [G2p e F]

def normalizedPartiesRoot (numParties : ℕ) :
    Outcome (List (Poly (GaloisRing w e)) × List (GaloisRing w e)) := do
  let inverses ← (List.range' 1 numParties).mapM (fun idx => do
    let gamma : GaloisRing w e ← getFromExceptionalSequence idx
    invert F (0 - gamma))
  let invCoefs := 0 :: inverses
  let xCoords : List (GaloisRing w e) ←
    (List.range (numParties + 1)).mapM getFromExceptionalSequence
  let negParties := xCoords.map (fun x => Poly.fromCoefs [0 - x])
  let res ← (List.range' 1 numParties).mapM (fun p =>
    Poly.mul (Poly.add (Poly.fromCoefs [0, 1]) (negParties.getD p Poly.zero))
      (Poly.fromCoefs [invCoefs.getD p 0]))
  return (res, xCoords)

/-- The polynomial of a set, which vanishes at the parties outside of it. -/
def fAPoly (normalizedPartiesRoot : List (Poly (GaloisRing w e))) (allRoles s : List Role) :
    Outcome (Poly (GaloisRing w e)) :=
  allRoles.foldlM (fun poly p =>
    if p ∈ s then
      .ok poly
    else do
      let root ← indexByRole normalizedPartiesRoot p
      Poly.mul poly root) (Poly.fromCoefs [1])

def partyComputeFAPoints (allRoles : List Role) (partysets : List (List Role)) :
    Outcome (List (List (GaloisRing w e))) := do
  let (roots, xCoords) ← normalizedPartiesRoot F allRoles.length
  partysets.mapM (fun s => do
    let poly ← fAPoly roots allRoles s
    return (List.range' 1 allRoles.length).map (fun p => poly.eval (xCoords.getD p 0)))

def embedPartiesAndComputeAlphaPowers (numParties threshold : ℕ) :
    Outcome (List (List (GaloisRing w e))) := do
  let parties ← (List.range' 1 numParties).mapM getFromExceptionalSequence
  return computePowersList parties threshold

end Setup

/-- The sublists of length `k`, in lexicographic order of the positions. -/
def combinations {α : Type} : ℕ → List α → List (List α)
  | 0, _ => [[]]
  | _ + 1, [] => []
  | k + 1, x :: l => (combinations k l).map (x :: ·) ++ combinations (k + 1) l

def createSets (allRoles : List Role) (t : ℕ) : Outcome (List (List Role)) := do
  let size ← Outcome.usizeSub allRoles.length t
  return combinations size allRoles

structure PrssSet (w : ℕ) (e : ExtensionDegree) where
  parties : List Role
  setKey : PrfKey
  fAPoints : List (GaloisRing w e)

structure PRSSSetup (w : ℕ) (e : ExtensionDegree) where
  sets : List (PrssSet w e)
  alphaPowers : List (List (GaloisRing w e))

structure PRSSCounters where
  maskCtr : ℕ
  prssCtr : ℕ
  przsCtr : ℕ
  deriving DecidableEq, Repr

structure PRSSState (w : ℕ) (e : ExtensionDegree) where
  counters : PRSSCounters
  prssSetup : PRSSSetup w e
  prfs : List PrfAes

def prssSizeMax : ℕ := 2047

section Init

variable {w : ℕ} {e : ExtensionDegree}

def assembleSet (ars : List PrfKey) (fAPoints : List (List (GaloisRing w e))) (s : List Role × ℕ) :
    Outcome (PrssSet w e) :=
  match ars[s.2]?, fAPoints[s.2]? with
  | some setKey, some points => .ok ⟨s.1, setKey, points⟩
  | _, _ => Outcome.panic "index out of bounds"

variable (F : Type) [Field F] [DecidableEq F] [G2p e F]

/-- The sets of a party, with the keys `ars` that it agreed on in the order of the sets. -/
def prssSets (allRoles : List Role) (threshold : ℕ) (myRole : Role) (ars : List PrfKey) :
    Outcome (PRSSSetup w e) := do
  let allSets ← createSets allRoles threshold
  let partySets := allSets.filter (fun aset => decide (myRole ∈ aset))
  let fAPoints ← partyComputeFAPoints F allRoles partySets
  let alphaPowers ← embedPartiesAndComputeAlphaPowers allRoles.length threshold
  let sets ← partySets.zipIdx.mapM (assembleSet ars fAPoints)
  return ⟨sets, alphaPowers⟩

def prssInit (allRoles : List Role) (threshold : ℕ) (myRole : Role) (ars : List PrfKey) :
    Outcome (PRSSSetup w e) :=
  if prssSizeMax < allRoles.length.choose threshold then
    Outcome.err "PRSS set size is too large!"
  else
    prssSets F allRoles threshold myRole ars

end Init

def PRSSSetup.newPrssSessionState {w : ℕ} {e : ExtensionDegree}
    (aes128 : PrfKey → AesBlock → AesBlock) (setup : PRSSSetup w e) (sid : SessionId) :
    PRSSState w e :=
  ⟨⟨0, 0, 0⟩, setup, setup.sets.map (fun set => PrfAes.new aes128 set.setKey sid)⟩

/-!
## Drawing pseudorandom shares

Each of the three generators has its own counter. A call computes one share for each counter value
that it consumes, or fails without consuming any.
-/

def u128Add (a b : ℕ) : Outcome ℕ :=
  if a + b < 2 ^ 128 then .ok (a + b) else Outcome.panic "attempt to add with overflow"

def i128Add (a b : ℤ) : Outcome ℤ :=
  if -2 ^ 127 ≤ a + b ∧ a + b < 2 ^ 127 then
    .ok (a + b)
  else
    Outcome.panic "attempt to add with overflow"

section SetData

variable {w : ℕ} {e : ExtensionDegree}

/-- The ciphers of a set and the party's point on the polynomial of the set. -/
def setData (caller : String) (s : PRSSState w e) (partyRole : Role) (set : PrssSet w e × ℕ) :
    Outcome (PrfAes × GaloisRing w e) :=
  if partyRole ∈ set.1.parties then
    match s.prfs[set.2]? with
    | none => Outcome.err "PRFs not properly initialized!"
    | some aesPrf => do
        let fA ← indexByRole set.1.fAPoints partyRole
        return (aesPrf, fA)
  else
    Outcome.err (s!"Called {caller} with party role {partyRole} that is not in a precomputed " ++
      "set of parties!")

/-- The point on the polynomial of the set, times the powers of the party's own point. -/
def przsSetData (s : PRSSState w e) (partyRole : Role) (threshold : ℕ) (set : PrssSet w e × ℕ) :
    Outcome (PrfAes × List (GaloisRing w e)) := do
  let (aesPrf, fA) ← setData "przs.next()" s partyRole set
  let faAlpha ← (List.range' 1 threshold).mapM (fun j => do
    let powers ← indexByRole s.prssSetup.alphaPowers partyRole
    let alphaJ ← indexVec powers j
    return fA * alphaJ)
  return (aesPrf, faAlpha)

end SetData

variable {z : BaseRing} {e : ExtensionDegree}

/-- The elements of a batch, for consecutive counters. -/
def batchElements {δ : Type} (data : Outcome δ) (element : δ → ℕ → Outcome (GaloisRing z.bits e))
    (ctr amount : ℕ) : Outcome (List (GaloisRing z.bits e)) :=
  if amount = 0 then
    .ok []
  else do
    let setData ← data
    (List.range amount).mapM (fun idx => do
      let elementCtr ← u128Add ctr idx
      element setData elementCtr)

/-- A batch of elements, and the next counter. -/
def nextBatch {δ : Type} (data : Outcome δ) (element : δ → ℕ → Outcome (GaloisRing z.bits e))
    (ctr amount : ℕ) : Outcome (List (GaloisRing z.bits e) × ℕ) := do
  let res ← batchElements data element ctr amount
  let nextCtr ← u128Add ctr amount
  return (res, nextCtr)

def prssElement (data : List (PrfAes × GaloisRing z.bits e)) (ctr : ℕ) :
    Outcome (GaloisRing z.bits e) :=
  data.foldlM (fun res d => do
    let psiVal ← psi d.1.psiAes ctr
    return res + d.2 * psiVal) 0

variable (s : PRSSState z.bits e) (partyRole : Role)

def prssNextVec (amount : ℕ) :
    Outcome (List (GaloisRing z.bits e) × PRSSState z.bits e) := do
  let (res, prssCtr) ← nextBatch
    (s.prssSetup.sets.zipIdx.mapM (setData "prss.next()" s partyRole)) prssElement
    s.counters.prssCtr amount
  return (res, { s with counters := { s.counters with prssCtr := prssCtr } })

def przsElement (data : List (PrfAes × List (GaloisRing z.bits e))) (ctr : ℕ) :
    Outcome (GaloisRing z.bits e) :=
  data.foldlM (fun res d =>
    d.2.zipIdx.foldlM (fun res faAlphaJ => do
      let chiVal ← chi d.1.chiAes ctr (faAlphaJ.2 + 1)
      return res + faAlphaJ.1 * chiVal) res) 0

def przsNextVec (threshold amount : ℕ) :
    Outcome (List (GaloisRing z.bits e) × PRSSState z.bits e) := do
  let (res, przsCtr) ← nextBatch
    (s.prssSetup.sets.zipIdx.mapM (przsSetData s partyRole threshold)) przsElement
    s.counters.przsCtr amount
  return (res, { s with counters := { s.counters with przsCtr := przsCtr } })

/-- Only extensions of the ring modulo `2 ^ 128` hold masks. -/
def mulByI128 : (z : BaseRing) → GaloisRing z.bits e → ℤ → Outcome (GaloisRing z.bits e)
  | .z64, _, _ => Outcome.panic ("Trying to call from_i128 for a Galois extension of Z64. " ++
      "This should only happen for extensions of Z128.")
  | .z128, x, scalar => .ok ⟨fun i => x.coefs i * BitVec.ofInt BaseRing.z128.bits scalar⟩

def statsec : ℕ := 40

/-- One set is added to the masks of a chunk. -/
def maskAddSet (bd1 lo : ℕ)
    (out : List (GaloisRing z.bits e)) (set : PrssSet z.bits e × ℕ) :
    Outcome (List (GaloisRing z.bits e)) := do
  let (aesPrf, fA) ← setData "prss.mask_next()" s partyRole set
  let start ← u128Add s.counters.maskCtr (2 * lo)
  let phiVals ← phiRange aesPrf.phiAes start (2 * out.length) bd1
  out.zipIdx.mapM (fun v => do
    let phi₀ ← indexVec phiVals (2 * v.2)
    let phi₁ ← indexVec phiVals (2 * v.2 + 1)
    let phi ← i128Add phi₀ phi₁
    let term ← mulByI128 z fA phi
    return v.1 + term)

variable (prssGenParMinChunk : ℕ)

/-- The masks are computed in chunks of the configured size. -/
def maskChunks (s : PRSSState z.bits e) (partyRole : Role)
    (bd amount : ℕ) : Outcome (List (List (GaloisRing z.bits e))) :=
  let bd1 := bd * 2 ^ statsec % 2 ^ 128
  let chunk := max prssGenParMinChunk 1
  (List.range ((amount + chunk - 1) / chunk)).mapM (fun chunkIdx =>
    s.prssSetup.sets.zipIdx.foldlM (maskAddSet s partyRole bd1 (chunkIdx * chunk))
      (List.replicate (min chunk (amount - chunkIdx * chunk)) 0))

def maskNextVec (s : PRSSState z.bits e) (partyRole : Role)
    (bd amount : ℕ) : Outcome (List (GaloisRing z.bits e) × PRSSState z.bits e) := do
  let chunks ← maskChunks prssGenParMinChunk s partyRole bd amount
  let maskCtr ← u128Add s.counters.maskCtr (2 * amount)
  return (chunks.flatten, { s with counters := { s.counters with maskCtr := maskCtr } })

/-- The first element of a batch of one. -/
def nextOf (missing : String)
    (batch : Outcome (List (GaloisRing z.bits e) × PRSSState z.bits e)) :
    Outcome (GaloisRing z.bits e × PRSSState z.bits e) := do
  let (values, s) ← batch
  match values.head? with
  | some v => .ok (v, s)
  | none => Outcome.err missing

def prssNext :
    Outcome (GaloisRing z.bits e × PRSSState z.bits e) :=
  nextOf "No PRSS value returned!" (prssNextVec s partyRole 1)

def przsNext (threshold : ℕ) :
    Outcome (GaloisRing z.bits e × PRSSState z.bits e) :=
  nextOf "No PRZS value returned!" (przsNextVec s partyRole threshold 1)

def maskNext (s : PRSSState z.bits e) (partyRole : Role) (bd : ℕ) :
    Outcome (GaloisRing z.bits e × PRSSState z.bits e) :=
  nextOf "No mask value returned!" (maskNextVec prssGenParMinChunk s partyRole bd 1)

end ThresholdKms
