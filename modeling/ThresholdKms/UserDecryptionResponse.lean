import ThresholdKms.Bytes
import ThresholdKms.Share

/-!
# Responses to a user decryption

A server answers a user decryption with a payload that it signs either with a plain ECDSA signature
over the serialized payload or with an EIP-712 signature over a message that contains it. Signature
schemes, hashes and encodings are not part of the model: `Crypto` collects the calls that the client
makes to them.
-/

namespace ThresholdKms

/-- The plaintext types that the code names; `other` is a type that it does not support. -/
inductive FheTypes where
  | bool | uint4 | uint8 | uint16 | uint32 | uint64 | uint80 | uint128 | uint160 | uint256
  | uint512 | uint1024 | uint2048
  | other (name : String)
  deriving DecidableEq, Repr

def FheTypes.debug : FheTypes → String
  | .bool => "Bool"
  | .uint4 => "Uint4"
  | .uint8 => "Uint8"
  | .uint16 => "Uint16"
  | .uint32 => "Uint32"
  | .uint64 => "Uint64"
  | .uint80 => "Uint80"
  | .uint128 => "Uint128"
  | .uint160 => "Uint160"
  | .uint256 => "Uint256"
  | .uint512 => "Uint512"
  | .uint1024 => "Uint1024"
  | .uint2048 => "Uint2048"
  | .other name => name

structure TypedSigncryptedCiphertext where
  fheType : ℤ
  signcryptedCiphertext : Bytes
  externalHandle : Bytes
  packingFactor : UInt32
  deriving DecidableEq, Repr

structure UserDecryptionResponsePayload where
  verificationKey : Bytes
  digest : Bytes
  signcryptedCiphertexts : List TypedSigncryptedCiphertext
  partyId : UInt32
  degree : UInt32
  deriving DecidableEq, Repr

structure UserDecryptionResponse where
  signature : Bytes
  externalSignature : Bytes
  payload : Option UserDecryptionResponsePayload
  extraData : Bytes
  deriving DecidableEq, Repr

/-- The EIP-712 structure that a server signs. -/
structure UserDecryptResponseVerification where
  publicKey : Bytes
  ctHandles : List Bytes
  userDecryptedShare : Bytes
  extraData : Bytes
  deriving DecidableEq, Repr

/-- The EIP-712 structure whose hash links a response to its request. -/
structure UserDecryptionLinker (Address : Type) where
  publicKey : Bytes
  handles : List Bytes
  userAddress : Address

structure Crypto where
  Key : Type
  Signature : Type
  Address : Type
  Domain : Type
  Hash : Type
  addressDecidableEq : DecidableEq Address
  fheTypesTryFrom : ℤ → Option FheTypes
  serialize : UserDecryptionResponsePayload → Except String Bytes
  deserializeKey : Bytes → Except String Key
  address : Key → Address
  signatureFromSlice : Bytes → Except String Signature
  isNormalized : Signature → Bool
  verify : Key → Bytes → Signature → Except String Unit
  responseSigningHash : UserDecryptResponseVerification → Domain → Hash
  recoverAddressFromPrehash : Bytes → Bool → Hash → Except String Address
  linkerSigningHash : UserDecryptionLinker Address → Domain → Bytes

attribute [instance] Crypto.addressDecidableEq

/-- The error of a foreign call, passed on by `?`. -/
def Outcome.ofExcept {α : Type} : Except String α → Outcome α
  | .ok a => .ok a
  | .error msg => Outcome.err msg

theorem Outcome.ofExcept_eq_ok {α : Type} {x : Except String α} {a : α} :
    Outcome.ofExcept x = .ok a ↔ x = .ok a := by
  cases x with
  | ok b => simp [Outcome.ofExcept]
  | error msg => simp [Outcome.ofExcept, Outcome.err]

structure ParsedUserDecryptionRequest (Address : Type) where
  clientAddress : Address
  encKey : Bytes
  ciphertextHandles : List Bytes
  extraData : Bytes

structure UserDecTrustedValidationContext (crypto : Crypto) where
  serverAddresses : HashMap UInt32 crypto.Address
  clientRequest : ParsedUserDecryptionRequest crypto.Address
  eip712Domain : crypto.Domain
  threshold : Option ℕ

def dsepUserDecryption : Bytes := [85, 83, 69, 82, 95, 68, 69, 67]

variable (crypto : Crypto)

def TypedSigncryptedCiphertext.fheTypeOf (ct : TypedSigncryptedCiphertext) : Outcome FheTypes :=
  match crypto.fheTypesTryFrom ct.fheType with
  | some fheType => .ok fheType
  | none => Outcome.err s!"Invalid FHE type: {ct.fheType}"

variable (payload : UserDecryptionResponsePayload)

def UserDecryptionResponsePayload.fheTypes :
    Outcome (List FheTypes) :=
  payload.signcryptedCiphertexts.mapM (TypedSigncryptedCiphertext.fheTypeOf crypto)

/-- The handles as 32-byte words, padded on the left. -/
def handlesToBytes32 (handles : List Bytes) : Outcome (List Bytes) :=
  handles.zipIdx.mapM (fun (handle, idx) =>
    if 32 < handle.length then
      Outcome.err s!"external_handle at index {idx} too long: {handle.length} bytes (max 32)"
    else
      .ok (List.replicate (32 - handle.length) 0 ++ handle))

def computeUserDecryptMessage
    (userPkBuf extraData : Bytes) : Outcome UserDecryptResponseVerification := do
  let ctHandles ← handlesToBytes32 (payload.signcryptedCiphertexts.map (·.externalHandle))
  let userDecryptedShare ← Outcome.ofExcept (crypto.serialize payload)
  return ⟨userPkBuf, ctHandles, userDecryptedShare, extraData⟩

def recoverAddressFromExtSignature (data : UserDecryptResponseVerification)
    (domain : crypto.Domain) (externalSig : Bytes) : Outcome crypto.Address :=
  if externalSig.length ≠ 65 then
    Outcome.err s!"Expected external signature of length 65 Bytes, but got {externalSig.length}"
  else
    let parity := externalSig.getD 64 0 &&& 0x01 == 0
    Outcome.ofExcept (crypto.recoverAddressFromPrehash externalSig parity
      (crypto.responseSigningHash data domain))

def internalVerifySig (dsep payload : Bytes) (sig : crypto.Signature)
    (serverVerfKey : crypto.Key) : Outcome Unit :=
  if crypto.isNormalized sig then
    Outcome.ofExcept (crypto.verify serverVerfKey (dsep ++ payload) sig)
  else
    Outcome.err "Signature is not normalized"

def computeLink (req : ParsedUserDecryptionRequest crypto.Address) (domain : crypto.Domain) :
    Outcome Bytes := do
  let handles ← handlesToBytes32 req.ciphertextHandles
  return crypto.linkerSigningHash ⟨req.encKey, handles, req.clientAddress⟩ domain

/-!
## Validation of user decryption responses

The client selects the most common response as pivot, before any signature is checked, and keeps the
responses that agree with it, are signed by the registered server, and repeat neither a party nor a
verification key of an earlier one. Sums of `u32` wrap, as they do in release builds.
-/

section MostCommon

variable {P T : Type} [DecidableEq T]

/-- Occurrences and index of the first occurrence, for the values among the responses. -/
def countOccurence (tryFrom : P → Outcome T) (occurenceMap : HashMap T (ℕ × ℕ)) :
    Option P × ℕ → Outcome (HashMap T (ℕ × ℕ))
  | (none, _) => .ok occurenceMap
  | (some inner, i) => do
      let key ← tryFrom inner
      let (occurence, first) := (occurenceMap.lookup key).getD (0, i)
      return occurenceMap.insert key (occurence + 1, first)

/-- Fewer occurrences come first, and of equally many the later index. -/
def OccurenceLe (a b : ℕ × ℕ) : Prop := a.1 < b.1 ∨ a.1 = b.1 ∧ b.2 ≤ a.2

instance : DecidableRel OccurenceLe :=
  fun a b => inferInstanceAs (Decidable (a.1 < b.1 ∨ a.1 = b.1 ∧ b.2 ≤ a.2))

def selectMostCommon (tryFrom : P → Outcome T) (minOccurence : ℕ) (aggResp : List (Option P)) :
    Outcome (Option ℕ) := do
  let occurenceMap ← aggResp.zipIdx.foldlM (countOccurence tryFrom) ∅
  match ((occurenceMap.entries.map Sigma.snd).insertionSort OccurenceLe).getLast? with
  | some (occurence, first) => return if minOccurence ≤ occurence then some first else none
  | none => return none

end MostCommon

/-- The last entry of a sorted list is a largest one. -/
theorem exists_getLast?_insertionSort {α : Type} (r : α → α → Prop) [DecidableRel r] [Std.Total r]
    [IsTrans α r] {l : List α} (hne : l ≠ []) :
    ∃ last ∈ l, (l.insertionSort r).getLast? = some last ∧ ∀ a ∈ l, r a last := by
  have hsorted := List.pairwise_insertionSort r l
  have hmem : ∀ a, a ∈ l.insertionSort r ↔ a ∈ l := fun _ => List.mem_insertionSort r
  rcases List.eq_nil_or_concat (l.insertionSort r) with hnil | ⟨init, last, hsplit⟩
  · obtain ⟨a, ha⟩ := List.exists_mem_of_ne_nil l hne
    exact absurd ((hmem a).mpr ha) (hnil ▸ List.not_mem_nil)
  rw [hsplit, List.concat_eq_append] at hsorted hmem ⊢
  refine ⟨last, (hmem last).mp (List.mem_append_right _ List.mem_cons_self), by simp, ?_⟩
  intro a ha
  rcases List.mem_append.mp ((hmem a).mpr ha) with hinit | hlast
  · exact (List.pairwise_append.mp hsorted).2.2 a hinit last List.mem_cons_self
  · rw [List.mem_singleton.mp hlast]
    exact (Std.Total.total last last).elim id id

structure TypedSigncryptedCiphertextInvariants where
  packingFactor : UInt32
  fheType : ℤ
  externalHandle : Bytes
  deriving DecidableEq, Repr

structure UserDecryptionResponseInvariants where
  degree : UInt32
  digest : Bytes
  signcryptedCiphertextMetadata : List TypedSigncryptedCiphertextInvariants
  deriving DecidableEq, Repr

def UserDecryptionResponsePayload.invariants (value : UserDecryptionResponsePayload) :
    UserDecryptionResponseInvariants :=
  ⟨value.degree, value.digest, value.signcryptedCiphertexts.map
    (fun ct => ⟨ct.packingFactor, ct.fheType, ct.externalHandle⟩)⟩

def UserDecryptionResponsePayload.packingFactors (payload : UserDecryptionResponsePayload) :
    List UInt32 :=
  payload.signcryptedCiphertexts.map (·.packingFactor)

def selectMostCommonUserDec (minOccurence : ℕ) (aggResp : List UserDecryptionResponse) :
    Option UserDecryptionResponsePayload :=
  match selectMostCommon (fun payload => .ok payload.invariants) minOccurence
      (aggResp.map (·.payload)) with
  | .ok idx => idx.bind (fun i => aggResp[i]?.bind (·.payload))
  | .error _ => none

variable {crypto}

def checkExtUserDecryptionSignature (externalSig : Bytes) (payload : UserDecryptionResponsePayload)
    (request : ParsedUserDecryptionRequest crypto.Address) (eip712Domain : crypto.Domain)
    (expectedAddr : crypto.Address) : Outcome Unit := do
  let message ← computeUserDecryptMessage crypto payload request.encKey request.extraData
  let addr ← recoverAddressFromExtSignature crypto message eip712Domain externalSig
  if addr = expectedAddr then .ok () else Outcome.err "External PT signature verification failed"

/-- The first position where the types differ. -/
def compareFheTypes (pivotResp otherResp : UserDecryptionResponsePayload) :
    List (FheTypes × FheTypes) → Outcome Unit
  | [] => .ok ()
  | (pivotType, checkType) :: rest =>
    if pivotType ≠ checkType then
      Outcome.err (s!"FHE type in user decryption response mismatch: pivot is has verification " ++
        s!"key {pivotResp.verificationKey} with type {pivotType.debug}, other has verification " ++
        s!"key {otherResp.verificationKey} with type {checkType.debug}")
    else
      compareFheTypes pivotResp otherResp rest

variable (ctx : UserDecTrustedValidationContext crypto)

/-- The server registered for the party of the response, if the response has its key. -/
def expectedServer
    (otherResp : UserDecryptionResponsePayload) (respVerfKey : crypto.Key) :
    Outcome crypto.Address :=
  match ctx.serverAddresses.lookup otherResp.partyId with
  | some expectedAddr =>
    if expectedAddr ≠ crypto.address respVerfKey then
      Outcome.err "ID or address claimed in payload is incorrect"
    else
      .ok expectedAddr
  | none => Outcome.err "ID claimed in payload not found"

def checkSignature
    (resp : UserDecryptionResponse) (payload : UserDecryptionResponsePayload)
    (respVerfKey : crypto.Key) (expectedAddr : crypto.Address) : Outcome Unit :=
  if resp.signature = [] then
    if resp.externalSignature = [] then
      Outcome.err "Missing signature in user decryption response"
    else if resp.extraData ≠ ctx.clientRequest.extraData then
      Outcome.err "Extra data mismatch in user decryption"
    else
      checkExtUserDecryptionSignature resp.externalSignature payload ctx.clientRequest
        ctx.eip712Domain expectedAddr
  else do
    let sig ← Outcome.ofExcept (crypto.signatureFromSlice resp.signature)
    let bytes ← Outcome.ofExcept (crypto.serialize payload)
    match internalVerifySig crypto dsepUserDecryption bytes sig respVerfKey with
    | .ok () => .ok ()
    | .error _ => Outcome.err "Signature on received response is not valid!"

def validateUserDecryptMetaDataAndSignature
    (pivotResp : UserDecryptionResponsePayload) (resp : UserDecryptionResponse)
    (otherResp : UserDecryptionResponsePayload) : Outcome Unit := do
  let pivotType ← pivotResp.fheTypes crypto
  let checkType ← otherResp.fheTypes crypto
  if pivotType.length ≠ checkType.length ∨ pivotType = [] ∨ checkType = [] then
    Outcome.err (s!"Incorrect FHE type lengths in user decryption response: " ++
      s!"{pivotType.length}, {checkType.length}")
  else
    compareFheTypes pivotResp otherResp (pivotType.zip checkType)
    if pivotResp.digest ≠ otherResp.digest then
      Outcome.err (s!"Digest in user decryption response mismatch: pivot has verification key " ++
        s!"{pivotResp.verificationKey} gave digest {pivotResp.digest}, other has verification " ++
        s!"key {otherResp.verificationKey} with digest {otherResp.digest}")
    else
      let respVerfKey ← Outcome.ofExcept (crypto.deserializeKey otherResp.verificationKey)
      let expectedAddr ← expectedServer ctx otherResp respVerfKey
      checkSignature ctx resp otherResp respVerfKey expectedAddr

/-- The parties and verification keys seen so far, and the payloads that passed all checks. -/
structure ParsedPayloads where
  partyIds : Finset UInt32
  verificationKeys : Finset Bytes
  payloads : List UserDecryptionResponsePayload
  deriving DecidableEq

/-- One pass of the loop over the responses. The party is remembered before the checks of the
verification key and the ciphertexts, the key only after them. -/
def parseResponse
    (pivotPayload : UserDecryptionResponsePayload) (parsed : ParsedPayloads)
    (curResp : UserDecryptionResponse) : ParsedPayloads :=
  match curResp.payload with
  | none => parsed
  | some curPayload =>
    match validateUserDecryptMetaDataAndSignature ctx pivotPayload curResp curPayload with
    | .error _ => parsed
    | .ok () =>
      if pivotPayload.degree ≠ curPayload.degree then parsed
      else if curPayload.partyId > curPayload.degree * 3 + 1 then parsed
      else if curPayload.partyId = 0 then parsed
      else if curPayload.partyId ∈ parsed.partyIds then parsed
      else
        let partyIds := insert curPayload.partyId parsed.partyIds
        if curPayload.verificationKey ∈ parsed.verificationKeys then { parsed with partyIds }
        else if pivotPayload.signcryptedCiphertexts.length ≠
            curPayload.signcryptedCiphertexts.length then { parsed with partyIds }
        else if pivotPayload.packingFactors ≠ curPayload.packingFactors then
          { parsed with partyIds }
        else
          ⟨partyIds, insert curPayload.verificationKey parsed.verificationKeys,
            parsed.payloads ++ [curPayload]⟩

/-- The threshold that the client configured, or else the largest one for its servers. -/
def UserDecTrustedValidationContext.expectedThreshold :
    ℕ :=
  ctx.threshold.getD ((ctx.serverAddresses.entries.length - 1) / 3)

variable (aggResp : List UserDecryptionResponse)

def validateUserDecryptResponses : Outcome (List UserDecryptionResponsePayload) :=
  if aggResp = [] then
    Outcome.err "No response to verify in user decryption"
  else if ctx.serverAddresses.entries = [] then
    Outcome.err "No servers configured in trusted user decryption context"
  else if 2 ^ 64 ≤ ctx.expectedThreshold + 1 then
    Outcome.err "Invalid user decryption threshold: overflow"
  else
    match selectMostCommonUserDec (ctx.expectedThreshold + 1) aggResp with
    | none => Outcome.err "Cannot find user decryption pivot"
    | some pivotPayload =>
      if pivotPayload.degree ≠ UInt32.ofNat ctx.expectedThreshold then
        Outcome.err (s!"Pivot user decrypt responses gave degree {pivotPayload.degree} which " ++
          s!"does not match expected threshold {ctx.expectedThreshold} for " ++
          s!"{ctx.serverAddresses.entries.length} known servers")
      else
        let parsed := aggResp.foldl (parseResponse ctx pivotPayload) ⟨∅, ∅, []⟩
        if parsed.payloads.length ≤ pivotPayload.degree.toNat then
          Outcome.err "Not enough correct responses to user-decrypt the data!"
        else
          .ok parsed.payloads

def validateUserDecryptResponsesAgainstRequest :
    Outcome (Option (List UserDecryptionResponsePayload)) := do
  let respParsed ← validateUserDecryptResponses ctx aggResp
  match respParsed with
  | [] => Outcome.err "VerifiedUserDecryptionPayloads is empty"
  | pivotResp :: _ =>
    let expectedLink ← computeLink crypto ctx.clientRequest ctx.eip712Domain
    return if expectedLink ≠ pivotResp.digest then none else some respParsed

end ThresholdKms
