import ThresholdKms.Identifiers
import ThresholdKms.UserDecryptionResponse

/-!
# Public decryption at the client

The client votes for a pivot among the responses, keeps the responses that agree with it and carry
valid signatures of registered servers, votes again with the number of answers that the caller asks
for, and at the end checks the signature of every response, also of those that it dropped before.
-/

namespace ThresholdKms

structure TypedPlaintext where
  bytes : Bytes
  fheType : ℤ
  deriving DecidableEq, Repr

structure TypedCiphertext where
  fheType : ℤ
  externalHandle : Bytes
  deriving DecidableEq, Repr

/-- The text of the request identifier is kept as it stands in the message. -/
structure PublicDecryptionResponsePayload where
  verificationKey : Bytes
  plaintexts : List TypedPlaintext
  requestId : Option (List Char)
  deriving DecidableEq, Repr

structure PublicDecryptionResponse where
  signature : Bytes
  externalSignature : Bytes
  payload : Option PublicDecryptionResponsePayload
  extraData : Bytes
  deriving DecidableEq, Repr

/-- The EIP-712 structure that a server signs. -/
structure PublicDecryptVerification where
  ctHandles : List Bytes
  decryptedResult : Bytes
  extraData : Bytes
  deriving DecidableEq, Repr

/-- The further calls to signatures and encodings that a public decryption makes. -/
structure PublicCrypto extends Crypto where
  DomainMsg : Type
  keyDecidableEq : DecidableEq Key
  serializePublic : PublicDecryptionResponsePayload → Except String Bytes
  optionalProtobufToAlloyDomain : Option DomainMsg → Except String Domain
  abiEncodePlaintexts : List TypedPlaintext → Except String Bytes
  publicSigningHash : PublicDecryptVerification → Domain → Hash

attribute [instance] PublicCrypto.keyDecidableEq

structure PublicDecryptionRequest (crypto : PublicCrypto) where
  requestId : Option (List Char)
  ciphertexts : List TypedCiphertext
  domain : Option crypto.DomainMsg
  extraData : Bytes

inductive ServerIdentities (crypto : PublicCrypto) where
  | pks (inner : HashMap UInt32 crypto.Key)
  | addrs (inner : HashMap UInt32 crypto.Address)

structure PublicDecTrustedValidationContext (crypto : PublicCrypto) where
  serverPks : HashMap UInt32 crypto.Key
  eip712Domain : Option crypto.Domain
  extHandlesBytes : List Bytes
  extraData : Option Bytes
  request : Option (PublicDecryptionRequest crypto)

structure Eip712VerificationParams (crypto : PublicCrypto) where
  responseExternalSignature : Bytes
  responseExtraData : Bytes
  trustedEip712Domain : crypto.Domain

def dsepPublicDecryption : Bytes := [80, 85, 66, 76, 95, 68, 69, 67]

structure PublicDecryptionResponseInvariants where
  requestId : Option Identifier
  plaintexts : List TypedPlaintext
  deriving DecidableEq

def PublicDecryptionResponseInvariants.tryFrom (value : PublicDecryptionResponsePayload) :
    Outcome PublicDecryptionResponseInvariants :=
  match value.requestId with
  | some id => do
      let requestId ← Identifier.tryFrom id
      return ⟨some requestId, value.plaintexts⟩
  | none => .ok ⟨none, value.plaintexts⟩

def selectMostCommonPublicDec (minOccurence : ℕ) (aggResp : List PublicDecryptionResponse) :
    Option PublicDecryptionResponsePayload :=
  match selectMostCommon PublicDecryptionResponseInvariants.tryFrom minOccurence
      (aggResp.map (·.payload)) with
  | .ok idx => idx.bind (fun i => aggResp[i]?.bind (·.payload))
  | .error _ => none

variable {crypto : PublicCrypto}

def computePublicDecryptionMessage (crypto : PublicCrypto) (extHandlesBytes : List Bytes)
    (pts : List TypedPlaintext) (extraData : Bytes) : Outcome PublicDecryptVerification := do
  let externalHandlesBytes32 ← handlesToBytes32 extHandlesBytes
  let ptBytes ← Outcome.ofExcept (crypto.abiEncodePlaintexts pts)
  return ⟨externalHandlesBytes32, ptBytes, extraData⟩

def recoverPublicAddress (crypto : PublicCrypto) (data : PublicDecryptVerification)
    (domain : crypto.Domain) (externalSig : Bytes) : Outcome crypto.Address :=
  if externalSig.length ≠ 65 then
    Outcome.err s!"Expected external signature of length 65 Bytes, but got {externalSig.length}"
  else
    let parity := externalSig.getD 64 0 &&& 0x01 == 0
    Outcome.ofExcept (crypto.recoverAddressFromPrehash externalSig parity
      (crypto.publicSigningHash data domain))

/-- The external signature, if the client knows the domain of the request. -/
def validateExternalSignature (extHandlesBytes : List Bytes)
    (otherResp : PublicDecryptionResponsePayload) (curVerfKey : crypto.Key) :
    Option (Eip712VerificationParams crypto) → Outcome Bool
  | none => .ok true
  | some params =>
    if params.responseExternalSignature = [] then .ok false
    else do
      let message ← computePublicDecryptionMessage crypto extHandlesBytes otherResp.plaintexts
        params.responseExtraData
      match recoverPublicAddress crypto message params.trustedEip712Domain
          params.responseExternalSignature with
      | .ok recoveredAddr => return decide (recoveredAddr = crypto.address curVerfKey)
      | .error _ => return false

def validatePublicDecryptMetaData (extHandlesBytes : List Bytes)
    (pivotResp otherResp : PublicDecryptionResponsePayload) (signature : Bytes)
    (eip712Params : Option (Eip712VerificationParams crypto)) : Outcome Bool :=
  if pivotResp.requestId ≠ otherResp.requestId then .ok false
  else if pivotResp.plaintexts ≠ otherResp.plaintexts then .ok false
  else do
    let sig ← Outcome.ofExcept (crypto.signatureFromSlice signature)
    let curVerfKey ← Outcome.ofExcept (crypto.deserializeKey otherResp.verificationKey)
    let bytes ← Outcome.ofExcept (crypto.serializePublic otherResp)
    match internalVerifySig crypto.toCrypto dsepPublicDecryption bytes sig curVerfKey with
    | .error _ => return false
    | .ok () => validateExternalSignature extHandlesBytes otherResp curVerfKey eip712Params

/-- The search for the key among the registered ones, which stops at the first that is equal. -/
def foundNewVerfKey (verificationKeys : Finset crypto.Key) (curVerfKey : crypto.Key) :
    List crypto.Key → Bool
  | [] => false
  | keyToCheckAgainst :: rest =>
    if keyToCheckAgainst = curVerfKey then decide (curVerfKey ∉ verificationKeys)
    else foundNewVerfKey verificationKeys curVerfKey rest

/-- The keys seen so far and the payloads that passed all checks. -/
structure ParsedPublicPayloads (crypto : PublicCrypto) where
  verificationKeys : Finset crypto.Key
  payloads : List PublicDecryptionResponsePayload

variable (trustedCtx : PublicDecTrustedValidationContext crypto)

def PublicDecTrustedValidationContext.eip712Params
    (curResp : PublicDecryptionResponse) :
    Option (Eip712VerificationParams crypto) :=
  trustedCtx.eip712Domain.map (fun domain =>
    ⟨curResp.externalSignature, curResp.extraData, domain⟩)

/-- One pass of the loop over the responses: most faults skip the response, but a key or a signature
that cannot be parsed ends the call. -/
def parsePublicResponse
    (pivotPayload : PublicDecryptionResponsePayload) (parsed : ParsedPublicPayloads crypto)
    (curResp : PublicDecryptionResponse) : Outcome (ParsedPublicPayloads crypto) :=
  match curResp.payload with
  | none => .ok parsed
  | some curPayload =>
    if curPayload.requestId = none then .ok parsed
    else if trustedCtx.extraData ≠ none ∧ trustedCtx.extraData ≠ some curResp.extraData then
      .ok parsed
    else do
      let curVerfKey ← Outcome.ofExcept (crypto.deserializeKey curPayload.verificationKey)
      if foundNewVerfKey parsed.verificationKeys curVerfKey
          (trustedCtx.serverPks.entries.map Sigma.snd) then
        let valid ← validatePublicDecryptMetaData trustedCtx.extHandlesBytes pivotPayload
          curPayload curResp.signature (trustedCtx.eip712Params curResp)
        if valid ∧ pivotPayload.plaintexts.length = curPayload.plaintexts.length then
          .ok ⟨insert curVerfKey parsed.verificationKeys, parsed.payloads ++ [curPayload]⟩
        else .ok parsed
      else .ok parsed

def validatePublicDecryptResponses
    (aggResp : List PublicDecryptionResponse) : Outcome (List PublicDecryptionResponsePayload) :=
  if aggResp = [] then Outcome.err "No responses to validate in public decryption!"
  else if trustedCtx.serverPks.entries = [] then
    Outcome.err "No servers configured in trusted public decryption context"
  else
    match selectMostCommonPublicDec ((trustedCtx.serverPks.entries.length - 1) / 3 + 1) aggResp with
    | none => Outcome.err "Cannot find public decryption pivot"
    | some pivotPayload => do
        let parsed ← aggResp.foldlM (parsePublicResponse trustedCtx pivotPayload) ⟨∅, []⟩
        return parsed.payloads

def checkFheTypes : List (TypedCiphertext × TypedPlaintext) → Outcome Unit
  | [] => .ok ()
  | (ct, pt) :: rest =>
    if ct.fheType ≠ pt.fheType then
      Outcome.err "Plaintext type mismatch in public decryption response"
    else checkFheTypes rest

def checkAgainstRequest (req : PublicDecryptionRequest crypto)
    (pivotPayload : PublicDecryptionResponsePayload) : Outcome Unit :=
  if req.ciphertexts.length ≠ pivotPayload.plaintexts.length then
    Outcome.err "The number of ciphertexts in the public decryption response is wrong"
  else do
    checkFheTypes (req.ciphertexts.zip pivotPayload.plaintexts)
    match req.requestId, pivotPayload.requestId with
    | some expected, some actual =>
      if expected ≠ actual then
        Outcome.err ("The public decryption response is not linked to the correct public " ++
          "decryption request")
      else .ok ()
    | _, _ => Outcome.err "Request ID is not set in public decryption response"

def validatePublicDecryptResponsesAgainstRequest
    (minAgreeCount : ℕ)
    (aggResp : List PublicDecryptionResponse) : Outcome Unit := do
  let respParsedPayloads ← validatePublicDecryptResponses trustedCtx aggResp
  if respParsedPayloads.length < minAgreeCount then
    Outcome.err "Not enough correct public decryption responses to decrypt the data!"
  else
    match trustedCtx.request with
    | none => .ok ()
    | some req =>
      match respParsedPayloads with
      | [] => Outcome.panic "index out of bounds: the len is 0 but the index is 0"
      | pivotPayload :: _ => checkAgainstRequest req pivotPayload

def getServerPks : ServerIdentities crypto → Outcome (HashMap UInt32 crypto.Key)
  | .pks inner => .ok inner
  | .addrs _ => Outcome.err "expected public keys, got addresses"

def eip712DomainOf : Option (PublicDecryptionRequest crypto) → Outcome (Option crypto.Domain)
  | some req => do
      let domain ← Outcome.ofExcept (crypto.optionalProtobufToAlloyDomain req.domain)
      return some domain
  | none => .ok none

/-- The last check of one response, whether or not it was validated. -/
def checkResponseSignature (crypto : PublicCrypto) (curResp : PublicDecryptionResponse) :
    Outcome Unit :=
  match curResp.payload with
  | none => Outcome.err "No payload in current response!"
  | some curPayload => do
      let sig ← Outcome.ofExcept (crypto.signatureFromSlice curResp.signature)
      let curVerfKey ← Outcome.ofExcept (crypto.deserializeKey curPayload.verificationKey)
      let bytes ← Outcome.ofExcept (crypto.serializePublic curPayload)
      internalVerifySig crypto.toCrypto dsepPublicDecryption bytes sig curVerfKey

def trustedContext (serverPks : HashMap UInt32 crypto.Key) (eip712Domain : Option crypto.Domain)
    (request : Option (PublicDecryptionRequest crypto)) :
    PublicDecTrustedValidationContext crypto where
  serverPks := serverPks
  eip712Domain := eip712Domain
  extHandlesBytes := (request.map (fun req => req.ciphertexts.map (·.externalHandle))).getD []
  extraData := request.map (·.extraData)
  request := request

def processDecryptionResp (serverIdentities : ServerIdentities crypto)
    (request : Option (PublicDecryptionRequest crypto)) (minAgreeCount : ℕ)
    (aggResp : List PublicDecryptionResponse) : Outcome (List TypedPlaintext) := do
  let eip712Domain ← eip712DomainOf request
  let serverPks ← getServerPks serverIdentities
  validatePublicDecryptResponsesAgainstRequest (trustedContext serverPks eip712Domain request)
    minAgreeCount aggResp
  match selectMostCommonPublicDec minAgreeCount aggResp with
  | none => Outcome.err "No elements in public decryption response"
  | some pivotPayload =>
    aggResp.forM (checkResponseSignature crypto)
    return pivotPayload.plaintexts

end ThresholdKms
