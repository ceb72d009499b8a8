import ThresholdKms.PublicDecryptionValidation
import ThresholdKms.MostCommonResponse
import ThresholdKms.UserDecryptionSoundness

/-!
# Soundness of public decryption at the client

The plaintexts that the client returns come from the second vote. It is over the same responses as
the first one, so it picks the pivot that the validated payloads were compared with.
-/

namespace ThresholdKms

open Outcome

variable {crypto : PublicCrypto} {trustedCtx : PublicDecTrustedValidationContext crypto}
  {pivot : PublicDecryptionResponsePayload} {parsed parsed' : ParsedPublicPayloads crypto}
  {key : crypto.Key}

theorem foundNewVerfKey_eq_true {verificationKeys : Finset crypto.Key}
    {registered : List crypto.Key} :
    foundNewVerfKey verificationKeys key registered = true ↔
      key ∈ registered ∧ key ∉ verificationKeys := by
  induction registered with
  | nil => simp [foundNewVerfKey]
  | cons other registered ih =>
    rw [foundNewVerfKey]
    split_ifs with h
    · simp [h]
    · simp [ih, Ne.symm h]

/-- The signature of the response is one over its payload under the key that it names. -/
structure SignatureValid (crypto : PublicCrypto) (resp : PublicDecryptionResponse)
    (p : PublicDecryptionResponsePayload) (key : crypto.Key) : Prop where
  deserialized : crypto.deserializeKey p.verificationKey = .ok key
  verified : ∃ sig bytes, crypto.signatureFromSlice resp.signature = .ok sig ∧
    crypto.serializePublic p = .ok bytes ∧
    internalVerifySig crypto.toCrypto dsepPublicDecryption bytes sig key = .ok ()

variable {resp : PublicDecryptionResponse}

theorem checkResponseSignature_eq_ok :
    checkResponseSignature crypto resp = .ok () ↔
      ∃ p key, resp.payload = some p ∧ SignatureValid crypto resp p key := by
  rw [checkResponseSignature]
  cases hp : resp.payload with
  | none => simp [err]
  | some p =>
    constructor
    · intro h
      obtain ⟨sig, hsig, h⟩ := bind_eq_ok.mp h
      obtain ⟨key, hkey, h⟩ := bind_eq_ok.mp h
      obtain ⟨bytes, hbytes, h⟩ := bind_eq_ok.mp h
      exact ⟨p, key, rfl, ofExcept_eq_ok.mp hkey, sig, bytes,
        ofExcept_eq_ok.mp hsig, ofExcept_eq_ok.mp hbytes, h⟩
    · rintro ⟨p', key, hp', hkey, sig, bytes, hsig, hbytes, h⟩
      rw [Option.some_inj] at hp'
      subst hp'
      dsimp only
      rw [hsig, hkey, hbytes]
      exact h

variable {aggResp : List PublicDecryptionResponse}

theorem forM_checkResponseSignature :
    aggResp.forM (checkResponseSignature crypto) = .ok () ↔
      ∀ resp ∈ aggResp, checkResponseSignature crypto resp = .ok () := by
  rw [List.forM_eq_forM]
  induction aggResp with
  | nil => simp
  | cons resp aggResp ih =>
    rw [List.forM_cons, List.forall_mem_cons, ← ih, bind_eq_ok, Unique.exists_iff]

/-- What a payload that enters the validated ones has passed. -/
structure PublicAccepted (trustedCtx : PublicDecTrustedValidationContext crypto)
    (pivot : PublicDecryptionResponsePayload) (resp : PublicDecryptionResponse)
    (p : PublicDecryptionResponsePayload) (key : crypto.Key) : Prop where
  requestId : p.requestId = pivot.requestId
  plaintexts : p.plaintexts = pivot.plaintexts
  signature : SignatureValid crypto resp p key
  registered : key ∈ trustedCtx.serverPks.entries.map Sigma.snd

variable {p : PublicDecryptionResponsePayload}

theorem signatureValid_of_metaData {handles : List Bytes}
    {params : Option (Eip712VerificationParams crypto)}
    (hkey : crypto.deserializeKey p.verificationKey = .ok key)
    (h : validatePublicDecryptMetaData handles pivot p resp.signature params = .ok true) :
    p.requestId = pivot.requestId ∧ p.plaintexts = pivot.plaintexts ∧
      SignatureValid crypto resp p key := by
  rw [validatePublicDecryptMetaData] at h
  split_ifs at h with hid hpts
  · cases h
  · cases h
  · obtain ⟨sig, hsig, h⟩ := bind_eq_ok.mp h
    obtain ⟨key', hkey', h⟩ := bind_eq_ok.mp h
    obtain rfl : key = key' :=
      Except.ok.inj (hkey.symm.trans (ofExcept_eq_ok.mp hkey'))
    obtain ⟨bytes, hbytes, h⟩ := bind_eq_ok.mp h
    cases hverify : internalVerifySig crypto.toCrypto dsepPublicDecryption bytes sig key with
    | error e => simp [hverify] at h
    | ok u =>
      exact ⟨(not_not.mp hid).symm, (not_not.mp hpts).symm, hkey, sig, bytes,
        ofExcept_eq_ok.mp hsig, ofExcept_eq_ok.mp hbytes, hverify⟩

/-- A response adds nothing, or a payload that passed all checks, under a new key. -/
theorem parsePublicResponse_cases
    (h : parsePublicResponse trustedCtx pivot parsed resp = .ok parsed') :
    parsed' = parsed ∨ ∃ p key, PublicAccepted trustedCtx pivot resp p key ∧
      key ∉ parsed.verificationKeys ∧
      parsed' = ⟨insert key parsed.verificationKeys, parsed.payloads ++ [p]⟩ := by
  rw [parsePublicResponse] at h
  cases hp : resp.payload with
  | none =>
    simp only [hp, Except.ok.injEq] at h
    exact Or.inl h.symm
  | some p =>
    simp only [hp] at h
    split_ifs at h with hid hextra
    · exact Or.inl (Except.ok.inj h).symm
    · exact Or.inl (Except.ok.inj h).symm
    · obtain ⟨key, hkey, h⟩ := bind_eq_ok.mp h
      by_cases hnew : foundNewVerfKey parsed.verificationKeys key
        (trustedCtx.serverPks.entries.map Sigma.snd) = true
      · rw [if_pos hnew] at h
        obtain ⟨valid, hvalid, h⟩ := bind_eq_ok.mp h
        split_ifs at h with hok
        · rw [hok.1] at hvalid
          have hkey' := ofExcept_eq_ok.mp hkey
          obtain ⟨hid', hpts, hsig⟩ := signatureValid_of_metaData hkey' hvalid
          obtain ⟨hreg, hfresh⟩ := foundNewVerfKey_eq_true.mp hnew
          exact Or.inr ⟨p, key, ⟨hid', hpts, hsig, hreg⟩, hfresh, (Except.ok.inj h).symm⟩
        · exact Or.inl (Except.ok.inj h).symm
      · rw [if_neg hnew] at h
        exact Or.inl (Except.ok.inj h).symm

/-- One payload for every key, each accepted in a response under that key. -/
structure PublicParsedInvariant (trustedCtx : PublicDecTrustedValidationContext crypto)
    (pivot : PublicDecryptionResponsePayload)
    (parsed : ParsedPublicPayloads crypto) : Prop where
  count : parsed.payloads.length = parsed.verificationKeys.card
  requestId : ∀ p ∈ parsed.payloads, p.requestId = pivot.requestId
  plaintexts : ∀ p ∈ parsed.payloads, p.plaintexts = pivot.plaintexts
  accepted : ∀ key ∈ parsed.verificationKeys, ∃ resp p, PublicAccepted trustedCtx pivot resp p key

theorem publicParsedInvariant_init : PublicParsedInvariant trustedCtx pivot ⟨∅, []⟩ where
  count := rfl
  requestId := fun _ hp => absurd hp List.not_mem_nil
  plaintexts := fun _ hp => absurd hp List.not_mem_nil
  accepted := fun _ hkey => absurd hkey (Finset.notMem_empty _)

theorem PublicParsedInvariant.step (hinv : PublicParsedInvariant trustedCtx pivot parsed)
    (h : parsePublicResponse trustedCtx pivot parsed resp = .ok parsed') :
    PublicParsedInvariant trustedCtx pivot parsed' := by
  rcases parsePublicResponse_cases h with rfl | ⟨p, key, hp, hfresh, rfl⟩
  · exact hinv
  · refine ⟨?_, ?_, ?_, ?_⟩
    · rw [List.length_append, hinv.count, Finset.card_insert_of_notMem hfresh]
      rfl
    · exact List.forall_mem_append.mpr
        ⟨hinv.requestId, List.forall_mem_singleton.mpr hp.requestId⟩
    · exact List.forall_mem_append.mpr
        ⟨hinv.plaintexts, List.forall_mem_singleton.mpr hp.plaintexts⟩
    · exact (Finset.forall_mem_insert _ _ _).mpr ⟨⟨resp, p, hp⟩, hinv.accepted⟩

theorem PublicParsedInvariant.foldlM (hinv : PublicParsedInvariant trustedCtx pivot parsed)
    (h : aggResp.foldlM (parsePublicResponse trustedCtx pivot) parsed = .ok parsed') :
    PublicParsedInvariant trustedCtx pivot parsed' :=
  foldlM_of_ok _ (fun _ _ _ _ hinv hstep => hinv.step hstep) hinv h

theorem selectMostCommonPublicDec_unique {min₁ min₂ : ℕ}
    {p q : PublicDecryptionResponsePayload} (hp : selectMostCommonPublicDec min₁ aggResp = some p)
    (hq : selectMostCommonPublicDec min₂ aggResp = some q) : p = q := by
  rw [selectMostCommonPublicDec] at hp hq
  cases hi : selectMostCommon PublicDecryptionResponseInvariants.tryFrom min₁
    (aggResp.map (·.payload)) with
  | error e => simp [hi] at hp
  | ok i =>
    cases hj : selectMostCommon PublicDecryptionResponseInvariants.tryFrom min₂
      (aggResp.map (·.payload)) with
    | error e => simp [hj] at hq
    | ok j =>
      simp only [hi, hj] at hp hq
      obtain ⟨i, rfl, hp⟩ := Option.bind_eq_some_iff.mp hp
      obtain ⟨j, rfl, hq⟩ := Option.bind_eq_some_iff.mp hq
      rw [selectMostCommon_unique hi hj, hq] at hp
      exact (Option.some.inj hp).symm

theorem checkFheTypes_eq_ok {cts : List TypedCiphertext} {pts : List TypedPlaintext}
    (hlen : cts.length = pts.length) :
    checkFheTypes (cts.zip pts) = .ok () ↔ pts.map (·.fheType) = cts.map (·.fheType) := by
  induction cts generalizing pts with
  | nil =>
    rw [List.length_eq_zero_iff.mp hlen.symm]
    simp [checkFheTypes]
  | cons ct cts ih =>
    cases pts with
    | nil => simp at hlen
    | cons pt pts =>
      rw [List.zip_cons_cons, checkFheTypes, List.map_cons, List.map_cons]
      split_ifs with hne
      · simp [err, Ne.symm hne]
      · rw [ih (Nat.succ.inj hlen), not_not.mp hne]
        simp

theorem checkAgainstRequest_eq_ok {req : PublicDecryptionRequest crypto} :
    checkAgainstRequest req p = .ok () ↔
      p.plaintexts.map (·.fheType) = req.ciphertexts.map (·.fheType) ∧
        req.requestId ≠ none ∧ p.requestId = req.requestId := by
  rw [checkAgainstRequest]
  by_cases hlen : req.ciphertexts.length = p.plaintexts.length
  · rw [if_neg (not_not.mpr hlen), bind_eq_ok, ← checkFheTypes_eq_ok hlen]
    cases req.requestId with
    | none => simp [err]
    | some expected =>
      cases p.requestId with
      | none => simp [err]
      | some actual =>
        by_cases heq : expected = actual
        · simp [heq, Unique.exists_iff]
        · simp [heq, Ne.symm heq, err]
  · rw [if_pos hlen]
    refine iff_of_false (by simp [err]) ?_
    rintro ⟨htypes, -⟩
    have := congrArg List.length htypes
    rw [List.length_map, List.length_map] at this
    exact hlen this.symm

/-- What has to happen for the client to return the plaintexts of the pivot. -/
structure ProcessedResponses (serverPks : HashMap UInt32 crypto.Key)
    (req : PublicDecryptionRequest crypto) (domain : crypto.Domain) (minAgreeCount : ℕ)
    (aggResp : List PublicDecryptionResponse) (pivot : PublicDecryptionResponsePayload)
    (parsed : ParsedPublicPayloads crypto) : Prop where
  domain_ok : crypto.optionalProtobufToAlloyDomain req.domain = .ok domain
  nonempty : aggResp ≠ [] ∧ serverPks.entries ≠ []
  firstVote : selectMostCommonPublicDec ((serverPks.entries.length - 1) / 3 + 1) aggResp =
    some pivot
  validated : aggResp.foldlM (parsePublicResponse
    (trustedContext serverPks (some domain) (some req)) pivot) ⟨∅, []⟩ = .ok parsed
  enough : minAgreeCount ≤ parsed.payloads.length
  linked : ∃ first rest, parsed.payloads = first :: rest ∧ checkAgainstRequest req first = .ok ()
  secondVote : selectMostCommonPublicDec minAgreeCount aggResp = some pivot
  signatures : ∀ resp ∈ aggResp, checkResponseSignature crypto resp = .ok ()

theorem validatePublicDecryptResponses_eq_ok {ps : List PublicDecryptionResponsePayload} :
    validatePublicDecryptResponses trustedCtx aggResp = .ok ps ↔
      (aggResp ≠ [] ∧ trustedCtx.serverPks.entries ≠ []) ∧
      ∃ pivot parsed, selectMostCommonPublicDec
          ((trustedCtx.serverPks.entries.length - 1) / 3 + 1) aggResp = some pivot ∧
        aggResp.foldlM (parsePublicResponse trustedCtx pivot) ⟨∅, []⟩ = .ok parsed ∧
        ps = parsed.payloads := by
  rw [validatePublicDecryptResponses]
  split_ifs with hempty hservers
  · simp [err, hempty]
  · simp [err, hservers]
  · cases selectMostCommonPublicDec
      ((trustedCtx.serverPks.entries.length - 1) / 3 + 1) aggResp with
    | none => simp [err]
    | some pivot =>
      rw [bind_eq_ok]
      constructor
      · rintro ⟨parsed, hparsed, h⟩
        exact ⟨⟨hempty, hservers⟩, pivot, parsed, rfl, hparsed, (Except.ok.inj h).symm⟩
      · rintro ⟨-, pivot', parsed, hpivot, hparsed, rfl⟩
        obtain rfl := Option.some.inj hpivot
        exact ⟨parsed, hparsed, rfl⟩

variable {serverPks : HashMap UInt32 crypto.Key}

theorem processDecryptionResp_eq_ok {req : PublicDecryptionRequest crypto} {minAgreeCount : ℕ}
    {pts : List TypedPlaintext} :
    processDecryptionResp (.pks serverPks) (some req) minAgreeCount aggResp = .ok pts ↔
      ∃ domain pivot parsed,
        ProcessedResponses serverPks req domain minAgreeCount aggResp pivot parsed ∧
        pts = pivot.plaintexts := by
  rw [processDecryptionResp]
  constructor
  · intro h
    obtain ⟨_, hdomain, h⟩ := bind_eq_ok.mp h
    obtain ⟨domain, hmsg, hsome⟩ := bind_eq_ok.mp hdomain
    cases hsome
    rw [getServerPks, ok_bind] at h
    obtain ⟨u, hvalidate, h⟩ := bind_eq_ok.mp h
    obtain ⟨ps, hps, hvalidate⟩ := bind_eq_ok.mp hvalidate
    obtain ⟨hne, pivot, parsed, hpivot, hparsed, rfl⟩ :=
      validatePublicDecryptResponses_eq_ok.mp hps
    split_ifs at hvalidate with hlen
    · cases hvalidate
    · cases hps' : parsed.payloads with
      | nil =>
        simp only [trustedContext, hps'] at hvalidate
        cases hvalidate
      | cons first rest =>
        simp only [trustedContext, hps'] at hvalidate
        cases hvote : selectMostCommonPublicDec minAgreeCount aggResp with
        | none => simp [hvote, err] at h
        | some pivot' =>
          simp only [hvote] at h
          obtain ⟨u, hforM, h⟩ := bind_eq_ok.mp h
          obtain rfl := selectMostCommonPublicDec_unique hvote hpivot
          exact ⟨domain, pivot', parsed, ⟨ofExcept_eq_ok.mp hmsg, hne, hpivot, hparsed,
            not_lt.mp hlen, ⟨first, rest, hps', hvalidate⟩, hvote,
            forM_checkResponseSignature.mp hforM⟩, (Except.ok.inj h).symm⟩
  · rintro ⟨domain, pivot, parsed, h, rfl⟩
    obtain ⟨first, rest, hfirst, hcheck⟩ := h.linked
    have hdomain : eip712DomainOf (some req) = .ok (some domain) := by
      rw [eip712DomainOf, h.domain_ok]
      rfl
    have hps : validatePublicDecryptResponses (trustedContext serverPks (some domain) (some req))
        aggResp = .ok parsed.payloads :=
      validatePublicDecryptResponses_eq_ok.mpr
        ⟨h.nonempty, pivot, parsed, h.firstVote, h.validated, rfl⟩
    have hvalidate : validatePublicDecryptResponsesAgainstRequest
        (trustedContext serverPks (some domain) (some req)) minAgreeCount aggResp = .ok () := by
      rw [validatePublicDecryptResponsesAgainstRequest, hps, ok_bind,
        if_neg (not_lt.mpr h.enough), hfirst]
      exact hcheck
    rw [hdomain, ok_bind, getServerPks, ok_bind, hvalidate, h.secondVote]
    rw [forM_checkResponseSignature.mpr h.signatures]
    rfl

/-- The holder of the key signed a payload with these plaintexts for this request. -/
def SignedPlaintexts (signed : crypto.Key → Bytes → Prop) (requestId : Option (List Char))
    (pts : List TypedPlaintext) (key : crypto.Key) : Prop :=
  ∃ (p : PublicDecryptionResponsePayload) (bytes : Bytes), p.plaintexts = pts ∧
    p.requestId = requestId ∧ crypto.serializePublic p = .ok bytes ∧
    signed key (dsepPublicDecryption ++ bytes)

theorem exists_servers_of_keys {keys : Finset crypto.Key}
    (hkeys : ∀ key ∈ keys, key ∈ serverPks.entries.map Sigma.snd) :
    ∃ ids : Finset UInt32, ids.card = keys.card ∧
      ∀ id ∈ ids, ∃ key ∈ keys, serverPks.lookup id = some key := by
  have hid : ∀ key : keys, ∃ id, serverPks.lookup id = some key.1 := by
    rintro ⟨key, hkey⟩
    obtain ⟨⟨id, key'⟩, hmem, rfl⟩ := List.mem_map.mp (hkeys key hkey)
    exact ⟨id, AList.mem_lookup_iff.mpr hmem⟩
  choose f hf using hid
  refine ⟨keys.attach.image f, ?_, ?_⟩
  · rw [Finset.card_image_of_injective, Finset.card_attach]
    intro a b hab
    have ha := hf a
    rw [hab, hf b, Option.some_inj] at ha
    exact Subtype.ext ha.symm
  · intro id hmem
    obtain ⟨key, -, rfl⟩ := Finset.mem_image.mp hmem
    exact ⟨key.1, key.2, hf key⟩

section Unforgeable

variable {signed : crypto.Key → Bytes → Prop}
  (hunforgeable : ∀ key msg sig, crypto.verify key msg sig = .ok () → signed key msg)
include hunforgeable

theorem PublicAccepted.signedPlaintexts (h : PublicAccepted trustedCtx pivot resp p key) :
    SignedPlaintexts signed pivot.requestId pivot.plaintexts key := by
  obtain ⟨sig, bytes, -, hbytes, hverify⟩ := h.signature.verified
  rw [internalVerifySig] at hverify
  split_ifs at hverify
  · exact ⟨p, bytes, h.plaintexts, h.requestId, hbytes,
      hunforgeable _ _ _ (ofExcept_eq_ok.mp hverify)⟩
  · cases hverify

/-- The plaintexts that the client returns were signed for its request by as many registered servers
as it asked for, and fit the ciphertexts of the request. -/
theorem processDecryptionResp_sound {req : PublicDecryptionRequest crypto} {minAgreeCount : ℕ}
    {aggResp : List PublicDecryptionResponse} {pts : List TypedPlaintext}
    (h : processDecryptionResp (.pks serverPks) (some req) minAgreeCount aggResp = .ok pts) :
    (∃ ids : Finset UInt32, minAgreeCount ≤ ids.card ∧ ∀ id ∈ ids, ∃ key,
      serverPks.lookup id = some key ∧ SignedPlaintexts signed req.requestId pts key) ∧
    req.requestId ≠ none ∧ pts.map (·.fheType) = req.ciphertexts.map (·.fheType) := by
  obtain ⟨domain, pivot, parsed, hp, rfl⟩ := processDecryptionResp_eq_ok.mp h
  have hinv := publicParsedInvariant_init.foldlM hp.validated
  obtain ⟨first, rest, hfirst, hcheck⟩ := hp.linked
  obtain ⟨htypes, hsome, hid⟩ := checkAgainstRequest_eq_ok.mp hcheck
  have hmem : first ∈ parsed.payloads := hfirst ▸ List.mem_cons_self
  rw [hinv.plaintexts first hmem] at htypes
  rw [hinv.requestId first hmem] at hid
  have hregistered : ∀ key ∈ parsed.verificationKeys, key ∈ serverPks.entries.map Sigma.snd := by
    intro key hkey
    obtain ⟨resp, p, hp⟩ := hinv.accepted key hkey
    exact hp.registered
  obtain ⟨ids, hcard, hids⟩ := exists_servers_of_keys hregistered
  have henough : minAgreeCount ≤ ids.card := by
    rw [hcard, ← hinv.count]
    exact hp.enough
  refine ⟨⟨ids, henough, ?_⟩, hsome, htypes⟩
  intro id hid'
  obtain ⟨key, hkey, hlookup⟩ := hids id hid'
  obtain ⟨resp, p, hp⟩ := hinv.accepted key hkey
  exact ⟨key, hlookup, hid ▸ hp.signedPlaintexts hunforgeable⟩

end Unforgeable

/-- Signatures by a log, as for user decryptions; an external signature starts with its signer. -/
def idealSignatures (log : List (Bytes × Bytes)) : Crypto :=
  { idealCrypto log with recoverAddressFromPrehash := fun sig _ _ => .ok (sig.take 1) }

instance (log : List (Bytes × Bytes)) : DecidableEq (idealSignatures log).Key :=
  inferInstanceAs (DecidableEq Bytes)

def idealPublicCrypto (log : List (Bytes × Bytes)) : PublicCrypto where
  toCrypto := idealSignatures log
  DomainMsg := Unit
  keyDecidableEq := inferInstanceAs (DecidableEq (idealSignatures log).Key)
  serializePublic := fun p => .ok (p.verificationKey ++ p.plaintexts.flatMap (·.bytes) ++
    (p.requestId.getD []).map (fun c => UInt8.ofNat c.toNat))
  optionalProtobufToAlloyDomain := fun _ => .ok ()
  abiEncodePlaintexts := fun pts => .ok (pts.flatMap (·.bytes))
  publicSigningHash := fun data _ => ⟨[], data.ctHandles, data.decryptedResult, data.extraData⟩

def publicRequestId : List Char := List.replicate 64 'a'

def publicPayload (id : UInt8) (requestId : List Char) : PublicDecryptionResponsePayload :=
  ⟨[id], [⟨[5], 2⟩], some requestId⟩

def publicResponse (id : UInt8) (requestId : List Char) : PublicDecryptionResponse :=
  ⟨[1], id :: List.replicate 64 0, some (publicPayload id requestId), []⟩

def publicLog (requestId : List Char) : List (Bytes × Bytes) :=
  [1, 2, 3, 4].map (fun id : UInt8 => ([id], dsepPublicDecryption ++
    ([id] ++ [5] ++ requestId.map (fun c => UInt8.ofNat c.toNat))))

/-- Every server signed the answer to the request, with and without `0x`. -/
def fourCrypto : PublicCrypto :=
  idealPublicCrypto (publicLog publicRequestId ++ publicLog ('0' :: 'x' :: publicRequestId))

def fourKeys : HashMap UInt32 Bytes :=
  [1, 2, 3, 4].foldl (fun m (id : UInt32) => AList.insert id ([id.toUInt8] : Bytes) m) ∅

def fourServers : HashMap UInt32 fourCrypto.Key := fourKeys

def publicRequest : PublicDecryptionRequest fourCrypto where
  requestId := some publicRequestId
  ciphertexts := [⟨2, [9]⟩]
  domain := some ()
  extraData := []

/-- One server answers twice; the other three are enough. -/
theorem processDecryptionResp_sound_four_servers :
    ∃ pts, processDecryptionResp (.pks fourServers) (some publicRequest) 3
        [publicResponse 2 publicRequestId, publicResponse 2 publicRequestId,
          publicResponse 1 publicRequestId, publicResponse 4 publicRequestId] = .ok pts ∧
      ∃ ids : Finset UInt32, 3 ≤ ids.card ∧ ∀ id ∈ ids, ∃ key, fourServers.lookup id = some key ∧
        SignedPlaintexts (fun key msg => fourCrypto.verify key msg ([] : Bytes) = .ok ())
          publicRequest.requestId pts key := by
  have h : processDecryptionResp (.pks fourServers) (some publicRequest) 3
      [publicResponse 2 publicRequestId, publicResponse 2 publicRequestId,
        publicResponse 1 publicRequestId, publicResponse 4 publicRequestId] = .ok [⟨[5], 2⟩] := by
    decide +kernel
  exact ⟨_, h, (processDecryptionResp_sound (fun _ _ _ hverify => hverify) h).1⟩

end ThresholdKms
