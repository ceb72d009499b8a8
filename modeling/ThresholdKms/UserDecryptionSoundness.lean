import ThresholdKms.UserDecryptionResponse

/-!
# Soundness of response validation

The signatures that the client accepts are those of a record of what was signed. `ParsedInvariant`
holds of the payloads kept so far throughout the loop over the responses, and `Validated` of those
that are returned.
-/

namespace ThresholdKms

open Outcome

/-- What the holders of signing keys signed. -/
structure SigningRecord (crypto : Crypto) where
  signedBytes : crypto.Key → Bytes → Prop
  signedMessage : crypto.Address → UserDecryptResponseVerification → crypto.Domain → Prop

structure SigningRecord.Unforgeable {crypto : Crypto} (record : SigningRecord crypto) : Prop where
  verify : ∀ key msg sig, crypto.verify key msg sig = .ok () → record.signedBytes key msg
  recover : ∀ sig parity data domain addr,
    crypto.recoverAddressFromPrehash sig parity (crypto.responseSigningHash data domain) =
      .ok addr → record.signedMessage addr data domain

variable {crypto : Crypto} {record : SigningRecord crypto}
  {ctx : UserDecTrustedValidationContext crypto}

/-- The holder of `addr` signed the payload, as bytes or inside the message for the request. -/
def SignedBy (record : SigningRecord crypto) (ctx : UserDecTrustedValidationContext crypto)
    (addr : crypto.Address) (p : UserDecryptionResponsePayload) : Prop :=
  (∃ key bytes, crypto.address key = addr ∧ crypto.serialize p = .ok bytes ∧
    record.signedBytes key (dsepUserDecryption ++ bytes)) ∨
  ∃ message, computeUserDecryptMessage crypto p ctx.clientRequest.encKey
      ctx.clientRequest.extraData = .ok message ∧
    record.signedMessage addr message ctx.eip712Domain

def SignedByRegistered (record : SigningRecord crypto)
    (ctx : UserDecTrustedValidationContext crypto) (p : UserDecryptionResponsePayload) : Prop :=
  ∃ addr, ctx.serverAddresses.lookup p.partyId = some addr ∧ SignedBy record ctx addr p

theorem eq_of_compareFheTypes {pivot other : UserDecryptionResponsePayload}
    {types types' : List FheTypes} (hlen : types.length = types'.length)
    (h : compareFheTypes pivot other (types.zip types') = .ok ()) : types = types' := by
  induction types generalizing types' with
  | nil => exact (List.length_eq_zero_iff.mp hlen.symm).symm
  | cons a types ih =>
    cases types' with
    | nil => simp at hlen
    | cons b types' =>
      rw [List.zip_cons_cons, compareFheTypes] at h
      split_ifs at h with hab
      · cases h
      · rw [not_not.mp hab, ih (Nat.succ.inj hlen) h]

theorem partyId_bounds {id degree : UInt32} (hle : ¬ id > degree * 3 + 1) (hpos : id ≠ 0) :
    1 ≤ id.toNat ∧ id.toNat ≤ 3 * degree.toNat + 1 := by
  have hid : id.toNat ≠ 0 := fun h => hpos (UInt32.toNat_inj.mp h)
  have hle' : id.toNat ≤ (degree * 3 + 1).toNat := UInt32.le_iff_toNat_le.mp (UInt32.not_lt.mp hle)
  have hmul : (degree * 3 + 1).toNat = (degree.toNat * 3 % 2 ^ 32 + 1) % 2 ^ 32 := by
    rfl
  omega

/-- There are at most `2 ^ 32` registered servers. -/
theorem expectedThreshold_lt (h : ∀ t, ctx.threshold = some t → t < 2 ^ 32) :
    ctx.expectedThreshold < 2 ^ 32 := by
  rw [UserDecTrustedValidationContext.expectedThreshold]
  cases hthreshold : ctx.threshold with
  | some t => exact h t hthreshold
  | none =>
    have hkeys : (ctx.serverAddresses.keys.map UInt32.toFin).Nodup :=
      ctx.serverAddresses.keys_nodup.map (fun _ _ h => UInt32.toFin_inj.mp h)
    have hle := hkeys.length_le_card
    rw [List.length_map, AList.keys, List.keys, List.length_map, Fintype.card_fin] at hle
    have hsize : UInt32.size = 2 ^ 32 := rfl
    simp only [Option.getD_none]
    omega

/-- The values of `f` on the list are distinct, and among those that were seen. -/
structure FirstSeen {α β : Type} (f : α → β) (l : List α) (seen : Finset β) : Prop where
  nodup : (l.map f).Nodup
  seen : ∀ a ∈ l, f a ∈ seen

theorem FirstSeen.nil {α β : Type} (f : α → β) : FirstSeen f [] ∅ :=
  ⟨List.nodup_nil, fun _ ha => absurd ha List.not_mem_nil⟩

theorem FirstSeen.append {α β : Type} [DecidableEq β] {f : α → β} {l : List α} {seen : Finset β}
    {a : α} (h : FirstSeen f l seen) (ha : f a ∉ seen) :
    FirstSeen f (l ++ [a]) (insert (f a) seen) where
  nodup := by
    rw [List.map_append, List.map_singleton, ← List.concat_eq_append, List.nodup_concat]
    refine ⟨fun hmem => ?_, h.nodup⟩
    obtain ⟨b, hb, heq⟩ := List.mem_map.mp hmem
    exact ha (heq ▸ h.seen b hb)
  seen := List.forall_mem_append.mpr ⟨fun b hb => Finset.mem_insert_of_mem (h.seen b hb),
    List.forall_mem_singleton.mpr (Finset.mem_insert_self _ _)⟩

section Unforgeable

variable {resp : UserDecryptionResponse} (hrecord : record.Unforgeable)
include hrecord

theorem signedBy_of_checkSignature {p : UserDecryptionResponsePayload} {key : crypto.Key}
    (h : checkSignature ctx resp p key (crypto.address key) = .ok ()) :
    SignedBy record ctx (crypto.address key) p := by
  rw [checkSignature] at h
  split_ifs at h with hsig hext hextra
  · cases h
  · cases h
  · obtain ⟨message, hmessage, h⟩ := bind_eq_ok.mp h
    obtain ⟨addr, haddr, h⟩ := bind_eq_ok.mp h
    rw [recoverAddressFromExtSignature] at haddr
    split_ifs at haddr with hlen
    · cases haddr
    · split_ifs at h with heq
      · subst heq
        exact Or.inr ⟨message, hmessage,
          hrecord.recover _ _ _ _ _ (ofExcept_eq_ok.mp haddr)⟩
      · cases h
  · obtain ⟨sig, -, h⟩ := bind_eq_ok.mp h
    obtain ⟨bytes, hbytes, h⟩ := bind_eq_ok.mp h
    cases hverify : internalVerifySig crypto dsepUserDecryption bytes sig key with
    | error e => simp [hverify, err] at h
    | ok u =>
      rw [internalVerifySig] at hverify
      split_ifs at hverify with hnormalized
      · exact Or.inl ⟨key, bytes, rfl, ofExcept_eq_ok.mp hbytes,
          hrecord.verify _ _ _ (ofExcept_eq_ok.mp hverify)⟩
      · cases hverify

/-- The checks that one payload passed. -/
structure Accepted (record : SigningRecord crypto) (ctx : UserDecTrustedValidationContext crypto)
    (pivot p : UserDecryptionResponsePayload) : Prop where
  fheTypes : ∃ types, types ≠ [] ∧ pivot.fheTypes crypto = .ok types ∧
    p.fheTypes crypto = .ok types
  digest : p.digest = pivot.digest
  degree : p.degree = pivot.degree
  partyId_pos : 1 ≤ p.partyId.toNat
  partyId_le : p.partyId.toNat ≤ 3 * p.degree.toNat + 1
  packingFactors : p.packingFactors = pivot.packingFactors
  signed : SignedByRegistered record ctx p

theorem of_validateMetaData {pivot p : UserDecryptionResponsePayload}
    (h : validateUserDecryptMetaDataAndSignature ctx pivot resp p = .ok ()) :
    (∃ types, types ≠ [] ∧ pivot.fheTypes crypto = .ok types ∧ p.fheTypes crypto = .ok types) ∧
      p.digest = pivot.digest ∧ SignedByRegistered record ctx p := by
  obtain ⟨pivotType, hpivot, h⟩ := bind_eq_ok.mp h
  obtain ⟨checkType, hcheck, h⟩ := bind_eq_ok.mp h
  obtain ⟨hlen, h⟩ := guard_eq_ok.mp h
  obtain ⟨u, hcompare, h⟩ := bind_eq_ok.mp h
  obtain ⟨hdigest, h⟩ := guard_eq_ok.mp h
  obtain ⟨key, -, h⟩ := bind_eq_ok.mp h
  obtain ⟨addr, haddr, h⟩ := bind_eq_ok.mp h
  rw [expectedServer] at haddr
  cases hlookup : ctx.serverAddresses.lookup p.partyId with
  | none => simp [hlookup, err] at haddr
  | some expected =>
    simp only [hlookup] at haddr
    split_ifs at haddr with heq
    · cases haddr
    · rw [not_or, not_or, not_not] at hlen
      have htypes := eq_of_compareFheTypes hlen.1 hcompare
      subst htypes
      cases haddr
      rw [not_not] at heq
      subst heq
      exact ⟨⟨pivotType, hlen.2.1, hpivot, hcheck⟩, (not_not.mp hdigest).symm,
        ⟨_, hlookup, signedBy_of_checkSignature hrecord h⟩⟩

/-- A response either adds no payload, or adds one that passed all checks. -/
theorem parseResponse_cases (ctx : UserDecTrustedValidationContext crypto)
    (pivot : UserDecryptionResponsePayload) (parsed : ParsedPayloads) (resp : UserDecryptionResponse) :
    (∃ ids, parsed.partyIds ⊆ ids ∧
      parseResponse ctx pivot parsed resp = { parsed with partyIds := ids }) ∨
    ∃ p, Accepted record ctx pivot p ∧ p.partyId ∉ parsed.partyIds ∧
      p.verificationKey ∉ parsed.verificationKeys ∧
      parseResponse ctx pivot parsed resp = ⟨insert p.partyId parsed.partyIds,
        insert p.verificationKey parsed.verificationKeys, parsed.payloads ++ [p]⟩ := by
  have hsame : ∃ ids, parsed.partyIds ⊆ ids ∧ parsed = { parsed with partyIds := ids } :=
    ⟨parsed.partyIds, subset_rfl, rfl⟩
  have hseen : ∀ id, ∃ ids, parsed.partyIds ⊆ ids ∧
      { parsed with partyIds := insert id parsed.partyIds } = { parsed with partyIds := ids } :=
    fun id => ⟨insert id parsed.partyIds, Finset.subset_insert _ _, rfl⟩
  rw [parseResponse]
  cases resp.payload with
  | none => exact Or.inl hsame
  | some p =>
    dsimp only
    cases hmeta : validateUserDecryptMetaDataAndSignature ctx pivot resp p with
    | error e => exact Or.inl hsame
    | ok u =>
      obtain ⟨htypes, hdigest, hsigned⟩ := of_validateMetaData hrecord hmeta
      split_ifs with hdegree hle hzero hid hkey hnum hpacking
      · exact Or.inl hsame
      · exact Or.inl hsame
      · exact Or.inl hsame
      · exact Or.inl hsame
      · exact Or.inl (hseen _)
      · exact Or.inl (hseen _)
      · exact Or.inl (hseen _)
      · have hbounds := partyId_bounds hle hzero
        exact Or.inr ⟨p, ⟨htypes, hdigest, (not_not.mp hdegree).symm, hbounds.1, hbounds.2,
          (not_not.mp hpacking).symm, hsigned⟩, hid, hkey, rfl⟩

structure ParsedInvariant (record : SigningRecord crypto)
    (ctx : UserDecTrustedValidationContext crypto) (pivot : UserDecryptionResponsePayload)
    (parsed : ParsedPayloads) : Prop where
  accepted : ∀ p ∈ parsed.payloads, Accepted record ctx pivot p
  partyIds : FirstSeen (·.partyId) parsed.payloads parsed.partyIds
  keys : FirstSeen (·.verificationKey) parsed.payloads parsed.verificationKeys

omit hrecord in
theorem parsedInvariant_init (pivot : UserDecryptionResponsePayload) :
    ParsedInvariant record ctx pivot ⟨∅, ∅, []⟩ where
  accepted := fun _ hp => absurd hp List.not_mem_nil
  partyIds := .nil _
  keys := .nil _

theorem ParsedInvariant.step {pivot : UserDecryptionResponsePayload} {parsed : ParsedPayloads}
    (h : ParsedInvariant record ctx pivot parsed) (resp : UserDecryptionResponse) :
    ParsedInvariant record ctx pivot (parseResponse ctx pivot parsed resp) := by
  rcases parseResponse_cases hrecord ctx pivot parsed resp with
    ⟨ids, hids, heq⟩ | ⟨p, hp, hid, hkey, heq⟩
  · rw [heq]
    exact ⟨h.accepted, ⟨h.partyIds.nodup, fun q hq => hids (h.partyIds.seen q hq)⟩, h.keys⟩
  · rw [heq]
    exact ⟨List.forall_mem_append.mpr ⟨h.accepted, List.forall_mem_singleton.mpr hp⟩,
      h.partyIds.append hid, h.keys.append hkey⟩

theorem ParsedInvariant.foldl {pivot : UserDecryptionResponsePayload}
    (aggResp : List UserDecryptionResponse) {parsed : ParsedPayloads} (h : ParsedInvariant record ctx pivot parsed) :
    ParsedInvariant record ctx pivot (aggResp.foldl (parseResponse ctx pivot) parsed) :=
  List.foldlRecOn aggResp _ h (fun _ h resp _ => h.step hrecord resp)

/-- The conclusion of the checks of `validateUserDecryptResponses`. -/
structure Validated (record : SigningRecord crypto) (ctx : UserDecTrustedValidationContext crypto)
    (pivot : UserDecryptionResponsePayload) (ps : List UserDecryptionResponsePayload) : Prop where
  accepted : ∀ p ∈ ps, Accepted record ctx pivot p
  partyIds_nodup : (ps.map (·.partyId)).Nodup
  keys_nodup : (ps.map (·.verificationKey)).Nodup
  pivot_degree : pivot.degree = UInt32.ofNat ctx.expectedThreshold
  enough : pivot.degree.toNat < ps.length

variable {aggResp : List UserDecryptionResponse} {ps : List UserDecryptionResponsePayload}

theorem validated_of_validate (h : validateUserDecryptResponses ctx aggResp = .ok ps) :
    ∃ pivot, Validated record ctx pivot ps := by
  rw [validateUserDecryptResponses] at h
  split_ifs at h with hempty hservers hoverflow
  · cases h
  · cases h
  · cases h
  · cases hpivot : selectMostCommonUserDec (ctx.expectedThreshold + 1) aggResp with
    | none =>
      rw [hpivot] at h
      cases h
    | some pivot =>
      simp only [hpivot] at h
      split_ifs at h with hdegree hlen
      · cases h
      · cases h
      · cases h
        have hinit : ParsedInvariant record ctx pivot ⟨∅, ∅, []⟩ := parsedInvariant_init pivot
        have hinv := hinit.foldl hrecord aggResp
        exact ⟨pivot, hinv.accepted, hinv.partyIds.nodup, hinv.keys.nodup,
          not_not.mp hdegree, not_le.mp hlen⟩

/-!
## Payloads validated against the request

The payloads that pass validation are what a decryption needs. The expected threshold is cast to 32
bits before it is compared with the degree of the pivot; the cast loses nothing, as an override of
the threshold only comes from the client for 32-bit targets.
-/

/-- What the client relies on when it decrypts with the payloads `ps`. -/
structure SoundPayloads (record : SigningRecord crypto)
    (ctx : UserDecTrustedValidationContext crypto) (ps : List UserDecryptionResponsePayload) :
    Prop where
  partyIds_nodup : (ps.map (·.partyId)).Nodup
  partyIds_range : ∀ p ∈ ps, 1 ≤ p.partyId.toNat ∧ p.partyId.toNat ≤ 3 * ctx.expectedThreshold + 1
  keys_nodup : (ps.map (·.verificationKey)).Nodup
  signed : ∀ p ∈ ps, SignedByRegistered record ctx p
  degree : ∀ p ∈ ps, p.degree.toNat = ctx.expectedThreshold
  fheTypes : ∃ types, types ≠ [] ∧ ∀ p ∈ ps, p.fheTypes crypto = .ok types
  packingFactors : ∃ factors, ∀ p ∈ ps, p.packingFactors = factors
  digest : ∃ link, computeLink crypto ctx.clientRequest ctx.eip712Domain = .ok link ∧
    ∀ p ∈ ps, p.digest = link
  enough : ctx.expectedThreshold < ps.length

theorem exists_validated_of_validateAgainstRequest
    (h : validateUserDecryptResponsesAgainstRequest ctx aggResp = .ok (some ps)) :
    ∃ pivot, Validated record ctx pivot ps ∧
      computeLink crypto ctx.clientRequest ctx.eip712Domain = .ok pivot.digest := by
  obtain ⟨parsed, hparsed, h⟩ := Outcome.bind_eq_ok.mp h
  obtain ⟨pivot, hvalid⟩ := validated_of_validate hrecord hparsed
  cases parsed with
  | nil => cases h
  | cons first rest =>
    obtain ⟨link, hlink, h⟩ := Outcome.bind_eq_ok.mp h
    rw [Outcome.pure_eq_ok, Except.ok.injEq] at h
    split_ifs at h with hne
    rw [Option.some_inj] at h
    rw [not_not] at hne
    refine ⟨pivot, h ▸ hvalid, ?_⟩
    rw [hlink, hne, (hvalid.accepted first (List.mem_cons_self)).digest]

/-- Whatever the responses are, the client can rely on the payloads that validation returns. A
threshold that overrides the default is a `usize` of the 32-bit target. -/
theorem validateAgainstRequest_sound (hthreshold : ∀ t, ctx.threshold = some t → t < 2 ^ 32)
    (h : validateUserDecryptResponsesAgainstRequest ctx aggResp = .ok (some ps)) :
    SoundPayloads record ctx ps := by
  obtain ⟨pivot, hvalid, hlink⟩ := exists_validated_of_validateAgainstRequest hrecord h
  have hpos : 0 < ps.length := Nat.zero_lt_of_lt hvalid.enough
  obtain ⟨first, hfirst⟩ := List.exists_mem_of_length_pos hpos
  have hpivotDegree : pivot.degree.toNat = ctx.expectedThreshold := by
    rw [hvalid.pivot_degree, UInt32.toNat_ofNat', Nat.mod_eq_of_lt (expectedThreshold_lt hthreshold)]
  have hdegree : ∀ p ∈ ps, p.degree.toNat = ctx.expectedThreshold := by
    intro p hp
    rw [(hvalid.accepted p hp).degree, hpivotDegree]
  obtain ⟨types, hne, hpivot, -⟩ := (hvalid.accepted first hfirst).fheTypes
  refine ⟨hvalid.partyIds_nodup, ?_, hvalid.keys_nodup, fun p hp => (hvalid.accepted p hp).signed,
    hdegree, ⟨types, hne, ?_⟩, ⟨pivot.packingFactors, ?_⟩, ⟨pivot.digest, hlink, ?_⟩, ?_⟩
  · intro p hp
    rw [← hdegree p hp]
    exact ⟨(hvalid.accepted p hp).partyId_pos, (hvalid.accepted p hp).partyId_le⟩
  · intro p hp
    obtain ⟨types', -, hpivot', hp'⟩ := (hvalid.accepted p hp).fheTypes
    rw [hp', ← hpivot', hpivot]
  · exact fun p hp => (hvalid.accepted p hp).packingFactors
  · exact fun p hp => (hvalid.accepted p hp).digest
  · rw [← hpivotDegree]
    exact hvalid.enough

end Unforgeable

variable (log : List (Bytes × Bytes))

/-- Signatures as an ideal functionality: a signature verifies if the message is on the log. -/
def idealCrypto : Crypto where
  Key := Bytes
  Signature := Bytes
  Address := Bytes
  Domain := Unit
  Hash := UserDecryptResponseVerification
  addressDecidableEq := inferInstance
  fheTypesTryFrom := fun i => if i = 0 then some .bool else if i = 2 then some .uint8 else none
  serialize := fun p => .ok (p.verificationKey ++ p.digest ++ [p.partyId.toUInt8, p.degree.toUInt8])
  deserializeKey := .ok
  address := id
  signatureFromSlice := .ok
  isNormalized := fun _ => true
  verify := fun key msg _ => if (key, msg) ∈ log then .ok () else .error "signature error"
  responseSigningHash := fun data _ => data
  recoverAddressFromPrehash := fun _ _ _ => .error "signature error"
  linkerSigningHash := fun linker _ => linker.publicKey

def idealRecord : SigningRecord (idealCrypto log) where
  signedBytes := fun key msg => (key, msg) ∈ log
  signedMessage := fun _ _ _ => False

theorem idealRecord_unforgeable : (idealRecord log).Unforgeable where
  verify := fun key msg sig h => by
    by_contra hnot
    have herr : (idealCrypto log).verify key msg sig = .error "signature error" := if_neg hnot
    rw [herr] at h
    cases h
  recover := fun sig parity data domain addr h => by cases h

/-- The payload of party `id`, whose verification key is `[id]`. -/
def sharePayload (id degree : UInt32) : UserDecryptionResponsePayload :=
  ⟨[id.toUInt8], [7], [⟨2, [0], [9], 1⟩], id, degree⟩

def shareResponse (id degree : UInt32) : UserDecryptionResponse :=
  ⟨[1], [], some (sharePayload id degree), []⟩

def shareLog (degree : UInt32) : List (Bytes × Bytes) :=
  [1, 2, 3, 4].map (fun id : UInt8 =>
    ([id], dsepUserDecryption ++ [id, 7, id, degree.toUInt8]))

def servers (degree : UInt32) (threshold : Option ℕ) :
    UserDecTrustedValidationContext (idealCrypto (shareLog degree)) where
  serverAddresses := [1, 2, 3, 4].foldl (fun m (id : UInt32) =>
    AList.insert id ([id.toUInt8] : Bytes) m) ∅
  clientRequest := ⟨[], [7], [[9]], []⟩
  eip712Domain := ()
  threshold := threshold

/-- Two of four servers answer, one of them twice, and a forged answer is dropped. -/
theorem validateAgainstRequest_sound_four_servers :
    validateUserDecryptResponsesAgainstRequest (servers 1 (some 1))
        [shareResponse 2 1, shareResponse 2 1, shareResponse 9 1, shareResponse 4 1] =
      .ok (some [sharePayload 2 1, sharePayload 4 1]) ∧
    SoundPayloads (idealRecord (shareLog 1)) (servers 1 (some 1))
      [sharePayload 2 1, sharePayload 4 1] := by
  have h : validateUserDecryptResponsesAgainstRequest (servers 1 (some 1))
        [shareResponse 2 1, shareResponse 2 1, shareResponse 9 1, shareResponse 4 1] =
      .ok (some [sharePayload 2 1, sharePayload 4 1]) := by
    decide +kernel
  exact ⟨h, validateAgainstRequest_sound (idealRecord_unforgeable _)
    (fun t ht => by rw [← Option.some.inj ht]; norm_num) h⟩

end ThresholdKms
