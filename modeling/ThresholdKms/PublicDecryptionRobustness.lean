import ThresholdKms.PublicDecryptionSoundness

/-!
# Robustness of public decryption at the client

With all honest answers present the client returns their plaintexts exactly when it can process
every response, also those of corrupt servers, and when the first response that agrees with the
honest ones writes the request identifier as the request does. A corrupt server can break both.
-/

namespace ThresholdKms

open Outcome

variable {crypto : PublicCrypto} {serverPks : HashMap UInt32 crypto.Key}
  {req : PublicDecryptionRequest crypto} {domain : crypto.Domain} {pts : List TypedPlaintext}
  {pivot : PublicDecryptionResponsePayload} {parsed : ParsedPublicPayloads crypto}

/-- The answer of an honest server with this key. -/
structure HonestAnswer (req : PublicDecryptionRequest crypto) (domain : crypto.Domain)
    (pts : List TypedPlaintext) (key : crypto.Key) (resp : PublicDecryptionResponse) : Prop where
  signed : ∃ p, resp.payload = some p ∧ p.requestId = req.requestId ∧ p.plaintexts = pts ∧
    SignatureValid crypto resp p key
  extraData : resp.extraData = req.extraData
  external : resp.externalSignature ≠ [] ∧
    ∃ message, computePublicDecryptionMessage crypto (req.ciphertexts.map (·.externalHandle)) pts
        req.extraData = .ok message ∧
      recoverPublicAddress crypto message domain resp.externalSignature = .ok (crypto.address key)

/-- Of `3 * t + 1` servers with distinct keys at most `t` are corrupt, each of which contributes at
most one response; all others answer the request with the plaintexts `pts`. -/
structure PublicAnswers (t : ℕ) (serverPks : HashMap UInt32 crypto.Key)
    (req : PublicDecryptionRequest crypto) (domain : crypto.Domain) (requestId : Identifier)
    (pts : List TypedPlaintext) (corrupt : Finset UInt32)
    (answer : UInt32 → PublicDecryptionResponse) (others aggResp : List PublicDecryptionResponse) :
    Prop where
  servers : serverPks.entries.length = 3 * t + 1
  keys_nodup : (serverPks.entries.map Sigma.snd).Nodup
  domain_ok : crypto.optionalProtobufToAlloyDomain req.domain = .ok domain
  requestId_ok : ∃ text, req.requestId = some text ∧ Identifier.tryFrom text = .ok requestId
  fheTypes : pts.map (·.fheType) = req.ciphertexts.map (·.fheType)
  corrupt_card : corrupt.card ≤ t
  others_length : others.length ≤ corrupt.card
  honest : ∀ id key, serverPks.lookup id = some key → id ∉ corrupt →
    HonestAnswer req domain pts key (answer id)
  perm : aggResp.Perm ((serverPks.keys.filter (· ∉ corrupt)).map answer ++ others)

/-- The response has a payload with a readable request identifier and a signature that is valid under
the key it names. -/
def Processable (crypto : PublicCrypto) (resp : PublicDecryptionResponse) : Prop :=
  ∃ p key, resp.payload = some p ∧ SignatureValid crypto resp p key ∧
    ∀ text, p.requestId = some text → ∃ id, Identifier.tryFrom text = .ok id

/-- The first payload with the identifier and the plaintexts of the honest answers. -/
def firstAgreeing (requestId : Identifier) (pts : List TypedPlaintext)
    (aggResp : List PublicDecryptionResponse) : Option PublicDecryptionResponsePayload :=
  (aggResp.filterMap (·.payload)).find?
    (fun p => decide (PublicDecryptionResponseInvariants.tryFrom p = .ok ⟨some requestId, pts⟩))

section Vote

variable {P T : Type} {tryFrom : P → Outcome T}

def voteOf (tryFrom : P → Outcome T) (r : Option P) : Option T :=
  r.bind (fun p => (tryFrom p).toOption)

theorem voteOf_eq_some {r : Option P} {key : T} :
    voteOf tryFrom r = some key ↔ ∃ p, r = some p ∧ tryFrom p = .ok key := by
  cases r with
  | none => simp [voteOf]
  | some p =>
    rw [voteOf]
    cases h : tryFrom p with
    | ok k | error e => simp [Except.toOption, h]

variable {aggResp : List (Option P)}

theorem castVotes_map
    (h : ∀ p, some p ∈ aggResp → ∃ key, tryFrom p = .ok key) :
    CastVotes tryFrom aggResp (aggResp.map (voteOf tryFrom)) := by
  refine List.forall₂_map_right_iff.mpr (List.forall₂_same.mpr (fun r hr => ?_))
  cases r with
  | none => exact .absent
  | some p =>
    obtain ⟨key, hkey⟩ := h p hr
    rw [voteOf, Option.bind_some, hkey]
    exact .cast hkey

theorem exists_key_of_castVotes {votes : List (Option T)}
    (h : CastVotes tryFrom aggResp votes) {p : P} (hp : some p ∈ aggResp) :
    ∃ key, tryFrom p = .ok key := by
  induction h with
  | nil => cases hp
  | cons hv _ ih =>
    rcases List.mem_cons.mp hp with rfl | hp
    · cases hv with
      | cast hkey => exact ⟨_, hkey⟩
    · exact ih hp

end Vote

/-- What a response votes for. -/
def publicVote (resp : PublicDecryptionResponse) : Option PublicDecryptionResponseInvariants :=
  voteOf PublicDecryptionResponseInvariants.tryFrom resp.payload

open PublicDecryptionResponseInvariants (tryFrom)

variable {aggResp : List PublicDecryptionResponse} (key : PublicDecryptionResponseInvariants)

theorem find?_eq_getElem?_idxOf
    (hmem : some key ∈ aggResp.map publicVote) :
    (aggResp.filterMap (·.payload)).find?
        (fun p => decide (tryFrom p = .ok key)) =
      (aggResp[(aggResp.map publicVote).idxOf (some key)]?).bind (·.payload) := by
  induction aggResp with
  | nil => simp at hmem
  | cons resp aggResp ih =>
    rw [List.map_cons] at hmem ⊢
    by_cases hhead : publicVote resp = some key
    · obtain ⟨p, hp, hkey⟩ := voteOf_eq_some.mp hhead
      rw [hhead, List.idxOf_cons_self, List.filterMap_cons_some hp,
        List.find?_cons_of_pos (by simpa using hkey)]
      exact hp.symm
    · have hrest := (List.mem_cons.mp hmem).resolve_left (Ne.symm hhead)
      rw [List.idxOf_cons_ne _ hhead, List.getElem?_cons_succ, ← ih hrest]
      cases hp : resp.payload with
      | none => rw [List.filterMap_cons_none hp]
      | some p =>
        rw [List.filterMap_cons_some hp, List.find?_cons_of_neg]
        intro hkey
        exact hhead (voteOf_eq_some.mpr ⟨p, hp, of_decide_eq_true hkey⟩)

variable {t : ℕ} {requestId : Identifier} {corrupt : Finset UInt32}
  {answer : UInt32 → PublicDecryptionResponse} {others : List PublicDecryptionResponse}

section Votes

variable (h : PublicAnswers t serverPks req domain requestId pts corrupt answer others aggResp)
include h

theorem PublicAnswers.honest_card : 2 * t + 1 ≤ (serverPks.keys.filter (· ∉ corrupt)).length := by
  have hnodup := serverPks.keys_nodup.filter (fun id => decide (id ∉ corrupt))
  have hset : (serverPks.keys.filter (· ∉ corrupt)).toFinset = serverPks.keys.toFinset \ corrupt := by
    ext id
    simp
  rw [← List.toFinset_card_of_nodup hnodup, hset]
  have hle := Finset.le_card_sdiff corrupt serverPks.keys.toFinset
  have hlen : serverPks.keys.length = 3 * t + 1 := by
    rw [AList.keys, List.keys, List.length_map, h.servers]
  rw [List.toFinset_card_of_nodup serverPks.keys_nodup] at hle
  have := h.corrupt_card
  omega

theorem PublicAnswers.honest_mem {id : UInt32} (hid : id ∈ serverPks.keys.filter (· ∉ corrupt)) :
    ∃ key, serverPks.lookup id = some key ∧ HonestAnswer req domain pts key (answer id) := by
  obtain ⟨hmem, hnot⟩ := List.mem_filter.mp hid
  obtain ⟨key, hkey⟩ := exists_lookup_of_mem hmem
  exact ⟨key, hkey, h.honest id key hkey (of_decide_eq_true hnot)⟩

theorem PublicAnswers.vote_honest {id : UInt32} (hid : id ∈ serverPks.keys.filter (· ∉ corrupt)) :
    publicVote (answer id) = some ⟨some requestId, pts⟩ := by
  obtain ⟨key, -, hhonest⟩ := h.honest_mem hid
  obtain ⟨p, hp, hreq, hpts, -⟩ := hhonest.signed
  obtain ⟨text, htext, hconv⟩ := h.requestId_ok
  refine voteOf_eq_some.mpr ⟨p, hp, ?_⟩
  rw [tryFrom, hreq, htext]
  dsimp only
  rw [hconv, hpts]
  rfl

/-- The votes for a value, among the honest answers and among the others. -/
theorem PublicAnswers.count_eq :
    (aggResp.map publicVote).count (some key) =
      (if ⟨some requestId, pts⟩ = key then (serverPks.keys.filter (· ∉ corrupt)).length else 0) +
        (others.map publicVote).count (some key) := by
  rw [(h.perm.map _).count_eq, List.map_append, List.count_append, List.map_map,
    (List.map_eq_replicate_iff (f := publicVote ∘ answer)).mpr (fun id hid => h.vote_honest hid),
    List.count_replicate]
  simp

/-- Once every request identifier can be read, both votes pick the first agreeing payload. -/
theorem PublicAnswers.select_eq (hconv : ∀ p, some p ∈ aggResp.map (·.payload) →
      ∃ key, tryFrom p = .ok key) {minOccurence : ℕ} (hmin : minOccurence ≤ 2 * t + 1) :
    selectMostCommonPublicDec minOccurence aggResp = firstAgreeing requestId pts aggResp := by
  have hcard := h.honest_card
  have hcount := h.count_eq ⟨some requestId, pts⟩
  rw [if_pos rfl] at hcount
  have hvotes : CastVotes tryFrom (aggResp.map (·.payload))
      (aggResp.map publicVote) := by
    have hmap := castVotes_map hconv
    rwa [List.map_map] at hmap
  have hmem : some ⟨some requestId, pts⟩ ∈ aggResp.map publicVote := by
    rw [← List.count_pos_iff]
    omega
  have hwin : ∀ other, other ≠ (⟨some requestId, pts⟩ : PublicDecryptionResponseInvariants) →
      (aggResp.map publicVote).count (some other) <
      (aggResp.map publicVote).count (some ⟨some requestId, pts⟩) := by
    intro other hne
    have hother := h.count_eq other
    rw [if_neg hne.symm] at hother
    have hle : (others.map publicVote).count (some other) ≤ others.length := by
      refine List.count_le_length.trans ?_
      rw [List.length_map]
    have h₁ := h.corrupt_card
    have h₂ := h.others_length
    omega
  rw [selectMostCommonPublicDec, selectMostCommon_eq hvotes hmem hwin, firstAgreeing,
    find?_eq_getElem?_idxOf _ hmem]
  dsimp only
  rw [if_pos (by omega), Option.bind_some]

end Votes

variable {p : PublicDecryptionResponsePayload} {resp : PublicDecryptionResponse} {key : crypto.Key}
  {handles : List Bytes}

theorem metaData_eq {params : Option (Eip712VerificationParams crypto)}
    (hsig : SignatureValid crypto resp p key) (hid : pivot.requestId = p.requestId)
    (hpts : pivot.plaintexts = p.plaintexts) :
    validatePublicDecryptMetaData handles pivot p resp.signature params =
      validateExternalSignature handles p key params := by
  obtain ⟨hkey, sig, bytes, hslice, hbytes, hverify⟩ := hsig
  rw [validatePublicDecryptMetaData, if_neg (not_not.mpr hid), if_neg (not_not.mpr hpts), hslice,
    hkey, hbytes]
  simp only [Outcome.ofExcept, ok_bind, hverify]

variable {message : PublicDecryptVerification}

theorem exists_metaData {params : Eip712VerificationParams crypto}
    (hsig : SignatureValid crypto resp p key)
    (hmessage : computePublicDecryptionMessage crypto handles pivot.plaintexts
      params.responseExtraData = .ok message) :
    ∃ valid, validatePublicDecryptMetaData handles pivot p resp.signature (some params) =
      .ok valid := by
  by_cases hid : pivot.requestId = p.requestId
  · by_cases hpts : pivot.plaintexts = p.plaintexts
    · rw [metaData_eq hsig hid hpts, validateExternalSignature]
      split_ifs with hext
      · exact ⟨false, rfl⟩
      · rw [← hpts, hmessage, ok_bind]
        cases recoverPublicAddress crypto message params.trustedEip712Domain
          params.responseExternalSignature with
        | ok addr => exact ⟨_, rfl⟩
        | error e => exact ⟨false, rfl⟩
    · exact ⟨false, by rw [validatePublicDecryptMetaData, if_neg (not_not.mpr hid), if_pos hpts]⟩
  · exact ⟨false, by rw [validatePublicDecryptMetaData, if_pos hid]⟩

/-- After an honest answer the key of its server is among the keys. -/
theorem HonestAnswer.mem_keys (h : HonestAnswer req domain pts key resp)
    (hid : req.requestId ≠ none) (hpivot : pivot.requestId = req.requestId)
    (hpts : pivot.plaintexts = pts) (hregistered : key ∈ serverPks.entries.map Sigma.snd)
    {parsed' : ParsedPublicPayloads crypto}
    (hstep : parsePublicResponse (trustedContext serverPks (some domain) (some req)) pivot parsed
      resp = .ok parsed') : key ∈ parsed'.verificationKeys := by
  obtain ⟨p, hp, hpid, hppts, hsig⟩ := h.signed
  obtain ⟨hext, message, hmessage, hrecover⟩ := h.external
  have hvalid : validatePublicDecryptMetaData (req.ciphertexts.map (·.externalHandle)) pivot p
      resp.signature (some ⟨resp.externalSignature, resp.extraData, domain⟩) = .ok true := by
    rw [metaData_eq hsig (hpivot.trans hpid.symm) (hpts.trans hppts.symm), validateExternalSignature,
      if_neg hext, h.extraData, hppts, hmessage, ok_bind, hrecover]
    simp
  have hextra : ¬ ((trustedContext serverPks (some domain) (some req)).extraData ≠ none ∧
      (trustedContext serverPks (some domain) (some req)).extraData ≠ some resp.extraData) := by
    simp [trustedContext, h.extraData]
  rw [parsePublicResponse, hp] at hstep
  dsimp only at hstep
  rw [if_neg (by rw [hpid]; exact hid), hsig.deserialized, Outcome.ofExcept, ok_bind] at hstep
  split_ifs at hstep with hnew
  · change (validatePublicDecryptMetaData (req.ciphertexts.map (·.externalHandle)) pivot p
      resp.signature (some ⟨resp.externalSignature, resp.extraData, domain⟩) >>= _) = _ at hstep
    rw [hvalid, ok_bind, if_pos ⟨rfl, by rw [hpts, hppts]⟩] at hstep
    rw [← Except.ok.inj hstep]
    exact Finset.mem_insert_self _ _
  · rw [foundNewVerfKey_eq_true, not_and, not_not] at hnew
    rw [← Except.ok.inj hstep]
    exact hnew hregistered

section Loop

variable (serverPks domain parsed) (hmessage : computePublicDecryptionMessage crypto
  (req.ciphertexts.map (·.externalHandle)) pivot.plaintexts req.extraData = .ok message)
include hmessage

/-- A response that can be processed does not end the loop, and no key is forgotten. -/
theorem exists_parsePublicResponse (hresp : Processable crypto resp) :
    ∃ parsed', parsePublicResponse (trustedContext serverPks (some domain) (some req)) pivot parsed
        resp = .ok parsed' ∧ parsed.verificationKeys ⊆ parsed'.verificationKeys := by
  obtain ⟨p, key, hp, hsig, -⟩ := hresp
  have hsame : ∃ parsed', (Except.ok parsed : Outcome (ParsedPublicPayloads crypto)) = .ok parsed' ∧
      parsed.verificationKeys ⊆ parsed'.verificationKeys := ⟨parsed, rfl, subset_rfl⟩
  rw [parsePublicResponse, hp]
  dsimp only
  split_ifs with hid hextra
  · exact hsame
  · exact hsame
  · rw [hsig.deserialized, Outcome.ofExcept, ok_bind]
    split_ifs with hnew
    · have hextra' : resp.extraData = req.extraData := by
        simp only [trustedContext, Option.map_some, ne_eq, reduceCtorEq, not_false_eq_true,
          true_and, not_not, Option.some.injEq] at hextra
        exact hextra.symm
      let params : Eip712VerificationParams crypto :=
        ⟨resp.externalSignature, resp.extraData, domain⟩
      have hmessage' : computePublicDecryptionMessage crypto
          (req.ciphertexts.map (·.externalHandle)) pivot.plaintexts params.responseExtraData =
          .ok message := by
        dsimp only [params]
        rw [hextra', hmessage]
      obtain ⟨valid, hvalid⟩ := exists_metaData hsig hmessage'
      have hparams : (trustedContext serverPks (some domain) (some req)).eip712Params resp =
        some params := rfl
      have hhandles : (trustedContext serverPks (some domain) (some req)).extHandlesBytes =
        req.ciphertexts.map (·.externalHandle) := rfl
      rw [hparams, hhandles, hvalid, ok_bind]
      split_ifs
      · exact ⟨_, rfl, Finset.subset_insert _ _⟩
      · exact hsame
    · exact hsame

theorem exists_foldlM_parsePublicResponse (hresp : ∀ resp ∈ aggResp, Processable crypto resp)
    (hid : req.requestId ≠ none) (hpivot : pivot.requestId = req.requestId) :
    ∃ parsed', aggResp.foldlM (parsePublicResponse
        (trustedContext serverPks (some domain) (some req)) pivot) parsed = .ok parsed' ∧
      parsed.verificationKeys ⊆ parsed'.verificationKeys ∧
      ∀ resp ∈ aggResp, ∀ key ∈ serverPks.entries.map Sigma.snd,
        HonestAnswer req domain pivot.plaintexts key resp → key ∈ parsed'.verificationKeys := by
  induction aggResp generalizing parsed with
  | nil => exact ⟨parsed, rfl, subset_rfl, fun _ hmem => absurd hmem List.not_mem_nil⟩
  | cons resp aggResp ih =>
    rw [List.forall_mem_cons] at hresp
    obtain ⟨next, hnext, hsub⟩ :=
      exists_parsePublicResponse serverPks domain parsed hmessage hresp.1
    obtain ⟨parsed', hparsed', hsub', hkeys⟩ := ih next hresp.2
    refine ⟨parsed', by rw [List.foldlM_cons, hnext, ok_bind, hparsed'], hsub.trans hsub', ?_⟩
    intro r hr key hkey hhonest
    rcases List.mem_cons.mp hr with rfl | hr
    · exact hsub' (hhonest.mem_keys hid hpivot rfl hkey hnext)
    · exact hkeys r hr key hkey hhonest

end Loop

theorem exists_invariants_iff : (∃ key, tryFrom p = .ok key) ↔
      ∀ text, p.requestId = some text → ∃ id, Identifier.tryFrom text = .ok id := by
  rw [tryFrom]
  cases p.requestId with
  | none => simp
  | some text => simp [bind_eq_ok]

theorem plaintexts_of_firstAgreeing
    (h : firstAgreeing requestId pts aggResp = some p) : p.plaintexts = pts := by
  have hfound := List.find?_some h
  rw [decide_eq_true_eq, tryFrom] at hfound
  cases hid : p.requestId with
  | none => simp [hid] at hfound
  | some text =>
    simp only [hid] at hfound
    obtain ⟨id, -, hkey⟩ := bind_eq_ok.mp hfound
    exact congrArg (·.plaintexts) (Except.ok.inj hkey)

section Answers

variable (h : PublicAnswers t serverPks req domain requestId pts corrupt answer others aggResp)
include h

theorem PublicAnswers.processable_honest {resp : PublicDecryptionResponse}
    (hresp : resp ∈ (serverPks.keys.filter (· ∉ corrupt)).map answer) :
    Processable crypto resp := by
  obtain ⟨id, hid, rfl⟩ := List.mem_map.mp hresp
  obtain ⟨key, -, hhonest⟩ := h.honest_mem hid
  obtain ⟨p, hp, hreq, -, hsig⟩ := hhonest.signed
  obtain ⟨text, htext, hconv⟩ := h.requestId_ok
  refine ⟨p, key, hp, hsig, fun text' htext' => ⟨requestId, ?_⟩⟩
  rw [hreq, htext] at htext'
  rw [← Option.some.inj htext', hconv]

/-- The keys of the honest servers are distinct, so there are enough of them. -/
theorem PublicAnswers.keys_card
    {keys : Finset crypto.Key} (hkeys : ∀ resp ∈ aggResp, ∀ key ∈ serverPks.entries.map Sigma.snd,
      HonestAnswer req domain pts key resp → key ∈ keys) : 2 * t + 1 ≤ keys.card := by
  have hnodup : ((serverPks.keys.filter (· ∉ corrupt)).map serverPks.lookup).Nodup := by
    refine List.Nodup.map_on ?_ (serverPks.keys_nodup.filter _)
    intro id hid id' hid' heq
    obtain ⟨key, hkey, -⟩ := h.honest_mem hid
    rw [hkey] at heq
    have := List.inj_on_of_nodup_map h.keys_nodup (AList.mem_lookup_iff.mp hkey)
      (AList.mem_lookup_iff.mp heq.symm) rfl
    exact congrArg Sigma.fst this
  have hsub : ((serverPks.keys.filter (· ∉ corrupt)).map serverPks.lookup).toFinset ⊆
      keys.image some := by
    intro k hk
    obtain ⟨id, hid, rfl⟩ := List.mem_map.mp (List.mem_toFinset.mp hk)
    obtain ⟨key, hkey, hhonest⟩ := h.honest_mem hid
    have hmem : answer id ∈ aggResp :=
      h.perm.mem_iff.mpr (List.mem_append_left _ (List.mem_map_of_mem hid))
    have hregistered : key ∈ serverPks.entries.map Sigma.snd :=
      List.mem_map.mpr ⟨⟨id, key⟩, AList.mem_lookup_iff.mp hkey, rfl⟩
    rw [hkey]
    exact Finset.mem_image_of_mem _ (hkeys _ hmem key hregistered hhonest)
  have hcard := Finset.card_le_card hsub
  rw [List.toFinset_card_of_nodup hnodup, List.length_map] at hcard
  exact h.honest_card.trans (hcard.trans Finset.card_image_le)

theorem PublicAnswers.first_min_le : (serverPks.entries.length - 1) / 3 + 1 ≤ 2 * t + 1 := by
  rw [h.servers]
  omega

theorem PublicAnswers.nonempty : aggResp ≠ [] ∧ serverPks.entries ≠ [] := by
  have hlength := h.perm.length_eq
  rw [List.length_append, List.length_map] at hlength
  have hhonest := h.honest_card
  have hservers := h.servers
  constructor
  · rw [← List.length_pos_iff]
    omega
  · rw [← List.length_pos_iff]
    omega

theorem PublicAnswers.processable (hothers : ∀ resp ∈ others, Processable crypto resp) :
    ∀ resp ∈ aggResp, Processable crypto resp := by
  intro resp hresp
  rcases List.mem_append.mp (h.perm.mem_iff.mp hresp) with hresp | hresp
  · exact h.processable_honest hresp
  · exact hothers resp hresp

/-- All honest servers are counted once the loop has seen all responses. -/
theorem PublicAnswers.exists_parsed (hall : ∀ resp ∈ aggResp, Processable crypto resp)
    (hpts : pivot.plaintexts = pts) (hid : pivot.requestId = req.requestId) :
    ∃ parsed, aggResp.foldlM (parsePublicResponse
        (trustedContext serverPks (some domain) (some req)) pivot) ⟨∅, []⟩ = .ok parsed ∧
      2 * t + 1 ≤ parsed.payloads.length := by
  have hnonempty : serverPks.keys.filter (· ∉ corrupt) ≠ [] := by
    rw [← List.length_pos_iff]
    have := h.honest_card
    omega
  obtain ⟨id, hmemId⟩ := List.exists_mem_of_ne_nil _ hnonempty
  obtain ⟨key, -, hhonest⟩ := h.honest_mem hmemId
  obtain ⟨-, message, hmessage, -⟩ := hhonest.external
  obtain ⟨text, htext, -⟩ := h.requestId_ok
  obtain ⟨parsed, hparsed, -, hkeys⟩ := exists_foldlM_parsePublicResponse serverPks
    domain ⟨∅, []⟩ (hpts ▸ hmessage) hall (by simp [htext]) hid
  refine ⟨parsed, hparsed, ?_⟩
  rw [(publicParsedInvariant_init.foldlM hparsed).count]
  exact h.keys_card (hpts ▸ hkeys)

theorem PublicAnswers.linked (hpts : pivot.plaintexts = pts) (hid : pivot.requestId = req.requestId)
    (hparsed : aggResp.foldlM (parsePublicResponse
        (trustedContext serverPks (some domain) (some req)) pivot) ⟨∅, []⟩ = .ok parsed)
    (hcard : 2 * t + 1 ≤ parsed.payloads.length) :
    ∃ first rest, parsed.payloads = first :: rest ∧ checkAgainstRequest req first = .ok () := by
  have hinv := publicParsedInvariant_init.foldlM hparsed
  obtain ⟨text, htext, -⟩ := h.requestId_ok
  cases hpayloads : parsed.payloads with
  | nil =>
    rw [hpayloads, List.length_nil] at hcard
    omega
  | cons first rest =>
    have hmem : first ∈ parsed.payloads := hpayloads ▸ List.mem_cons_self
    refine ⟨first, rest, rfl, checkAgainstRequest_eq_ok.mpr ⟨?_, by simp [htext], ?_⟩⟩
    · rw [hinv.plaintexts first hmem, hpts, h.fheTypes]
    · rw [hinv.requestId first hmem, hid]

theorem PublicAnswers.of_processed {domain' : crypto.Domain} {minAgreeCount : ℕ}
    (hp : ProcessedResponses serverPks req domain' minAgreeCount aggResp pivot parsed) :
    (∀ resp ∈ others, Processable crypto resp) ∧
      firstAgreeing requestId pts aggResp = some pivot ∧ pivot.requestId = req.requestId := by
  have hvote := hp.firstVote
  rw [selectMostCommonPublicDec] at hvote
  cases hselect : selectMostCommon tryFrom
    ((serverPks.entries.length - 1) / 3 + 1) (aggResp.map (·.payload)) with
  | error e => simp [hselect] at hvote
  | ok idx =>
    obtain ⟨votes, hvotes⟩ := exists_votes_of_selectMostCommon hselect
    have hconv : ∀ p, some p ∈ aggResp.map (·.payload) → ∃ key, tryFrom p = .ok key :=
      fun p hmem => exists_key_of_castVotes hvotes hmem
    refine ⟨?_, ?_, ?_⟩
    · intro resp hresp
      have hmem : resp ∈ aggResp := h.perm.mem_iff.mpr (List.mem_append_right _ hresp)
      obtain ⟨p, key, hpayload, hsig⟩ :=
        checkResponseSignature_eq_ok.mp (hp.signatures resp hmem)
      have hinv := hconv p (List.mem_map.mpr ⟨resp, hmem, hpayload⟩)
      exact ⟨p, key, hpayload, hsig, exists_invariants_iff.mp hinv⟩
    · rw [← h.select_eq hconv h.first_min_le, hp.firstVote]
    · have hinv := publicParsedInvariant_init.foldlM hp.validated
      obtain ⟨first, rest, hfirst, hcheck⟩ := hp.linked
      rw [← hinv.requestId first (hfirst ▸ List.mem_cons_self),
        (checkAgainstRequest_eq_ok.mp hcheck).2.2]

theorem PublicAnswers.processed {minAgreeCount : ℕ} (hmin : minAgreeCount ≤ 2 * t + 1)
    (hothers : ∀ resp ∈ others, Processable crypto resp)
    (hpivot : firstAgreeing requestId pts aggResp = some pivot)
    (hid : pivot.requestId = req.requestId) :
    ∃ parsed, ProcessedResponses serverPks req domain minAgreeCount aggResp pivot parsed := by
  have hall := h.processable hothers
  have hpts := plaintexts_of_firstAgreeing hpivot
  have hconv : ∀ p, some p ∈ aggResp.map (·.payload) → ∃ key, tryFrom p = .ok key := by
    intro p hmem
    obtain ⟨resp, hresp, hpayload⟩ := List.mem_map.mp hmem
    obtain ⟨p', key, hp', -, htext⟩ := hall resp hresp
    obtain rfl := Option.some.inj (hp'.symm.trans hpayload)
    exact exists_invariants_iff.mpr htext
  obtain ⟨parsed, hparsed, hcard⟩ := h.exists_parsed hall hpts hid
  refine ⟨parsed, h.domain_ok, h.nonempty, ?_, hparsed, hmin.trans hcard,
    h.linked hpts hid hparsed hcard, ?_, ?_⟩
  · rw [h.select_eq hconv h.first_min_le, hpivot]
  · rw [h.select_eq hconv hmin, hpivot]
  · intro resp hresp
    obtain ⟨p, key, hp, hsig, -⟩ := hall resp hresp
    exact checkResponseSignature_eq_ok.mpr ⟨p, key, hp, hsig⟩

end Answers

/-- The client returns the plaintexts of the honest servers exactly when it can process every
response of the corrupt ones, and the first payload that agrees with the honest answers writes the
request identifier as the request does. -/
theorem processDecryptionResp_robust_iff
    (h : PublicAnswers t serverPks req domain requestId pts corrupt answer others aggResp)
    {minAgreeCount : ℕ} (hmin : minAgreeCount ≤ 2 * t + 1) :
    processDecryptionResp (.pks serverPks) (some req) minAgreeCount aggResp = .ok pts ↔
      (∀ resp ∈ others, Processable crypto resp) ∧
        ∃ p, firstAgreeing requestId pts aggResp = some p ∧ p.requestId = req.requestId := by
  rw [processDecryptionResp_eq_ok]
  constructor
  · rintro ⟨domain', pivot, parsed, hp, -⟩
    obtain ⟨hothers, hpivot, hid⟩ := h.of_processed hp
    exact ⟨hothers, pivot, hpivot, hid⟩
  · rintro ⟨hothers, pivot, hpivot, hid⟩
    obtain ⟨parsed, hp⟩ := h.processed hmin hothers hpivot hid
    exact ⟨domain, pivot, parsed, hp, (plaintexts_of_firstAgreeing hpivot).symm⟩

/-- The answer that server `id` signs for `publicRequest`. -/
theorem honestAnswer_publicResponse {id : UInt8} (hid : id ∈ [(1 : UInt8), 2, 3, 4]) :
    HonestAnswer publicRequest () [⟨[5], 2⟩] ([id] : Bytes) (publicResponse id publicRequestId) := by
  have hsigned : ∀ id ∈ [(1 : UInt8), 2, 3, 4], internalVerifySig fourCrypto.toCrypto
      dsepPublicDecryption ([id] ++ [5] ++ publicRequestId.map (fun c => UInt8.ofNat c.toNat))
      ([1] : Bytes) ([id] : Bytes) = .ok () := by
    decide +kernel
  refine ⟨⟨publicPayload id publicRequestId, rfl, rfl, rfl, rfl, [1], _, rfl, rfl, hsigned id hid⟩,
    rfl, by simp [publicResponse], ⟨[List.replicate 31 0 ++ [9]], [5], []⟩, rfl, rfl⟩

/-- Server 4 is corrupt and contributes the response `other`. -/
theorem publicAnswers_four {other : PublicDecryptionResponse}
    (hperm : aggResp.Perm [publicResponse 1 publicRequestId,
      publicResponse 2 publicRequestId, publicResponse 3 publicRequestId, other]) :
    PublicAnswers 1 fourServers publicRequest () ⟨List.replicate 32 0xaa, rfl⟩ [⟨[5], 2⟩] {4}
      (fun id => publicResponse id.toUInt8 publicRequestId) [other] aggResp where
  servers := rfl
  keys_nodup := by decide +kernel
  domain_ok := rfl
  requestId_ok := ⟨publicRequestId, rfl, by decide +kernel⟩
  fheTypes := rfl
  corrupt_card := le_rfl
  others_length := le_rfl
  honest := by
    intro id key hkey hnot
    have hkeys : ∀ entry ∈ fourKeys.entries,
        entry.2 = [entry.1.toUInt8] ∧ entry.1.toUInt8 ∈ [(1 : UInt8), 2, 3, 4] := by
      decide +kernel
    obtain ⟨heq, hmem⟩ := hkeys ⟨id, key⟩ (AList.mem_lookup_iff.mp hkey)
    dsimp only at heq hmem
    rw [heq]
    exact honestAnswer_publicResponse hmem
  perm := by
    have hkeys : fourServers.keys.filter (· ∉ ({4} : Finset UInt32)) = [3, 2, 1] := by
      decide +kernel
    refine hperm.trans ?_
    exact (List.Perm.append_right [other] (List.reverse_perm [publicResponse 1 publicRequestId,
      publicResponse 2 publicRequestId, publicResponse 3 publicRequestId]).symm)

/-- A corrupt server stops the client with a response without payload, or, if its response comes
first, with one that is correct but writes the request identifier with `0x`. -/
theorem processDecryptionResp_stopped :
    (PublicAnswers 1 fourServers publicRequest () ⟨List.replicate 32 0xaa, rfl⟩ [⟨[5], 2⟩] {4}
        (fun id => publicResponse id.toUInt8 publicRequestId) [⟨[], [], none, []⟩]
        [publicResponse 1 publicRequestId, publicResponse 2 publicRequestId,
          publicResponse 3 publicRequestId, ⟨[], [], none, []⟩] ∧
      processDecryptionResp (.pks fourServers) (some publicRequest) 3
        [publicResponse 1 publicRequestId, publicResponse 2 publicRequestId,
          publicResponse 3 publicRequestId, ⟨[], [], none, []⟩] =
        Outcome.err "No payload in current response!") ∧
    PublicAnswers 1 fourServers publicRequest () ⟨List.replicate 32 0xaa, rfl⟩ [⟨[5], 2⟩] {4}
        (fun id => publicResponse id.toUInt8 publicRequestId)
        [publicResponse 4 ('0' :: 'x' :: publicRequestId)]
        [publicResponse 4 ('0' :: 'x' :: publicRequestId), publicResponse 1 publicRequestId,
          publicResponse 2 publicRequestId, publicResponse 3 publicRequestId] ∧
      processDecryptionResp (.pks fourServers) (some publicRequest) 3
        [publicResponse 4 ('0' :: 'x' :: publicRequestId), publicResponse 1 publicRequestId,
          publicResponse 2 publicRequestId, publicResponse 3 publicRequestId] =
        Outcome.err "Not enough correct public decryption responses to decrypt the data!" :=
  ⟨⟨publicAnswers_four (.refl _), by decide +kernel⟩,
    publicAnswers_four (@List.perm_append_comm _ [_] _), by decide +kernel⟩

/-- Server 4 answers as the honest ones do. -/
theorem processDecryptionResp_robust_four_servers :
    processDecryptionResp (.pks fourServers) (some publicRequest) 3
      [publicResponse 1 publicRequestId, publicResponse 4 publicRequestId,
        publicResponse 2 publicRequestId, publicResponse 3 publicRequestId] = .ok [⟨[5], 2⟩] := by
  have hperm : [publicResponse 1 publicRequestId, publicResponse 4 publicRequestId,
      publicResponse 2 publicRequestId, publicResponse 3 publicRequestId].Perm
      [publicResponse 1 publicRequestId, publicResponse 2 publicRequestId,
        publicResponse 3 publicRequestId, publicResponse 4 publicRequestId] := by
    decide +kernel
  refine (processDecryptionResp_robust_iff (publicAnswers_four hperm) (by decide)).mpr ⟨?_, ?_⟩
  · intro resp hresp
    rw [List.mem_singleton.mp hresp]
    obtain ⟨p, hp, -, -, hsig⟩ :=
      (honestAnswer_publicResponse (by decide : (4 : UInt8) ∈ [(1 : UInt8), 2, 3, 4])).signed
    refine ⟨p, _, hp, hsig, fun text htext => ⟨⟨List.replicate 32 0xaa, rfl⟩, ?_⟩⟩
    rw [← Option.some.inj hp] at htext
    rw [← Option.some.inj htext]
    decide +kernel
  · exact ⟨publicPayload 1 publicRequestId, by decide +kernel, rfl⟩

end ThresholdKms
