import ThresholdKms.Along
import ThresholdKms.AttestedTls

/-!
# TLS trust and the registered contexts

As long as contexts are only added, every creation that reaches the verifier succeeds and an identity
is always listed with the same CA certificate, the verifier trusts what the registered contexts list
and nothing else.
-/

namespace ThresholdKms

variable {χ ι γ π : Type}

theorem caCerts_sublist (nodes : List (TlsNode ι γ)) :
    ((nodes.filterMap fun node => node.caCert.map (Prod.mk node.mpcIdentity)).map Prod.fst).Sublist
      (nodes.map TlsNode.mpcIdentity) := by
  induction nodes with
  | nil => exact List.Sublist.slnil
  | cons node nodes ih =>
    rw [List.filterMap_cons]
    cases node.caCert with
    | none => exact ih.cons _
    | some caCert => exact ih.cons_cons _

theorem nodup_caCerts (context : TlsContext χ ι γ π) : (context.caCerts.map Prod.fst).Nodup :=
  (caCerts_sublist context.nodes).nodup context.nodup_identities

theorem mem_identities_of_mem_caCerts {context : TlsContext χ ι γ π} {entry : ι × γ}
    (h : entry ∈ context.caCerts) : entry.1 ∈ context.nodes.map TlsNode.mpcIdentity :=
  (caCerts_sublist context.nodes).subset (List.mem_map_of_mem h)

variable {caCert : γ} {crypto : TlsCrypto ι γ π} {cert : crypto.Cert}

theorem mem_of_validateWrappedCert [DecidableEq π] {releases : List π}
    (h : AttestedVerifier.validateWrappedCert crypto releases caCert cert = true) :
    ∃ pcrs, crypto.attested cert = some pcrs ∧ pcrs ∈ releases := by
  rw [AttestedVerifier.validateWrappedCert] at h
  cases hattested : crypto.attested cert with
  | none => simp [hattested] at h
  | some pcrs =>
    simp only [hattested] at h
    exact ⟨pcrs, rfl, (of_decide_eq_true h).1⟩

variable [DecidableEq χ] [DecidableEq ι]

section Roots

variable {usableRoot : γ → Bool} {contextId : χ}

/-- The trust root of an identity after a context was added that lists it. -/
def joined (contextId : χ) (caCert : γ) : Option (γ × List χ) → γ × List χ
  | some (old, contexts) => (old, contexts.insert contextId)
  | none => (caCert, [contextId])

variable {roots roots' : HashMap ι (γ × List χ)}

theorem addRoot_eq_true {entry : ι × γ}
    (h : AttestedVerifier.addRoot usableRoot contextId entry roots = (true, roots')) :
    roots' = roots.insert entry.1 (joined contextId entry.2 (roots.lookup entry.1)) := by
  rw [AttestedVerifier.addRoot] at h
  cases hlookup : roots.lookup entry.1 with
  | some old =>
    rw [hlookup] at h
    exact (Prod.mk.inj h).2.symm
  | none =>
    simp only [hlookup] at h
    split_ifs at h
    · exact (Prod.mk.inj h).2.symm
    · cases h

variable {l : List (ι × γ)}

/-- The roots after a context was added: its identities were joined, the others are unchanged. -/
theorem run_addRoot_eq_true (hnodup : (l.map Prod.fst).Nodup)
    (h : UntilFailure.run (AttestedVerifier.addRoot usableRoot contextId) l roots = (true, roots')) :
    (∀ entry ∈ l, roots'.lookup entry.1 = some (joined contextId entry.2 (roots.lookup entry.1))) ∧
      ∀ id, id ∉ l.map Prod.fst → roots'.lookup id = roots.lookup id := by
  induction l generalizing roots with
  | nil =>
    cases h
    exact ⟨fun _ hmem => absurd hmem List.not_mem_nil, fun _ _ => rfl⟩
  | cons entry l ih =>
    obtain ⟨roots₁, hhead, htail⟩ := UntilFailure.run_cons_eq_true.mp h
    obtain ⟨hnot, hrest⟩ := List.nodup_cons.mp hnodup
    obtain ⟨hjoined, hkept⟩ := ih hrest htail
    obtain rfl := addRoot_eq_true hhead
    have hother : ∀ id, id ≠ entry.1 → AList.lookup id (roots.insert entry.1
        (joined contextId entry.2 (roots.lookup entry.1))) = roots.lookup id :=
      fun id hid => AList.lookup_insert_ne hid
    refine ⟨List.forall_mem_cons.mpr ⟨?_, fun e he => ?_⟩, fun id hid => ?_⟩
    · rw [hkept _ hnot]
      exact AList.lookup_insert _
    · rw [hjoined e he, hother]
      exact fun heq => hnot (heq ▸ List.mem_map_of_mem he)
    · rw [List.map_cons, List.mem_cons, not_or] at hid
      rw [hkept id hid.2, hother id hid.1]

theorem run_addRoot_succeeds (h : ∀ entry ∈ l, usableRoot entry.2 = true)
    (roots : HashMap ι (γ × List χ)) :
    (UntilFailure.run (AttestedVerifier.addRoot usableRoot contextId) l roots).1 = true := by
  refine UntilFailure.run_fst (fun entry hentry roots => ?_) roots
  rw [AttestedVerifier.addRoot]
  cases roots.lookup entry.1 with
  | some old => rfl
  | none => simp [h entry hentry]

end Roots

/-- The verifier's content is what the registered contexts list. -/
structure ConsistentTrust (s : TlsState χ ι γ π) : Prop where
  listed : ∀ id caCert contexts, s.verifier.trustRoots.lookup id = some (caCert, contexts) →
    contexts ≠ [] ∧ ∀ c ∈ contexts, ∃ context, s.contextMap.lookup c = some context ∧
      (id, caCert) ∈ context.caCerts
  trusted : ∀ c context, s.contextMap.lookup c = some context →
    ∀ id caCert, (id, caCert) ∈ context.caCerts →
      ∃ contexts, s.verifier.trustRoots.lookup id = some (caCert, contexts)
  pcrs : ∀ c, s.verifier.releasePcrs.lookup c =
    (s.contextMap.lookup c).bind fun context =>
      if context.pcrValues = [] then none else some context.pcrValues

/-- What the verifier accepts is listed by a registered context, with the PCR values that the
contexts ask for, and it does not miss a listed CA certificate. -/
structure TrustFollows [DecidableEq π] (crypto : TlsCrypto ι γ π) (s : TlsState χ ι γ π) :
    Prop where
  listed : ∀ kind cert, s.verifier.verifyCert crypto kind cert = true →
    ∃ subject c context caCert, crypto.subject cert = some subject ∧
      s.contextMap.lookup c = some context ∧ (subject, caCert) ∈ context.caCerts ∧
      AttestedVerifier.verifies crypto kind caCert cert = true
  attested : ∀ kind cert subject, s.verifier.verifyCert crypto kind cert = true →
    crypto.subject cert = some subject →
    (∀ c context, s.contextMap.lookup c = some context →
      subject ∈ context.nodes.map TlsNode.mpcIdentity → context.pcrValues ≠ []) →
    ∃ c context pcrs, s.contextMap.lookup c = some context ∧
      subject ∈ context.nodes.map TlsNode.mpcIdentity ∧ crypto.attested cert = some pcrs ∧
      pcrs ∈ context.pcrValues
  trusted : ∀ kind cert subject c context caCert, crypto.subject cert = some subject →
    s.contextMap.lookup c = some context → (subject, caCert) ∈ context.caCerts →
    AttestedVerifier.verifies crypto kind caCert cert = true → s.verifier.passesCa crypto kind cert

theorem verifyCert_eq_true [DecidableEq π]
    {verifier : AttestedVerifier χ ι γ π} {kind : PeerKind}
    (h : verifier.verifyCert crypto kind cert = true) :
    ∃ subject caCert contexts, crypto.subject cert = some subject ∧
      verifier.trustRoots.lookup subject = some (caCert, contexts) ∧
      AttestedVerifier.verifies crypto kind caCert cert = true ∧
      (verifier.pcrsOf contexts = [] ∨
        AttestedVerifier.validateWrappedCert crypto (verifier.pcrsOf contexts) caCert cert) := by
  rw [AttestedVerifier.verifyCert] at h
  cases hsubject : crypto.subject cert with
  | none => simp [hsubject] at h
  | some subject =>
    cases hroot : verifier.trustRoots.lookup subject with
    | none => simp [hsubject, hroot] at h
    | some root =>
      simp only [hsubject, Option.bind_some, hroot] at h
      have hchecks := of_decide_eq_true h
      exact ⟨subject, root.1, root.2, rfl, hroot, hchecks.1, hchecks.2⟩

variable {s : TlsState χ ι γ π} {contexts : List χ}

theorem mem_pcrsOf_iff (hs : ConsistentTrust s) {pcrs : π} :
    pcrs ∈ s.verifier.pcrsOf contexts ↔
      ∃ c ∈ contexts, ∃ context, s.contextMap.lookup c = some context ∧
        pcrs ∈ context.pcrValues := by
  rw [AttestedVerifier.pcrsOf, List.mem_flatMap]
  refine exists_congr fun c => and_congr_right fun _ => ?_
  rw [hs.pcrs]
  cases s.contextMap.lookup c with
  | none => simp
  | some context =>
    by_cases hnil : context.pcrValues = []
    · simp [hnil]
    · simp [hnil]

theorem ConsistentTrust.trustFollows [DecidableEq π] (hs : ConsistentTrust s)
    (crypto : TlsCrypto ι γ π) : TrustFollows crypto s where
  listed := by
    intro kind cert h
    obtain ⟨subject, caCert, contexts, hsubject, hroot, hverifies, -⟩ := verifyCert_eq_true h
    obtain ⟨hne, hlisted⟩ := hs.listed subject caCert contexts hroot
    obtain ⟨c, hc⟩ := List.exists_mem_of_ne_nil contexts hne
    obtain ⟨context, hcontext, hlists⟩ := hlisted c hc
    exact ⟨subject, c, context, caCert, hsubject, hcontext, hlists, hverifies⟩
  attested := by
    intro kind cert subject h hsubject hall
    obtain ⟨subject', caCert, contexts, hsubject', hroot, -, hpcrs⟩ := verifyCert_eq_true h
    obtain rfl := Option.some.inj (hsubject'.symm.trans hsubject)
    obtain ⟨hne, hlisted⟩ := hs.listed subject' caCert contexts hroot
    have hnonempty : s.verifier.pcrsOf contexts ≠ [] := by
      obtain ⟨c, hc⟩ := List.exists_mem_of_ne_nil contexts hne
      obtain ⟨context, hcontext, hlists⟩ := hlisted c hc
      obtain ⟨pcrs, hmem⟩ := List.exists_mem_of_ne_nil _
        (hall c context hcontext (mem_identities_of_mem_caCerts hlists))
      exact List.ne_nil_of_mem ((mem_pcrsOf_iff hs).mpr ⟨c, hc, context, hcontext, hmem⟩)
    obtain ⟨pcrs, hattested, hmem⟩ := mem_of_validateWrappedCert (hpcrs.resolve_left hnonempty)
    obtain ⟨c, hc, context, hcontext, hvalues⟩ := (mem_pcrsOf_iff hs).mp hmem
    obtain ⟨context', hcontext', hlists⟩ := hlisted c hc
    obtain rfl := Option.some.inj (hcontext'.symm.trans hcontext)
    exact ⟨c, context', pcrs, hcontext', mem_identities_of_mem_caCerts hlists, hattested, hvalues⟩
  trusted := by
    intro kind cert subject c context caCert hsubject hcontext hlists hverifies
    obtain ⟨contexts, hroot⟩ := hs.trusted c context hcontext subject caCert hlists
    exact ⟨caCert, contexts, by rw [hsubject]; exact hroot, hverifies⟩

theorem ConsistentTrust.congr {s s' : TlsState χ ι γ π} (hs : ConsistentTrust s)
    (hmap : ∀ c, s'.contextMap.lookup c = s.contextMap.lookup c)
    (hverifier : s'.verifier = s.verifier) : ConsistentTrust s' where
  listed := by
    rw [hverifier]
    simp only [hmap]
    exact hs.listed
  trusted := by
    rw [hverifier]
    simp only [hmap]
    exact hs.trusted
  pcrs := by
    rw [hverifier]
    simp only [hmap]
    exact hs.pcrs

omit [DecidableEq ι] in
theorem lookup_erase_of_notMem {m : HashMap χ (TlsContext χ ι γ π)} {c : χ} (h : c ∉ m) (c' : χ) :
    (m.erase c).lookup c' = m.lookup c' := by
  by_cases hc : c' = c
  · rw [hc, AList.lookup_erase, AList.lookup_eq_none.mpr h]
  · exact AList.lookup_erase_ne hc

/-- A creation is refused, or fails before the verifier is asked, or nothing fails and the registered
contexts list no other CA certificate for an identity of the new one. -/
def TlsCall.Safe (usableRoot : γ → Bool) (s : TlsState χ ι γ π) : TlsCall χ ι γ π → Prop
  | .newContext faults context =>
    (faults.read = false ∧ context.contextId ∈ s.stored) ∨ context.contextId ∈ s.contextMap ∨
      context.parses = false ∨
      (faults.write = false ∧ context.contextId ∉ s.stored ∧ faults.backup = false ∧
        (∀ entry ∈ context.caCerts, usableRoot entry.2 = true) ∧
        ∀ id caCert, (id, caCert) ∈ context.caCerts → ∀ c registered,
          s.contextMap.lookup c = some registered →
          ∀ caCert', (id, caCert') ∈ registered.caCerts → caCert' = caCert)
  | .destroyContext _ contextId => contextId ∉ s.contextMap

section Added

variable {context : TlsContext χ ι γ π} {stored : HashMap χ (TlsContext χ ι γ π)}
  {roots : HashMap ι (γ × List χ)} {id : ι} (hs : ConsistentTrust s)
include hs

/-- The trust root of an identity of the new context, which lists the same CA certificate as the
registered ones. -/
theorem joined_fst (contextId : χ)
    (hsame : ∀ c registered, s.contextMap.lookup c = some registered →
      ∀ caCert', (id, caCert') ∈ registered.caCerts → caCert' = caCert) :
    ∃ contexts, joined contextId caCert (s.verifier.trustRoots.lookup id) =
      (caCert, contexts) ∧ contexts ≠ [] ∧ ∀ c ∈ contexts, c = contextId ∨
        ∃ registered, s.contextMap.lookup c = some registered ∧
          (id, caCert) ∈ registered.caCerts := by
  cases hroot : s.verifier.trustRoots.lookup id with
  | none => exact ⟨[contextId], rfl, by simp, fun c hc => Or.inl (List.mem_singleton.mp hc)⟩
  | some root =>
    obtain ⟨old, contexts⟩ := root
    obtain ⟨hne, hlisted⟩ := hs.listed id old contexts hroot
    obtain ⟨c, hc⟩ := List.exists_mem_of_ne_nil contexts hne
    obtain ⟨registered, hregistered, hlists⟩ := hlisted c hc
    obtain rfl := hsame c registered hregistered old hlists
    refine ⟨contexts.insert contextId, rfl, ?_, ?_⟩
    · exact List.ne_nil_of_mem List.mem_insert_self
    · intro c' hc'
      rcases List.mem_insert_iff.mp hc' with rfl | hc'
      · exact Or.inl rfl
      · exact Or.inr (hlisted c' hc')

variable (hfresh : context.contextId ∉ s.contextMap)

omit hs in
include hfresh in
theorem lookup_insert_of_fresh {c : χ}
    {registered : TlsContext χ ι γ π} (h : s.contextMap.lookup c = some registered) :
    (s.contextMap.insert context.contextId context).lookup c = some registered := by
  rw [AList.lookup_insert_ne, h]
  rintro rfl
  rw [AList.lookup_eq_none.mpr hfresh] at h
  cases h

include hfresh in
theorem lookup_addPcrs (c : χ) : (AttestedVerifier.addPcrs context.contextId context.pcrValues
        s.verifier.releasePcrs).lookup c =
      ((s.contextMap.insert context.contextId context).lookup c).bind fun registered =>
        if registered.pcrValues = [] then none else some registered.pcrValues := by
  have hnone : s.verifier.releasePcrs.lookup context.contextId = none := by
    rw [hs.pcrs, AList.lookup_eq_none.mpr hfresh]
    rfl
  have hvacant := AList.lookup_eq_none.mp hnone
  simp only [AttestedVerifier.addPcrs, hvacant, or_false]
  by_cases hc : c = context.contextId
  · subst hc
    by_cases hnil : context.pcrValues = []
    · simp [hnil, hnone]
    · simp [hnil]
  · rw [AList.lookup_insert_ne hc, ← hs.pcrs]
    split_ifs
    · rfl
    · exact AList.lookup_insert_ne hc

/-- The roots of the identities that the new context lists were joined, and the others kept. -/
structure RootsJoined (s : TlsState χ ι γ π) (context : TlsContext χ ι γ π)
    (roots : HashMap ι (γ × List χ)) : Prop where
  same : ∀ id caCert, (id, caCert) ∈ context.caCerts → ∀ c registered,
    s.contextMap.lookup c = some registered →
    ∀ caCert', (id, caCert') ∈ registered.caCerts → caCert' = caCert
  joined : ∀ entry ∈ context.caCerts, roots.lookup entry.1 =
    some (ThresholdKms.joined context.contextId entry.2 (s.verifier.trustRoots.lookup entry.1))
  kept : ∀ id, id ∉ context.caCerts.map Prod.fst →
    roots.lookup id = s.verifier.trustRoots.lookup id

variable (h : RootsJoined s context roots)
include h

include hfresh in
theorem RootsJoined.listed (hroot : roots.lookup id = some (caCert, contexts)) :
    contexts ≠ [] ∧ ∀ c ∈ contexts, ∃ registered,
      (s.contextMap.insert context.contextId context).lookup c = some registered ∧
        (id, caCert) ∈ registered.caCerts := by
  by_cases hid : id ∈ context.caCerts.map Prod.fst
  · obtain ⟨⟨_, ca⟩, hentry, rfl⟩ := List.mem_map.mp hid
    obtain ⟨contexts', heq, hne, hall⟩ := joined_fst hs context.contextId (h.same _ ca hentry)
    rw [h.joined _ hentry, heq] at hroot
    cases hroot
    refine ⟨hne, fun c hc => ?_⟩
    rcases hall c hc with rfl | ⟨registered, hregistered, hlists⟩
    · exact ⟨context, AList.lookup_insert _, hentry⟩
    · exact ⟨registered, lookup_insert_of_fresh hfresh hregistered, hlists⟩
  · rw [h.kept id hid] at hroot
    obtain ⟨hne, hlisted⟩ := hs.listed id caCert contexts hroot
    refine ⟨hne, fun c hc => ?_⟩
    obtain ⟨registered, hregistered, hlists⟩ := hlisted c hc
    exact ⟨registered, lookup_insert_of_fresh hfresh hregistered, hlists⟩

theorem RootsJoined.trusted {c : χ} {registered : TlsContext χ ι γ π}
    (hlookup : (s.contextMap.insert context.contextId context).lookup c = some registered)
    (hlists : (id, caCert) ∈ registered.caCerts) :
    ∃ contexts, roots.lookup id = some (caCert, contexts) := by
  by_cases hc : c = context.contextId
  · subst hc
    obtain rfl := Option.some.inj ((AList.lookup_insert _).symm.trans hlookup)
    obtain ⟨contexts, heq, -⟩ := joined_fst hs context.contextId (h.same _ caCert hlists)
    exact ⟨contexts, by rw [← heq]; exact h.joined _ hlists⟩
  · have hlookup' : s.contextMap.lookup c = some registered :=
      (AList.lookup_insert_ne hc).symm.trans hlookup
    obtain ⟨contexts, hroot⟩ := hs.trusted c registered hlookup' id caCert hlists
    by_cases hid : id ∈ context.caCerts.map Prod.fst
    · obtain ⟨⟨_, ca⟩, hentry, rfl⟩ := List.mem_map.mp hid
      refine ⟨contexts.insert context.contextId, (h.joined _ hentry).trans ?_⟩
      rw [hroot]
      rfl
    · exact ⟨contexts, (h.kept id hid).trans hroot⟩

include hfresh in
theorem consistent_added :
    ConsistentTrust ⟨s.contextMap.insert context.contextId context, stored,
      ⟨roots, AttestedVerifier.addPcrs context.contextId context.pcrValues
        s.verifier.releasePcrs⟩⟩ := by
  refine ⟨?_, ?_, lookup_addPcrs hs hfresh⟩
  · exact fun id caCert contexts hroot => h.listed hs hfresh hroot
  · exact fun c registered hlookup id caCert hlists => h.trusted hs hlookup hlists

end Added

theorem ConsistentTrust.next {usableRoot : γ → Bool}
    (hs : ConsistentTrust s) {call : TlsCall χ ι γ π} (hsafe : call.Safe usableRoot s) :
    ConsistentTrust (call.next usableRoot s) := by
  cases call with
  | destroyContext faults contextId => exact hs.congr (lookup_erase_of_notMem hsafe) rfl
  | newContext faults context =>
    simp only [TlsCall.next, newMpcContext]
    by_cases hknown : (faults.read = false ∧ context.contextId ∈ s.stored) ∨
        context.contextId ∈ s.contextMap
    · rw [if_pos hknown]
      exact hs
    rw [if_neg hknown]
    have hfresh : context.contextId ∉ s.contextMap := fun h => hknown (Or.inr h)
    by_cases hparses : context.parses = false
    · refine (hs.congr (fun c => ?_) ?_ :
        ConsistentTrust (atomicUpdateContext usableRoot faults context s).2)
      · simp only [atomicUpdateContext, hparses, Bool.false_eq_true, and_false, if_false]
        exact lookup_erase_of_notMem hfresh c
      · simp only [atomicUpdateContext, hparses, Bool.false_eq_true, and_false, if_false]
    · obtain ⟨hwrite, hnew, hbackup, husable, hsame⟩ : faults.write = false ∧
          context.contextId ∉ s.stored ∧ faults.backup = false ∧
          (∀ entry ∈ context.caCerts, usableRoot entry.2 = true) ∧ _ := by
        rcases hsafe with h | h | h | h
        · exact absurd (Or.inl h) hknown
        · exact absurd (Or.inr h) hknown
        · exact absurd h hparses
        · exact h
      obtain ⟨roots, hrun⟩ : ∃ roots, UntilFailure.run (AttestedVerifier.addRoot usableRoot
          context.contextId) context.caCerts s.verifier.trustRoots = (true, roots) :=
        ⟨_, Prod.ext (run_addRoot_succeeds husable _) rfl⟩
      obtain ⟨hjoined, hkept⟩ := run_addRoot_eq_true (nodup_caCerts context) hrun
      have hconsistent := @consistent_added _ _ _ _ _ _ s context
        (s.stored.insert context.contextId context) roots hs hfresh ⟨hsame, hjoined, hkept⟩
      simpa only [atomicUpdateContext, hparses, hwrite, hnew, hbackup, AttestedVerifier.addContext,
        hrun, if_true, Bool.false_eq_true, if_false, true_and, not_false_eq_true] using hconsistent

/-- In a run of safe calls, the TLS trust follows the registered contexts. -/
theorem tls_trust_follows_contexts [DecidableEq π] (crypto : TlsCrypto ι γ π)
    {s : TlsState χ ι γ π} {calls : List (TlsCall χ ι γ π)} (hs : ConsistentTrust s)
    (hsafe : Along (TlsCall.next crypto.usableRoot) (TlsCall.Safe crypto.usableRoot) s calls) :
    TrustFollows crypto s ∧ Along (TlsCall.next crypto.usableRoot)
      (fun s call => TrustFollows crypto (call.next crypto.usableRoot s)) s calls :=
  ⟨hs.trustFollows crypto, Along.of_invariant (fun _ _ hinv h => hinv.next h)
    (fun _ _ hinv h => (hinv.next h).trustFollows crypto) hs hsafe⟩

section OneParty

/-- Contexts, parties, certificates and PCR values are numbers, and a certificate is the number of
the CA certificate under which it verifies. -/
def numberTls : TlsCrypto ℕ ℕ ℕ where
  Cert := ℕ
  usableRoot := fun _ => true
  subject := fun _ => some 1
  verifiesClient := fun caCert cert => caCert = cert
  verifiesServer := fun caCert cert => caCert = cert
  attested := fun _ => none
  attestedOtherwise := fun _ _ => true

/-- Party 1 with the given CA certificate. -/
def onePartyContext (contextId caCert : ℕ) : TlsContext ℕ ℕ ℕ ℕ :=
  ⟨contextId, [⟨1, some caCert⟩], [], true, by simp⟩

def noTlsFaults : TlsFaults := ⟨false, false, false, false⟩

def noContexts : TlsState ℕ ℕ ℕ ℕ := ⟨∅, ∅, ∅, ∅⟩

theorem consistent_noContexts : ConsistentTrust noContexts where
  listed := fun _ _ _ h => by cases h
  trusted := fun _ _ h => by cases h
  pcrs := fun _ => rfl

/-- A destroyed context is still trusted, and a second context cannot replace a CA certificate. -/
theorem tls_trust_outlives_context :
    let created := TlsCall.next numberTls.usableRoot noContexts
      (.newContext noTlsFaults (onePartyContext 5 7))
    let destroyed := TlsCall.next numberTls.usableRoot created (.destroyContext noTlsFaults 5)
    let renewed := TlsCall.next numberTls.usableRoot created
      (.newContext noTlsFaults (onePartyContext 6 8))
    (destroyed.contextMap = ∅ ∧ destroyed.verifier.verifyCert numberTls .client (7 : ℕ) = true) ∧
      renewed.contextMap.lookup 6 = some (onePartyContext 6 8) ∧
      renewed.verifier.verifyCert numberTls .client (8 : ℕ) = false := by
  refine ⟨⟨rfl, rfl⟩, rfl, rfl⟩

/-- A creation that cannot be parsed and is not taken back from the storage, a second try of it that
is refused, and two contexts that list party 1 with the same CA certificate. -/
def sharedRootCalls : List (TlsCall ℕ ℕ ℕ ℕ) :=
  [.newContext { noTlsFaults with deletion := true } { onePartyContext 4 9 with parses := false },
    .newContext noTlsFaults (onePartyContext 4 9), .newContext noTlsFaults (onePartyContext 5 7),
    .newContext noTlsFaults (onePartyContext 6 7)]

theorem tls_trust_follows_shared_root :
    ((sharedRootCalls.foldl (TlsCall.next numberTls.usableRoot) noContexts).verifier.trustRoots.lookup
      1 = some (7, [6, 5])) ∧
    TrustFollows numberTls noContexts ∧ Along (TlsCall.next numberTls.usableRoot)
      (fun s call => TrustFollows numberTls (call.next numberTls.usableRoot s)) noContexts
      sharedRootCalls := by
  refine ⟨rfl, tls_trust_follows_contexts numberTls consistent_noContexts
    ⟨Or.inr (Or.inr (Or.inl rfl)), Or.inl (by decide), Or.inr (Or.inr (Or.inr ⟨rfl, by decide, rfl,
      fun _ _ => rfl, ?_⟩)), Or.inr (Or.inr (Or.inr ⟨rfl, by decide, rfl, fun _ _ => rfl, ?_⟩)),
      trivial⟩⟩
  · intro id caCert _ c registered hregistered
    cases hregistered
  · intro id caCert hlists c registered hregistered caCert' hlists'
    have hmap : (AList.insert 5 (onePartyContext 5 7) ∅ : HashMap ℕ _).lookup c = some registered :=
      hregistered
    by_cases hc : c = 5
    · rw [hc, AList.lookup_insert, Option.some_inj] at hmap
      rw [← hmap] at hlists'
      cases List.mem_singleton.mp hlists
      cases List.mem_singleton.mp hlists'
      rfl
    · rw [AList.lookup_insert_ne hc] at hmap
      cases hmap

end OneParty

end ThresholdKms
