import ThresholdKms.Share
import ThresholdKms.UntilFailure

/-!
# Attested TLS between the parties

The verifier keeps for each identity one CA certificate with the contexts that list it, and for each
context its PCR values. Creating a context adds to them; neither the roll-back of a failed creation
nor the destruction of a context takes anything away, since nothing calls the verifier's own
`remove_context`.
-/

namespace ThresholdKms

/-- `χ` identifies contexts, `ι` parties, `γ` is the type of CA certificates and `π` that of PCR
values. -/
structure TlsNode (ι γ : Type) where
  mpcIdentity : ι
  caCert : Option γ

/-- A context that passed `verify`, so that its identities differ. `parses` says whether its URLs and
certificates can be parsed. -/
structure TlsContext (χ ι γ π : Type) where
  contextId : χ
  nodes : List (TlsNode ι γ)
  pcrValues : List π
  parses : Bool
  nodup_identities : (nodes.map TlsNode.mpcIdentity).Nodup

/-- X.509 and attestation checks. -/
structure TlsCrypto (ι γ π : Type) where
  Cert : Type
  usableRoot : γ → Bool
  subject : Cert → Option ι
  verifiesClient : γ → Cert → Bool
  verifiesServer : γ → Cert → Bool
  attested : Cert → Option π
  attestedOtherwise : γ → Cert → Bool

/-- The certificate of an incoming or of an outgoing connection. -/
inductive PeerKind where
  | client | server
  deriving DecidableEq

variable {χ ι γ π : Type} [DecidableEq χ] [DecidableEq ι] [DecidableEq π]

def TlsContext.caCerts (context : TlsContext χ ι γ π) : List (ι × γ) :=
  context.nodes.filterMap fun node => node.caCert.map (Prod.mk node.mpcIdentity)

structure AttestedVerifier (χ ι γ π : Type) [DecidableEq χ] [DecidableEq ι] where
  trustRoots : HashMap ι (γ × List χ)
  releasePcrs : HashMap χ (List π)

variable (usableRoot : γ → Bool)

namespace AttestedVerifier

/-- An identity that is trusted already keeps its CA certificate. -/
def addRoot (contextId : χ) (entry : ι × γ)
    (trustRoots : HashMap ι (γ × List χ)) : Bool × HashMap ι (γ × List χ) :=
  match trustRoots.lookup entry.1 with
  | some (caCert, contexts) => (true, trustRoots.insert entry.1 (caCert, contexts.insert contextId))
  | none =>
    if usableRoot entry.2 then (true, trustRoots.insert entry.1 (entry.2, [contextId]))
    else (false, trustRoots)

def addPcrs (contextId : χ) (pcrValues : List π) (releasePcrs : HashMap χ (List π)) :
    HashMap χ (List π) :=
  if pcrValues = [] ∨ contextId ∈ releasePcrs then releasePcrs
  else releasePcrs.insert contextId pcrValues

def addContext (context : TlsContext χ ι γ π)
    (verifier : AttestedVerifier χ ι γ π) : Bool × AttestedVerifier χ ι γ π :=
  let added := UntilFailure.run (addRoot usableRoot context.contextId) context.caCerts
    verifier.trustRoots
  (added.1,
    { trustRoots := added.2
      releasePcrs :=
        if added.1 then addPcrs context.contextId context.pcrValues verifier.releasePcrs
        else verifier.releasePcrs })

variable (crypto : TlsCrypto ι γ π)

def verifies : PeerKind → γ → crypto.Cert → Bool
  | .client => crypto.verifiesClient
  | .server => crypto.verifiesServer

/-- The attestation document is valid and its PCR values are trusted. -/
def validateWrappedCert (trustedReleases : List π) (caCert : γ) (cert : crypto.Cert) : Bool :=
  match crypto.attested cert with
  | none => false
  | some pcrs => pcrs ∈ trustedReleases ∧ crypto.attestedOtherwise caCert cert

variable (verifier : AttestedVerifier χ ι γ π)

def pcrsOf (contexts : List χ) : List π :=
  contexts.flatMap fun contextId => (verifier.releasePcrs.lookup contextId).getD []

/-- `verify_client_cert` and `verify_server_cert`. -/
def verifyCert (kind : PeerKind) (cert : crypto.Cert) : Bool :=
  match (crypto.subject cert).bind verifier.trustRoots.lookup with
  | none => false
  | some (caCert, contexts) =>
    verifies crypto kind caCert cert ∧
      (verifier.pcrsOf contexts = [] ∨
        validateWrappedCert crypto (verifier.pcrsOf contexts) caCert cert)

/-- The certificate passes the check against the CA certificate of its subject. -/
def passesCa (kind : PeerKind) (cert : crypto.Cert) : Prop :=
  ∃ caCert contexts, (crypto.subject cert).bind verifier.trustRoots.lookup =
    some (caCert, contexts) ∧ verifies crypto kind caCert cert

end AttestedVerifier

/-- The session maker's contexts, those in the private storage, and the verifier. -/
structure TlsState (χ ι γ π : Type) [DecidableEq χ] [DecidableEq ι] where
  contextMap : HashMap χ (TlsContext χ ι γ π)
  stored : HashMap χ (TlsContext χ ι γ π)
  verifier : AttestedVerifier χ ι γ π

/-- The storage accesses that fail; a failed backup is reported although the context is stored. -/
structure TlsFaults where
  read : Bool
  write : Bool
  backup : Bool
  deletion : Bool

variable (faults : TlsFaults)

def removeStored (contextId : χ) (stored : HashMap χ (TlsContext χ ι γ π)) :
    HashMap χ (TlsContext χ ι γ π) :=
  if faults.deletion then stored else stored.erase contextId

/-- Both the storage, which refuses a context that it has, and the session maker are tried; a failure
of one takes back both, but not what the verifier got. -/
def atomicUpdateContext (context : TlsContext χ ι γ π)
    (s : TlsState χ ι γ π) : Bool × TlsState χ ι γ π :=
  let written := faults.write = false ∧ context.contextId ∉ s.stored
  let stored := if written then s.stored.insert context.contextId context else s.stored
  let added : Bool × TlsState χ ι γ π :=
    if context.parses then
      let result := s.verifier.addContext usableRoot context
      (result.1,
        { contextMap := s.contextMap.insert context.contextId context
          stored := stored
          verifier := result.2 })
    else (false, { s with stored := stored })
  if written ∧ faults.backup = false ∧ added.1 then (true, added.2)
  else
    (false,
      { added.2 with
        contextMap := added.2.contextMap.erase context.contextId
        stored := removeStored faults context.contextId stored })

/-- A stored context that cannot be read counts as one that does not exist. -/
def newMpcContext (context : TlsContext χ ι γ π)
    (s : TlsState χ ι γ π) : Bool × TlsState χ ι γ π :=
  if (faults.read = false ∧ context.contextId ∈ s.stored) ∨ context.contextId ∈ s.contextMap then
    (false, s)
  else atomicUpdateContext usableRoot faults context s

def destroyMpcContext (contextId : χ) (s : TlsState χ ι γ π) :
    Bool × TlsState χ ι γ π :=
  (!faults.deletion,
    { s with
      contextMap := s.contextMap.erase contextId
      stored := removeStored faults contextId s.stored })

inductive TlsCall (χ ι γ π : Type) where
  | newContext (faults : TlsFaults) (context : TlsContext χ ι γ π)
  | destroyContext (faults : TlsFaults) (contextId : χ)

def TlsCall.next (s : TlsState χ ι γ π) : TlsCall χ ι γ π → TlsState χ ι γ π
  | .newContext faults context => (newMpcContext usableRoot faults context s).2
  | .destroyContext faults contextId => (destroyMpcContext faults contextId s).2

end ThresholdKms
