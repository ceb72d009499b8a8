import ThresholdKms.CustodianSetup

/-!
# Sharing a backup among the custodians

The secret is shared among as many roles as there are custodian keys, from one on. The shares are
regrouped by role and signcrypted for the custodians that have a key; other roles are skipped.
-/

namespace ThresholdKms

open GaloisRing

/-- The share of one block is appended to the vector of its owner, in a map sorted by role. -/
def pushShare (inner : Share BackupRing) :
    List (Role × List (Share BackupRing)) → List (Role × List (Share BackupRing))
  | [] => [(inner.owner, [inner])]
  | (role, v) :: rest =>
    if role < inner.owner then (role, v) :: pushShare inner rest
    else if role = inner.owner then (role, v ++ [inner]) :: rest
    else (inner.owner, [inner]) :: (role, v) :: rest

def plainShares (shares : List (ShamirSharings BackupRing)) :
    List (Role × List (Share BackupRing)) :=
  shares.foldl (fun plain share => share.shares.foldl (fun plain inner => pushShare inner plain) plain) []

variable {role : Role}

theorem foldl_pushShare_of_lt {v : List (Share BackupRing)} {l : List (Share BackupRing)}
    (hl : ∀ inner ∈ l, role < inner.owner) (rest : List (Role × List (Share BackupRing))) :
    l.foldl (fun plain inner => pushShare inner plain) ((role, v) :: rest) =
      (role, v) :: l.foldl (fun plain inner => pushShare inner plain) rest := by
  induction l generalizing rest with
  | nil => rfl
  | cons inner l ih =>
    rw [List.foldl_cons, List.foldl_cons, pushShare, if_pos (List.forall_mem_cons.mp hl).1,
      ih (List.forall_mem_cons.mp hl).2]

section Regroup

variable {roles : List Role} (poly : Poly BackupRing)

theorem lt_owner_sharingOfPoly (h : ∀ r ∈ roles, role < r) :
    ∀ inner ∈ (sharingOfPoly poly roles).shares, role < inner.owner := by
  intro inner hinner
  obtain ⟨r, hr, rfl⟩ := List.mem_map.mp hinner
  exact h r hr

variable (hroles : roles.Pairwise (· < ·))
include hroles

theorem foldl_pushShare_nil :
    (sharingOfPoly poly roles).shares.foldl (fun plain inner => pushShare inner plain) [] =
      roles.map fun role => (role, custodianShares [poly] role) := by
  induction roles with
  | nil => rfl
  | cons role roles ih =>
    obtain ⟨hlt, hrest⟩ := List.pairwise_cons.mp hroles
    have hpass := foldl_pushShare_of_lt (lt_owner_sharingOfPoly poly hlt)
      (v := [⟨role, poly.eval (fromByte role)⟩]) []
    rw [ih hrest] at hpass
    exact hpass

theorem foldl_pushShare_map (polys : List (Poly BackupRing)) :
    (sharingOfPoly poly roles).shares.foldl (fun plain inner => pushShare inner plain)
      (roles.map fun role => (role, custodianShares polys role)) =
        roles.map fun role => (role, custodianShares (polys ++ [poly]) role) := by
  induction roles with
  | nil => rfl
  | cons role roles ih =>
    obtain ⟨hlt, hrest⟩ := List.pairwise_cons.mp hroles
    have hpass := foldl_pushShare_of_lt (lt_owner_sharingOfPoly poly hlt)
      (v := custodianShares (polys ++ [poly]) role)
      (roles.map fun role => (role, custodianShares polys role))
    rw [ih hrest] at hpass
    rw [List.map_cons, List.map_cons, ← hpass]
    unfold sharingOfPoly
    rw [List.map_cons, List.foldl_cons, pushShare, if_neg (lt_irrefl _), if_pos rfl]
    simp only [custodianShares, List.map_append, List.map_cons, List.map_nil]

theorem plainShares_eq {polys : List (Poly BackupRing)} (hpolys : polys ≠ []) :
    plainShares (polys.map fun poly => sharingOfPoly poly roles) =
      roles.map fun role => (role, custodianShares polys role) := by
  obtain ⟨first, rest, rfl⟩ := List.exists_cons_of_ne_nil hpolys
  have hrest : ∀ (before rest : List (Poly BackupRing)),
      (rest.map fun poly => sharingOfPoly poly roles).foldl (fun plain share =>
        share.shares.foldl (fun plain inner => pushShare inner plain) plain)
          (roles.map fun role => (role, custodianShares before role)) =
        roles.map fun role => (role, custodianShares (before ++ rest) role) := by
    intro before rest
    induction rest generalizing before with
    | nil => rw [List.append_nil]; rfl
    | cons poly rest ih =>
      rw [List.map_cons, List.foldl_cons, foldl_pushShare_map poly hroles, ih, List.append_assoc]
      rfl
  unfold plainShares
  rw [List.map_cons, List.foldl_cons, foldl_pushShare_nil first hroles, hrest]
  rfl

end Regroup

variable {crypto : BackupCrypto}

structure SigncryptResult (crypto : BackupCrypto) where
  ctShares : HashMap Role crypto.Signcryption
  commitments : HashMap Role crypto.Digest
  skippedRoles : List Role

/-- The random values a call draws: the coefficients of the polynomial of each block, and the coins
of the signcryption for each role. -/
structure BackupRng (crypto : BackupCrypto) where
  coef : ℕ → ℕ → BackupRing
  coins : Role → crypto.Coins

def BackupRng.drawn (rng : BackupRng crypto) (t block : ℕ) : List BackupRing :=
  (List.range t).map (rng.coef block)

namespace Operator

variable (op : Operator crypto) (sk : crypto.SigKey) (rng : BackupRng crypto)
  (secret backupId mpcContextId : Bytes)

def backupMaterial (custodianVerfKey : crypto.VerfKey) (role : Role)
    (shares : List (Share BackupRing)) :
    BackupMaterial crypto.VerfKey :=
  ⟨backupId, mpcContextId, custodianVerfKey, role, op.verificationKey, shares⟩

/-- The shares of one role. -/
def signcryptShares (result : SigncryptResult crypto) (entry : Role × List (Share BackupRing)) :
    BackupOutcome (SigncryptResult crypto) :=
  let (role, shares) := entry
  let minimumExpectedLength := shares.length * (32 + 8) + 8
  let actualLength := crypto.serializedLength shares
  if actualLength < minimumExpectedLength then
    BackupOutcome.err (.operatorError
      s!"share is not long enough: actual={actualLength} < minimum={minimumExpectedLength}")
  else
    match op.custodianKeys.lookup role with
    | none => .ok { result with skippedRoles := result.skippedRoles ++ [role] }
    | some (encPk, sigPk) => do
      let material := op.backupMaterial backupId mpcContextId sigPk role shares
      let signcryption ← Outcome.mapErr .internalCryptographyError
        (crypto.signcrypt (rng.coins role) sk encPk (crypto.verfKeyId sigPk) material)
      let msgDigest ← Outcome.mapErr .operatorError (crypto.hashVersioned material)
      return { result with
        ctShares := result.ctShares.insert role signcryption
        commitments := result.commitments.insert role msgDigest }

/-- The loop of `secretShareAndSigncrypt` over the shares of some roles. -/
def signcryptRoles (polys : List (Poly BackupRing)) (roles : List Role)
    (result : SigncryptResult crypto) : BackupOutcome (SigncryptResult crypto) :=
  (roles.map fun role => (role, custodianShares polys role)).foldlM
    (op.signcryptShares sk rng backupId mpcContextId) result

def secretShareAndSigncrypt : BackupOutcome (SigncryptResult crypto) :=
  match op.signingKey with
  | none => BackupOutcome.err (.operatorError "Operator has no signing key")
  | some sk => do
    let n := op.custodianKeys.keys.length
    let t := op.threshold
    let shares ← shareSecret (rng.drawn t) secret n t
    let result ← (plainShares shares).foldlM (op.signcryptShares sk rng backupId mpcContextId)
      ⟨∅, ∅, []⟩
    let expected := op.threshold + 1
    let got := result.ctShares.keys.length
    let skipped := reprStr result.skippedRoles
    if got < expected then
      BackupOutcome.err (.operatorError
        s!"Not enough valid custodian shares were created: expected at least {expected} but got {got}, skipped roles: {skipped}")
    else
      return result

end Operator

/-- A custodian's ciphertext and commitment are for the given material. -/
structure SigncryptResult.Holds (result : SigncryptResult crypto) (rng : BackupRng crypto)
    (sk : crypto.SigKey) (encPk : crypto.EncKey) (material : BackupMaterial crypto.VerfKey) :
    Prop where
  ctShare : ∃ ct, result.ctShares.lookup material.custodianRole = some ct ∧
    crypto.signcrypt (rng.coins material.custodianRole) sk encPk
      (crypto.verfKeyId material.custodianPk) material = .ok ct
  commitment : ∃ digest, result.commitments.lookup material.custodianRole = some digest ∧
    crypto.hashVersioned material = .ok digest

namespace Operator

variable (op : Operator crypto) (sk : crypto.SigKey) (rng : BackupRng crypto)
  (backupId mpcContextId : Bytes) (polys : List (Poly BackupRing))

/-- What the loop has done for the roles it has seen. -/
structure Signcrypted (roles : List Role) (result : SigncryptResult crypto) : Prop where
  skippedRoles : result.skippedRoles = roles.filter (· ∉ op.custodianKeys)
  mem_ctShares : ∀ role, role ∈ result.ctShares ↔ role ∈ roles ∧ role ∈ op.custodianKeys
  mem_commitments : ∀ role, role ∈ result.commitments ↔ role ∈ roles ∧ role ∈ op.custodianKeys
  holds : ∀ role ∈ roles, ∀ encPk sigPk, op.custodianKeys.lookup role = some (encPk, sigPk) →
    result.Holds rng sk encPk
      (op.backupMaterial backupId mpcContextId sigPk role (custodianShares polys role))

variable {op sk rng backupId mpcContextId polys}

theorem Signcrypted.start : Signcrypted op sk rng backupId mpcContextId polys [] ⟨∅, ∅, []⟩ where
  skippedRoles := rfl
  mem_ctShares role := iff_of_false (AList.notMem_empty role) (by simp)
  mem_commitments role := iff_of_false (AList.notMem_empty role) (by simp)
  holds role hrole := by cases hrole

variable {result : SigncryptResult crypto} {roles : List Role}

section Members

variable {α : Type} {m : HashMap Role α} {keys : CustodianKeys crypto} {r : Role}
  (hmem : r ∈ m ↔ r ∈ roles ∧ r ∈ keys)
include hmem

theorem mem_skip_iff (hkey : role ∉ keys) : r ∈ m ↔ r ∈ roles ++ [role] ∧ r ∈ keys := by
  rw [hmem, List.mem_append, List.mem_singleton, or_and_right, or_iff_left]
  rintro ⟨rfl, hk⟩
  exact hkey hk

theorem mem_insert_iff (hkey : role ∈ keys) (a : α) :
    r ∈ m.insert role a ↔ r ∈ roles ++ [role] ∧ r ∈ keys := by
  have hself : r = role ∧ r ∈ keys ↔ r = role := and_iff_left_of_imp fun heq => heq ▸ hkey
  rw [AList.mem_insert, hmem, List.mem_append, List.mem_singleton, or_and_right, hself, or_comm]

end Members

variable (h : Signcrypted op sk rng backupId mpcContextId polys roles result)
include h

theorem Signcrypted.skip (hkey : role ∉ op.custodianKeys) :
    Signcrypted op sk rng backupId mpcContextId polys (roles ++ [role])
      { result with skippedRoles := result.skippedRoles ++ [role] } where
  skippedRoles := by
    rw [h.skippedRoles, List.filter_append, List.filter_singleton, decide_eq_true hkey, cond_true]
  mem_ctShares r := mem_skip_iff (h.mem_ctShares r) hkey
  mem_commitments r := mem_skip_iff (h.mem_commitments r) hkey
  holds r hr encPk sigPk hlookup := by
    rcases List.mem_append.mp hr with hr | hr
    · obtain ⟨hct, hcommit⟩ := h.holds r hr encPk sigPk hlookup
      exact ⟨hct, hcommit⟩
    · obtain rfl := List.mem_singleton.mp hr
      rw [AList.lookup_eq_none.mpr hkey] at hlookup
      cases hlookup

theorem Signcrypted.insert (hrole : role ∉ roles) {encPk : crypto.EncKey} {sigPk : crypto.VerfKey}
    (hkey : op.custodianKeys.lookup role = some (encPk, sigPk)) {ct : crypto.Signcryption}
    {digest : crypto.Digest}
    (hct : crypto.signcrypt (rng.coins role) sk encPk (crypto.verfKeyId sigPk)
      (op.backupMaterial backupId mpcContextId sigPk role (custodianShares polys role)) = .ok ct)
    (hdigest : crypto.hashVersioned
      (op.backupMaterial backupId mpcContextId sigPk role (custodianShares polys role)) =
        .ok digest) :
    Signcrypted op sk rng backupId mpcContextId polys (roles ++ [role])
      { result with
        ctShares := result.ctShares.insert role ct
        commitments := result.commitments.insert role digest } where
  skippedRoles := by
    have hmem : role ∈ op.custodianKeys := mem_of_lookup_eq_some hkey
    rw [h.skippedRoles, List.filter_append, List.filter_singleton,
      decide_eq_false (not_not.mpr hmem), cond_false, List.append_nil]
  mem_ctShares r := mem_insert_iff (h.mem_ctShares r) (mem_of_lookup_eq_some hkey) ct
  mem_commitments r := mem_insert_iff (h.mem_commitments r) (mem_of_lookup_eq_some hkey) digest
  holds r hr encPk' sigPk' hlookup := by
    rcases List.mem_append.mp hr with hr | hr
    · have hne : r ≠ role := fun heq => hrole (heq ▸ hr)
      obtain ⟨⟨ct', hct', hsign⟩, digest', hdigest', hhash⟩ := h.holds r hr encPk' sigPk' hlookup
      refine ⟨⟨ct', ?_, hsign⟩, digest', ?_, hhash⟩
      · exact (AList.lookup_insert_ne hne).trans hct'
      · exact (AList.lookup_insert_ne hne).trans hdigest'
    · obtain rfl := List.mem_singleton.mp hr
      rw [hkey] at hlookup
      cases hlookup
      exact ⟨⟨ct, AList.lookup_insert _, hct⟩, digest, AList.lookup_insert _, hdigest⟩

variable {result' : SigncryptResult crypto}

theorem Signcrypted.step (hrole : role ∉ roles)
    (hok : op.signcryptShares sk rng backupId mpcContextId result (role, custodianShares polys role) =
      .ok result') :
    Signcrypted op sk rng backupId mpcContextId polys (roles ++ [role]) result' := by
  unfold signcryptShares at hok
  dsimp only at hok
  split_ifs at hok with hlen
  · cases hok
  cases hkey : op.custodianKeys.lookup role with
  | none =>
    rw [hkey] at hok
    cases hok
    exact h.skip (AList.lookup_eq_none.mp hkey)
  | some keys =>
    rw [hkey] at hok
    obtain ⟨ct, hct, hok⟩ := Outcome.bind_eq_ok.mp hok
    obtain ⟨digest, hdigest, hok⟩ := Outcome.bind_eq_ok.mp hok
    cases hok
    exact h.insert hrole hkey (Outcome.mapErr_eq_ok.mp hct) (Outcome.mapErr_eq_ok.mp hdigest)

theorem Signcrypted.run {rest : List Role} (hnodup : (roles ++ rest).Nodup)
    (hok : op.signcryptRoles sk rng backupId mpcContextId polys rest result = .ok result') :
    Signcrypted op sk rng backupId mpcContextId polys (roles ++ rest) result' := by
  induction rest generalizing roles result with
  | nil =>
    cases hok
    rwa [List.append_nil]
  | cons role rest ih =>
    have hrole : role ∉ roles := fun hmem =>
      (List.nodup_append.mp hnodup).2.2 role hmem role List.mem_cons_self rfl
    have happend : roles ++ [role] ++ rest = roles ++ role :: rest := by
      rw [List.append_assoc, List.singleton_append]
    rw [signcryptRoles, List.map_cons, List.foldlM_cons] at hok
    obtain ⟨result₁, hstep, hok⟩ := Outcome.bind_eq_ok.mp hok
    exact happend ▸ ih (h.step hrole hstep) (by rwa [happend]) hok

omit h

/-- The keys of the custodians and the size of the material let every custodian's shares be
signcrypted. -/
structure Signcryptable (op : Operator crypto) (numBlocks : ℕ) : Prop where
  mlKem512 : ∀ role encPk sigPk, op.custodianKeys.lookup role = some (encPk, sigPk) →
    crypto.encryptionSchemeType encPk = .mlKem512
  size_le : crypto.materialSize numBlocks ≤ safeSerSizeLimit

variable (hop : op.Signcryptable polys.length) (hcrypto : crypto.Reliable)
include hop hcrypto

theorem Signcryptable.step (role : Role) (result : SigncryptResult crypto) :
    ∃ result', op.signcryptShares sk rng backupId mpcContextId result
      (role, custodianShares polys role) = .ok result' := by
  have hlen := hcrypto.le_serializedLength (custodianShares polys role)
  have hsize : crypto.materialSize (custodianShares polys role).length ≤ safeSerSizeLimit := by
    rw [custodianShares, List.length_map]
    exact hop.size_le
  unfold signcryptShares
  dsimp only
  rw [if_neg (by omega)]
  cases hkey : op.custodianKeys.lookup role with
  | none => exact ⟨_, rfl⟩
  | some keys =>
    obtain ⟨encPk, sigPk⟩ := keys
    let material := op.backupMaterial backupId mpcContextId sigPk role (custodianShares polys role)
    have hkind := hop.mlKem512 role encPk sigPk hkey
    obtain ⟨ct, hct⟩ := hcrypto.signcryptMlKem512_ok (rng.coins role) sk encPk
      (crypto.verfKeyId sigPk) material hkind hsize
    have hdigest : crypto.hashVersioned material = .ok (crypto.digest material) :=
      if_neg (not_lt.mpr hsize)
    dsimp only
    rw [BackupCrypto.signcrypt_eq_ok_iff.mpr ⟨hkind, hsize, hct⟩, hdigest]
    exact ⟨_, rfl⟩

theorem Signcryptable.run (roles : List Role) (result : SigncryptResult crypto) :
    ∃ result', op.signcryptRoles sk rng backupId mpcContextId polys roles result = .ok result' := by
  induction roles generalizing result with
  | nil => exact ⟨result, rfl⟩
  | cons role roles ih =>
    obtain ⟨result₁, hstep⟩ := hop.step hcrypto role result
    rw [signcryptRoles, List.map_cons, List.foldlM_cons, hstep]
    exact ih result₁

end Operator

/-!
## Whether every custodian gets a share

The shares are made for the roles from one to the number of kept custodians. Every kept custodian
gets one just when these are the kept roles, and the ring has that many embeddings.
-/

namespace Operator

variable {op : Operator crypto} {sk : crypto.SigKey} {rng : BackupRng crypto}
  {secret backupId mpcContextId : Bytes}

/-- What the sharing of a backup is for: each kept custodian has a ciphertext and a commitment for
the same material, no role is skipped, and more of these materials than the threshold recover the
secret. -/
structure Usable (F : Type) [Field F] [DecidableEq F] [G2p .four F] (op : Operator crypto)
    (sk : crypto.SigKey) (rng : BackupRng crypto) (secret backupId mpcContextId : Bytes)
    (result : SigncryptResult crypto) (material : Role → BackupMaterial crypto.VerfKey) : Prop where
  skippedRoles : result.skippedRoles = []
  mem_ctShares : ∀ role, role ∈ result.ctShares ↔ role ∈ op.custodianKeys
  mem_commitments : ∀ role, role ∈ result.commitments ↔ role ∈ op.custodianKeys
  holds : ∀ role encPk sigPk, op.custodianKeys.lookup role = some (encPk, sigPk) →
    result.Holds rng sk encPk (material role) ∧
      material role = op.backupMaterial backupId mpcContextId sigPk role (material role).shares
  recovers : ∀ (store : LagrangeStore F) (roles : List Role), roles.Nodup →
    (∀ role ∈ roles, role ∈ op.custodianKeys) → op.threshold < roles.length →
      recoverFromValidated store op.threshold (roles.map fun role => (material role).shares) =
        .ok secret

variable {padded : Bytes}

section Padded

variable {drawn : ℕ → List BackupRing} (hpad : addPadding backupBlockLen secret = .ok padded)
include hpad

theorem length_blocksOf_padded :
    (blocksOf backupBlockLen padded).length = secret.length / backupBlockLen + 1 := by
  have hlen := length_addPadding (show 0 < backupBlockLen by decide) le_rfl secret hpad
  rw [blocksOf, List.length_map, List.length_range, hlen, Nat.mul_div_cancel _ (by decide)]

theorem length_secretPolys_padded :
    (secretPolys drawn padded).length = secret.length / backupBlockLen + 1 :=
  (length_secretPolys drawn padded).trans (length_blocksOf_padded hpad)

theorem shareSecret_of_too_many {n t : ℕ} (hn : 16 ≤ n) :
    ∃ fault, shareSecret drawn secret n t = .error fault := by
  unfold shareSecret
  rw [hpad]
  dsimp only [bind, Except.bind]
  obtain ⟨block, rest, hblocks⟩ :=
    List.exists_cons_of_length_eq_add_one (length_blocksOf_padded hpad)
  obtain ⟨msg, hmsg⟩ : ∃ msg, shamirShare (drawn 0) (BackupRing.fromBytes block) n t = Outcome.err msg :=
    shamirShare_of_too_many _ _ (show 2 ^ ExtensionDegree.deg .four ≤ n from hn)
  rw [hblocks, List.zipIdx_cons, List.mapM_cons]
  rw [hmsg]
  exact ⟨_, rfl⟩

end Padded

variable {result : SigncryptResult crypto}

section Loop

variable (hsk : op.signingKey = some sk) (ht : op.threshold < op.custodianKeys.keys.length)
  (hn : op.custodianKeys.keys.length < 16) (hpad : addPadding backupBlockLen secret = .ok padded)
include hsk ht hn hpad

/-- With enough embeddings the loop runs over the roles from one on. -/
theorem secretShareAndSigncrypt_eq_ok_iff :
    op.secretShareAndSigncrypt rng secret backupId mpcContextId = .ok result ↔
      op.signcryptRoles sk rng backupId mpcContextId (secretPolys (rng.drawn op.threshold) padded)
        (partyRoles op.custodianKeys.keys.length) ⟨∅, ∅, []⟩ = .ok result ∧
      op.threshold < result.ctShares.keys.length := by
  have hne : secretPolys (rng.drawn op.threshold) padded ≠ [] := by
    apply List.ne_nil_of_length_pos
    rw [length_secretPolys_padded hpad]
    exact Nat.succ_pos _
  unfold secretShareAndSigncrypt
  rw [hsk]
  dsimp only
  rw [shareSecret_eq hpad ht hn, Outcome.ok_bind, plainShares_eq (pairwise_partyRoles _) hne,
    Outcome.bind_eq_ok]
  constructor
  · rintro ⟨result', hrun, hret⟩
    split_ifs at hret with hfew
    · cases hret
    · cases hret
      exact ⟨hrun, by omega⟩
  · rintro ⟨hrun, henough⟩
    exact ⟨result, hrun, if_neg (by omega)⟩

theorem signcrypted_of_eq_ok
    (hok : op.secretShareAndSigncrypt rng secret backupId mpcContextId = .ok result) :
    Signcrypted op sk rng backupId mpcContextId (secretPolys (rng.drawn op.threshold) padded)
      (partyRoles op.custodianKeys.keys.length) result :=
  Signcrypted.start.run (nodup_partyRoles _)
    ((secretShareAndSigncrypt_eq_ok_iff hsk ht hn hpad).mp hok).1

theorem Signcryptable.exists_signcrypted (hcrypto : crypto.Reliable)
    (hop : op.Signcryptable (secret.length / backupBlockLen + 1)) :
    ∃ result, Signcrypted op sk rng backupId mpcContextId
        (secretPolys (rng.drawn op.threshold) padded) (partyRoles op.custodianKeys.keys.length)
        result ∧
      (op.threshold < result.ctShares.keys.length →
        op.secretShareAndSigncrypt rng secret backupId mpcContextId = .ok result) := by
  have hlen : (secretPolys (rng.drawn op.threshold) padded).length = _ :=
    length_secretPolys_padded hpad
  rw [← hlen] at hop
  obtain ⟨result, hrun⟩ := hop.run hcrypto (partyRoles op.custodianKeys.keys.length) ⟨∅, ∅, []⟩
  exact ⟨result, Signcrypted.start.run (nodup_partyRoles _) hrun, fun henough =>
    (secretShareAndSigncrypt_eq_ok_iff hsk ht hn hpad).mpr ⟨hrun, henough⟩⟩

end Loop

theorem length_lt_of_secretShareAndSigncrypt (hsk : op.signingKey = some sk)
    (hok : op.secretShareAndSigncrypt rng secret backupId mpcContextId = .ok result) :
    op.custodianKeys.keys.length < 16 := by
  by_contra hn
  obtain ⟨fault, hfault⟩ := shareSecret_of_too_many
    (addPadding_eq (by decide) le_rfl secret) (not_lt.mp hn)
  unfold secretShareAndSigncrypt at hok
  rw [hsk] at hok
  dsimp only at hok
  rw [hfault] at hok
  cases hok

theorem mem_keys_iff {α : Type} (keys : HashMap Role α) (hpos : ∀ role ∈ keys, 1 ≤ role)
    (hle : ∀ role ∈ keys, role ≤ keys.keys.length) (role : Role) :
    role ∈ keys ↔ role ∈ partyRoles keys.keys.length := by
  have hsub : keys.keys ⊆ partyRoles keys.keys.length := fun r hr =>
    mem_partyRoles_iff.mpr ⟨hpos r hr, hle r hr⟩
  have hperm := (List.subperm_of_subset keys.nodupKeys hsub).perm_of_length_le
    (length_partyRoles _).le
  exact hperm.mem_iff

theorem le_of_partyRoles_subset {α : Type} (keys : HashMap Role α)
    (hsub : ∀ role ∈ partyRoles keys.keys.length, role ∈ keys) {role : Role} (h : role ∈ keys) :
    role ≤ keys.keys.length := by
  have hperm := (List.subperm_of_subset (nodup_partyRoles _)
    (show partyRoles keys.keys.length ⊆ keys.keys from hsub)).perm_of_length_le
      (length_partyRoles _).ge
  exact (mem_partyRoles_iff.mp (hperm.mem_iff.mpr h)).2

/-- The material of a custodian. -/
def materialOf (op : Operator crypto) (backupId mpcContextId : Bytes)
    (polys : List (Poly BackupRing)) (role : Role) : BackupMaterial crypto.VerfKey :=
  op.backupMaterial backupId mpcContextId
    (((op.custodianKeys.lookup role).map Prod.snd).getD op.verificationKey) role
    (custodianShares polys role)

theorem materialOf_eq {role : Role} {encPk : crypto.EncKey} {sigPk : crypto.VerfKey}
    (h : op.custodianKeys.lookup role = some (encPk, sigPk)) (polys : List (Poly BackupRing)) :
    op.materialOf backupId mpcContextId polys role =
      op.backupMaterial backupId mpcContextId sigPk role (custodianShares polys role) := by
  rw [materialOf, h]
  rfl

variable {F : Type} [Field F] [DecidableEq F] [G2p .four F]

section Signcrypted

variable (hpad : addPadding backupBlockLen secret = .ok padded)
  (h : Signcrypted op sk rng backupId mpcContextId (secretPolys (rng.drawn op.threshold) padded)
    (partyRoles op.custodianKeys.keys.length) result)
include hpad h

theorem usable_of_signcrypted (hn : op.custodianKeys.keys.length < 16)
    (hkeys : ∀ role, role ∈ op.custodianKeys ↔ role ∈ partyRoles op.custodianKeys.keys.length) :
    Usable F op sk rng secret backupId mpcContextId result
      (op.materialOf backupId mpcContextId (secretPolys (rng.drawn op.threshold) padded)) where
  skippedRoles := by
    rw [h.skippedRoles, List.filter_eq_nil_iff]
    intro role hrole
    simpa using (hkeys role).mpr hrole
  mem_ctShares role := by rw [h.mem_ctShares, ← hkeys, and_self_iff]
  mem_commitments role := by rw [h.mem_commitments, ← hkeys, and_self_iff]
  holds role encPk sigPk hlookup := by
    have hrole := (hkeys role).mp (mem_of_lookup_eq_some hlookup)
    rw [materialOf_eq hlookup]
    exact ⟨h.holds role hrole encPk sigPk hlookup, rfl⟩
  recovers store roles hnodup hroles ht := by
    refine recoverFromValidated_eq (fun role hrole => ?_) hnodup store ht (fun i => ?_) hpad
    · exact (mem_partyRoles_iff.mp ((hkeys role).mp (hroles role hrole))).2.trans_lt hn
    · rw [BackupRng.drawn, List.length_map, List.length_range]

/-- A sharing that reached every custodian was made with ML-KEM-512 keys, within the limit. -/
theorem signcryptable_of_signcrypted (hpos : 0 < op.custodianKeys.keys.length)
    (hkeys : ∀ role ∈ op.custodianKeys, role ∈ partyRoles op.custodianKeys.keys.length) :
    op.Signcryptable (secret.length / backupBlockLen + 1) := by
  have hsigncrypt : ∀ role encPk sigPk, op.custodianKeys.lookup role = some (encPk, sigPk) →
      crypto.encryptionSchemeType encPk = .mlKem512 ∧
        crypto.materialSize (secret.length / backupBlockLen + 1) ≤ safeSerSizeLimit := by
    intro role encPk sigPk hkey
    obtain ⟨⟨ct, -, hct⟩, -⟩ := h.holds role (hkeys role (mem_of_lookup_eq_some hkey))
      encPk sigPk hkey
    obtain ⟨hkind, hle, -⟩ := BackupCrypto.signcrypt_eq_ok_iff.mp hct
    rw [backupMaterial, custodianShares, List.length_map, length_secretPolys_padded hpad] at hle
    exact ⟨hkind, hle⟩
  obtain ⟨role, hrole⟩ := List.exists_mem_of_length_pos hpos
  obtain ⟨⟨encPk, sigPk⟩, hkey⟩ := exists_lookup_of_mem hrole
  exact ⟨fun role encPk sigPk hkey => (hsigncrypt role encPk sigPk hkey).1,
    (hsigncrypt role encPk sigPk hkey).2⟩

end Signcrypted

variable (F) (hcrypto : crypto.Reliable) {custodianMessages : List (CustodianSetupMessage crypto)}
  {t n : ℕ} {now : ℕ → ℤ} (hop : newForSharing custodianMessages sk t n now = .ok op)
include hcrypto hop

theorem exists_usable
    (hle : ∀ role ∈ op.custodianKeys, role ≤ op.custodianKeys.keys.length)
    (hn : op.custodianKeys.keys.length < 16)
    (hsigncryptable : op.Signcryptable (secret.length / backupBlockLen + 1)) :
    ∃ result material, op.secretShareAndSigncrypt rng secret backupId mpcContextId = .ok result ∧
      Usable F op sk rng secret backupId mpcContextId result material := by
  obtain ⟨hsk, rfl, ht, hpos⟩ := newForSharing_eq_ok hop
  have hpad := addPadding_eq (show 0 < backupBlockLen by decide) le_rfl secret
  obtain ⟨result, hsigncrypted, hok⟩ := hsigncryptable.exists_signcrypted hsk ht hn hpad hcrypto
  have husable := usable_of_signcrypted hpad hsigncrypted hn
    (mem_keys_iff op.custodianKeys hpos hle) (F := F)
  refine ⟨result, _, hok ?_, husable⟩
  rw [length_keys_of_mem_iff husable.mem_ctShares]
  exact ht

/-- Every kept custodian gets a usable share just when the kept roles are those from one to their
number, there are at most fifteen of them, all with ML-KEM-512 keys, and the material of a custodian
is within the limit of the serialization. -/
theorem secretShareAndSigncrypt_usable_iff :
    (∃ result material, op.secretShareAndSigncrypt rng secret backupId mpcContextId = .ok result ∧
        Usable F op sk rng secret backupId mpcContextId result material) ↔
      (∀ role ∈ op.custodianKeys, role ≤ op.custodianKeys.keys.length) ∧
        op.custodianKeys.keys.length < 16 ∧
        op.Signcryptable (secret.length / backupBlockLen + 1) := by
  constructor
  · rintro ⟨result, material, hok, husable⟩
    obtain ⟨hsk, rfl, ht, hpos⟩ := newForSharing_eq_ok hop
    have hpad := addPadding_eq (show 0 < backupBlockLen by decide) le_rfl secret
    have hn := length_lt_of_secretShareAndSigncrypt hsk hok
    have hsigncrypted := signcrypted_of_eq_ok hsk ht hn hpad hok
    have hle : ∀ role ∈ op.custodianKeys, role ≤ op.custodianKeys.keys.length := by
      refine fun role hrole => le_of_partyRoles_subset _ (fun r hr => ?_) hrole
      have hskipped := husable.skippedRoles
      rw [hsigncrypted.skippedRoles, List.filter_eq_nil_iff] at hskipped
      simpa using hskipped r hr
    exact ⟨hle, hn, signcryptable_of_signcrypted hpad hsigncrypted (Nat.zero_lt_of_lt ht)
      (fun role hrole => mem_partyRoles_iff.mpr ⟨hpos role hrole, hle role hrole⟩)⟩
  · rintro ⟨hle, hn, hsigncryptable⟩
    exact exists_usable F hcrypto hop hle hn hsigncryptable

omit hcrypto hop

/-- A scheme that protects nothing. -/
def plainCrypto : BackupCrypto where
  EncKey := Unit
  DecKey := Unit
  VerfKey := ℕ
  SigKey := ℕ
  Signcryption := BackupMaterial ℕ
  Digest := BackupMaterial ℕ
  Coins := Unit
  decEqVerfKey := inferInstance
  decEqDigest := inferInstance
  verfKey := id
  verfKeyId := toLeBytes 8
  encryptionSchemeType _ := .mlKem512
  serializedLength shares := shares.length * (32 + 8) + 8
  materialSize numShares := numShares * (32 + 8) + 8
  sizeLimitError := ""
  signcryptMlKem512 _ _ _ _ material := .ok material
  unsigncrypt _ _ _ _ ct := .ok ct
  digest := id

theorem plainCrypto_reliable : plainCrypto.Reliable where
  signcryptMlKem512_ok _ _ _ _ material _ _ := ⟨material, rfl⟩
  le_serializedLength _ := le_rfl

def plainRng : BackupRng plainCrypto := ⟨fun _ _ => 0, fun _ => ()⟩

/-- The setup message of a custodian whose role follows the given number. -/
def plainMessage (i : ℕ) : CustodianSetupMessage plainCrypto :=
  ⟨setupHeader, i + 1, Nat.succ_pos i, 0, (), i + 1⟩

/-- The operator that keeps these custodians. -/
def plainOperator (numbers : List ℕ) : Operator plainCrypto where
  custodianKeys := numbers.foldl (fun keys i => keys.insert (i + 1) ((), i + 1)) ∅
  signingKey := some (0 : ℕ)
  verificationKey := (0 : ℕ)
  threshold := 1

theorem signcryptable_plain (numbers : List ℕ) : (plainOperator numbers).Signcryptable 1 :=
  ⟨fun _ _ _ _ => rfl, by decide⟩

theorem newForSharing_plain_three :
    newForSharing [plainMessage 0, plainMessage 1, plainMessage 2] (0 : ℕ) 1 3 (fun _ => 0) =
      .ok (plainOperator [0, 1, 2]) := by
  rfl

theorem secretShareAndSigncrypt_usable_iff_three :
    ∃ result material, (plainOperator [0, 1, 2]).secretShareAndSigncrypt plainRng [1, 2] [3] [4] =
        .ok result ∧
      Usable GF16 (plainOperator [0, 1, 2]) (0 : ℕ) plainRng [1, 2] [3] [4] result material :=
  (secretShareAndSigncrypt_usable_iff GF16 plainCrypto_reliable newForSharing_plain_three).mpr
    ⟨by decide, by decide, signcryptable_plain _⟩

theorem newForSharing_plain_later :
    newForSharing [plainMessage 1, plainMessage 2, plainMessage 3] (0 : ℕ) 1 5 (fun _ => 0) =
      .ok (plainOperator [1, 2, 3]) := by
  rfl

/-- The custodian with role four is kept and gets no share, while role one is skipped. -/
theorem secretShareAndSigncrypt_role_without_share :
    ∃ op result, newForSharing [plainMessage 1, plainMessage 2, plainMessage 3] (0 : ℕ) 1 5
        (fun _ => 0) = .ok op ∧
      op.secretShareAndSigncrypt plainRng [1, 2] [3] [4] = .ok result ∧
      result.skippedRoles = [1] ∧ 4 ∈ op.custodianKeys ∧ 4 ∉ result.ctShares := by
  obtain ⟨padded, hpad⟩ : ∃ padded, addPadding backupBlockLen [1, 2] = .ok padded :=
    ⟨_, addPadding_eq (by decide) le_rfl [1, 2]⟩
  obtain ⟨hsk, -, ht, -⟩ := newForSharing_eq_ok newForSharing_plain_later
  obtain ⟨result, hsigncrypted, hok⟩ := @Signcryptable.exists_signcrypted _ _ _ plainRng [1, 2] [3]
    [4] _ hsk ht (by decide) hpad plainCrypto_reliable (signcryptable_plain _)
  refine ⟨_, result, newForSharing_plain_later, hok ?_, ?_, by decide, ?_⟩
  · have hsub : [2, 3] ⊆ result.ctShares.keys := fun role hrole =>
      (hsigncrypted.mem_ctShares role).mpr (by revert role; decide)
    exact (List.subperm_of_subset (by decide) hsub).length_le
  · rw [hsigncrypted.skippedRoles]
    decide
  · rw [hsigncrypted.mem_ctShares]
    decide

end Operator

end ThresholdKms
