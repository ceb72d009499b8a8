import ThresholdKms.CustodianRecovery

/-!
# Recovery is exact

An output is accepted exactly if it holds the material of its role, unaltered. The loop over the
outputs collects the roles that have such an output, whatever else is among the outputs.
-/

namespace ThresholdKms

namespace Operator

variable {crypto : BackupCrypto} {op : Operator crypto} {sk : crypto.SigKey}
  {rng : BackupRng crypto} {secret backupId mpcContextId : Bytes}
  {result : SigncryptResult crypto} {material : Role → BackupMaterial crypto.VerfKey}
  {recovery : RecoveryValidationMaterial crypto}

/-- The materials that were signcrypted for the custodians. -/
def SigncryptedFor (op : Operator crypto) (sk : crypto.SigKey) (rng : BackupRng crypto)
    (result : SigncryptResult crypto) (material : Role → BackupMaterial crypto.VerfKey) : Prop :=
  ∀ role encPk sigPk, op.custodianKeys.lookup role = some (encPk, sigPk) →
    (material role).custodianRole = role ∧ result.Holds rng sk encPk (material role)

variable {F : Type}

theorem Usable.signcryptedFor [Field F] [DecidableEq F] [G2p .four F]
    (h : Usable F op sk rng secret backupId mpcContextId result material) :
    SigncryptedFor op sk rng result material := by
  intro role encPk sigPk hkey
  obtain ⟨hholds, hmaterial⟩ := h.holds role encPk sigPk hkey
  exact ⟨by rw [hmaterial]; rfl, hholds⟩

/-- The output holds the material of its role. -/
def Unaltered (op : Operator crypto) (decKey : crypto.DecKey) (encKey : crypto.EncKey)
    (material : Role → BackupMaterial crypto.VerfKey) (output : CustodianRecoveryOutput crypto) :
    Prop :=
  ∃ encPk verfKey, op.custodianKeys.lookup output.custodianRole = some (encPk, verfKey) ∧
    crypto.unsigncrypt decKey encKey verfKey (crypto.verfKeyId op.verificationKey)
      output.signcryption = .ok (material output.custodianRole)

/-- What the checks compare with: the commitments are to the materials. -/
structure Committed (op : Operator crypto) (recovery : RecoveryValidationMaterial crypto)
    (material : Role → BackupMaterial crypto.VerfKey) : Prop where
  collisionFree : crypto.CollisionFree
  backupId_valid : idIsValid recovery.contextId
  mpcContextId_valid : idIsValid recovery.mpcContext
  get_eq : ∀ role encPk sigPk, op.custodianKeys.lookup role = some (encPk, sigPk) →
    ∃ digest, recovery.get role = .ok digest ∧ crypto.hashVersioned (material role) = .ok digest
  material_eq : ∀ role encPk sigPk, op.custodianKeys.lookup role = some (encPk, sigPk) →
    material role = op.backupMaterial recovery.contextId recovery.mpcContext sigPk role
      (material role).shares

variable {role : Role}

section Validation

variable {decKey : crypto.DecKey} {encKey : crypto.EncKey}

theorem validateMaterial_eq_ok {verfKey : crypto.VerfKey} {m m' : BackupMaterial crypto.VerfKey}
    (h : op.validateMaterial recovery role verfKey m = .ok m') :
    m' = m ∧ ∃ digest, crypto.hashVersioned m = .ok digest ∧ recovery.get role = .ok digest := by
  unfold validateMaterial at h
  split_ifs at h
  obtain ⟨-, -, h⟩ := Outcome.bind_eq_ok.mp h
  cases hhash : crypto.hashVersioned m with
  | error fault =>
    rw [hhash] at h
    cases h
  | ok actual =>
    cases hget : recovery.get role with
    | error fault =>
      rw [hhash, hget] at h
      cases h
    | ok expected =>
      rw [hhash, hget] at h
      dsimp only at h
      split_ifs at h with hne
      obtain rfl := Except.ok.inj h
      exact ⟨rfl, actual, rfl, by rw [not_not.mp hne]⟩

theorem validateMaterial_of_committed (h : Committed op recovery material) {encPk : crypto.EncKey}
    {sigPk : crypto.VerfKey} (hkey : op.custodianKeys.lookup role = some (encPk, sigPk)) :
    op.validateMaterial recovery role sigPk (material role) = .ok (material role) := by
  obtain ⟨digest, hget, hhash⟩ := h.get_eq role encPk sigPk hkey
  have hmaterial := h.material_eq role encPk sigPk hkey
  have hmeta : checkExpectedMetadata (material role) sigPk role
      (crypto.verfKeyId op.verificationKey) = .ok () := by
    rw [hmaterial]
    simp [checkExpectedMetadata, backupMaterial]
  have hbackup : (material role).backupId = recovery.contextId := by
    rw [hmaterial]
    rfl
  have hmpc : (material role).mpcContextId = recovery.mpcContext := by
    rw [hmaterial]
    rfl
  unfold validateMaterial
  rw [hbackup, hmpc, hmeta, hhash, hget]
  simp [h.backupId_valid, h.mpcContextId_valid]

/-- An output is accepted just when it is unaltered. -/
theorem validateOneRecoveryOutput_eq_ok_iff (h : Committed op recovery material)
    {output : CustodianRecoveryOutput crypto} {m : BackupMaterial crypto.VerfKey} :
    op.validateOneRecoveryOutput output recovery decKey encKey = .ok m ↔
      Unaltered op decKey encKey material output ∧ m = material output.custodianRole := by
  unfold validateOneRecoveryOutput Unaltered
  cases hkey : op.custodianKeys.lookup output.custodianRole with
  | none => simp
  | some keys =>
    obtain ⟨encPk, sigPk⟩ := keys
    obtain ⟨digest, hget, hhash⟩ := h.get_eq _ encPk sigPk hkey
    dsimp only
    cases hplain : crypto.unsigncrypt decKey encKey sigPk (crypto.verfKeyId op.verificationKey)
        output.signcryption with
    | error fault =>
      constructor
      · intro hok
        cases hok
      · rintro ⟨⟨encPk', sigPk', hkey', hplain'⟩, -⟩
        cases hkey'
        rw [hplain] at hplain'
        cases hplain'
    | ok plain =>
      constructor
      · intro hok
        obtain ⟨rfl, digest', hhash', hget'⟩ := validateMaterial_eq_ok hok
        obtain rfl : digest = digest' := Except.ok.inj (hget.symm.trans hget')
        obtain rfl := h.collisionFree _ _ digest hhash' hhash
        exact ⟨⟨encPk, sigPk, rfl, hplain⟩, rfl⟩
      · rintro ⟨⟨encPk', sigPk', hkey', hplain'⟩, rfl⟩
        cases hkey'
        rw [hplain] at hplain'
        obtain rfl := Except.ok.inj hplain'
        exact validateMaterial_of_committed h hkey

/-- What the loop has collected from the outputs it has seen. -/
structure Collected (op : Operator crypto) (decKey : crypto.DecKey) (encKey : crypto.EncKey)
    (material : Role → BackupMaterial crypto.VerfKey)
    (outputs : List (CustodianRecoveryOutput crypto)) (state : Validated crypto) : Prop where
  lookup_eq : ∀ role m, state.1.lookup role = some m → m = material role
  mem_iff : ∀ role, role ∈ state.1 ↔
    ∃ output ∈ outputs, Unaltered op decKey encKey material output ∧ output.custodianRole = role

theorem Collected.start : Collected op decKey encKey material [] (∅, []) where
  lookup_eq role m h := by
    cases h
  mem_iff role := iff_of_false (AList.notMem_empty role) (by simp)

variable {outputs : List (CustodianRecoveryOutput crypto)} {state : Validated crypto}
  (h : Collected op decKey encKey material outputs state)
include h

theorem Collected.step (hcommitted : Committed op recovery material)
    (output : CustodianRecoveryOutput crypto) :
    Collected op decKey encKey material (outputs ++ [output])
      (op.validateStep recovery decKey encKey state output) := by
  have hiff : ∀ m, op.validateOneRecoveryOutput output recovery decKey encKey = .ok m ↔
      Unaltered op decKey encKey material output ∧ m = material output.custodianRole := fun m =>
    validateOneRecoveryOutput_eq_ok_iff hcommitted
  have hsplit : ∀ role, (∃ o ∈ outputs ++ [output],
      Unaltered op decKey encKey material o ∧ o.custodianRole = role) ↔
        role ∈ state.1 ∨ Unaltered op decKey encKey material output ∧ output.custodianRole = role := by
    intro role
    rw [h.mem_iff]
    simp only [List.mem_append, List.mem_singleton, or_and_right, exists_or, exists_eq_left]
  unfold validateStep
  cases hone : op.validateOneRecoveryOutput output recovery decKey encKey with
  | error reason =>
    have hnot : ¬ Unaltered op decKey encKey material output := by
      intro hun
      rw [(hiff _).mpr ⟨hun, rfl⟩] at hone
      cases hone
    refine ⟨h.lookup_eq, fun role => ?_⟩
    rw [hsplit]
    exact ⟨Or.inl, fun hor => hor.resolve_right fun hun => hnot hun.1⟩
  | ok m =>
    obtain ⟨hun, rfl⟩ := (hiff m).mp hone
    cases hlookup : state.1.lookup output.custodianRole with
    | some old =>
      have hmem : output.custodianRole ∈ state.1 := mem_of_lookup_eq_some hlookup
      refine ⟨h.lookup_eq, fun role => ?_⟩
      rw [hsplit]
      exact ⟨Or.inl, fun hor => hor.elim id fun hrole => hrole.2 ▸ hmem⟩
    | none =>
      refine ⟨forall_lookup_insert h.lookup_eq rfl, fun role => ?_⟩
      rw [hsplit, AList.mem_insert]
      constructor
      · exact fun hor => hor.symm.imp id fun heq => ⟨hun, heq.symm⟩
      · exact fun hor => hor.symm.imp (fun hrole => hrole.2.symm) id

theorem Collected.run (hcommitted : Committed op recovery material)
    {rest : List (CustodianRecoveryOutput crypto)} :
    Collected op decKey encKey material (outputs ++ rest)
      (rest.foldl (op.validateStep recovery decKey encKey) state) := by
  induction rest generalizing outputs state with
  | nil => rwa [List.append_nil]
  | cons output rest ih =>
    have hrest := ih (h.step hcommitted output)
    rwa [List.append_assoc] at hrest

/-- The outputs hold the materials of more roles than the threshold. -/
def EnoughUnaltered (op : Operator crypto) (decKey : crypto.DecKey) (encKey : crypto.EncKey)
    (material : Role → BackupMaterial crypto.VerfKey) (t : ℕ)
    (outputs : List (CustodianRecoveryOutput crypto)) : Prop :=
  ∃ roles : List Role, roles.Nodup ∧ t < roles.length ∧ ∀ role ∈ roles,
    ∃ output ∈ outputs, Unaltered op decKey encKey material output ∧ output.custodianRole = role

theorem Collected.enough_iff (t : ℕ) :
    EnoughUnaltered op decKey encKey material t outputs ↔ t < state.1.keys.length := by
  constructor
  · rintro ⟨roles, hnodup, ht, hroles⟩
    have hsub : roles ⊆ state.1.keys := fun role hrole => (h.mem_iff role).mpr (hroles role hrole)
    exact ht.trans_le (List.subperm_of_subset hnodup hsub).length_le
  · intro ht
    exact ⟨state.1.keys, state.1.nodupKeys, ht, fun role hrole => (h.mem_iff role).mp hrole⟩

theorem Collected.entries_eq :
    state.1.entries.map (fun entry => entry.2.shares) =
      state.1.keys.map fun role => (material role).shares := by
  rw [AList.keys, List.keys, List.map_map]
  refine List.map_congr_left fun entry hentry => ?_
  have hlookup := AList.mem_lookup_iff.mpr (show ⟨entry.1, entry.2⟩ ∈ state.1.entries from hentry)
  rw [Function.comp_apply, ← h.lookup_eq entry.1 entry.2 hlookup]

end Validation

theorem recovery_eq_of_new {n t : ℕ}
    (h : RecoveryValidationMaterial.new result n t backupId mpcContextId = .ok recovery) :
    recovery = ⟨result.commitments, t, backupId, mpcContextId⟩ := by
  unfold RecoveryValidationMaterial.new at h
  dsimp only at h
  split_ifs at h with hcount
  · cases h
  · cases hfind : (partyRoles n).find? (· ∉ result.ctShares) with
    | some role =>
      rw [hfind] at h
      cases h
    | none =>
      rw [hfind] at h
      exact (Except.ok.inj h).symm

section Exact

variable [Field F] [DecidableEq F] [G2p .four F] (hcollision : crypto.CollisionFree)
  {material' : Role → BackupMaterial crypto.VerfKey}
include hcollision

theorem SigncryptedFor.eq (hmaterial : SigncryptedFor op sk rng result material)
    (hmaterial' : SigncryptedFor op sk rng result material')
    (h : role ∈ op.custodianKeys) : material role = material' role := by
  obtain ⟨⟨encPk, sigPk⟩, hkey⟩ := exists_lookup_of_mem h
  obtain ⟨hrole, -, digest, hlookup, hhash⟩ := hmaterial role encPk sigPk hkey
  obtain ⟨hrole', -, digest', hlookup', hhash'⟩ := hmaterial' role encPk sigPk hkey
  rw [hrole] at hlookup
  rw [hrole', hlookup] at hlookup'
  cases hlookup'
  exact hcollision _ _ digest hhash hhash'

theorem committed_of_usable
    (husable : Usable F op sk rng secret backupId mpcContextId result material')
    (hmaterial : ∀ role ∈ op.custodianKeys, material role = material' role)
    (hle : ∀ role ∈ op.custodianKeys, role ≤ op.custodianKeys.keys.length)
    (hbackup : idIsValid backupId) (hmpc : idIsValid mpcContextId) (t : ℕ) :
    Committed op ⟨result.commitments, t, backupId, mpcContextId⟩ material where
  collisionFree := hcollision
  backupId_valid := hbackup
  mpcContextId_valid := hmpc
  get_eq role encPk sigPk hkey := by
    have hmem : role ∈ op.custodianKeys := mem_of_lookup_eq_some hkey
    obtain ⟨⟨-, digest, hlookup, hhash⟩, heq⟩ := husable.holds role encPk sigPk hkey
    have hrole : (material' role).custodianRole = role := by
      rw [heq]
      rfl
    have hlen := length_keys_of_mem_iff husable.mem_commitments
    refine ⟨digest, ?_, by rw [hmaterial role hmem, hhash]⟩
    unfold RecoveryValidationMaterial.get
    rw [if_neg, ← hrole, hlookup]
    exact not_lt.mpr ((hle role hmem).trans_eq hlen.symm)
  material_eq role encPk sigPk hkey := by
    have hmem : role ∈ op.custodianKeys := mem_of_lookup_eq_some hkey
    rw [hmaterial role hmem]
    exact (husable.holds role encPk sigPk hkey).2

variable {n t : ℕ} (hn : 2 * t < n) (hkeys : ∀ role, role ∈ op.custodianKeys ↔ 1 ≤ role ∧ role ≤ n)
  (hthreshold : op.threshold = t) (hsk : op.signingKey = some sk) (hbackup : idIsValid backupId)
  (hmpc : idIsValid mpcContextId)
  (hshare : op.secretShareAndSigncrypt rng secret backupId mpcContextId = .ok result)
  (hnew : RecoveryValidationMaterial.new result n t backupId mpcContextId = .ok recovery)
  (hmaterial : SigncryptedFor op sk rng result material)
include hn hkeys hthreshold hsk hbackup hmpc hshare hnew hmaterial

variable (F) in
/-- What a backup for the roles up to `n` gives to recovery: the commitments of the materials, which
recover the secret. -/
theorem committed_and_recovers :
    Committed op recovery material ∧ ∀ (store : LagrangeStore F) (state : Validated crypto)
      (outputs : List (CustodianRecoveryOutput crypto)) (decKey : crypto.DecKey)
      (encKey : crypto.EncKey), Collected op decKey encKey material outputs state →
        op.threshold < state.1.keys.length → recoverFromValidated store op.threshold
            (state.1.entries.map fun entry => entry.2.shares) = .ok secret := by
  have hlength := length_keys_of_roles hkeys
  have hlt := length_lt_of_secretShareAndSigncrypt hsk hshare
  have hpad := addPadding_eq (show 0 < backupBlockLen by decide) le_rfl secret
  have ht : op.threshold < op.custodianKeys.keys.length := by
    omega
  have husable := usable_of_signcrypted (F := F) hpad
    (signcrypted_of_eq_ok hsk ht hlt hpad hshare) hlt
    (fun role => by rw [hlength, hkeys, mem_partyRoles_iff])
  have hfor := husable.signcryptedFor
  have hcommitted := committed_of_usable hcollision husable
    (fun role hrole => SigncryptedFor.eq hcollision hmaterial hfor hrole)
    (fun role hrole => ((hkeys role).mp hrole).2.trans_eq hlength.symm) hbackup hmpc t
  rw [← recovery_eq_of_new hnew] at hcommitted
  refine ⟨hcommitted, fun store state outputs decKey encKey hcollected henough => ?_⟩
  have hmem : ∀ role ∈ state.1.keys, role ∈ op.custodianKeys := by
    intro role hrole
    obtain ⟨output, -, ⟨encPk, sigPk, hkey, -⟩, rfl⟩ := (hcollected.mem_iff role).mp hrole
    exact mem_of_lookup_eq_some hkey
  rw [hcollected.entries_eq, List.map_congr_left fun role hrole => congrArg BackupMaterial.shares
    (SigncryptedFor.eq hcollision hmaterial hfor (hmem role hrole))]
  exact husable.recovers store state.1.keys state.1.nodupKeys hmem henough

/-- Recovery returns the secret if the outputs hold the materials of more roles than the threshold,
and an error otherwise. -/
theorem verifyAndRecover_exact (key : Option crypto.SigKey) (store : LagrangeStore F)
    (outputs : List (CustodianRecoveryOutput crypto))
    (decKey : crypto.DecKey) (encKey : crypto.EncKey) :
    (EnoughUnaltered op decKey encKey material t outputs →
        verifyAndRecover { op with signingKey := key } store outputs recovery decKey encKey =
          .ok secret) ∧
      (¬ EnoughUnaltered op decKey encKey material t outputs →
        ∃ e, verifyAndRecover { op with signingKey := key } store outputs recovery decKey encKey =
          BackupOutcome.err e) := by
  obtain ⟨hcommitted, hrecovers⟩ := committed_and_recovers F hcollision hn hkeys hthreshold hsk
    hbackup hmpc hshare hnew hmaterial
  have hcollected : Collected op decKey encKey material outputs
      (outputs.foldl (op.validateStep recovery decKey encKey) (∅, [])) :=
    Collected.start.run hcommitted
  have hthreshold' : recovery.threshold = op.threshold := by
    rw [recovery_eq_of_new hnew, hthreshold]
  rw [← hthreshold, hcollected.enough_iff]
  -- recovery does not sign
  change (_ → verifyAndRecover op store outputs recovery decKey encKey = _) ∧
    (_ → ∃ e, verifyAndRecover op store outputs recovery decKey encKey = _)
  unfold verifyAndRecover
  generalize outputs.foldl (op.validateStep recovery decKey encKey) (∅, []) = state at *
  dsimp only
  constructor
  · intro henough
    rw [if_neg (by omega)]
    exact hrecovers store state outputs decKey encKey hcollected henough
  · intro hfew
    rw [if_pos (by omega)]
    exact ⟨_, rfl⟩

end Exact

theorem new_of_usable [Field F] [DecidableEq F] [G2p .four F]
    (husable : Usable F op sk rng secret backupId mpcContextId result material) {n : ℕ}
    (hlength : op.custodianKeys.keys.length = n)
    (hkeys : ∀ role, role ∈ op.custodianKeys ↔ role ∈ partyRoles n) (t : ℕ) :
    RecoveryValidationMaterial.new result n t backupId mpcContextId =
      .ok ⟨result.commitments, t, backupId, mpcContextId⟩ := by
  have hlen := length_keys_of_mem_iff husable.mem_ctShares
  have hfind : (partyRoles n).find? (· ∉ result.ctShares) = none := by
    rw [List.find?_eq_none]
    intro role hrole
    simpa using (husable.mem_ctShares role).mpr ((hkeys role).mpr hrole)
  unfold RecoveryValidationMaterial.new
  rw [hfind]
  exact if_neg (not_not.mpr (hlength.symm.trans hlen.symm))

theorem mem_plainKeys_three (role : Role) :
    role ∈ (plainOperator [0, 1, 2]).custodianKeys ↔ 1 ≤ role ∧ role ≤ 3 := by
  rw [mem_keys_iff (plainOperator [0, 1, 2]).custodianKeys (by decide) (by decide) role]
  exact mem_partyRoles_iff

theorem usable_plain_three : ∃ result material,
    (plainOperator [0, 1, 2]).secretShareAndSigncrypt plainRng [1, 2] [3] [4] = .ok result ∧
      RecoveryValidationMaterial.new result 3 1 [3] [4] = .ok ⟨result.commitments, 1, [3], [4]⟩ ∧
      SigncryptedFor (plainOperator [0, 1, 2]) (0 : ℕ) plainRng result material := by
  have hsigncryptable : (plainOperator [0, 1, 2]).Signcryptable
      (([1, 2] : Bytes).length / backupBlockLen + 1) := signcryptable_plain _
  obtain ⟨result, material, hshare, husable⟩ := exists_usable GF16 plainCrypto_reliable
    newForSharing_plain_three (by decide) (by decide) hsigncryptable
  exact ⟨result, material, hshare, new_of_usable husable rfl
    (fun role => (mem_plainKeys_three role).trans mem_partyRoles_iff.symm) 1, husable.signcryptedFor⟩

theorem collisionFree_plain : plainCrypto.CollisionFree := by
  have hdigest : ∀ m digest, plainCrypto.hashVersioned m = .ok digest → m = digest := by
    intro m digest h
    unfold BackupCrypto.hashVersioned at h
    split_ifs at h
    · cases h
    · exact Except.ok.inj h
  exact fun m m' digest h h' => (hdigest m digest h).trans (hdigest m' digest h').symm

/-- The custodians with roles two and one of three recover the secret. -/
theorem verifyAndRecover_exact_three : ∃ result recovery outputs,
    (plainOperator [0, 1, 2]).secretShareAndSigncrypt plainRng [1, 2] [3] [4] = .ok result ∧
      RecoveryValidationMaterial.new result 3 1 [3] [4] = .ok recovery ∧
      verifyAndRecover { plainOperator [0, 1, 2] with signingKey := none }
        (LagrangeStore.empty : LagrangeStore GF16) outputs recovery () () = .ok [1, 2] := by
  obtain ⟨result, material, hshare, hnew, hfor⟩ := usable_plain_three
  let outputs : List (CustodianRecoveryOutput plainCrypto) := [⟨material 2, 2⟩, ⟨material 1, 1⟩]
  refine ⟨result, _, outputs, hshare, hnew, ?_⟩
  refine (verifyAndRecover_exact collisionFree_plain (by decide) mem_plainKeys_three rfl rfl
    (by decide) (by decide) hshare hnew hfor none LagrangeStore.empty outputs () ()).1 ?_
  refine ⟨[2, 1], by decide, by decide, fun role hrole => ?_⟩
  rcases List.mem_cons.mp hrole with rfl | hrole
  · exact ⟨⟨material 2, 2⟩, List.mem_cons_self, ⟨(), (2 : ℕ), rfl, rfl⟩, rfl⟩
  · obtain rfl := List.mem_singleton.mp hrole
    exact ⟨⟨material 1, 1⟩, List.mem_cons_of_mem _ List.mem_cons_self, ⟨(), (1 : ℕ), rfl, rfl⟩, rfl⟩

end Operator

end ThresholdKms
