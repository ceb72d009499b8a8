import ThresholdKms.BackupPadding
import ThresholdKms.LocalShareChecks

/-!
# Sharing a secret among custodians

Each block of the padded secret is the constant coefficient of a random polynomial of the degree of
the threshold. The shares of any set of more custodians than the threshold give the secret back.
-/

open Polynomial ReceivedWord

namespace ThresholdKms

open GaloisRing

section Shamir

variable {w : ℕ} {e : ExtensionDegree} (drawn : List (GaloisRing w e)) (secret : GaloisRing w e)

/-- The polynomial of `sample_random_with_fixed_constant` for the coefficients that were drawn. -/
def randomPoly (zeroCoef : GaloisRing w e) : Poly (GaloisRing w e) :=
  Poly.fromCoefs (zeroCoef :: drawn)

/-- `ShamirSharings::share`. -/
def shamirShare (numParties threshold : ℕ) : Outcome (ShamirSharings (GaloisRing w e)) :=
  if numParties ≤ threshold then
    Outcome.err s!"number of parties {numParties} must be strictly bigger than the threshold {threshold}"
  else do
    let roleWithEmbeddings ← (partyRoles numParties).mapM fun party => do
      let embedding ← embedRole party
      return (party, embedding)
    let poly := randomPoly drawn secret
    return ⟨roleWithEmbeddings.map fun (role, embedded) => ⟨role, poly.eval embedded⟩⟩

theorem mapM_embed {owners : List Role} (h : Embeddable e owners) :
    owners.mapM (fun party => do
      let embedding ← (embedRole party : Outcome (GaloisRing w e))
      return (party, embedding)) = .ok (owners.map fun party => (party, fromByte party)) :=
  Outcome.mapM_eq_ok fun party hparty => by
    rw [embedRole, getFromExceptionalSequence_of_lt (h.lt party hparty)]
    rfl

variable {numParties threshold : ℕ}

theorem shamirShare_eq (ht : threshold < numParties) (hn : numParties < 2 ^ e.deg) :
    shamirShare drawn secret numParties threshold = .ok ⟨(partyRoles numParties).map fun role =>
      ⟨role, (randomPoly drawn secret).eval (fromByte role)⟩⟩ := by
  unfold shamirShare
  rw [if_neg (by omega), mapM_embed (embeddable_partyRoles hn), Outcome.ok_bind]
  dsimp only
  rw [List.map_map]
  rfl

/-- There are as many embeddings as elements of the quotient field. -/
theorem shamirShare_of_too_many (hn : 2 ^ e.deg ≤ numParties) :
    ∃ msg, shamirShare drawn secret numParties threshold = Outcome.err msg := by
  unfold shamirShare
  split_ifs with ht
  · exact ⟨_, rfl⟩
  · have hmem : 2 ^ e.deg ∈ partyRoles numParties := by
      have hpos : 1 ≤ 2 ^ e.deg := Nat.one_le_two_pow
      exact List.mem_ofFn.mpr ⟨⟨2 ^ e.deg - 1, by omega⟩, Nat.sub_add_cancel hpos⟩
    have hfail : ∀ l : List Role, 2 ^ e.deg ∈ l → ∃ msg, l.mapM (fun party => do
        let embedding ← (embedRole party : Outcome (GaloisRing w e))
        return (party, embedding)) = Outcome.err msg := by
      intro l hl
      induction l with
      | nil => cases hl
      | cons party l ih =>
        rw [List.mapM_cons]
        by_cases hparty : 2 ^ e.deg ≤ party
        · refine ⟨s!"Value {party} is too large to be embedded!", ?_⟩
          rw [embedRole, getFromExceptionalSequence, if_pos hparty]
          rfl
        · obtain ⟨msg, hmsg⟩ := ih ((List.mem_cons.mp hl).resolve_left fun h => hparty h.le)
          refine ⟨msg, ?_⟩
          rw [embedRole, getFromExceptionalSequence, if_neg hparty]
          simp only [Outcome.ok_bind, hmsg]
          rfl
    obtain ⟨msg, hmsg⟩ := hfail _ hmem
    exact ⟨msg, by rw [hmsg]; rfl⟩

variable {F : Type} [Field F] [DecidableEq F] [G2p e F]

theorem errorReconstruct_of_poly (hw : 0 < w) (store : LagrangeStore F)
    {sharing : ShamirSharings (GaloisRing w e)} (howners : Embeddable e sharing.owners)
    {threshold : ℕ} (hlen : threshold < sharing.shares.length) {f : (GaloisRing w e)[X]}
    (hf : f.degree < ((threshold + 1 : ℕ) : WithBot ℕ))
    (hshares : ∀ s ∈ sharing.shares, f.eval (fromByte s.owner) = s.value) :
    errorReconstruct store sharing threshold 0 = .ok (f.eval 0) := by
  have hdis : disagreements (sharingWord sharing) f ≤ 0 := by
    rw [disagreements, Nat.le_zero, List.length_eq_zero_iff, List.eq_nil_iff_forall_not_mem]
    intro p hp
    obtain ⟨hmem, hne⟩ := mem_errors.mp hp
    obtain ⟨s, hs, rfl⟩ := List.mem_map.mp hmem
    exact hne (hshares s hs)
  have hto := toOk_errorReconstruct store hw howners
    (show 2 * 0 + (threshold + 1) ≤ sharing.shares.length by omega)
  have hword : 2 * 0 + (threshold + 1) ≤ (sharingWord sharing).length := by
    rw [sharingWord, List.length_map]
    omega
  rw [(decoded_eq_some_iff (sharingWord_unitDifferences F hw howners) hword).mpr ⟨hf, hdis⟩] at hto
  cases hrec : errorReconstruct store sharing threshold 0 with
  | ok x =>
    rw [hrec] at hto
    exact congrArg Except.ok (Option.some.inj (Except.ok.inj hto))
  | error fault =>
    rw [hrec] at hto
    cases fault with
    | err msg => exact absurd (Except.ok.inj hto) (by simp)
    | panic msg => cases hto
    | diverge => cases hto

end Shamir

/-!
## The secret of a backup, block by block

Sharing cuts the padded secret into blocks and shares each of them; recovery takes the shares of
each block from the custodians' vectors, reconstructs the blocks and removes the padding.
-/

/-- The ring `ResiduePolyF4Z64`. -/
abbrev BackupRing := GaloisRing 64 .four

def backupBlockLen : ℕ := 32

/-- `ResiduePolyF4Z64::from_bytes`. -/
def BackupRing.fromBytes (bytes : Bytes) : BackupRing :=
  ⟨fun i => BitVec.ofNat 64 (fromLeBytes ((bytes.drop (8 * i.val)).take 8))⟩

def BackupRing.toByteVec (x : BackupRing) : Bytes :=
  (List.finRange 4).flatMap fun i : Fin 4 => toLeBytes 8 (x.coefs i).toNat

theorem BackupRing.toByteVec_fromBytes {bytes : Bytes} (h : bytes.length = backupBlockLen) :
    BackupRing.toByteVec (BackupRing.fromBytes bytes) = bytes := by
  have hcoef : ∀ i : Fin 4, toLeBytes 8 ((BackupRing.fromBytes bytes).coefs i).toNat =
      (bytes.drop (8 * i.val)).take 8 := by
    intro i
    have hlen : ((bytes.drop (8 * i.val)).take 8).length = 8 := by
      rw [List.length_take, List.length_drop, h, backupBlockLen]
      omega
    have hlt : fromLeBytes ((bytes.drop (8 * i.val)).take 8) < 2 ^ 64 := by
      have hbytes := fromLeBytes_lt ((bytes.drop (8 * i.val)).take 8)
      rw [hlen] at hbytes
      exact hbytes.trans_eq (by norm_num)
    have hback := toLeBytes_fromLeBytes ((bytes.drop (8 * i.val)).take 8)
    rw [hlen] at hback
    change toLeBytes 8 (BitVec.ofNat 64 (fromLeBytes ((bytes.drop (8 * i.val)).take 8))).toNat = _
    rw [BitVec.toNat_ofNat, Nat.mod_eq_of_lt hlt, hback]
  unfold BackupRing.toByteVec
  rw [List.flatMap_congr fun i _ => hcoef i]
  have hblocks := flatten_take_drop 8 bytes 4
  rw [show (4 * 8 : ℕ) = bytes.length from h.symm, List.take_length] at hblocks
  exact hblocks

variable (drawn : ℕ → List BackupRing)

/-- `secretsharing::share`; `drawn` gives the random coefficients of each block. -/
def shareSecret (secrets : Bytes) (n t : ℕ) :
    BackupOutcome (List (ShamirSharings BackupRing)) := do
  let padded ← addPadding backupBlockLen secrets
  (blocksOf backupBlockLen padded).zipIdx.mapM fun (block, i) =>
    Outcome.mapErr .sharingError (shamirShare (drawn i) (BackupRing.fromBytes block) n t)

variable {F : Type} [Field F] [DecidableEq F] [G2p .four F]

/-- `secretsharing::reconstruct`. -/
def reconstructSecret (store : LagrangeStore F) (shares : List (ShamirSharings BackupRing))
    (t : ℕ) : BackupOutcome Bytes := do
  let opened ← shares.mapM fun currentBlock =>
    Outcome.mapErr .reconstructError (errorReconstruct store currentBlock t 0)
  removePadding backupBlockLen (opened.flatMap BackupRing.toByteVec)

/-- The sharing of one block, from the custodians' vectors. -/
def blockSharing (decrypted : List (List (Share BackupRing))) (b : ℕ) :
    BackupOutcome (ShamirSharings BackupRing) :=
  decrypted.foldlM (fun sharing blocks =>
    match blocks[b]? with
    | some share => .ok (sharing.addShare share)
    | none => .error (.panic "index out of bounds")) ⟨[]⟩

/-- `recover_from_validated`, for the share vectors of the validated materials. -/
def recoverFromValidated (store : LagrangeStore F) (threshold : ℕ)
    (decrypted : List (List (Share BackupRing))) : BackupOutcome Bytes :=
  match (decrypted.map List.length).min? with
  | none => BackupOutcome.err .noBlocksError
  | some numBlocks => do
    let allSharings ← (List.range numBlocks).mapM (blockSharing decrypted)
    reconstructSecret store allSharings threshold

/-- The polynomials of the blocks of a secret. -/
def secretPolys (padded : Bytes) : List (Poly BackupRing) :=
  (blocksOf backupBlockLen padded).zipIdx.map fun (block, i) =>
    randomPoly (drawn i) (BackupRing.fromBytes block)

/-- The share vector of a custodian. -/
def custodianShares (polys : List (Poly BackupRing)) (role : Role) : List (Share BackupRing) :=
  polys.map fun poly => ⟨role, poly.eval (fromByte role)⟩

def sharingOfPoly (poly : Poly BackupRing) (roles : List Role) : ShamirSharings BackupRing :=
  ⟨roles.map fun role => ⟨role, poly.eval (fromByte role)⟩⟩

variable {secrets padded : Bytes}

theorem shareSecret_eq {drawn : ℕ → List BackupRing} {n t : ℕ}
    (hpad : addPadding backupBlockLen secrets = .ok padded) (ht : t < n) (hn : n < 16) :
    shareSecret drawn secrets n t =
      .ok ((secretPolys drawn padded).map fun poly => sharingOfPoly poly (partyRoles n)) := by
  unfold shareSecret secretPolys
  rw [hpad, List.map_map]
  refine Outcome.mapM_eq_ok fun (block, i) _ => ?_
  dsimp only
  rw [shamirShare_eq _ _ ht (show n < 2 ^ ExtensionDegree.deg .four from hn)]
  rfl

section Recovery

variable {roles : List Role} {poly : Poly BackupRing}

theorem foldlM_blockSharing {decrypted : List Role} {polys : List (Poly BackupRing)} {b : ℕ}
    (hb : polys[b]? = some poly) (sharing : ShamirSharings BackupRing)
    (hnodup : (sharing.owners ++ decrypted).Nodup) :
    ∃ out, (decrypted.map (custodianShares polys)).foldlM (fun sharing blocks =>
        match blocks[b]? with
        | some share => .ok (sharing.addShare share)
        | none => .error (.panic "index out of bounds")) sharing =
          (.ok out : BackupOutcome (ShamirSharings BackupRing)) ∧
      out.shares.Perm (sharing.shares ++ (sharingOfPoly poly decrypted).shares) := by
  induction decrypted generalizing sharing with
  | nil => exact ⟨sharing, rfl, by rw [sharingOfPoly, List.map_nil, List.append_nil]⟩
  | cons role decrypted ih =>
    have hfresh : role ∉ sharing.owners := fun hmem =>
      (List.nodup_append.mp hnodup).2.2 role hmem role List.mem_cons_self rfl
    have hget : (custodianShares polys role)[b]? = some ⟨role, poly.eval (fromByte role)⟩ := by
      rw [custodianShares, List.getElem?_map, hb]
      rfl
    have hperm : (sharing.addShare ⟨role, poly.eval (fromByte role)⟩).shares.Perm
        (⟨role, poly.eval (fromByte role)⟩ :: sharing.shares) :=
      ShamirSharings.insertShare_perm hfresh
    have howners : ((sharing.addShare ⟨role, poly.eval (fromByte role)⟩).owners ++
        decrypted).Nodup := by
      have hown := (hperm.map Share.owner).append_right decrypted
      refine (hown.nodup_iff).mpr ?_
      exact List.perm_middle.nodup_iff.mp hnodup
    obtain ⟨out, hout, hshares⟩ := ih _ howners
    refine ⟨out, ?_, ?_⟩
    · rw [List.map_cons, List.foldlM_cons, hget]
      exact hout
    · refine hshares.trans ((hperm.append_right _).trans ?_)
      exact List.perm_middle.symm

variable {drawn}

theorem secretPolys_getElem? {padded : Bytes} {i : ℕ}
    (hpoly : (secretPolys drawn padded)[i]? = some poly) :
    ∃ block, (blocksOf backupBlockLen padded)[i]? = some block ∧
      poly = randomPoly (drawn i) (BackupRing.fromBytes block) := by
  rw [secretPolys, List.getElem?_map, List.getElem?_zipIdx, Nat.zero_add] at hpoly
  obtain ⟨⟨block, j⟩, hblock, rfl⟩ := Option.map_eq_some_iff.mp hpoly
  obtain ⟨block', hblock', heq⟩ := Option.map_eq_some_iff.mp hblock
  cases heq
  exact ⟨block, hblock', rfl⟩

theorem length_secretPolys (drawn : ℕ → List BackupRing) (padded : Bytes) :
    (secretPolys drawn padded).length = (blocksOf backupBlockLen padded).length := by
  rw [secretPolys, List.length_map, List.length_zipIdx]

theorem min?_custodianShares (hpos : 0 < roles.length) (polys : List (Poly BackupRing)) :
    ((roles.map (custodianShares polys)).map List.length).min? = some polys.length := by
  have hconst : (roles.map (custodianShares polys)).map List.length =
      List.replicate roles.length polys.length := by
    rw [List.map_map, List.eq_replicate_iff, List.length_map]
    refine ⟨rfl, fun m hm => ?_⟩
    obtain ⟨role, -, rfl⟩ := List.mem_map.mp hm
    exact List.length_map _
  rw [hconst, List.min?_replicate_of_pos hpos]

variable (hroles : ∀ role ∈ roles, role < 16) (hnodup : roles.Nodup)
include hroles hnodup

variable (store : LagrangeStore F)
include store

/-- The shares of more custodians than the threshold open a block. -/
theorem errorReconstruct_block {t : ℕ} (ht : t < roles.length) {drawn : List BackupRing}
    (hdrawn : drawn.length = t) {x : BackupRing} {sharing : ShamirSharings BackupRing}
    (hperm : sharing.shares.Perm (sharingOfPoly (randomPoly drawn x) roles).shares) :
    errorReconstruct store sharing t 0 = .ok x := by
  have howners : sharing.owners.Perm roles := by
    have hmap := hperm.map Share.owner
    rwa [sharingOfPoly, List.map_map, show Share.owner ∘ (fun role => (⟨role, (randomPoly drawn x).eval
      (fromByte role)⟩ : Share BackupRing)) = id from rfl, List.map_id] at hmap
  have hembed : Embeddable .four sharing.owners :=
    ⟨howners.nodup_iff.mpr hnodup, fun o ho => hroles o (howners.mem_iff.mp ho)⟩
  have hlen : t < sharing.shares.length := by
    rw [hperm.length_eq, sharingOfPoly, List.length_map]
    exact ht
  have hdeg : (CoefficientList.ofList (x :: drawn)).degree < ((t + 1 : ℕ) : WithBot ℕ) := by
    have hlt := CoefficientList.degree_ofList_lt (x :: drawn)
    rwa [List.length_cons, hdrawn] at hlt
  rw [errorReconstruct_of_poly (by decide) store hembed hlen hdeg]
  · simp
  · intro s hs
    obtain ⟨role, -, rfl⟩ := List.mem_map.mp (hperm.mem_iff.mp hs)
    rw [Poly.eval_eq, randomPoly, Poly.toPoly_fromCoefs]

variable {t : ℕ} (ht : t < roles.length) (hdrawn : ∀ i, (drawn i).length = t)
  (hpad : addPadding backupBlockLen secrets = .ok padded)
include ht hdrawn hpad

theorem reconstructSecret_eq {sharings : List (ShamirSharings BackupRing)}
    (hnum : sharings.length = (secretPolys drawn padded).length)
    (hperm : ∀ (i : ℕ) (sharing : ShamirSharings BackupRing), sharings[i]? = some sharing → ∀ poly,
      (secretPolys drawn padded)[i]? = some poly →
        sharing.shares.Perm (sharingOfPoly poly roles).shares) :
    reconstructSecret store sharings t = .ok secrets := by
  obtain ⟨opened, hopened, hnum', hvalue⟩ := Outcome.mapM_of_getElem (l := sharings)
    (f := fun currentBlock =>
      Outcome.mapErr .reconstructError (errorReconstruct store currentBlock t 0))
    (P := fun i x => ∀ block, (blocksOf backupBlockLen padded)[i]? = some block →
      x = BackupRing.fromBytes block) (by
    intro i sharing hsharing
    have hi : i < (secretPolys drawn padded).length := by
      rw [← hnum]
      exact (List.getElem?_eq_some_iff.mp hsharing).1
    have hpoly := List.getElem?_eq_getElem hi
    obtain ⟨block, hblock, heq⟩ := secretPolys_getElem? hpoly
    have hshares := hperm i sharing hsharing _ hpoly
    rw [heq] at hshares
    refine ⟨BackupRing.fromBytes block, ?_, fun block' hblock' => ?_⟩
    · rw [errorReconstruct_block hroles hnodup store ht (hdrawn i) hshares]
      rfl
    · rw [hblock] at hblock'
      cases hblock'
      rfl)
  have hall : opened = (blocksOf backupBlockLen padded).map BackupRing.fromBytes := by
    apply List.ext_getElem
    · rw [List.length_map, hnum', hnum, length_secretPolys]
    · intro i hi hi'
      rw [List.length_map] at hi'
      rw [List.getElem_map]
      exact hvalue i _ (List.getElem?_eq_getElem hi) _ (List.getElem?_eq_getElem hi')
  have hbytes : opened.flatMap BackupRing.toByteVec = padded := by
    rw [hall, List.flatMap_map, List.flatMap_congr fun block hblock =>
      BackupRing.toByteVec_fromBytes (length_of_mem_blocksOf hblock), List.flatMap_id']
    exact flatten_blocksOf (by decide) (length_addPadding (by decide) le_rfl secrets hpad)
  unfold reconstructSecret
  rw [hopened]
  change removePadding backupBlockLen (opened.flatMap BackupRing.toByteVec) = _
  rw [hbytes]
  exact removePadding_addPadding (by decide) le_rfl secrets hpad

/-- Any set of more custodians than the threshold recovers the secret. -/
theorem recoverFromValidated_eq :
    recoverFromValidated store t (roles.map (custodianShares (secretPolys drawn padded))) =
      .ok secrets := by
  obtain ⟨sharings, hsharings, hnum, hperm⟩ := Outcome.mapM_of_getElem
    (l := List.range (secretPolys drawn padded).length)
    (f := blockSharing (roles.map (custodianShares (secretPolys drawn padded))))
    (P := fun i sharing => ∀ poly, (secretPolys drawn padded)[i]? = some poly →
      sharing.shares.Perm (sharingOfPoly poly roles).shares) (by
    intro i b hb
    obtain ⟨hi, rfl⟩ := List.getElem?_eq_some_iff.mp hb
    rw [List.length_range] at hi
    rw [List.getElem_range]
    obtain ⟨out, hout, hshares⟩ := foldlM_blockSharing (List.getElem?_eq_getElem hi) ⟨[]⟩ hnodup
    refine ⟨out, hout, fun poly hpoly => ?_⟩
    rw [List.getElem?_eq_getElem hi] at hpoly
    cases hpoly
    exact hshares)
  rw [List.length_range] at hnum
  unfold recoverFromValidated
  rw [min?_custodianShares (by omega)]
  dsimp only
  rw [hsharings]
  exact reconstructSecret_eq hroles hnodup store ht hdrawn hpad hnum hperm

end Recovery

end ThresholdKms
