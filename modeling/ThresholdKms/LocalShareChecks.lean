import ThresholdKms.LocalShare
import ThresholdKms.Reshare

/-!
# What the checks of a repetition compute

The map of check values of a party, and the sharings that pass as those of a sender: all parties have
a share, the parties in dispute have zero, and the shares lie on a polynomial of the degree.
-/

open Polynomial ReceivedWord

namespace ThresholdKms

open Outcome

open GaloisRing

theorem sort_toFinset_partyRoles (n : ℕ) : (partyRoles n).toFinset.sort = partyRoles n :=
  (List.toFinset_sort _ (nodup_partyRoles n)).mpr
    ((pairwise_partyRoles n).imp le_of_lt)

theorem repetitions_pos (e : ExtensionDegree) : 0 < repetitions e := by cases e <;> decide

variable {role : Role}

section Values

variable {Z : Type}

theorem dlookup_map_keys (v : Role → Z) (l : List ((_ : Role) × List Z)) (role : Role) :
    (l.map (fun entry => (⟨entry.1, v entry.1⟩ : (_ : Role) × Z))).dlookup role =
      if role ∈ l.map Sigma.fst then some (v role) else none := by
  refine (List.dlookup_map₂ (f := fun role _ => v role) role).trans ?_
  by_cases hmem : role ∈ l.map Sigma.fst
  · obtain ⟨pads, hpads⟩ := Option.isSome_iff_exists.mp (List.dlookup_isSome.mpr hmem)
    rw [hpads, if_pos hmem, Option.map_some]
  · rw [List.dlookup_eq_none.mpr hmem, if_neg hmem, Option.map_none]

variable [CommRing Z] {challenges : Role → Option (List Z)} {g : ℕ} {myRole : Option Role}

theorem computeCheckValues_eq {padsShares secretShares : HashMap Role (List Z)}
    (v : Role → Z) (h : ∀ role pads, padsShares.lookup role = some pads →
      checkValueOf challenges secretShares g myRole role pads = .ok (v role)) :
    ∃ m, computeCheckValues padsShares challenges secretShares g myRole = .ok m ∧
      ∀ role, m.lookup role = if role ∈ padsShares then some (v role) else none := by
  have hmapM : padsShares.entries.mapM (fun entry => do
      let value ← checkValueOf challenges secretShares g myRole entry.1 entry.2
      return (⟨entry.1, value⟩ : (_ : Role) × Z)) =
      .ok (padsShares.entries.map (fun entry => ⟨entry.1, v entry.1⟩)) := by
    apply mapM_eq_ok
    intro entry hentry
    rw [h entry.1 entry.2 (AList.mem_lookup_iff.mpr hentry)]
    rfl
  refine ⟨_, by rw [computeCheckValues, hmapM]; rfl, fun role => ?_⟩
  rw [Finmap.dlookup_list_toFinmap, dlookup_map_keys]
  exact if_congr Iff.rfl rfl rfl

theorem checkValueOf_eq {secretShares : HashMap Role (List Z)}
    {pads vecChallenges vecSecretShares : List Z} (hg : g < pads.length)
    (hchallenges : challenges (myRole.getD role) = some vecChallenges)
    (hsecrets : secretShares.lookup role = some vecSecretShares)
    (hlen : vecChallenges.length = vecSecretShares.length) :
    checkValueOf challenges secretShares g myRole role pads =
      .ok (checkValue (pads.getD g 0) vecChallenges vecSecretShares) := by
  unfold checkValueOf
  simp only [hchallenges, hsecrets, hlen, ne_eq, not_true, if_false, indexVec,
    List.getElem?_eq_getElem hg, ok_bind, pure_eq_ok,
    List.getD_eq_getElem _ _ hg]

theorem checkValue_eq (pad : Z) (vecChallenges secretShares : List Z) :
    checkValue pad vecChallenges secretShares =
      pad + (List.zipWith (· * ·) vecChallenges secretShares).sum := by
  have hfold : ∀ (l : List (Z × Z)) (acc : Z),
      l.foldl (fun acc p => acc + p.1 * p.2) acc = acc + (l.map (fun p => p.1 * p.2)).sum := by
    intro l
    induction l with
    | nil => simp
    | cons p l ih =>
      intro acc
      rw [List.foldl_cons, ih, List.map_cons, List.sum_cons, add_assoc]
  refine congrArg (pad + ·) ((hfold _ _).trans ?_)
  rw [zero_add, List.zip, List.map_zipWith]

end Values

section Senders

variable {w : ℕ} {e : ExtensionDegree} {F : Type} [Field F] [DecidableEq F] [G2p e F]
  {n degree : ℕ} {disputes : Finset Role} {m : BTreeMap (GaloisRing w e)}

/-- The map gives all parties their shares on `f`, and zero to the parties in dispute. -/
structure SenderSharing (n degree : ℕ) (disputes : Finset Role) (m : BTreeMap (GaloisRing w e))
    (f : (GaloisRing w e)[X]) : Prop where
  keys : m.keys = (partyRoles n).toFinset
  natDegree_le : f.natDegree ≤ degree
  lookup : ∀ role ∈ partyRoles n, m.lookup role = some (f.eval (fromByte role))
  disputed : ∀ role ∈ disputes, m.lookup role = some 0

/-- The shares of the map lie on `f`. -/
def SharesOn (n degree : ℕ) (m : BTreeMap (GaloisRing w e)) (f : (GaloisRing w e)[X]) : Prop :=
  f.natDegree ≤ degree ∧ ∀ role ∈ partyRoles n, m.lookup role = some (f.eval (fromByte role))

theorem sharingOfMap_eq (hkeys : m.keys = (partyRoles n).toFinset) :
    sharingOfMap m = ⟨(partyRoles n).map (fun role => ⟨role, (m.lookup role).getD 0⟩)⟩ := by
  unfold sharingOfMap
  rw [hkeys, sort_toFinset_partyRoles]
  refine congrArg ShamirSharings.mk (mergeSort_eq_of_perm Share.owner (List.Perm.refl _) ?_)
  rw [List.pairwise_map]
  exact pairwise_partyRoles n

variable {session : LargeSession}

theorem hasShareForDisputed_eq_false {roles : List Role} :
    hasShareForDisputed session m roles = .ok false ↔ ∀ role ∈ roles, m.lookup role = some 0 := by
  induction roles with
  | nil => simp [hasShareForDisputed]
  | cons role roles ih =>
    unfold hasShareForDisputed
    rw [List.forall_mem_cons]
    rcases Option.eq_none_or_eq_some (m.lookup role) with hnone | ⟨share, hshare⟩
    · simp [hnone, err]
    · simp only [hshare, Option.some.injEq]
      by_cases hzero : share = 0
      · simp [hzero, ih]
      · simp [hzero]

theorem hasShareForDisputed_returns (session : LargeSession) {roles : List Role}
    (h : ∀ role ∈ roles, role ∈ m) : ∃ b, hasShareForDisputed session m roles = .ok b := by
  induction roles with
  | nil => exact ⟨false, rfl⟩
  | cons role roles ih =>
    obtain ⟨hrole, hroles⟩ := List.forall_mem_cons.mp h
    obtain ⟨share, hshare⟩ := Finmap.mem_iff.mp hrole
    unfold hasShareForDisputed
    simp only [hshare]
    split_ifs
    · exact ⟨true, rfl⟩
    · exact ih hroles

section Reconstruct

variable (hw : 0 < w) (hn : n < 2 ^ e.deg) (hdegree : degree < n)

include hw hn hdegree

variable (store : LagrangeStore F)

theorem toOk_errorReconstruct_sharingOfMap
    (hkeys : m.keys = (partyRoles n).toFinset) {v : Option (GaloisRing w e)} :
    Outcome.toOk (errorReconstruct store (sharingOfMap m) degree 0) = .ok v ↔
      (∃ f, SharesOn n degree m f ∧ v = some (f.eval 0)) ∨
      v = none ∧ ¬ ∃ f, SharesOn n degree m f := by
  have howners : (sharingOfMap m).owners = partyRoles n := by
    rw [sharingOfMap_eq hkeys, ShamirSharings.owners, List.map_map]
    exact List.map_id _
  have hlen : (sharingOfMap m).shares.length = n := by
    have := congrArg List.length howners
    rwa [ShamirSharings.owners, List.length_map, length_partyRoles] at this
  have hembed : Embeddable e (sharingOfMap m).owners := howners ▸ embeddable_partyRoles hn
  have hlookup : ∀ role ∈ partyRoles n, m.lookup role = some ((m.lookup role).getD 0) := by
    intro role hrole
    obtain ⟨v, hv⟩ := Finmap.mem_iff.mp
      (Finmap.mem_keys.mp (hkeys ▸ List.mem_toFinset.mpr hrole : role ∈ m.keys))
    rw [hv, Option.getD_some]
  have hon : ∀ f : (GaloisRing w e)[X], disagreements (sharingWord (sharingOfMap m)) f ≤ 0 ↔
      ∀ role ∈ partyRoles n, m.lookup role = some (f.eval (fromByte role)) := by
    intro f
    rw [sharingOfMap_eq hkeys, sharingWord, List.map_map, Nat.le_zero]
    change disagreements ((partyRoles n).map
      (fun role => (fromByte role, (m.lookup role).getD 0))) f = 0 ↔ _
    rw [disagreements_map, List.length_eq_zero_iff, List.filter_eq_nil_iff]
    refine forall₂_congr (fun role hrole => ?_)
    rw [decide_eq_true_eq, not_not, hlookup role hrole, Option.getD_some, Option.some.injEq, eq_comm]
  rw [toOk_errorReconstruct store hw hembed (by omega)]
  rw [Except.ok.injEq]
  cases hdec : decoded (sharingWord (sharingOfMap m)) (degree + 1) 0 with
  | none =>
    have hnone : ¬ ∃ f, SharesOn n degree m f := by
      rintro ⟨f, hf, hf'⟩
      have := decoded_eq_none_iff.mp hdec f (degree_lt_succ_iff.mpr hf)
      exact absurd ((hon f).mpr hf') (not_le.mpr this)
    constructor
    · rintro rfl
      exact Or.inr ⟨rfl, hnone⟩
    · rintro (⟨f, hf, -⟩ | ⟨rfl, -⟩)
      · exact absurd ⟨f, hf⟩ hnone
      · rfl
  | some f =>
    have hunit := sharingWord_unitDifferences F hw hembed
    have hbudget : 2 * 0 + (degree + 1) ≤ (sharingWord (sharingOfMap m)).length := by
      rw [sharingWord, List.length_map]
      omega
    obtain ⟨hdeg, hdis⟩ := (decoded_eq_some_iff hunit hbudget).mp hdec
    have hf := degree_lt_succ_iff.mp hdeg
    constructor
    · rintro rfl
      exact Or.inl ⟨f, ⟨hf, (hon f).mp hdis⟩, rfl⟩
    · rintro (⟨f', ⟨hf', hon'⟩, rfl⟩ | ⟨rfl, hnone⟩)
      · have heq := (decoded_eq_some_iff hunit hbudget).mpr
          ⟨degree_lt_succ_iff.mpr hf', (hon f').mpr hon'⟩
        rw [hdec] at heq
        rw [heq]
        rfl
      · exact absurd ⟨f, hf, (hon f).mp hdis⟩ hnone

/-- A sender that passes the check has broadcast a sharing. -/
theorem senderSharing_of_verifySenderChallenge {store : LagrangeStore F}
    (hnum : numParties session = n) {v : GaloisRing w e}
    (h : verifySenderChallenge store session degree role m = .ok (some v)) :
    ∃ f, SenderSharing n degree (session.disputedRoles.get role) m f ∧ v = f.eval 0 := by
  unfold verifySenderChallenge at h
  rw [sessionRoles, hnum] at h
  by_cases hkeys : m.keys = (partyRoles n).toFinset
  · rw [if_neg (not_not.mpr hkeys)] at h
    obtain ⟨nonzero, hzero, h⟩ := bind_eq_ok.mp h
    cases nonzero with
    | true => cases h
    | false =>
      have hdisputed := hasShareForDisputed_eq_false.mp hzero
      rcases (toOk_errorReconstruct_sharingOfMap hw hn hdegree store hkeys).mp h with
        ⟨f, ⟨hf, hon⟩, hv⟩ | ⟨hv, -⟩
      · exact ⟨f, ⟨hkeys, hf, hon, fun r hr => hdisputed r ((Finset.mem_sort _).mpr hr)⟩,
          Option.some.inj hv⟩
      · cases hv
  · rw [if_pos hkeys] at h
    cases h

theorem verifySenderChallenge_of_senderSharing
    (hnum : numParties session = n) {f : (GaloisRing w e)[X]}
    (h : SenderSharing n degree (session.disputedRoles.get role) m f) :
    verifySenderChallenge store session degree role m = .ok (some (f.eval 0)) := by
  unfold verifySenderChallenge
  have hzero : hasShareForDisputed session m (session.disputedRoles.get role).sort = .ok false :=
    hasShareForDisputed_eq_false.mpr (fun r hr => h.disputed r ((Finset.mem_sort _).mp hr))
  rw [sessionRoles, hnum, if_neg (not_not.mpr h.keys), hzero, ok_bind]
  exact (toOk_errorReconstruct_sharingOfMap hw hn hdegree store h.keys).mpr
    (Or.inl ⟨f, ⟨h.natDegree_le, h.lookup⟩, rfl⟩)

theorem verifySenderChallenge_returns (hnum : numParties session = n)
    (hroles : session.disputedRoles.get role ⊆ (partyRoles n).toFinset) :
    ∃ v, verifySenderChallenge store session degree role m = .ok v := by
  unfold verifySenderChallenge
  rw [sessionRoles, hnum]
  by_cases hkeys : m.keys = (partyRoles n).toFinset
  · rw [if_neg (not_not.mpr hkeys)]
    have hmem : ∀ r ∈ (session.disputedRoles.get role).sort, r ∈ m := by
      intro r hr
      exact Finmap.mem_keys.mp (hkeys ▸ hroles ((Finset.mem_sort _).mp hr))
    obtain ⟨nonzero, hzero⟩ := hasShareForDisputed_returns session hmem
    rw [hzero]
    cases nonzero with
    | true => exact ⟨none, rfl⟩
    | false =>
      by_cases hf : ∃ f, SharesOn n degree m f
      · obtain ⟨f, hf⟩ := hf
        exact ⟨_, (toOk_errorReconstruct_sharingOfMap hw hn hdegree store hkeys).mpr
          (Or.inl ⟨f, hf, rfl⟩)⟩
      · exact ⟨_, (toOk_errorReconstruct_sharingOfMap hw hn hdegree store hkeys).mpr
          (Or.inr ⟨rfl, hf⟩)⟩
  · exact ⟨none, if_pos hkeys⟩

end Reconstruct

end Senders

end ThresholdKms
