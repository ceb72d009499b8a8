import ThresholdKms.Reshare
import ThresholdKms.TripleGeneration

/-!
# Reconstruction of the masked products

The parties whose vectors have the expected length count. For each index the shares of these parties
form a word, and the reconstruction returns the value at zero of the polynomial within the error
budget of that word, or nothing if there is none.
-/

open Polynomial ReceivedWord

namespace ThresholdKms

open Outcome

open GaloisRing

/-- The vector that a party has broadcast, if it has the expected length. -/
def vectorOf {Z : Type} (amount : ℕ) : BroadcastValue (SmallValue Z) → Option (List Z)
  | .payload (.ringVector values) => if values.length = amount then some values else none
  | _ => none

theorem length_of_vectorOf {Z : Type} {amount : ℕ} {value : BroadcastValue (SmallValue Z)}
    {values : List Z} (h : vectorOf amount value = some values) : values.length = amount := by
  unfold vectorOf at h
  split at h
  · split_ifs at h with hlen
    cases h
    exact hlen
  · cases h

section Words

variable {w : ℕ} {e : ExtensionDegree} (n amount : ℕ)
  (dRecons : Role → BroadcastValue (SmallValue (GaloisRing w e)))

def countedRoles : List Role :=
  (partyRoles n).filter (fun r => (vectorOf amount (dRecons r)).isSome)

/-- The vectors that count, with the parties that have broadcast them. -/
def countedVectors : List (Role × List (GaloisRing w e)) :=
  (countedRoles n amount dRecons).map (fun r => (r, (vectorOf amount (dRecons r)).getD []))

def uncountedRoles : List Role :=
  (partyRoles n).filter (fun r => (vectorOf amount (dRecons r)).isNone)

def broadcastShare (i : ℕ) (r : Role) : GaloisRing w e :=
  ((vectorOf amount (dRecons r)).getD []).getD i 0

/-- The word of the shares of one index. -/
def productWord (i : ℕ) : List (GaloisRing w e × GaloisRing w e) :=
  (countedRoles n amount dRecons).map (fun r => (fromByte r, broadcastShare amount dRecons i r))

/-- The number of wrong shares that the reconstruction corrects. -/
def errorBudget (t : ℕ) : ℕ := ((countedRoles n amount dRecons).length - (2 * t + 1)) / 2

noncomputable def openedProduct (t i : ℕ) : Option (GaloisRing w e) :=
  (decoded (productWord n amount dRecons i) (2 * t + 1) (errorBudget n amount dRecons t)).map
    (eval 0)

variable {n amount dRecons}

theorem mem_countedRoles {r : Role} : r ∈ countedRoles n amount dRecons ↔
    r ∈ partyRoles n ∧ (vectorOf amount (dRecons r)).isSome :=
  List.mem_filter

theorem mem_uncountedRoles {r : Role} : r ∈ uncountedRoles n amount dRecons ↔
    r ∈ partyRoles n ∧ vectorOf amount (dRecons r) = none := by
  rw [uncountedRoles, List.mem_filter, Option.isNone_iff_eq_none]

theorem length_productWord (i : ℕ) :
    (productWord n amount dRecons i).length = (countedRoles n amount dRecons).length :=
  List.length_map _

variable (n amount dRecons) in
theorem length_countedRoles_add :
    (countedRoles n amount dRecons).length + (uncountedRoles n amount dRecons).length = n := by
  have hsplit := List.length_eq_length_filter_add (l := partyRoles n)
    (fun r => (vectorOf amount (dRecons r)).isSome)
  simp only [length_partyRoles, Option.not_isSome] at hsplit
  exact hsplit.symm

theorem embeddable_countedRoles (hn : n < 2 ^ e.deg) :
    Embeddable e (countedRoles n amount dRecons) :=
  (embeddable_partyRoles hn).sublist List.filter_sublist

theorem pairwise_countedRoles : (countedRoles n amount dRecons).Pairwise (· < ·) :=
  (pairwise_partyRoles n).sublist List.filter_sublist

theorem productWord_unitDifferences (F : Type) [Field F] [G2p e F] (hw : 0 < w)
    (hn : n < 2 ^ e.deg) (i : ℕ) :
    UnitDifferences ((productWord n amount dRecons i).map Prod.fst) := by
  rw [productWord, List.map_map]
  exact (embeddable_countedRoles hn).unitDifferences F hw

theorem errorBudget_le {t : ℕ} (h : 2 * t + 1 ≤ (countedRoles n amount dRecons).length) (i : ℕ) :
    2 * errorBudget n amount dRecons t + (2 * t + 1) ≤ (productWord n amount dRecons i).length := by
  rw [length_productWord, errorBudget]
  omega

end Words

section Fold

variable {w : ℕ} {e : ExtensionDegree} {S : Type} [BaseSessionHandles S] {amount : ℕ}
  {dRecons : Role → BroadcastValue (SmallValue (GaloisRing w e))}

theorem keepVectors_eq (state : S × List (Role × List (GaloisRing w e))) (r : Role) :
    keepVectors amount dRecons state r =
      match vectorOf amount (dRecons r) with
      | some values => (state.1, state.2 ++ [(r, values)])
      | none => ((addCorrupt state.1 r).1, state.2) := by
  unfold keepVectors
  rcases dRecons r with - | (values | votes | -)
  · rfl
  · by_cases hlen : values.length = amount
    · simp [vectorOf, hlen]
    · simp [vectorOf, hlen]
  · rfl
  · rfl

theorem foldl_keepVectors (roles : List Role) (s : S)
    (vectors : List (Role × List (GaloisRing w e))) :
    roles.foldl (keepVectors amount dRecons) (s, vectors) =
      (markCorrupt s (roles.filter (fun r => (vectorOf amount (dRecons r)).isNone)),
        vectors ++ (roles.filter (fun r => (vectorOf amount (dRecons r)).isSome)).map
          (fun r => (r, (vectorOf amount (dRecons r)).getD []))) := by
  induction roles generalizing s vectors with
  | nil => simp [markCorrupt]
  | cons r roles ih =>
    rw [List.foldl_cons, keepVectors_eq]
    cases hvalue : vectorOf amount (dRecons r) with
    | some values => simp [hvalue, ih]
    | none => simp [hvalue, ih, markCorrupt_cons]

end Fold

section Decode

variable {w : ℕ} {e : ExtensionDegree} {F : Type} [Field F] [DecidableEq F] [G2p e F]
  {n amount t : ℕ} {dRecons : Role → BroadcastValue (SmallValue (GaloisRing w e))}

theorem mapM_broadcastShare {i : ℕ} (hi : i < amount) :
    (countedVectors n amount dRecons).mapM (fun (curRole, curValues) => do
      let value ← indexVec curValues i
      return (⟨curRole, value⟩ : Share (GaloisRing w e))) =
    .ok ((countedRoles n amount dRecons).map
      (fun r => ⟨r, broadcastShare amount dRecons i r⟩)) := by
  have hstep : ∀ pair ∈ countedVectors n amount dRecons, (do
        let value ← indexVec pair.2 i
        return (⟨pair.1, value⟩ : Share (GaloisRing w e))) =
      .ok ⟨pair.1, pair.2.getD i 0⟩ := by
    intro pair hpair
    obtain ⟨r, hr, rfl⟩ := List.mem_map.mp hpair
    obtain ⟨values, hvalues⟩ := Option.isSome_iff_exists.mp (mem_countedRoles.mp hr).2
    have hlen : i < values.length := length_of_vectorOf hvalues ▸ hi
    simp only [hvalues, Option.getD_some, indexVec, List.getElem?_eq_getElem hlen,
      List.getD_eq_getElem _ _ hlen]
    rfl
  refine (mapM_eq_ok hstep).trans ?_
  rw [countedVectors, List.map_map]
  rfl

variable (n amount dRecons) in
/-- The shares of one index. -/
def countedSharing (i : ℕ) : ShamirSharings (GaloisRing w e) :=
  ⟨(countedRoles n amount dRecons).map (fun r => ⟨r, broadcastShare amount dRecons i r⟩)⟩

theorem owners_countedSharing (i : ℕ) :
    (countedSharing n amount dRecons i).owners = countedRoles n amount dRecons := by
  rw [ShamirSharings.owners, countedSharing, List.map_map]
  exact List.map_id _

theorem embeddable_countedSharing (hn : n < 2 ^ e.deg) (i : ℕ) :
    Embeddable e (countedSharing n amount dRecons i).owners := by
  rw [owners_countedSharing]
  exact embeddable_countedRoles hn

theorem sharingWord_countedSharing (i : ℕ) :
    sharingWord (countedSharing n amount dRecons i) = productWord n amount dRecons i := by
  rw [sharingWord, countedSharing, List.map_map]
  rfl

theorem create_countedSharing (i : ℕ) :
    ShamirSharings.create ((countedRoles n amount dRecons).map
      (fun r => (⟨r, broadcastShare amount dRecons i r⟩ : Share (GaloisRing w e)))) =
      countedSharing n amount dRecons i := by
  refine congrArg ShamirSharings.mk (mergeSort_eq_of_perm Share.owner (List.Perm.refl _) ?_)
  exact List.pairwise_map.mpr pairwise_countedRoles

theorem fromParties_countedRoles (store : LagrangeStore F) (i : ℕ) :
    ReconstructionHints.fromParties store (countedRoles n amount dRecons) (2 * t) =
      ReconstructionHints.new store (countedSharing n amount dRecons i) (2 * t) := by
  rw [ReconstructionHints.new, owners_countedSharing]
  exact congrArg (fun parties => ReconstructionHints.fromPartiesSorted store parties (2 * t))
    (mergeSort_eq_of_perm id (List.Perm.refl _) pairwise_countedRoles)

theorem reconstruct_countedSharing (hw : 0 < w) (hn : n < 2 ^ e.deg) (store : LagrangeStore F)
    {hints : ReconstructionHints (GaloisRing w e) F}
    (hhints : ReconstructionHints.fromParties store (countedRoles n amount dRecons) (2 * t) =
      .ok hints) (hlen : 2 * t + 1 ≤ (countedRoles n amount dRecons).length) (i : ℕ) :
    Outcome.toOk (errorReconstructWithHints store (countedSharing n amount dRecons i) (2 * t)
        (errorBudget n amount dRecons t) hints) =
      .ok (openedProduct n amount dRecons t i) := by
  have howners : Embeddable e (countedSharing n amount dRecons i).owners :=
    embeddable_countedSharing hn i
  have hbudget := errorBudget_le hlen i
  have hdecodes := shamirErrorCorrect_decodes (countedSharing n amount dRecons i) store hw howners
    (show 2 * errorBudget n amount dRecons t + (2 * t + 1) ≤
        (countedSharing n amount dRecons i).shares.length by
      rw [countedSharing, List.length_map, ← length_productWord i]
      exact hbudget)
  rw [sharingWord_countedSharing] at hdecodes
  rw [errorReconstructWithHints,
    shamirErrorCorrectWithHints_eq howners ((fromParties_countedRoles store i).symm.trans hhints)]
  exact toOk_of_decodesWithin hdecodes (productWord_unitDifferences F hw hn i) hbudget

variable {S : Type} [BaseSessionHandles S] [LawfulSession S]

/-- Parties that are already known to be corrupt do not count, so that the budget is taken from the
number of parties that do. -/
theorem reconstructDValues_eq (hw : 0 < w) (hn : n < 2 ^ e.deg) (store : LagrangeStore F) {s : S}
    {p : Role} {corrupt : Finset Role} (hs : SessionAt s p n t corrupt)
    (hp : p ∈ countedRoles n amount dRecons)
    (hcorrupt : corrupt ⊆ (uncountedRoles n amount dRecons).toFinset)
    (hlen : 2 * t + 1 ≤ (countedRoles n amount dRecons).length) :
    reconstructDValues store s amount dRecons =
      .ok (markCorrupt s (uncountedRoles n amount dRecons),
        (List.range amount).map (openedProduct n amount dRecons t)) := by
  have hmark : SessionAt (markCorrupt s (uncountedRoles n amount dRecons)) p n t
      (uncountedRoles n amount dRecons).toFinset := by
    have hnot : p ∉ uncountedRoles n amount dRecons := by
      intro hmem
      have hsome := (mem_countedRoles.mp hp).2
      rw [(mem_uncountedRoles.mp hmem).2] at hsome
      cases hsome
    have := hs.markCorrupt hnot
    rwa [Finset.union_eq_right.mpr hcorrupt] at this
  have hcard : (uncountedRoles n amount dRecons).toFinset.card =
      (uncountedRoles n amount dRecons).length :=
    List.toFinset_card_of_nodup ((nodup_partyRoles n).filter _)
  have hsub : n - (uncountedRoles n amount dRecons).length =
      (countedRoles n amount dRecons).length := by
    have := length_countedRoles_add n amount dRecons
    omega
  obtain ⟨hints, hhints⟩ : ∃ hints, ReconstructionHints.fromParties store
      (countedRoles n amount dRecons) (2 * t) = .ok hints := by
    obtain ⟨fieldHints, -, hnew⟩ :=
      reconstructionHints_new_eq_ok store (embeddable_countedSharing hn 0) (2 * t)
    exact ⟨_, (fromParties_countedRoles store 0).trans hnew⟩
  have hvalues : (List.range amount).mapM (fun i => do
      let shares ← (countedVectors n amount dRecons).mapM (fun (curRole, curValues) => do
          let value ← indexVec curValues i
          return (⟨curRole, value⟩ : Share (GaloisRing w e)))
      toOk (errorReconstructWithHints store (.create shares) (2 * t)
        (errorBudget n amount dRecons t) hints)) =
      .ok ((List.range amount).map (openedProduct n amount dRecons t)) := by
    apply mapM_eq_ok
    intro i hi
    rw [mapM_broadcastShare (List.mem_range.mp hi), ok_bind, create_countedSharing]
    exact reconstruct_countedSharing hw hn store hhints hlen i
  have hfst : (countedVectors n amount dRecons).map Prod.fst = countedRoles n amount dRecons := by
    rw [countedVectors, List.map_map]
    exact List.map_id _
  have hfold : (sessionRoles s).foldl (keepVectors amount dRecons) (s, []) =
      (markCorrupt s (uncountedRoles n amount dRecons), countedVectors n amount dRecons) := by
    rw [sessionRoles, hs.numParties_eq, foldl_keepVectors]
    rfl
  rw [reconstructDValues, hfold]
  simp only [hmark.numParties_eq, hmark.threshold_eq, hmark.corruptRoles_eq, hcard, hfst]
  rw [usizeSub_of_le (by omega), ok_bind, hsub, if_neg (by omega), hhints, ok_bind]
  exact (congrArg (· >>= _) hvalues).trans (ok_bind _ _)

end Decode

end ThresholdKms
