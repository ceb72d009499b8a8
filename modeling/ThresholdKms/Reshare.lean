import ThresholdKms.SyndromeCompute

/-!
# Resharing to a new set of parties

The resharers' masked shares are unmasked with the receivers' own shares of the masks. The syndromes
of the unmasked shares are opened, decoded, and the errors are removed before the shares are
combined. A hash map is an association list in the order in which the map is iterated.
-/

namespace ThresholdKms

open GaloisRing

def ShamirSharings.create {Z : Type} (shares : List (Share Z)) : ShamirSharings Z :=
  ⟨shares.mergeSort (fun s s' => decide (s.owner ≤ s'.owner))⟩

variable {w : ℕ} {e : ExtensionDegree}

/-- A contribution that is too short counts as zero. -/
def unmaskShare (vs rsShare : List (GaloisRing w e)) : List (GaloisRing w e) :=
  rsShare.zipIdx.map (fun r =>
    match vs[r.2]? with
    | some v => v - r.1
    | none => 0 - r.1)

structure UnmaskState (w : ℕ) (e : ExtensionDegree) where
  masksToResharers : HashMap Role (List (GaloisRing w e))
  sShareVec : List (List (Share (GaloisRing w e)))

def unmaskStep (s : UnmaskState w e) (contribution : (_ : Role) × List (GaloisRing w e)) :
    Outcome (UnmaskState w e) :=
  match s.masksToResharers.lookup contribution.1 with
  | none => Outcome.err
      s!"Missing mask share from party Role({contribution.1}) in set 2 during resharing"
  | some rsShare =>
    let sShare := unmaskShare contribution.2 rsShare
    if s.sShareVec.length = sShare.length then
      .ok ⟨s.masksToResharers.erase contribution.1,
        List.zipWith (fun v x => v ++ [⟨contribution.1, x⟩]) s.sShareVec sShare⟩
    else
      Outcome.panic "itertools: .zip_eq() reached end of one iterator before the other"

def unmaskResharedShares
    (agreedContributionsFromResharers masksToResharers : HashMap Role (List (GaloisRing w e)))
    (expectedInputLen : ℕ) : Outcome (List (List (Share (GaloisRing w e)))) := do
  let s ← agreedContributionsFromResharers.entries.foldlM unmaskStep
    ⟨masksToResharers, List.replicate expectedInputLen []⟩
  return s.sShareVec

/-- The chunks of a vector; a remainder shorter than a chunk is left out. -/
def chunksExact {α : Type} (chunkSize : ℕ) (l : List α) : Outcome (List (List α)) :=
  if chunkSize = 0 then
    Outcome.panic "chunk size must be non-zero"
  else
    .ok ((List.range (l.length / chunkSize)).map
      (fun i => (l.drop (i * chunkSize)).take chunkSize))

def makeLagrangeNumerators (sortedRoles : List Role) : Outcome (List (Poly (GaloisRing w e))) := do
  let parties ← sortedRoles.mapM embedRole
  lagrangeNumerators parties

def indexByRole {α : Type} (l : List α) (role : Role) : Outcome α :=
  match l[role - 1]? with
  | some x => .ok x
  | none => Outcome.panic "Role index out of bounds"

variable (F : Type) [Field F] [DecidableEq F] [G2p e F]

/-- The coefficient of a party's share in the value at zero. -/
def delta0i (numerators : List (Poly (GaloisRing w e))) (partyRole : Role) :
    Outcome (GaloisRing w e) := do
  let zero ← getFromExceptionalSequence 0
  let alphai ← embedRole partyRole
  let numerator ← indexByRole numerators partyRole
  let invDenom ← invert F (numerator.eval alphai)
  return invDenom * numerator.eval zero

/-- The sharings to be corrected and the shares of all their syndromes. -/
def syndromeShares (unmaskedResharedShares : List (List (Share (GaloisRing w e))))
    (thresholdResharers : ℕ) :
    Outcome (List (ShamirSharings (GaloisRing w e)) × List (GaloisRing w e)) := do
  let computed ← unmaskedResharedShares.mapM (fun shares => do
    let shamirSharing := ShamirSharings.create shares
    let syndromeShare ← syndromeCompute F shamirSharing thresholdResharers
    return (shamirSharing, syndromeShare.coefs))
  return (computed.map Prod.fst, (computed.map Prod.snd).flatten)

/-- One share of the new sharing, from one opened syndrome. -/
def correctErrors (resharingSetSorted : List Role) (thresholdResharers : ℕ) (myRole : Role)
    (deltas : List (GaloisRing w e))
    (v : List (GaloisRing w e) × ShamirSharings (GaloisRing w e)) :
    Outcome (Share (GaloisRing w e)) := do
  let openedSyndrome ←
    syndromeDecode F (Poly.fromCoefs v.1) resharingSetSorted thresholdResharers
  return ⟨myRole,
    (List.zipWith3 (fun s d err => d * (s.value - err)) v.2.shares deltas openedSyndrome).sum⟩

/-- The shares of the new sharing, from all opened syndromes. -/
def correctOpenedSyndromes (resharingSetSorted : List Role) (thresholdResharers : ℕ) (myRole : Role)
    (allShamirShares : List (ShamirSharings (GaloisRing w e)))
    (allSyndromePolys : List (GaloisRing w e)) : Outcome (List (Share (GaloisRing w e))) := do
  let syndromeLength ← Outcome.usizeSub resharingSetSorted.length (thresholdResharers + 1)
  let chunks ← chunksExact syndromeLength allSyndromePolys
  if chunks.length ≠ allShamirShares.length then
    Outcome.err (s!"Expected the amount of syndrome chunks; {chunks.length}, and shamir " ++
      s!"shares; {allShamirShares.length}, to be equal")
  else
    let numerators ← makeLagrangeNumerators resharingSetSorted
    let deltas ← resharingSetSorted.mapM (delta0i F numerators)
    (chunks.zip allShamirShares).mapM
      (correctErrors F resharingSetSorted thresholdResharers myRole deltas)

/-- The robust opening of the session is a parameter. -/
def openSyndromesAndCorrectErrors
    (robustOpenListToAll : List (GaloisRing w e) → ℕ → Outcome (Option (List (GaloisRing w e))))
    (myRole : Role) (threshold : ℕ)
    (unmaskedResharedShares : List (List (Share (GaloisRing w e)))) (resharingSet : List Role)
    (thresholdResharers : ℕ) : Outcome (List (Share (GaloisRing w e))) := do
  let resharingSetSorted := resharingSet.mergeSort (fun r r' => decide (r ≤ r'))
  let (allShamirShares, allSyndromePolyShares) ←
    syndromeShares F unmaskedResharedShares thresholdResharers
  match ← robustOpenListToAll allSyndromePolyShares threshold with
  | none => Outcome.err "missing opening"
  | some allSyndromePolys =>
    correctOpenedSyndromes F resharingSetSorted thresholdResharers myRole allShamirShares
      allSyndromePolys

/-!
## The steps of a resharing

Unmasking yields one list of shares for each position, sorting brings it into the order of the
parties, and a concatenation of rows of equal length falls into the rows again.
-/

variable {n len : ℕ} {α : Type}

theorem indexByRole_ofFn (x : Fin n → α) (i : Fin n) :
    indexByRole (List.ofFn x) ((i : ℕ) + 1) = .ok (x i) := by
  rw [indexByRole, Nat.add_sub_cancel, List.getElem?_ofFn, dif_pos i.isLt]

theorem unmaskShare_ofFn (vs : List (GaloisRing w e)) (mask : Fin len → GaloisRing w e) :
    unmaskShare vs (List.ofFn mask) = List.ofFn (fun k : Fin len => vs.getD k 0 - mask k) := by
  rw [unmaskShare, zipIdx_ofFn, List.map_ofFn]
  congr 1
  funext k
  rw [Function.comp_apply, List.getD_eq_getElem?_getD]
  cases vs[(k : ℕ)]? with
  | none => rfl
  | some v => rfl

variable {masks : HashMap Role (List (GaloisRing w e))}

theorem unmaskStep_eq_ok {c : (_ : Role) × List (GaloisRing w e)} {mask : Fin len → GaloisRing w e}
    (h : masks.lookup c.1 = some (List.ofFn mask)) (rows : Fin len → List (Share (GaloisRing w e))) :
    unmaskStep ⟨masks, List.ofFn rows⟩ c =
      .ok ⟨masks.erase c.1, List.ofFn (fun k => rows k ++ [⟨c.1, c.2.getD k 0 - mask k⟩])⟩ := by
  unfold unmaskStep
  simp only [h, unmaskShare_ofFn, List.length_ofFn, if_true, zipWith_ofFn]

variable (mask : Role → Fin len → GaloisRing w e)

/-- The shares of one position, in the order of the contributions. -/
def unmaskedRow (k : Fin len)
    (l : List ((_ : Role) × List (GaloisRing w e))) : List (Share (GaloisRing w e)) :=
  l.map (fun c => ⟨c.1, c.2.getD k 0 - mask c.1 k⟩)

theorem foldlM_unmaskStep {l : List ((_ : Role) × List (GaloisRing w e))} (hl : l.NodupKeys)
    (h : ∀ role ∈ l.keys, masks.lookup role = some (List.ofFn (mask role)))
    (rows : Fin len → List (Share (GaloisRing w e))) :
    ∃ masks', l.foldlM unmaskStep ⟨masks, List.ofFn rows⟩ =
      .ok ⟨masks', List.ofFn (fun k => rows k ++ unmaskedRow mask k l)⟩ := by
  induction l generalizing masks rows with
  | nil => exact ⟨masks, by simp [unmaskedRow]⟩
  | cons c l ih =>
    rw [List.nodupKeys_cons] at hl
    have hrest : ∀ role ∈ l.keys, (masks.erase c.1).lookup role = some (List.ofFn (mask role)) := by
      intro role hrole
      have hne : role ≠ c.1 := by
        rintro rfl
        exact hl.1 hrole
      rw [AList.lookup_erase_ne hne]
      exact h role (List.mem_cons_of_mem _ hrole)
    obtain ⟨masks', hrun⟩ := ih hl.2 hrest
      (fun k => rows k ++ [⟨c.1, c.2.getD k 0 - mask c.1 k⟩])
    refine ⟨masks', ?_⟩
    rw [List.foldlM_cons, unmaskStep_eq_ok (h c.1 List.mem_cons_self), Outcome.ok_bind, hrun]
    simp [unmaskedRow]

theorem unmaskResharedShares_eq {agreed masks : HashMap Role (List (GaloisRing w e))}
    (h : ∀ role ∈ agreed, masks.lookup role = some (List.ofFn (mask role))) :
    unmaskResharedShares agreed masks len =
      .ok (List.ofFn (fun k => unmaskedRow mask k agreed.entries)) := by
  obtain ⟨masks', hrun⟩ := foldlM_unmaskStep mask agreed.nodupKeys h (fun _ => [])
  rw [List.ofFn_const] at hrun
  rw [unmaskResharedShares, hrun]
  simp

theorem entries_perm_ofFn {m : HashMap Role α} {row : Fin n → α}
    (hkeys : ∀ role ∈ m, role ∈ partyRoles n)
    (hrow : ∀ j : Fin n, m.lookup ((j : ℕ) + 1) = some (row j)) :
    m.entries.Perm (List.ofFn (fun j : Fin n => ⟨(j : ℕ) + 1, row j⟩)) := by
  have hnodup : (List.ofFn (fun j : Fin n => (⟨(j : ℕ) + 1, row j⟩ : (_ : Role) × α))).Nodup := by
    rw [List.nodup_ofFn]
    intro i j hij
    exact Fin.ext (by simpa using (Sigma.mk.inj hij).1)
  refine (List.perm_ext_iff_of_nodup (List.NodupKeys.nodup m.nodupKeys) hnodup).mpr ?_
  rintro ⟨role, v⟩
  rw [← AList.mem_lookup_iff, List.mem_ofFn]
  constructor
  · intro hv
    obtain ⟨j, rfl⟩ := List.mem_ofFn.mp (hkeys role (AList.lookup_isSome.mp
      (Option.isSome_iff_exists.mpr ⟨v, hv⟩)))
    have hval : row j = v := by
      rw [hrow j] at hv
      exact Option.some.inj hv
    exact ⟨j, by rw [hval]⟩
  · rintro ⟨j, hj⟩
    cases hj
    exact hrow j

theorem mergeSort_eq_of_perm (key : α → ℕ) {l l' : List α} (h : l.Perm l')
    (hs : l'.Pairwise (fun a b => key a < key b)) :
    l.mergeSort (fun a b => decide (key a ≤ key b)) = l' := by
  have hperm := (List.mergeSort_perm l (fun a b => decide (key a ≤ key b))).trans h
  have hsort : (l.mergeSort (fun a b => decide (key a ≤ key b))).Pairwise
      (fun a b => decide (key a ≤ key b)) := by
    apply List.pairwise_mergeSort
    · intro a b c hab hbc
      rw [decide_eq_true_eq] at hab hbc ⊢
      exact hab.trans hbc
    · intro a b
      rw [Bool.or_eq_true, decide_eq_true_eq, decide_eq_true_eq]
      exact le_total _ _
  have hnodup : (l'.map key).Nodup := List.pairwise_map.mpr (hs.imp ne_of_lt)
  refine hperm.eq_of_pairwise ?_ hsort (hs.imp (fun hlt => decide_eq_true hlt.le))
  intro a b ha hb hab hba
  rw [decide_eq_true_eq] at hab hba
  exact List.inj_on_of_nodup_map hnodup (hperm.mem_iff.mp ha) hb (le_antisymm hab hba)

theorem create_eq_sharingOf {R : Type} {shares : List (Share R)} {y : Fin n → R}
    (h : shares.Perm (sharingOf y).shares) : ShamirSharings.create shares = sharingOf y := by
  refine congrArg ShamirSharings.mk (mergeSort_eq_of_perm Share.owner h ?_)
  rw [List.pairwise_ofFn]
  intro i j hij
  simpa using hij

theorem mergeSort_resharingSet {resharingSet : List Role} (h : resharingSet.Perm (partyRoles n)) :
    resharingSet.mergeSort (fun r r' => decide (r ≤ r')) = partyRoles n :=
  mergeSort_eq_of_perm id h (pairwise_partyRoles n)

section Chunks

variable {size : ℕ} {rows : List (List α)}

theorem length_flatten_of_rows (h : ∀ row ∈ rows, row.length = size) :
    rows.flatten.length = rows.length * size := by
  rw [List.length_flatten, List.map_congr_left h, List.map_const', List.sum_replicate, smul_eq_mul]

theorem chunk_flatten (h : ∀ row ∈ rows, row.length = size) {i : ℕ} (hi : i < rows.length) :
    (rows.flatten.drop (i * size)).take size = rows[i] := by
  have hrow := List.drop_take_succ_flatten_eq_getElem rows i hi
  rw [List.map_congr_left h, List.map_const', List.take_replicate, List.take_replicate,
    List.sum_replicate, List.sum_replicate, min_eq_left hi.le, min_eq_left hi, smul_eq_mul,
    smul_eq_mul, Nat.succ_mul, List.drop_take, Nat.add_sub_cancel_left] at hrow
  exact hrow

theorem chunksExact_flatten (hsize : size ≠ 0) (h : ∀ row ∈ rows, row.length = size) :
    chunksExact size rows.flatten = .ok rows := by
  rw [chunksExact, if_neg hsize, length_flatten_of_rows h,
    Nat.mul_div_cancel _ (Nat.pos_of_ne_zero hsize)]
  refine congrArg Except.ok (List.ext_getElem (by simp) ?_)
  intro i h₁ h₂
  rw [List.getElem_map, List.getElem_range]
  exact chunk_flatten h h₂

end Chunks

end ThresholdKms
