import Mathlib.Data.List.AList
import ThresholdKms.GaloisRing

/-!
# Shares and sharings

A share belongs to the party with the given one-based index. A sharing keeps its shares sorted by
owner, one for each owner; a second share of an owner replaces the first.
-/

namespace ThresholdKms

/-- The one-based index of a party. -/
abbrev Role := ℕ

abbrev HashMap (κ ν : Type) := AList (fun _ : κ => ν)

section HashMap

variable {κ ν : Type} [DecidableEq κ] {m : HashMap κ ν} {k : κ} {v : ν}

theorem mem_of_lookup_eq_some (h : m.lookup k = some v) : k ∈ m := by
  rw [← AList.lookup_isSome, h]
  rfl

theorem exists_lookup_of_mem (h : k ∈ m) : ∃ v, m.lookup k = some v :=
  Option.isSome_iff_exists.mp (AList.lookup_isSome.mpr h)

variable {P : κ → ν → Prop} (hm : ∀ k v, m.lookup k = some v → P k v)
include hm

theorem forall_lookup_insert (hv : P k v) :
    ∀ k' v', (m.insert k v).lookup k' = some v' → P k' v' := by
  intro k' v' h
  by_cases hk : k' = k
  · rw [hk, AList.lookup_insert, Option.some_inj] at h
    exact hk ▸ h ▸ hv
  · rw [AList.lookup_insert_ne hk] at h
    exact hm k' v' h

theorem forall_lookup_erase (k : κ) :
    ∀ k' v', (m.erase k).lookup k' = some v' → P k' v' := by
  intro k' v' h
  by_cases hk : k' = k
  · rw [hk, AList.lookup_erase] at h
    cases h
  · rw [AList.lookup_erase_ne hk] at h
    exact hm k' v' h

end HashMap

structure Share (Z : Type) where
  owner : Role
  value : Z
  deriving DecidableEq, Repr

structure ShamirSharings (Z : Type) where
  shares : List (Share Z)
  deriving DecidableEq, Repr

namespace ShamirSharings

variable {Z : Type} (s : ShamirSharings Z)

def owners : List Role := s.shares.map Share.owner

/-- The binary search finds the owner's place in the sorted vector. -/
def insertShare (share : Share Z) : List (Share Z) → List (Share Z)
  | [] => [share]
  | s :: rest =>
    if s.owner < share.owner then s :: insertShare share rest
    else if s.owner = share.owner then share :: rest
    else share :: s :: rest

def addShare (share : Share Z) : ShamirSharings Z :=
  ⟨insertShare share s.shares⟩

theorem insertShare_perm {share : Share Z} {l : List (Share Z)}
    (h : share.owner ∉ l.map Share.owner) : (insertShare share l).Perm (share :: l) := by
  induction l with
  | nil => exact List.Perm.refl _
  | cons s rest ih =>
    rw [List.map_cons, List.mem_cons, not_or] at h
    rw [insertShare]
    split_ifs with hlt heq
    · exact ((ih h.2).cons s).trans (List.Perm.swap share s rest)
    · exact absurd heq.symm h.1
    · exact List.Perm.refl _

/-- The owners after an insertion depend on the owners before it only. -/
def insertOwner (owner : Role) : List Role → List Role
  | [] => [owner]
  | o :: rest =>
    if o < owner then o :: insertOwner owner rest
    else if o = owner then owner :: rest
    else owner :: o :: rest

theorem map_owner_insertShare (share : Share Z) (l : List (Share Z)) :
    (insertShare share l).map Share.owner = insertOwner share.owner (l.map Share.owner) := by
  induction l with
  | nil => rfl
  | cons s rest ih =>
    rw [insertShare, List.map_cons, insertOwner]
    split_ifs
    · rw [List.map_cons, ih]
    · rfl
    · rfl

theorem owners_addShare (share : Share Z) :
    (s.addShare share).owners = insertOwner share.owner s.owners :=
  map_owner_insertShare share s.shares

theorem insertOwner_perm {owner : Role} {l : List Role} (h : owner ∉ l) :
    (insertOwner owner l).Perm (owner :: l) := by
  have howners : (l.map (fun o => (⟨o, ()⟩ : Share Unit))).map Share.owner = l := by
    rw [List.map_map]
    exact List.map_id l
  have hshares : (⟨owner, ()⟩ : Share Unit).owner ∉
      (l.map (fun o => (⟨o, ()⟩ : Share Unit))).map Share.owner := by rwa [howners]
  have hperm := (insertShare_perm hshares).map Share.owner
  rwa [map_owner_insertShare, List.map_cons, howners] at hperm

end ShamirSharings

section Embedding

variable {w : ℕ} {e : ExtensionDegree} (F : Type) [Field F] [G2p e F]

/-- Parties are embedded in the exceptional sequences of the ring and of its quotient field. -/
def embedRole (role : Role) : Outcome (GaloisRing w e) :=
  GaloisRing.getFromExceptionalSequence role

/-- Distinct owners that fit the exceptional sequence. -/
structure Embeddable (e : ExtensionDegree) (owners : List Role) : Prop where
  nodup : owners.Nodup
  lt : ∀ o ∈ owners, o < 2 ^ e.deg

theorem Embeddable.sublist {l l' : List Role} (h : Embeddable e l') (hl : l.Sublist l') :
    Embeddable e l :=
  ⟨h.nodup.sublist hl, fun o ho => h.lt o (hl.subset ho)⟩

theorem residue_fromByte (hw : 0 < w) {o : Role} (h : o < 2 ^ e.deg) :
    (GaloisRing.dyadic F hw).residue (GaloisRing.fromByte o : GaloisRing w e) = G2p.fromU8 e o :=
  GaloisRing.residueHom_fromByte hw h

variable {owners : List Role}

theorem Embeddable.nodup_fromU8 (h : Embeddable e owners) :
    (owners.map (G2p.fromU8 e : ℕ → F)).Nodup := by
  apply List.Nodup.map_on _ h.nodup
  intro a ha b hb hab
  exact G2p.fromU8_injOn e (h.lt a ha) (h.lt b hb) hab

theorem Embeddable.unitDifferences (F : Type) [Field F] [G2p e F] (hw : 0 < w)
    (h : Embeddable e owners) :
    ReceivedWord.UnitDifferences
      (owners.map (GaloisRing.fromByte : ℕ → GaloisRing w e)) := by
  apply (GaloisRing.dyadic F hw).unitDifferences_of_residue
  have hmap : (owners.map (GaloisRing.fromByte : ℕ → GaloisRing w e)).map
      (GaloisRing.dyadic F hw).residue = owners.map (G2p.fromU8 e) := by
    rw [List.map_map]
    apply List.map_congr_left
    intro o ho
    exact residue_fromByte F hw (h.lt o ho)
  rw [hmap]
  exact h.nodup_fromU8 F

theorem Embeddable.mapM_ring (h : Embeddable e owners) :
    owners.mapM (embedRole : Role → Outcome (GaloisRing w e)) =
      .ok (owners.map GaloisRing.fromByte) :=
  Outcome.mapM_eq_ok (fun o ho => GaloisRing.getFromExceptionalSequence_of_lt (h.lt o ho))

theorem Embeddable.mapM_field (h : Embeddable e owners) :
    owners.mapM (fieldFromExceptionalSequence e : ℕ → Outcome F) =
      .ok (owners.map (G2p.fromU8 e)) :=
  Outcome.mapM_eq_ok (fun o ho => fieldFromExceptionalSequence_of_lt e (h.lt o ho))

end Embedding

/-!
## Sums and differences of sharings

The operators pair the shares of two sharings by position. Where both have a share its owners must
be the same; where only one has a share, the other is meant to be zero. The difference keeps a share
that only the subtrahend has with its sign, so it is the sum with the negated subtrahend exactly
when those shares are their own negatives.
-/

inductive EitherOrBoth (α : Type) where
  | both (a b : α)
  | left (a : α)
  | right (b : α)

def zipLongest {α : Type} : List α → List α → List (EitherOrBoth α)
  | [], m => m.map .right
  | l, [] => l.map .left
  | a :: l, b :: m => .both a b :: zipLongest l m

namespace ShamirSharings

variable {Z : Type}

def combineShares (op : Z → Z → Z) : EitherOrBoth (Share Z) → Outcome (Share Z)
  | .both a b =>
    if a.owner = b.owner then .ok ⟨a.owner, op a.value b.value⟩
    else Outcome.panic "assertion `left == right` failed"
  | .left a => .ok ⟨a.owner, a.value⟩
  | .right b => .ok ⟨b.owner, b.value⟩

def combine (op : Z → Z → Z) (a b : ShamirSharings Z) : Outcome (ShamirSharings Z) := do
  let shares ← (zipLongest a.shares b.shares).mapM (combineShares op)
  return ⟨shares⟩

def add [Ring Z] (a b : ShamirSharings Z) : Outcome (ShamirSharings Z) := combine (· + ·) a b

def sub [Ring Z] (a b : ShamirSharings Z) : Outcome (ShamirSharings Z) := combine (· - ·) a b

def mul [Ring Z] (s : ShamirSharings Z) (rhs : Z) : ShamirSharings Z :=
  ⟨s.shares.map (fun share => ⟨share.owner, share.value * rhs⟩)⟩

/-- One list of owners is a beginning of the other. -/
def Aligned (l m : List (Share Z)) : Prop :=
  l.map Share.owner <+: m.map Share.owner ∨ m.map Share.owner <+: l.map Share.owner

variable {l m : List (Share Z)}

theorem aligned_cons {a b : Share Z} :
    Aligned (a :: l) (b :: m) ↔ a.owner = b.owner ∧ Aligned l m := by
  rw [Aligned, Aligned, List.map_cons, List.map_cons, List.cons_prefix_cons,
    List.cons_prefix_cons, @eq_comm _ b.owner, and_or_left]

/-- The shares of the result when no assertion fails. -/
def combined (op : Z → Z → Z) : List (Share Z) → List (Share Z) → List (Share Z)
  | [], m => m
  | l, [] => l
  | a :: l, b :: m => ⟨a.owner, op a.value b.value⟩ :: combined op l m

variable (op : Z → Z → Z)

@[simp] theorem combined_nil_left (m : List (Share Z)) :
    combined op [] m = m := by
  rw [combined]

@[simp] theorem combined_nil_right (l : List (Share Z)) :
    combined op l [] = l := by
  cases l <;> rfl

theorem mapM_combineShares (h : Aligned l m) :
    (zipLongest l m).mapM (combineShares op) = .ok (combined op l m) := by
  induction l generalizing m with
  | nil =>
    rw [zipLongest, List.mapM_map]
    exact (Outcome.mapM_eq_ok (fun _ _ => rfl)).trans (congrArg _ (List.map_id m))
  | cons a l ih =>
    cases m with
    | nil =>
      rw [zipLongest, List.mapM_map]
      · exact (Outcome.mapM_eq_ok (fun _ _ => rfl)).trans (congrArg _ (List.map_id _))
      · exact List.cons_ne_nil a l
    | cons b m =>
      obtain ⟨howner, htail⟩ := aligned_cons.mp h
      rw [zipLongest, List.mapM_cons, combineShares, if_pos howner, ih htail]
      rfl

theorem combine_eq_ok {a b : ShamirSharings Z} (h : Aligned a.shares b.shares) :
    combine op a b = .ok ⟨combined op a.shares b.shares⟩ := by
  rw [combine, mapM_combineShares op h]
  rfl

theorem aligned_map (f : Share Z → Z) (h : Aligned l m) :
    Aligned l (m.map (fun s => ⟨s.owner, f s⟩)) := by
  rwa [Aligned, List.map_map]

theorem aligned_combined (h : Aligned l m) : Aligned (combined op l m) m := by
  induction l generalizing m with
  | nil => exact Or.inl (by rw [combined_nil_left])
  | cons a l ih =>
    cases m with
    | nil => exact Or.inr List.nil_prefix
    | cons b m =>
      obtain ⟨howner, htail⟩ := aligned_cons.mp h
      exact aligned_cons.mpr ⟨howner, ih htail⟩

variable [Ring Z]

/-- Nothing is lost by keeping the sign of the shares that only `m` has. -/
def SelfNegative (l m : List (Share Z)) : Prop :=
  ∀ s ∈ m.drop l.length, s.value + s.value = 0

theorem selfNegative_cons {a b : Share Z} : SelfNegative (a :: l) (b :: m) ↔ SelfNegative l m := by
  rw [SelfNegative, SelfNegative, List.length_cons, List.drop_succ_cons]

theorem combined_sub_eq_iff (l m : List (Share Z)) :
    combined (· - ·) l m = combined (· + ·) l (m.map (fun s => ⟨s.owner, s.value * -1⟩)) ↔
      SelfNegative l m := by
  induction l generalizing m with
  | nil =>
    rw [combined_nil_left, combined_nil_left, SelfNegative, List.length_nil]
    nth_rewrite 1 [← List.map_id m]
    rw [List.map_inj_left]
    refine forall₂_congr (fun s _ => ?_)
    rcases s with ⟨owner, value⟩
    rw [Share.mk.injEq, mul_neg_one, eq_neg_iff_add_eq_zero]
    exact and_iff_right rfl
  | cons a l ih =>
    cases m with
    | nil => simp [SelfNegative]
    | cons b m =>
      rw [selfNegative_cons, ← ih m, List.map_cons, combined, combined, mul_neg_one,
        ← sub_eq_add_neg, List.cons.injEq]
      exact and_iff_right rfl

theorem combined_add_self (m : List (Share Z)) :
    combined (· + ·) m m = m.map (fun s => ⟨s.owner, s.value + s.value⟩) := by
  induction m with
  | nil => rfl
  | cons b m ih => rw [combined, ih, List.map_cons]

theorem combined_add_sub_iff (l m : List (Share Z)) :
    combined (· + ·) (combined (· - ·) l m) m =
        l ++ (m.drop l.length).map (fun s => ⟨s.owner, 0⟩) ↔ SelfNegative l m := by
  induction l generalizing m with
  | nil =>
    rw [combined_nil_left, combined_add_self, List.length_nil, List.drop_zero,
      List.nil_append, List.map_inj_left]
    refine forall₂_congr (fun s _ => ?_)
    rw [Share.mk.injEq]
    exact and_iff_right rfl
  | cons a l ih =>
    cases m with
    | nil => simp [SelfNegative]
    | cons b m =>
      rw [selfNegative_cons, ← ih m, combined, combined, List.length_cons, List.cons_append,
        sub_add_cancel, List.cons.injEq]
      exact and_iff_right rfl

/-- The difference is the sum with the negated subtrahend, and adding the subtrahend again gives
`a` back, with zero for the owners that only `b` has. -/
structure LinearDifference (a b : ShamirSharings Z) : Prop where
  sub_eq_add_neg : a.sub b = a.add (b.mul (-1))
  sub_add_cancel : ∃ d, a.sub b = .ok d ∧ d.add b =
    .ok ⟨a.shares ++ (b.shares.drop a.shares.length).map (fun s => ⟨s.owner, 0⟩)⟩

theorem linearDifference_iff (a b : ShamirSharings Z)
    (haligned : a.owners <+: b.owners ∨ b.owners <+: a.owners) :
    LinearDifference a b ↔ ∀ s ∈ b.shares.drop a.shares.length, s.value + s.value = 0 := by
  have hsub : a.sub b = .ok ⟨combined (· - ·) a.shares b.shares⟩ := combine_eq_ok _ haligned
  have hadd : a.add (b.mul (-1)) = .ok ⟨combined (· + ·) a.shares (b.mul (-1)).shares⟩ :=
    combine_eq_ok _ (aligned_map _ haligned)
  have hback : add ⟨combined (· - ·) a.shares b.shares⟩ b =
      .ok ⟨combined (· + ·) (combined (· - ·) a.shares b.shares) b.shares⟩ :=
    combine_eq_ok _ (aligned_combined _ haligned)
  constructor
  · rintro ⟨hneg, -⟩
    rw [hsub, hadd] at hneg
    exact (combined_sub_eq_iff _ _).mp (congrArg ShamirSharings.shares (Except.ok.inj hneg))
  · intro hself
    refine ⟨?_, _, hsub, ?_⟩
    · rw [hsub, hadd, (combined_sub_eq_iff _ _).mpr hself]
      rfl
    · rw [hback, (combined_add_sub_iff _ _).mpr hself]

/-- Party 2 has a share of the subtrahend only, and keeps it in the difference. -/
theorem not_linearDifference_of_longer_subtrahend :
    ¬ LinearDifference (⟨[⟨1, 5⟩]⟩ : ShamirSharings ℤ) ⟨[⟨1, 3⟩, ⟨2, 1⟩]⟩ := by
  rintro ⟨hneg, -⟩
  exact absurd hneg (by decide)

theorem linearDifference_iff_shorter_subtrahend :
    LinearDifference (⟨[⟨1, 5⟩, ⟨2, 7⟩]⟩ : ShamirSharings ℤ) ⟨[⟨1, 3⟩]⟩ ↔
      ∀ s ∈ ([⟨1, 3⟩] : List (Share ℤ)).drop 2, s.value + s.value = 0 :=
  linearDifference_iff _ _ (Or.inr (by decide))

end ShamirSharings

end ThresholdKms
