import ThresholdKms.Session

/-!
# Large sessions

Besides the corrupt parties, a large session keeps the disputes: pairs of parties that contradict
each other. A corrupt party is put in dispute with every party, and recording a dispute makes the
two parties corrupt that are then in dispute with more than `threshold` parties.
-/

namespace ThresholdKms

/-- Both parties of a dispute know it, and no party is in dispute with itself. -/
@[ext]
structure DisputeSet where
  get : Role → Finset Role
  symm : ∀ {a b : Role}, b ∈ get a → a ∈ get b
  irrefl : ∀ a : Role, a ∉ get a

namespace DisputeSet

def new : DisputeSet where
  get := fun _ => ∅
  symm := fun h => absurd h (Finset.notMem_empty _)
  irrefl := fun _ => Finset.notMem_empty _

variable (d : DisputeSet)

def addedTo (roleA roleB role : Role) : Finset Role :=
  if role = roleA then insert roleB (d.get roleA)
  else if role = roleB then insert roleA (d.get roleB)
  else d.get role

theorem mem_addedTo {roleA roleB p q : Role} (hne : roleA ≠ roleB) :
    q ∈ d.addedTo roleA roleB p ↔
      q ∈ d.get p ∨ (p = roleA ∧ q = roleB) ∨ (p = roleB ∧ q = roleA) := by
  unfold addedTo
  by_cases hA : p = roleA
  · subst hA
    simp [hne, or_comm]
  · by_cases hB : p = roleB
    · subst hB
      simp [hA, or_comm]
    · simp [hA, hB]

/-- A dispute of a party with itself is not recorded. -/
def add (roleA roleB : Role) : DisputeSet :=
  if hne : roleA = roleB then d
  else
    { get := d.addedTo roleA roleB
      symm := by
        intro p q h
        rw [mem_addedTo d hne] at h ⊢
        rcases h with h | ⟨rfl, rfl⟩ | ⟨rfl, rfl⟩
        · exact Or.inl (d.symm h)
        · exact Or.inr (Or.inr ⟨rfl, rfl⟩)
        · exact Or.inr (Or.inl ⟨rfl, rfl⟩)
      irrefl := by
        intro p h
        rw [mem_addedTo d hne] at h
        rcases h with h | ⟨rfl, h⟩ | ⟨rfl, h⟩
        · exact d.irrefl p h
        · exact hne h
        · exact hne h.symm }

theorem mem_add (roleA roleB p q : Role) :
    q ∈ (d.add roleA roleB).get p ↔ q ∈ d.get p ∨
      (roleA ≠ roleB ∧ ((p = roleA ∧ q = roleB) ∨ (p = roleB ∧ q = roleA))) := by
  unfold add
  by_cases hne : roleA = roleB
  · simp [hne]
  · simp [hne, mem_addedTo d hne]

theorem mem_foldl_add (role : Role) (roles : List Role) (d : DisputeSet) (p q : Role) :
    q ∈ (roles.foldl (fun d roleB => d.add role roleB) d).get p ↔ q ∈ d.get p ∨
      (p ≠ q ∧ ((p = role ∧ q ∈ roles) ∨ (q = role ∧ p ∈ roles))) := by
  induction roles generalizing d with
  | nil => simp
  | cons roleB roles ih =>
    rw [List.foldl_cons, ih, mem_add]
    simp only [List.mem_cons]
    constructor
    · rintro ((h | ⟨hne, ⟨rfl, rfl⟩ | ⟨rfl, rfl⟩⟩) | ⟨hne, ⟨rfl, h⟩ | ⟨rfl, h⟩⟩)
      · exact Or.inl h
      · exact Or.inr ⟨hne, Or.inl ⟨rfl, Or.inl rfl⟩⟩
      · exact Or.inr ⟨hne.symm, Or.inr ⟨rfl, Or.inl rfl⟩⟩
      · exact Or.inr ⟨hne, Or.inl ⟨rfl, Or.inr h⟩⟩
      · exact Or.inr ⟨hne, Or.inr ⟨rfl, Or.inr h⟩⟩
    · rintro (h | ⟨hne, ⟨rfl, rfl | h⟩ | ⟨rfl, rfl | h⟩⟩)
      · exact Or.inl (Or.inl h)
      · exact Or.inl (Or.inr ⟨hne, Or.inl ⟨rfl, rfl⟩⟩)
      · exact Or.inr ⟨hne, Or.inl ⟨rfl, h⟩⟩
      · exact Or.inl (Or.inr ⟨hne.symm, Or.inr ⟨rfl, rfl⟩⟩)
      · exact Or.inr ⟨hne, Or.inr ⟨rfl, h⟩⟩

end DisputeSet

@[ext]
structure LargeSession where
  baseSession : BaseSession
  disputedRoles : DisputeSet

namespace LargeSession

variable (s : LargeSession)

/-- The role is put in dispute with every party, also if it is the own or a known one. -/
def addCorruptWithReason (role : Role) : LargeSession × Bool :=
  let (base, res) := s.baseSession.addCorruptWithReason role
  (⟨base, (partyRoles base.numParties).foldl (fun d roleB => d.add role roleB) s.disputedRoles⟩, res)

instance : BaseSessionHandles LargeSession where
  myRole := fun s => s.baseSession.myRole
  numParties := fun s => s.baseSession.numParties
  threshold := fun s => s.baseSession.threshold
  corruptRoles := fun s => s.baseSession.corruptRoles
  addCorrupt := addCorruptWithReason

instance : LawfulSession LargeSession where
  myRole_addCorrupt := fun s => LawfulSession.myRole_addCorrupt s.baseSession
  numParties_addCorrupt := fun s => LawfulSession.numParties_addCorrupt s.baseSession
  threshold_addCorrupt := fun s => LawfulSession.threshold_addCorrupt s.baseSession
  corruptRoles_addCorrupt := fun s => LawfulSession.corruptRoles_addCorrupt s.baseSession
  addCorrupt_snd := fun s => LawfulSession.addCorrupt_snd s.baseSession

def syncDisputeCorrupt (role : Role) : LargeSession :=
  if threshold s < (s.disputedRoles.get role).card then (addCorrupt s role).1 else s

def addDispute (partyA partyB : Role) : LargeSession :=
  let s : LargeSession := { s with disputedRoles := s.disputedRoles.add partyA partyB }
  syncDisputeCorrupt (syncDisputeCorrupt s partyA) partyB

/-- `q` is in dispute with `p`. -/
def Disputed (p q : Role) : Prop := q ∈ s.disputedRoles.get p

instance (s : LargeSession) (p q : Role) : Decidable (s.Disputed p q) :=
  inferInstanceAs (Decidable (q ∈ s.disputedRoles.get p))

theorem disputed_addCorrupt (role p q : Role) :
    (addCorrupt s role).1.Disputed p q ↔ s.Disputed p q ∨
      (p ≠ q ∧ ((p = role ∧ q ∈ sessionRoles s) ∨ (q = role ∧ p ∈ sessionRoles s))) := by
  have hroles : sessionRoles (addCorrupt s role).1 = sessionRoles s := by
    rw [sessionRoles, LawfulSession.numParties_addCorrupt, sessionRoles]
  rw [← hroles]
  exact DisputeSet.mem_foldl_add role _ s.disputedRoles p q

/-- The corrupt parties and the disputes only grow. -/
structure Le (s s' : LargeSession) : Prop where
  corruptRoles : corruptRoles s ⊆ corruptRoles s'
  disputed : ∀ p q, s.Disputed p q → s'.Disputed p q

theorem Le.refl : Le s s := ⟨Finset.Subset.refl _, fun _ _ h => h⟩

theorem Le.trans {s s' s'' : LargeSession} (h : Le s s') (h' : Le s' s'') : Le s s'' :=
  ⟨h.corruptRoles.trans h'.corruptRoles, fun p q hpq => h'.disputed p q (h.disputed p q hpq)⟩

theorem le_addCorrupt (role : Role) : Le s (addCorrupt s role).1 where
  corruptRoles := by
    rw [LawfulSession.corruptRoles_addCorrupt]
    split
    · exact Finset.Subset.refl _
    · exact Finset.subset_insert _ _
  disputed := fun p q h => (disputed_addCorrupt s role p q).mpr (Or.inl h)

theorem le_syncDisputeCorrupt (role : Role) : Le s (syncDisputeCorrupt s role) := by
  unfold syncDisputeCorrupt
  split
  · exact le_addCorrupt s role
  · exact Le.refl s

theorem le_addDispute (partyA partyB : Role) : Le s (addDispute s partyA partyB) := by
  have hadd : Le s { s with disputedRoles := s.disputedRoles.add partyA partyB } :=
    ⟨Finset.Subset.refl _, fun p q h => (DisputeSet.mem_add _ _ _ p q).mpr (Or.inl h)⟩
  exact (hadd.trans (le_syncDisputeCorrupt _ _)).trans (le_syncDisputeCorrupt _ _)

theorem disputed_addDispute {s : LargeSession} {partyA partyB : Role} (hne : partyA ≠ partyB) :
    (addDispute s partyA partyB).Disputed partyB partyA := by
  apply (le_syncDisputeCorrupt _ _).disputed
  apply (le_syncDisputeCorrupt _ _).disputed
  exact (DisputeSet.mem_add _ _ _ _ _).mpr (Or.inr ⟨hne, Or.inr ⟨rfl, rfl⟩⟩)

end LargeSession

end ThresholdKms
