import ThresholdKms.LocalShare

/-!
# Disagreements and disputes

A dealer and a receiver that broadcast different values for the receiver's share get into dispute. A
party that becomes corrupt in this way is put in dispute with everyone, but nobody looks whether
another party is now in dispute with too many. So the result can depend on the order in which the
disagreements are found. It does not if no two of the parties that exceed the threshold disagree with
each other, and if the others that disagree with someone stay below the threshold also with the new
corrupt parties.
-/

namespace ThresholdKms

open LargeSession

section Accusations

variable {Z : Type} [DecidableEq Z]

/-- The dealer `s` claims to have given `r` another share than `r` has. -/
def Disagree (bcastData : Role → Option (MapsSharesChallenges Z)) (r s : Role) : Prop :=
  (bcastData r).bind (·.checksForAll.lookup s) ≠ (bcastData s).bind (·.checksForMine.lookup r)

instance (bcastData : Role → Option (MapsSharesChallenges Z)) (r s : Role) :
    Decidable (Disagree bcastData r s) :=
  inferInstanceAs (Decidable (_ ≠ _))

/-- The disagreements of a receiver and a dealer that are not yet in dispute. -/
def accusations (n : ℕ) (corrupt : Finset Role) (disputes : DisputeSet)
    (bcastData : Role → Option (MapsSharesChallenges Z)) : Finset (Role × Role) :=
  ((partyRoles n).toFinset ×ˢ (partyRoles n).toFinset).filter (fun a =>
    a.1 ∉ corrupt ∧ a.2 ∉ corrupt ∧ a.1 ∉ disputes.get a.2 ∧ Disagree bcastData a.1 a.2)

end Accusations

/-- The parties with which `p` gets into dispute. -/
def partners (done : Finset (Role × Role)) (p : Role) : Finset Role :=
  (done.biUnion (fun a => (if a.2 = p then {a.1} else ∅) ∪ (if a.1 = p then {a.2} else ∅))).erase p

def Touched (done : Finset (Role × Role)) (p : Role) : Prop := ∃ a ∈ done, a.1 = p ∨ a.2 = p

instance (done : Finset (Role × Role)) (p : Role) : Decidable (Touched done p) :=
  inferInstanceAs (Decidable (∃ a ∈ done, _))

/-- The parties that get into dispute with too many. -/
def exceeding (n t : ℕ) (disputes : DisputeSet) (found : Finset (Role × Role)) : Finset Role :=
  (partyRoles n).toFinset.filter (fun p =>
    Touched found p ∧ t < (disputes.get p ∪ partners found p).card)

/-- Under which disagreements the order does not matter. -/
structure Orderly (n t : ℕ) (disputes : DisputeSet) (found : Finset (Role × Role)) : Prop where
  apart : ∀ a ∈ found, a.1 ∈ exceeding n t disputes found → a.2 ∈ exceeding n t disputes found →
    a.1 = a.2
  settled : ∀ p, Touched found p → p ∉ exceeding n t disputes found →
    (disputes.get p ∪ partners found p ∪ exceeding n t disputes found).card ≤ t

variable {done : Finset (Role × Role)}

theorem mem_partners {p q : Role} :
    q ∈ partners done p ↔ q ≠ p ∧ ((q, p) ∈ done ∨ (p, q) ∈ done) := by
  unfold partners
  rw [Finset.mem_erase, Finset.mem_biUnion]
  apply and_congr_right
  intro hne
  constructor
  · rintro ⟨⟨r, s⟩, hmem, hq⟩
    rcases Finset.mem_union.mp hq with hq | hq
    · split_ifs at hq with hs
      · exact Or.inl (by rwa [Finset.mem_singleton.mp hq, ← hs])
      · exact absurd hq (Finset.notMem_empty q)
    · split_ifs at hq with hr
      · exact Or.inr (by rwa [Finset.mem_singleton.mp hq, ← hr])
      · exact absurd hq (Finset.notMem_empty q)
  · rintro (hmem | hmem)
    · exact ⟨_, hmem, by simp⟩
    · exact ⟨_, hmem, by simp⟩

theorem mem_partners_comm {p q : Role} : q ∈ partners done p ↔ p ∈ partners done q := by
  rw [mem_partners, mem_partners, ne_comm, or_comm]

theorem partners_insert_of_ne {r s p : Role} (hr : p ≠ r)
    (hs : p ≠ s) : partners (insert (r, s) done) p = partners done p := by
  ext q
  simp only [mem_partners, Finset.mem_insert, Prod.mk.injEq]
  simp [hr, hs]

theorem partners_mono {done done' : Finset (Role × Role)} (h : done ⊆ done') (p : Role) :
    partners done p ⊆ partners done' p := by
  intro q hq
  rw [mem_partners] at hq ⊢
  exact ⟨hq.1, hq.2.imp (fun hmem => h hmem) (fun hmem => h hmem)⟩

theorem touched_insert_of_ne {r s p : Role} (hr : p ≠ r) (hs : p ≠ s)
    (h : Touched (insert (r, s) done) p) : Touched done p := by
  obtain ⟨a, ha, hp⟩ := h
  rcases Finset.mem_insert.mp ha with rfl | ha
  · exact absurd hp (by simp [hr.symm, hs.symm])
  · exact ⟨a, ha, hp⟩

section Record

variable {n t : ℕ} {me : Role} {corrupt : Finset Role} {disputes : DisputeSet}
  {all : Finset (Role × Role)} {found : Finset Role} {session : LargeSession}

/-- The session after the disagreements `done`, with the new corrupt parties `found`. -/
structure Recorded (n t : ℕ) (me : Role) (corrupt : Finset Role) (disputes : DisputeSet)
    (done : Finset (Role × Role)) (found : Finset Role) (session : LargeSession) : Prop where
  sessionAt : SessionAt session me n t (corrupt ∪ found)
  disputed : ∀ p q, session.Disputed p q ↔ q ∈ disputes.get p ∨ q ∈ partners done p ∨
    (p ≠ q ∧ p ∈ partyRoles n ∧ q ∈ partyRoles n ∧ (p ∈ found ∨ q ∈ found))

section Recorded

variable (h : Recorded n t me corrupt disputes done found session)
include h

theorem Recorded.addCorrupt {p : Role} (hme : p ≠ me) (hp : p ∈ partyRoles n) :
    Recorded n t me corrupt disputes done (insert p found) (addCorrupt session p).1 where
  sessionAt := by
    refine ⟨?_, ?_, ?_, ?_⟩
    · rw [LawfulSession.myRole_addCorrupt, h.sessionAt.myRole_eq]
    · rw [LawfulSession.numParties_addCorrupt, h.sessionAt.numParties_eq]
    · rw [LawfulSession.threshold_addCorrupt, h.sessionAt.threshold_eq]
    · rw [LawfulSession.corruptRoles_addCorrupt, h.sessionAt.myRole_eq, if_neg hme,
        h.sessionAt.corruptRoles_eq, Finset.union_insert]
  disputed := by
    intro q q'
    rw [disputed_addCorrupt, h.disputed, sessionRoles, h.sessionAt.numParties_eq]
    simp only [Finset.mem_insert]
    constructor
    · rintro ((h | h | ⟨hne, hq, hq', hfound⟩) | ⟨hne, ⟨rfl, hq'⟩ | ⟨rfl, hq⟩⟩)
      · exact Or.inl h
      · exact Or.inr (Or.inl h)
      · exact Or.inr (Or.inr ⟨hne, hq, hq', hfound.imp Or.inr Or.inr⟩)
      · exact Or.inr (Or.inr ⟨hne, hp, hq', Or.inl (Or.inl rfl)⟩)
      · exact Or.inr (Or.inr ⟨hne, hq, hp, Or.inr (Or.inl rfl)⟩)
    · rintro (h | h | ⟨hne, hq, hq', (rfl | hfound) | (rfl | hfound)⟩)
      · exact Or.inl (Or.inl h)
      · exact Or.inl (Or.inr (Or.inl h))
      · exact Or.inr ⟨hne, Or.inl ⟨rfl, hq'⟩⟩
      · exact Or.inl (Or.inr (Or.inr ⟨hne, hq, hq', Or.inl hfound⟩))
      · exact Or.inr ⟨hne, Or.inr ⟨rfl, hq⟩⟩
      · exact Or.inl (Or.inr (Or.inr ⟨hne, hq, hq', Or.inr hfound⟩))

/-- A party that disagrees with someone becomes corrupt only if it exceeds the threshold. -/
theorem Recorded.sync
    (horderly : Orderly n t disputes all) (hme : me ∉ exceeding n t disputes all) (hdone : done ⊆ all)
    (hfound : found ⊆ exceeding n t disputes all) {p : Role} (hp : Touched all p) :
    ∃ found', Recorded n t me corrupt disputes done found' (syncDisputeCorrupt session p) ∧
      found ⊆ found' ∧ found' ⊆ exceeding n t disputes all ∧
      (p ∉ found' → (disputes.get p ∪ partners done p).card ≤ t) := by
  have hlower : disputes.get p ∪ partners done p ⊆ session.disputedRoles.get p := by
    intro q hq
    apply (h.disputed p q).mpr
    rcases Finset.mem_union.mp hq with hq | hq
    · exact Or.inl hq
    · exact Or.inr (Or.inl hq)
  unfold syncDisputeCorrupt
  rw [h.sessionAt.threshold_eq]
  split_ifs with hover
  · have hmem : p ∈ exceeding n t disputes all := by
      by_contra hnot
      have hupper : session.disputedRoles.get p ⊆
          disputes.get p ∪ partners all p ∪ exceeding n t disputes all := by
        intro q hq
        rcases (h.disputed p q).mp hq with hq | hq | ⟨-, -, -, hq | hq⟩
        · exact Finset.mem_union_left _ (Finset.mem_union_left _ hq)
        · exact Finset.mem_union_left _ (Finset.mem_union_right _ (partners_mono hdone p hq))
        · exact absurd (hfound hq) hnot
        · exact Finset.mem_union_right _ (hfound hq)
      have := Finset.card_le_card hupper
      have := horderly.settled p hp hnot
      omega
    have hrole : p ∈ partyRoles n := List.mem_toFinset.mp (Finset.mem_filter.mp hmem).1
    refine ⟨insert p found, h.addCorrupt (fun heq => hme (heq ▸ hmem)) hrole,
      Finset.subset_insert p found, Finset.insert_subset hmem hfound, fun hnot => ?_⟩
    exact absurd (Finset.mem_insert_self p found) hnot
  · refine ⟨found, h, Finset.Subset.refl found, hfound, fun _ => ?_⟩
    exact (Finset.card_le_card hlower).trans (not_lt.mp hover)

theorem Recorded.addDispute
    (horderly : Orderly n t disputes all) (hme : me ∉ exceeding n t disputes all) (hdone : done ⊆ all)
    (hfound : found ⊆ exceeding n t disputes all) {r s : Role} (hmem : (r, s) ∈ all) :
    ∃ found', Recorded n t me corrupt disputes (insert (r, s) done) found'
        (session.addDispute r s) ∧
      found ⊆ found' ∧ found' ⊆ exceeding n t disputes all ∧
      ∀ p, p = r ∨ p = s → p ∉ found' →
        (disputes.get p ∪ partners (insert (r, s) done) p).card ≤ t := by
  have hadd : Recorded n t me corrupt disputes (insert (r, s) done) found
      { session with disputedRoles := session.disputedRoles.add r s } := by
    refine ⟨⟨h.sessionAt.myRole_eq, h.sessionAt.numParties_eq, h.sessionAt.threshold_eq,
      h.sessionAt.corruptRoles_eq⟩, fun p q => ?_⟩
    have hold := h.disputed p q
    unfold LargeSession.Disputed at hold ⊢
    rw [DisputeSet.mem_add, hold]
    simp only [mem_partners, Finset.mem_insert, Prod.mk.injEq]
    grind
  have hdone' : insert (r, s) done ⊆ all := Finset.insert_subset hmem hdone
  obtain ⟨found₁, hrec₁, hsub₁, hex₁, hle₁⟩ :=
    hadd.sync horderly hme hdone' hfound ⟨(r, s), hmem, Or.inl rfl⟩
  obtain ⟨found₂, hrec₂, hsub₂, hex₂, hle₂⟩ :=
    hrec₁.sync horderly hme hdone' hex₁ ⟨(r, s), hmem, Or.inr rfl⟩
  refine ⟨found₂, hrec₂, hsub₁.trans hsub₂, hex₂, ?_⟩
  rintro p (rfl | rfl) hnot
  · exact hle₁ (fun hmem => hnot (hsub₂ hmem))
  · exact hle₂ hnot

theorem Recorded.disputedRoles_eq {me' : Role} {session' : LargeSession}
    (h' : Recorded n t me' corrupt disputes done found session') :
    session.disputedRoles = session'.disputedRoles := by
  apply DisputeSet.ext
  funext p
  ext q
  exact (h.disputed p q).trans (h'.disputed p q).symm

end Recorded

end Record

end ThresholdKms
