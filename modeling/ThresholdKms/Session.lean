import ThresholdKms.Broadcast
import ThresholdKms.Lockstep
import ThresholdKms.SyndromeCompute

/-!
# Sessions

A session knows the party that runs it, the parameters of the protocol, and the parties that it has
found to be corrupt; it never adds its own party to these. A broadcast ignores the parties already
known to be corrupt, and adds those from which nothing consistent was received.
-/

namespace ThresholdKms

open Lockstep

class BaseSessionHandles (S : Type) where
  myRole : S → Role
  numParties : S → ℕ
  threshold : S → ℕ
  corruptRoles : S → Finset Role
  /-- The flag tells whether the role was not yet known to be corrupt. -/
  addCorrupt : S → Role → S × Bool

export BaseSessionHandles (myRole numParties threshold corruptRoles addCorrupt)

structure BaseSession where
  myRole : Role
  numParties : ℕ
  threshold : ℕ
  corruptRoles : Finset Role

def BaseSession.addCorruptWithReason (s : BaseSession) (role : Role) : BaseSession × Bool :=
  if role ≠ s.myRole then
    ({ s with corruptRoles := insert role s.corruptRoles }, decide (role ∉ s.corruptRoles))
  else
    (s, false)

instance : BaseSessionHandles BaseSession where
  myRole := BaseSession.myRole
  numParties := BaseSession.numParties
  threshold := BaseSession.threshold
  corruptRoles := BaseSession.corruptRoles
  addCorrupt := BaseSession.addCorruptWithReason

section Handles

variable {S : Type} [BaseSessionHandles S]

def sessionRoles (s : S) : List Role := partyRoles (numParties s)

def markCorrupt (s : S) (roles : List Role) : S :=
  roles.foldl (fun s role => (addCorrupt s role).1) s

theorem markCorrupt_append (s : S) (roles roles' : List Role) :
    markCorrupt s (roles ++ roles') = markCorrupt (markCorrupt s roles) roles' :=
  List.foldl_append

theorem markCorrupt_cons (s : S) (role : Role) (roles : List Role) :
    markCorrupt s (role :: roles) = markCorrupt (addCorrupt s role).1 roles := rfl

theorem markCorrupt_kept {α : Type} {read : S → α}
    (h : ∀ s role, read (addCorrupt s role).1 = read s) (s : S) (roles : List Role) :
    read (markCorrupt s roles) = read s := by
  induction roles generalizing s with
  | nil => rfl
  | cons role roles ih => rw [markCorrupt_cons, ih, h]

variable {P : Type} [DecidableEq P]

/-- The values of parties that are known to be corrupt are ignored. -/
def visible (corrupt : Finset Role) (received : Role → BroadcastValue P) (role : Role) :
    BroadcastValue P :=
  if role ∈ corrupt then .bot else received role

/-- The values of all parties; `Bot` stands for that of a party already known to be corrupt. -/
def broadcastFromAllWithCorruptSetUpdate (s : S) (myMessage : P) :
    Prog Role (BroadcastValue P) Fault (S × (Role → BroadcastValue P)) := do
  let received ← Prog.broadcast (.payload myMessage)
  let broadcastRes := visible (corruptRoles s) received
  let silent := (sessionRoles s).filter (fun role =>
    decide (role ∉ corruptRoles s ∧ broadcastRes role = .bot))
  return (markCorrupt s silent, broadcastRes)

end Handles

/-- Adding a corrupt party changes nothing but the corrupt set, and never adds the own party. -/
class LawfulSession (S : Type) [BaseSessionHandles S] : Prop where
  myRole_addCorrupt : ∀ (s : S) role, myRole (addCorrupt s role).1 = myRole s
  numParties_addCorrupt : ∀ (s : S) role, numParties (addCorrupt s role).1 = numParties s
  threshold_addCorrupt : ∀ (s : S) role, threshold (addCorrupt s role).1 = threshold s
  corruptRoles_addCorrupt : ∀ (s : S) role, corruptRoles (addCorrupt s role).1 =
    if role = myRole s then corruptRoles s else insert role (corruptRoles s)
  addCorrupt_snd : ∀ (s : S) role,
    (addCorrupt s role).2 = decide (role ≠ myRole s ∧ role ∉ corruptRoles s)

theorem BaseSession.addCorrupt_eq (s : BaseSession) (role : Role) : addCorrupt s role =
    if role = s.myRole then (s, false)
    else (⟨s.myRole, s.numParties, s.threshold, insert role s.corruptRoles⟩,
      decide (role ∉ s.corruptRoles)) :=
  ite_not ..

instance : LawfulSession BaseSession where
  myRole_addCorrupt s role := by rw [BaseSession.addCorrupt_eq]; split <;> rfl
  numParties_addCorrupt s role := by rw [BaseSession.addCorrupt_eq]; split <;> rfl
  threshold_addCorrupt s role := by rw [BaseSession.addCorrupt_eq]; split <;> rfl
  corruptRoles_addCorrupt s role := by
    rw [BaseSession.addCorrupt_eq, apply_ite Prod.fst, apply_ite corruptRoles]
    rfl
  addCorrupt_snd s role := by
    by_cases h : role = s.myRole
    · simp [BaseSession.addCorrupt_eq, myRole, h]
    · simp [BaseSession.addCorrupt_eq, myRole, corruptRoles, h]

section Lawful

variable {S : Type} [BaseSessionHandles S] [LawfulSession S]

open LawfulSession

attribute [simp] myRole_addCorrupt numParties_addCorrupt threshold_addCorrupt

@[simp] theorem myRole_markCorrupt (s : S) (roles : List Role) :
    myRole (markCorrupt s roles) = myRole s := markCorrupt_kept myRole_addCorrupt s roles

@[simp] theorem numParties_markCorrupt (s : S) (roles : List Role) :
    numParties (markCorrupt s roles) = numParties s := markCorrupt_kept numParties_addCorrupt s roles

@[simp] theorem threshold_markCorrupt (s : S) (roles : List Role) :
    threshold (markCorrupt s roles) = threshold s := markCorrupt_kept threshold_addCorrupt s roles

theorem corruptRoles_markCorrupt (s : S) (roles : List Role) :
    corruptRoles (markCorrupt s roles) = corruptRoles s ∪ roles.toFinset.erase (myRole s) := by
  induction roles generalizing s with
  | nil => simp [markCorrupt]
  | cons role roles ih =>
    rw [markCorrupt_cons, ih, corruptRoles_addCorrupt]
    ext q
    by_cases hrole : role = myRole s
    · simp [hrole]
    · simp [hrole]
      by_cases hq : q = role
      · simp [hq, hrole]
      · simp [hq]

/-- What the parties of a session look like to each other: one number of parties and threshold, the
given corrupt set, and every party under its own role. -/
structure SessionAt (s : S) (role : Role) (n t : ℕ) (corrupt : Finset Role) : Prop where
  myRole_eq : myRole s = role
  numParties_eq : numParties s = n
  threshold_eq : threshold s = t
  corruptRoles_eq : corruptRoles s = corrupt

variable {corrupt : Finset Role}

theorem SessionAt.markCorrupt {s : S} {role : Role} {n t : ℕ}
    (h : SessionAt s role n t corrupt) {roles : List Role} (hrole : role ∉ roles) :
    SessionAt (markCorrupt s roles) role n t (corrupt ∪ roles.toFinset) where
  myRole_eq := by rw [myRole_markCorrupt, h.myRole_eq]
  numParties_eq := by rw [numParties_markCorrupt, h.numParties_eq]
  threshold_eq := by rw [threshold_markCorrupt, h.threshold_eq]
  corruptRoles_eq := by
    rw [corruptRoles_markCorrupt, h.corruptRoles_eq, h.myRole_eq,
      Finset.erase_eq_of_notMem (by simpa using hrole)]

theorem SessionAt.eq {s : BaseSession} {role : Role} {n t : ℕ}
    (h : SessionAt s role n t corrupt) : s = ⟨role, n, t, corrupt⟩ := by
  obtain ⟨hrole, hn, ht, hcorrupt⟩ := h
  rw [← hrole, ← hn, ← ht, ← hcorrupt]
  rfl

end Lawful

/-!
## Honest parties

All but at most `t` of more than `3 * t` parties follow the protocol. Their shares determine a sharing,
and as long as their sessions agree on the corrupt parties, and no honest party is among them, a
broadcast keeps it so.
-/

open Polynomial ReceivedWord

/-- The parties that follow the protocol: all but at most `t` of more than `3 * t` parties. -/
structure HonestMajority (honest : Finset Role) (n t : ℕ) : Prop where
  mem_roles : ∀ p ∈ honest, p ∈ partyRoles n
  le_card : n ≤ honest.card + t
  lt : 3 * t < n

/-- The parties that need not follow the protocol. -/
def otherRoles (honest : Finset Role) (n : ℕ) : Finset Role := (partyRoles n).toFinset \ honest

theorem mem_otherRoles {honest : Finset Role} {n : ℕ} {p : Role} :
    p ∈ otherRoles honest n ↔ p ∈ partyRoles n ∧ p ∉ honest := by
  rw [otherRoles, Finset.mem_sdiff, List.mem_toFinset]

namespace HonestMajority

variable {honest : Finset Role} {n t : ℕ} (h : HonestMajority honest n t)

include h

theorem lt_card : 2 * t < honest.card := by
  have := h.le_card
  have := h.lt
  omega

theorem card_otherRoles_le : (otherRoles honest n).card ≤ t := by
  have hsub : honest ⊆ (partyRoles n).toFinset := fun p hp => List.mem_toFinset.mpr (h.mem_roles p hp)
  have hcard := Finset.card_sdiff_add_card_eq_card hsub
  rw [List.toFinset_card_of_nodup (nodup_partyRoles n), length_partyRoles] at hcard
  have := h.le_card
  rw [otherRoles]
  omega

theorem nonempty : honest.Nonempty := Finset.card_pos.mp (by have := h.lt_card; omega)

variable {e : ExtensionDegree}

theorem embeddable (hn : n < 2 ^ e.deg) : Embeddable e honest.toList where
  nodup := honest.nodup_toList
  lt := fun p hp => (embeddable_partyRoles hn).lt p (h.mem_roles p (Finset.mem_toList.mp hp))

/-- The shares of the honest parties determine a sharing of degree up to `2 * t`. -/
theorem eq_of_eval {w : ℕ} (F : Type) [Field F] [G2p e F] (hw : 0 < w)
    (hn : n < 2 ^ e.deg) {d : ℕ} (hd : d ≤ 2 * t) {f g : (GaloisRing w e)[X]}
    (hf : f.natDegree ≤ d) (hg : g.natDegree ≤ d)
    (heval : ∀ p ∈ honest, f.eval (GaloisRing.fromByte p) = g.eval (GaloisRing.fromByte p)) :
    f = g := by
  apply sub_eq_zero.mp
  apply eq_zero_of_forall_eval_eq_zero ((h.embeddable hn).unitDifferences F hw)
  · have hsub : (f - g).natDegree ≤ d := (natDegree_sub_le f g).trans (max_le hf hg)
    have hlen : d < honest.toList.length := by
      rw [Finset.length_toList]
      have := h.lt_card
      omega
    rw [List.length_map]
    exact degree_le_natDegree.trans_lt (by exact_mod_cast hsub.trans_lt hlen)
  · intro x hx
    obtain ⟨p, hp, rfl⟩ := List.mem_map.mp hx
    rw [eval_sub, heval p (Finset.mem_toList.mp hp), sub_self]

end HonestMajority

section Synced

variable {S : Type} [BaseSessionHandles S] {honest : Finset Role} {n t : ℕ}
  {corrupt : Finset Role} {session : Role → S}

/-- The honest parties know the same corrupt parties, and none of them is honest. -/
structure Synced (honest : Finset Role) (n t : ℕ) (corrupt : Finset Role) (session : Role → S) :
    Prop where
  sessionAt : ∀ p ∈ honest, SessionAt (session p) p n t corrupt
  subset : corrupt ⊆ otherRoles honest n

variable (h : Synced honest n t corrupt session)
include h

theorem Synced.notMem {p : Role} (hp : p ∈ honest) :
    p ∉ corrupt := fun hmem => (mem_otherRoles.mp (h.subset hmem)).2 hp

variable [LawfulSession S]

theorem Synced.markCorrupt {roles : List Role} (hroles : ∀ r ∈ roles, r ∈ otherRoles honest n) :
    Synced honest n t (corrupt ∪ roles.toFinset) (fun p => markCorrupt (session p) roles) where
  sessionAt := fun p hp =>
    (h.sessionAt p hp).markCorrupt (fun hmem => (mem_otherRoles.mp (hroles p hmem)).2 hp)
  subset := Finset.union_subset h.subset (fun r hr => hroles r (List.mem_toFinset.mp hr))

variable {P α : Type} [DecidableEq P]

/-- After a broadcast the honest parties continue with the same values and corrupt parties. -/
theorem Synced.broadcast {msg : Role → P} {post : (Role → α) → Prop}
    {f : Role → S × (Role → BroadcastValue P) → Prog Role (BroadcastValue P) Fault α}
    (hf : ∀ received, (∀ p ∈ honest, received p = .payload (msg p)) →
      ∀ (corrupt' : Finset Role) (session' : Role → S), corrupt ⊆ corrupt' →
        Synced honest n t corrupt' session' →
        Ensures (· ∈ honest) post (fun p => f p (session' p, visible corrupt received))) :
    Ensures (· ∈ honest) post
      (fun p => broadcastFromAllWithCorruptSetUpdate (session p) (msg p) >>= f p) := by
  refine .send (fun p => .payload (msg p)) _ (fun p _ => rfl) (fun received _ hreceived => ?_)
  have hsilent : ∀ r ∈ (partyRoles n).filter (fun role =>
      decide (role ∉ corrupt ∧ visible corrupt received role = .bot)), r ∈ otherRoles honest n := by
    intro r hr
    rw [List.mem_filter, decide_eq_true_eq] at hr
    refine mem_otherRoles.mpr ⟨hr.1, fun hhonest => ?_⟩
    have hbot := hr.2.2
    rw [visible, if_neg hr.2.1, hreceived r hhonest] at hbot
    cases hbot
  refine (hf received hreceived _ _ Finset.subset_union_left (h.markCorrupt hsilent)).congr
    (fun p hp => ?_)
  have hsession := h.sessionAt p hp
  change f p (ThresholdKms.markCorrupt (session p) ((sessionRoles (session p)).filter (fun role =>
    decide (role ∉ corruptRoles (session p) ∧
      visible (corruptRoles (session p)) received role = .bot))),
    visible (corruptRoles (session p)) received) = _
  rw [sessionRoles, hsession.numParties_eq, hsession.corruptRoles_eq]

end Synced

end ThresholdKms
