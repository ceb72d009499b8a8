import ThresholdKms.BroadcastEcho

/-!
# The voting rounds

The counters of an honest party are the votes of all honest parties and those that it has heard from
corrupt parties. The invariant holds after every round in which no party has enough votes for a party
that is not a sender.
-/

namespace ThresholdKms

open Tally

namespace BroadcastRun

variable {P H : Type} [DecidableEq P] [DecidableEq H] {R : BroadcastRun P H} {p : Role}

section Quorums

variable (hR : R.Admissible) (hp : p ∈ R.honest) {k : Role × H}
include hR hp

omit [DecidableEq H] in
theorem Registers.exists_honest (h : R.Registers p k) : ∃ v, R.toBcastHash v = k.2 ∧
      ∃ q ∈ R.honest, (R.contributions q).lookup k.1 = some v := by
  obtain ⟨v, hv, hcount⟩ := h
  rw [tally_echoed hR hp] at hcount
  have hcorrupted := (List.countP_le_length (p := fun c => R.heard p 0 c &&
    supports ((R.adversary 1 c p).bind matchEcho) (k.1, v))).trans hR.corrupted_le
  have hlt := hR.threshold_lt
  have hpos : 0 < R.honest.countP
      (fun q => decide ((R.contributions q).lookup (k.1, v).1 = some (k.1, v).2)) := by omega
  obtain ⟨q, hq, hlookup⟩ := List.countP_pos_iff.mp hpos
  exact ⟨v, hv, q, hq, of_decide_eq_true hlookup⟩

omit [DecidableEq H] in
theorem Registers.mem_senders (h : R.Registers p k) : k.1 ∈ R.senders := by
  obtain ⟨v, -, q, -, hlookup⟩ := h.exists_honest hR hp
  by_contra hrole
  rw [lookup_contributions_of_notMem hrole] at hlookup
  cases hlookup

theorem Registers.lookup_ne_none {q : Role} (hq : q ∈ R.honest) (h : R.Registers p k) :
    (R.registered q).2.lookup k ≠ none := by
  obtain ⟨v, hv, p', hp', hlookup⟩ := h.exists_honest hR hp
  have hpos : 0 < tally (R.echoed q) (k.1, v) := by
    have hcount : 0 < R.honest.countP
        (fun q => decide ((R.contributions q).lookup (k.1, v).1 = some (k.1, v).2)) :=
      List.countP_pos_iff.mpr ⟨p', hp', decide_eq_true hlookup⟩
    rw [tally_echoed hR hq]
    omega
  have hvalue := lookup_processEchos_of_pos hR.hash_injective hpos
  rw [hv] at hvalue
  rw [hvalue]
  simp

omit [DecidableEq H] in
/-- Two values of one sender do not both have enough echoes. -/
theorem Registers.unique {role : Role} {h h' : H} (hreg : R.Registers p (role, h))
    (hreg' : R.Registers p (role, h')) : h = h' := by
  obtain ⟨v, hv, hcount⟩ := hreg
  obtain ⟨v', hv', hcount'⟩ := hreg'
  by_contra hne
  have hvv : v ≠ v' := fun heq => hne (hv.symm.trans ((congrArg R.toBcastHash heq).trans hv'))
  rw [tally_echoed hR hp] at hcount hcount'
  dsimp only at hcount hcount'
  have hhonest := countP_add_countP_le_length (l := R.honest)
    (p := fun q => decide ((R.contributions q).lookup role = some v))
    (q := fun q => decide ((R.contributions q).lookup role = some v')) (by
      intro q _ hq hq'
      have hlookup := of_decide_eq_true hq
      rw [of_decide_eq_true hq', Option.some_inj] at hlookup
      exact hvv hlookup.symm)
  have hcorrupted := countP_add_countP_le_length (l := R.corrupted)
    (p := fun c => R.heard p 0 c && supports ((R.adversary 1 c p).bind matchEcho) (role, v))
    (q := fun c => R.heard p 0 c && supports ((R.adversary 1 c p).bind matchEcho) (role, v')) (by
      intro c _ hc hc'
      exact hvv (eq_of_supports (Bool.and_eq_true_iff.mp hc).2 (Bool.and_eq_true_iff.mp hc').2))
  have hlength := length_honest_add (R := R)
  have hlt := hR.threshold_lt
  omega

omit [DecidableEq H] in
theorem registers_of_honest {s : Role} (hs : s ∈ R.senders) (hhonest : s ∈ R.honest) :
    R.Registers p (s, R.toBcastHash (R.message s)) := by
  refine ⟨R.message s, rfl, ?_⟩
  have hall : R.honest.countP (fun q => decide ((R.contributions q).lookup s =
      some (R.message s))) = R.honest.length := by
    rw [List.countP_eq_length]
    intro q _
    exact decide_eq_true (lookup_contributions_of_honest hR hs hhonest)
  have hlength := length_honest_add (R := R)
  have hcorrupted := hR.corrupted_le
  rw [tally_echoed hR hp]
  dsimp only
  omega

end Quorums

section FirstVote

/-- What an honest party remembers after a number of voting rounds and the vote that follows them. -/
structure VotingInvariant (R : BroadcastRun P H) (round : ℕ) (p : Role) (st : VotingState P H) :
    Prop where
  listens : R.Listens p (round + 1) st.nonAnsweringParties
  tally_eq : ∀ k, tally st.registeredVotes k =
    R.honestVotes k round + (R.votes round k p).toNat + R.corruptVotes p k round
  casted_none : ∀ role, st.casted.lookup role = none ↔ role ∉ R.senders
  casted_once : ∀ role h h', h ≠ h' → R.votesCast (role, h) p round + R.votesCast (role, h') p round ≤
    if st.casted.lookup role = some true then 1 else 0
  values : st.mapHashToValue = (processEchos R.toBroadcastSession (R.echoed p)).2
  bcastData : st.bcastData = R.initialData p

section

variable (hR : R.Admissible)
include hR

theorem firstVote_eq (p : Role) : R.firstVote p = (do
      let casted ← ((R.order p 0).iter (R.registered p).1).foldlM
        markCasted (collect (R.senders.map (fun role => (role, false))))
      return ⟨(R.registered p).1, casted, R.silentParties p, (R.registered p).2, R.initialData p⟩,
    some (castThresholdVote (R.order p 0)
      (R.registered p).1 1)) := by
  rw [firstVote, echoing_eq hR]
  rfl

theorem mem_iter_processEchos (p : Role) (e : (_ : Role × H) × ℕ) :
    e ∈ (R.order p 0).iter (R.registered p).1 ↔ e.2 = 1 ∧ R.Registers p e.1 := by
  have hlt := hR.threshold_lt
  rw [IterOrder.iter, ((R.order p 0).perm _).mem_iff, mem_entries_processEchos (by omega)]

theorem mem_roles_processEchos (p role : Role) :
    role ∈ ((R.order p 0).iter (R.registered p).1).map
        (fun e => e.1.1) ↔ ∃ h, R.Registers p (role, h) := by
  rw [List.mem_map]
  constructor
  · rintro ⟨e, he, rfl⟩
    exact ⟨e.1.2, ((mem_iter_processEchos hR p e).mp he).2⟩
  · rintro ⟨h, hreg⟩
    exact ⟨⟨(role, h), 1⟩, (mem_iter_processEchos hR p _).mpr ⟨rfl, hreg⟩, rfl⟩

variable (hp : p ∈ R.honest)
include hp

theorem votes_zero_iff (k : Role × H) : R.votes 0 k p ↔ R.Registers p k := by
  have hlt := hR.threshold_lt
  have hcast := supports_castThresholdVote (P := P) (R.order p 0)
    (R.registered p).1 1 (by
      intro e he e' he' _ _ hrole
      obtain ⟨-, hreg⟩ := (mem_entries_processEchos (by omega) p e).mp he
      obtain ⟨-, hreg'⟩ := (mem_entries_processEchos (by omega) p e').mp he'
      refine Prod.ext hrole (Registers.unique hR hp hreg ?_)
      rw [hrole]
      exact hreg') k
  rw [votes, voting, firstVote_eq hR]
  refine hcast.trans ?_
  constructor
  · rintro ⟨e, he, rfl, -⟩
    exact ((mem_entries_processEchos (by omega) p e).mp he).2
  · intro hreg
    exact ⟨⟨k, 1⟩, (mem_entries_processEchos (by omega) p ⟨k, 1⟩).mpr ⟨rfl, hreg⟩, rfl, le_rfl⟩

theorem tally_registered (k : Role × H) :
    tally (R.registered p).1 k = (R.votes 0 k p).toNat := by
  have hlt := hR.threshold_lt
  by_cases hreg : R.Registers p k
  · rw [(votes_zero_iff hR hp k).mpr hreg]
    exact tally_of_mem_entries
      ((mem_entries_processEchos (by omega) p ⟨k, 1⟩).mpr ⟨rfl, hreg⟩)
  · have hvotes : R.votes 0 k p = false :=
      Bool.eq_false_iff.mpr (fun h => hreg ((votes_zero_iff hR hp k).mp h))
    rw [hvotes]
    by_contra hne
    exact hreg ((mem_entries_processEchos (by omega) p _).mp
      (mem_entries_of_tally_pos (Nat.pos_of_ne_zero hne))).2

theorem nodup_roles_processEchos : (((R.order p 0).iter (R.registered p).1).map
      (fun e => e.1.1)).Nodup := by
  refine List.Nodup.map_on ?_ (((R.order p 0).perm _).nodup_iff.mpr (AList.nodupKeys _).nodup)
  intro e he e' he' hrole
  obtain ⟨hone, hreg⟩ := (mem_iter_processEchos hR p e).mp he
  obtain ⟨hone', hreg'⟩ := (mem_iter_processEchos hR p e').mp he'
  have hhash : e.1.2 = e'.1.2 := by
    refine Registers.unique hR hp hreg ?_
    rw [hrole]
    exact hreg'
  exact Sigma.ext (Prod.ext hrole hhash) (heq_of_eq (hone.trans hone'.symm))

theorem voting_zero :
    ∃ st, (R.voting 0 p).1 = .ok st ∧ R.VotingInvariant 0 p st := by
  have hfalse := lookup_collect_map R.senders (fun _ => false)
  have hroles := mem_roles_processEchos hR p
  have hstart : ∀ e ∈ (R.order p 0).iter (R.registered p).1,
      (collect (R.senders.map (fun role => (role, false)))).lookup e.1.1 = some false := by
    intro e he
    rw [hfalse, if_pos (((mem_iter_processEchos hR p e).mp he).2.mem_senders hR hp)]
  obtain ⟨casted, hrun, hcasted⟩ := foldlM_markCasted (nodup_roles_processEchos hR hp) hstart
  refine ⟨⟨(R.registered p).1, casted, R.silentParties p,
    (R.registered p).2, R.initialData p⟩, ?_, ?_⟩
  · rw [voting, firstVote_eq hR, hrun]
    rfl
  · refine ⟨listens_silentParties hR hp, ?_, ?_, ?_, rfl, rfl⟩
    · intro k
      rw [tally_registered hR hp, honestVotes, corruptVotes, zero_add, add_zero]
    · intro role
      rw [hcasted, hfalse]
      by_cases hrole : role ∈ R.senders
      · simp only [hrole, if_true, not_true, iff_false]
        split_ifs <;> simp
      · have hnot : ¬ ∃ h, R.Registers p (role, h) := by
          rintro ⟨h, hreg⟩
          exact hrole (hreg.mem_senders hR hp)
        rw [if_neg (fun hmem => hnot ((hroles role).mp hmem))]
        simp [hrole]
    · intro role h h' hne
      rw [votesCast, votesCast, hcasted]
      by_cases hreg : ∃ h, R.Registers p (role, h)
      · by_contra hsum
        have hboth : R.votes 0 (role, h) p = true ∧ R.votes 0 (role, h') p = true := by
          cases hv : R.votes 0 (role, h) p <;> cases hv' : R.votes 0 (role, h') p <;>
            simp_all
        exact hne (Registers.unique hR hp ((votes_zero_iff hR hp _).mp hboth.1)
          ((votes_zero_iff hR hp _).mp hboth.2))
      · have hnone : ∀ h, R.votes 0 (role, h) p = false := fun h =>
          Bool.eq_false_iff.mpr (fun hv => hreg ⟨h, (votes_zero_iff hR hp _).mp hv⟩)
        rw [hnone, hnone]
        simp

end

end FirstVote

end BroadcastRun

end ThresholdKms
