import ThresholdKms.BroadcastVoting

/-!
# Runs of the voting rounds

One round of votes keeps the invariant as long as only senders have keys with enough votes, so it
holds in the last round as well.
-/

namespace ThresholdKms

open Tally

namespace BroadcastRun

variable {P H : Type} [DecidableEq P] [DecidableEq H] {R : BroadcastRun P H}

/-- Every honest party is in a voting round and has sent its vote. -/
def AllVoting (R : BroadcastRun P H) (round : ℕ) : Prop :=
  ∀ p ∈ R.honest, (∃ st, (R.voting round p).1 = .ok st ∧ R.VotingInvariant round p st) ∧
    (R.voting round p).2 ≠ none

theorem allVoting_zero (hR : R.Admissible) : R.AllVoting 0 := by
  intro p hp
  refine ⟨voting_zero hR hp, ?_⟩
  rw [voting, firstVote_eq hR]
  simp

/-- The counters and the silent parties after the votes of a round have arrived. -/
def received (R : BroadcastRun P H) (round : ℕ) (p : Role) (st : VotingState P H) :
    HashMap (Role × H) ℕ × List Role :=
  internalProcessEchosOrVotes p (genericReceiveFromAllSenders
    (R.inbox (round + 2) (fun q => (R.voting round q).2) p) p (List.range' 1 R.numParties)
    st.nonAnsweringParties matchVote) st.registeredVotes R.numParties st.nonAnsweringParties

variable {round : ℕ} {p : Role} {st : VotingState P H}

theorem gatherVotesRound_eq (round : ℕ) (p : Role) (st : VotingState P H) :
    gatherVotesRound R.toBroadcastSession (R.order p (round + 1)) p (round + 1)
        (R.inbox (round + 2) (fun q => (R.voting round q).2) p) st =
      if round + 1 = R.threshold + 1 then
        .ok ({ st with
          registeredVotes := (R.received round p st).1,
          nonAnsweringParties := (R.received round p st).2 }, none)
      else do
        let votes ← ((R.order p (round + 1)).iter (R.received round p st).1).foldlM
          (gatherVote (R.threshold + (round + 1))) ⟨(R.received round p st).1, st.casted, ∅⟩
        return ({ st with
            registeredVotes := votes.registeredVotes, casted := votes.casted,
            nonAnsweringParties := (R.received round p st).2 },
          some (castThresholdVote (R.order p (round + 1)) votes.roundRegisteredVotes
            (R.threshold + (round + 1)))) := rfl

omit [DecidableEq P] in
theorem supports_roundVote {needed : ℕ} {s votes : RoundVotes H} {W : List ((_ : Role × H) × ℕ)}
    (hempty : s.roundRegisteredVotes = ∅) (hW : CastsVotes needed s votes W)
    (order : IterOrder (Role × H) ℕ) (k : Role × H) :
    supports (matchVote (castThresholdVote order votes.roundRegisteredVotes needed :
      NetworkValue P H)) k ↔ k ∈ W.map (fun e => e.1) := by
  have hentries : ∀ e, e ∈ votes.roundRegisteredVotes.entries ↔ e ∈ W := by
    intro e
    rw [← AList.mem_lookup_iff, hW.roundRegisteredVotes, hempty]
    constructor
    · intro hlookup
      obtain ⟨e', he', hek⟩ := List.mem_map.mp (mem_of_lookup_collect hlookup)
      have heq : e' = e := Sigma.ext (congrArg Prod.fst hek) (heq_of_eq (congrArg Prod.snd hek))
      exact heq ▸ he'
    · intro he
      refine lookup_insertAll_of_mem ?_ ?_
      · exact List.mem_map.mpr ⟨(e.1, e.2), List.mem_map.mpr ⟨e, he, rfl⟩, rfl⟩
      · intro e' he' hkey
        obtain ⟨e'', he'', rfl⟩ := List.mem_map.mp he'
        have hkey' : e''.1 = e.1 := hkey
        rw [← hW.tally_eq e'' he'', ← hW.tally_eq e he, hkey']
  rw [supports_castThresholdVote]
  · constructor
    · rintro ⟨e, he, rfl, -⟩
      exact List.mem_map.mpr ⟨e, (hentries e).mp he, rfl⟩
    · intro hmem
      obtain ⟨e, he, rfl⟩ := List.mem_map.mp hmem
      exact ⟨e, (hentries e).mpr he, rfl, hW.needed_le e he⟩
  · intro e he e' he' _ _ hrole
    exact congrArg Sigma.fst (List.inj_on_of_nodup_map hW.nodup ((hentries e).mp he)
      ((hentries e').mp he') hrole)

/-- A party votes at most once for a sender. -/
theorem votesCast_succ_le {votes : RoundVotes H} {W : List ((_ : Role × H) × ℕ)} {needed : ℕ}
    {registeredVotes : HashMap (Role × H) ℕ} (hst : R.VotingInvariant round p st)
    (hW : CastsVotes needed ⟨registeredVotes, st.casted, ∅⟩ votes W)
    (hvotes : ∀ k, R.votes (round + 1) k p ↔ k ∈ W.map (fun e => e.1)) (role : Role) {h h' : H}
    (hne : h ≠ h') :
    R.votesCast (role, h) p (round + 1) + R.votesCast (role, h') p (round + 1) ≤
      if votes.casted.lookup role = some true then 1 else 0 := by
  have honce := hst.casted_once role h h' hne
  have hboth : ¬ (R.votes (round + 1) (role, h) p = true ∧
      R.votes (round + 1) (role, h') p = true) := by
    rintro ⟨hv, hv'⟩
    obtain ⟨e, he, hek⟩ := List.mem_map.mp ((hvotes _).mp hv)
    obtain ⟨e', he', hek'⟩ := List.mem_map.mp ((hvotes _).mp hv')
    have heq := List.inj_on_of_nodup_map hW.nodup he he'
      ((congrArg Prod.fst hek).trans (congrArg Prod.fst hek').symm)
    rw [heq, hek'] at hek
    exact hne (congrArg Prod.snd hek).symm
  rw [votesCast, votesCast, hW.casted]
  by_cases hrole : role ∈ W.map (fun e => e.1.1)
  · obtain ⟨e, he, rfl⟩ := List.mem_map.mp hrole
    have hfalse : st.casted.lookup e.1.1 = some false := hW.not_casted e he
    rw [hfalse, if_neg (by simp)] at honce
    rw [if_pos hrole]
    cases hv : R.votes (round + 1) (e.1.1, h) p with
    | false => cases R.votes (round + 1) (e.1.1, h') p <;> simp <;> omega
    | true =>
      have hv' : R.votes (round + 1) (e.1.1, h') p = false :=
        Bool.eq_false_iff.mpr (fun hv' => hboth ⟨hv, hv'⟩)
      rw [hv']
      simp
      omega
  · have hnone : ∀ h, R.votes (round + 1) (role, h) p = false := by
      intro h
      refine Bool.eq_false_iff.mpr (fun hv => hrole ?_)
      obtain ⟨e, he, hek⟩ := List.mem_map.mp ((hvotes _).mp hv)
      exact List.mem_map.mpr ⟨e, he, congrArg Prod.fst hek⟩
    rw [if_neg hrole, hnone, hnone]
    simpa using honce

theorem voting_last (hrun : (R.voting R.threshold p).1 = .ok st) :
    (R.voting (R.threshold + 1) p).1 = .ok { st with
      registeredVotes := (R.received R.threshold p st).1,
      nonAnsweringParties := (R.received R.threshold p st).2 } := by
  have hgather := gatherVotesRound_eq (R := R) R.threshold p st
  rw [if_pos rfl] at hgather
  rw [voting, hrun]
  simp only [hgather]

section Honest

variable (hp : p ∈ R.honest)
include hp

theorem tally_received (hst : R.VotingInvariant round p st) (k : Role × H) :
    tally (R.received round p st).1 k =
      R.honestVotes k (round + 1) + R.corruptVotes p k (round + 1) := by
  have htally : tally (R.received round p st).1 k = tally st.registeredVotes k +
      R.honest.countP (fun q => R.votes round k q && decide (q ≠ p)) +
      R.corrupted.countP (fun c => R.heard p (round + 1) c &&
        supports ((R.adversary (round + 2) c p).bind matchVote) k) := hst.listens.tally hp _ k
  have hself := countP_eq_add_of_mem nodup_honest hp (R.votes round k)
  rw [htally, hst.tally_eq, honestVotes, corruptVotes]
  omega

section Senders

variable (hsenders : ∀ k : Role × H, R.threshold + (round + 1) ≤
  R.honestVotes k (round + 1) + R.corruptVotes p k (round + 1) → k.1 ∈ R.senders)
include hsenders

theorem exists_castsVotes (hst : R.VotingInvariant round p st) :
    ∃ votes W, ((R.order p (round + 1)).iter (R.received round p st).1).foldlM
        (gatherVote (R.threshold + (round + 1))) ⟨(R.received round p st).1, st.casted, ∅⟩ =
          .ok votes ∧
      CastsVotes (R.threshold + (round + 1)) ⟨(R.received round p st).1, st.casted, ∅⟩ votes W := by
  have hmem : ∀ e, e ∈ (R.order p (round + 1)).iter (R.received round p st).1 ↔
      e ∈ (R.received round p st).1.entries := fun e => ((R.order p (round + 1)).perm _).mem_iff
  have htally : ∀ e ∈ (R.order p (round + 1)).iter (R.received round p st).1,
      tally (R.received round p st).1 e.1 = e.2 :=
    fun e he => tally_of_mem_entries ((hmem e).mp he)
  refine foldlM_gatherVote ?_ htally ?_
  · exact (((R.order p (round + 1)).perm _).map _).nodup_iff.mpr (R.received round p st).1.nodupKeys
  · intro e he hneeded hnone
    rw [← htally e he, tally_received hp hst] at hneeded
    exact (hst.casted_none _).mp hnone (hsenders e.1 hneeded)

/-- One round, when none of the votes is for a party that is not a sender. -/
theorem voting_succ (hall : R.AllVoting round) (hround : round < R.threshold) :
    ((∃ st, (R.voting (round + 1) p).1 = .ok st ∧ R.VotingInvariant (round + 1) p st) ∧
      (R.voting (round + 1) p).2 ≠ none) ∧
      ∀ k, R.votes (round + 1) k p → R.threshold + (round + 1) ≤
        R.honestVotes k (round + 1) + R.corruptVotes p k (round + 1) := by
  obtain ⟨⟨st, hrun, hst⟩, -⟩ := hall p hp
  obtain ⟨cast, W, hfold, hW⟩ := exists_castsVotes hp hsenders hst
  have hvoting : R.voting (round + 1) p = (.ok { st with
      registeredVotes := cast.registeredVotes, casted := cast.casted,
      nonAnsweringParties := (R.received round p st).2 },
      some (castThresholdVote (R.order p (round + 1)) cast.roundRegisteredVotes
        (R.threshold + (round + 1)))) := by
    have hgather := gatherVotesRound_eq (R := R) round p st
    rw [if_neg (by omega), hfold] at hgather
    rw [voting, hrun]
    simp only [hgather]
    rfl
  have hvotes : ∀ k, R.votes (round + 1) k p ↔ k ∈ W.map (fun e => e.1) := by
    intro k
    rw [votes, hvoting]
    exact supports_roundVote rfl hW _ k
  refine ⟨⟨⟨_, by rw [hvoting], ?_⟩, by rw [hvoting]; simp⟩, ?_⟩
  · refine ⟨hst.listens.succ hp (fun q hq => (hall q hq).2), ?_, ?_, ?_, hst.values, hst.bcastData⟩
    · intro k
      have htally := hW.registeredVotes k
      rw [htally, tally_received hp hst]
      by_cases hk : k ∈ W.map (fun e => e.1)
      · rw [if_pos hk, (hvotes k).mpr hk, Bool.toNat_true]
        omega
      · rw [if_neg hk, Bool.eq_false_iff.mpr (fun hv => hk ((hvotes k).mp hv)), Bool.toNat_false]
        omega
    · intro role
      rw [hW.casted]
      split_ifs with hrole
      · obtain ⟨e, he, rfl⟩ := List.mem_map.mp hrole
        have hfalse : st.casted.lookup e.1.1 = some false := hW.not_casted e he
        have hsender := (hst.casted_none e.1.1).not.mp (by rw [hfalse]; simp)
        simp [not_not.mp hsender]
      · exact hst.casted_none role
    · intro role h h' hne
      exact votesCast_succ_le hst hW hvotes role hne
  · intro k hk
    obtain ⟨e, he, rfl⟩ := List.mem_map.mp ((hvotes k).mp hk)
    rw [← tally_received hp hst]
    exact (hW.needed_le e he).trans (hW.tally_eq e he).ge

end Senders

/-- The votes that a party has counted at the end. -/
def finalVotes (R : BroadcastRun P H) (p : Role) (k : Role × H) : ℕ :=
  R.honestVotes k (R.threshold + 1) + R.corruptVotes p k (R.threshold + 1)

theorem finalVotes_of_mem_iter (hst : R.VotingInvariant R.threshold p st) {e : (_ : Role × H) × ℕ}
    (he : e ∈ (R.order p (R.threshold + 1)).iter (R.received R.threshold p st).1) :
    R.finalVotes p e.1 = e.2 := by
  have hentry := ((R.order p (R.threshold + 1)).perm _).mem_iff.mp he
  rw [← tally_of_mem_entries hentry, tally_received hp hst]
  rfl

theorem mem_iter_of_finalVotes_pos (hst : R.VotingInvariant R.threshold p st) {k : Role × H}
    (hk : 0 < R.finalVotes p k) :
    ⟨k, R.finalVotes p k⟩ ∈ (R.order p (R.threshold + 1)).iter (R.received R.threshold p st).1 := by
  have hpos : 0 < tally (R.received R.threshold p st).1 k := by
    rw [tally_received hp hst]
    exact hk
  have hentry := mem_entries_of_tally_pos hpos
  rw [tally_received hp hst] at hentry
  exact ((R.order p (R.threshold + 1)).perm _).mem_iff.mpr hentry

/-- The party returns the value of each key that alone has enough votes for its sender, and what it
starts with for the senders without such a key. -/
def ReturnsVoted (R : BroadcastRun P H) (p : Role) : Prop :=
  ∃ result, R.execute p = .ok result ∧
    (∀ k : Role × H, R.numParties - R.threshold ≤ R.finalVotes p k →
      (∀ h, R.numParties - R.threshold ≤ R.finalVotes p (k.1, h) → h = k.2) →
      result.lookup k.1 = (R.registered p).2.lookup k) ∧
    ∀ role, (∀ h, R.finalVotes p (role, h) < R.numParties - R.threshold) →
      result.lookup role = (R.initialData p).lookup role

theorem returnsVoted_of_values (hR : R.Admissible) (hall : R.AllVoting R.threshold)
    (hvalues : ∀ k : Role × H, R.numParties - R.threshold ≤ R.finalVotes p k →
      (R.registered p).2.lookup k ≠ none) : R.ReturnsVoted p := by
  have hlt := hR.threshold_lt
  obtain ⟨⟨st, hrun, hst⟩, -⟩ := hall p hp
  have hnodup : (((R.order p (R.threshold + 1)).iter (R.received R.threshold p st).1).map
      (fun e => e.1)).Nodup :=
    (((R.order p (R.threshold + 1)).perm _).map _).nodup_iff.mpr
      (R.received R.threshold p st).1.nodupKeys
  have hsome : ∀ e ∈ (R.order p (R.threshold + 1)).iter (R.received R.threshold p st).1,
      R.numParties - R.threshold ≤ e.2 → st.mapHashToValue.lookup e.1 ≠ none := by
    intro e he hmin
    rw [← finalVotes_of_mem_iter hp hst he] at hmin
    rw [hst.values]
    exact hvalues e.1 hmin
  obtain ⟨result, hfold, hresult, hrest⟩ := foldlM_collectVote st.bcastData hnodup hsome
  refine ⟨result.2, ?_, ?_, ?_⟩
  · rw [execute, voting_last hrun, Outcome.ok_bind]
    rw [hfold]
    rfl
  · intro k hk hunique
    rw [← hst.values]
    refine hresult ⟨k, _⟩ (mem_iter_of_finalVotes_pos hp hst (by omega)) hk ?_
    intro e he hmin hrole
    refine Prod.ext hrole (hunique e.1.2 ?_)
    have hkey : (k.1, e.1.2) = e.1 := Prod.ext hrole.symm rfl
    rw [hkey, finalVotes_of_mem_iter hp hst he]
    exact hmin
  · intro role hrole
    rw [hrest role, hst.bcastData]
    intro e he hmin hrole'
    have hlt' := hrole e.1.2
    rw [← hrole', finalVotes_of_mem_iter hp hst he] at hlt'
    omega

end Honest

end BroadcastRun

end ThresholdKms
