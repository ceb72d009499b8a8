import ThresholdKms.ContradictedDealings

/-!
# Agreement on the verification of local sharings

Whatever the corrupt parties broadcast, as long as the disagreements are orderly, the honest parties
agree on the result of the verification. Two corrupt dealers, of which one exceeds the threshold and
the other reaches it, can divide the honest parties by the order in which these find the disputes.
-/

open Polynomial

namespace ThresholdKms

open GaloisRing LargeSession Lockstep Tally

section Agreement

variable {e : ExtensionDegree} {F : Type} [Field F] [DecidableEq F] [G2p e F]

/-- The honest parties end with the same result, corrupt parties and disputes, whatever the order in
which they iterate. -/
theorem verifySharing_agreement (z : BaseRing) (store : LagrangeStore F) (kind : LocalShare)
    {honest : Finset Role} {n t l : ℕ} (hhonest : HonestMajority honest n t) (hn : n < 2 ^ e.deg)
    {corrupt : Finset Role} {disputes : DisputeSet} (hstate : DisputeState honest n corrupt disputes)
    {challenges : ℕ → Role → List (GaloisRing z.bits e)}
    (hchallenges : ∀ g, ∀ role ∈ partyRoles n, (challenges g role).length = l)
    {dealing : ℕ → Role → Dealing z.bits e} {layers : Role → List (Layer (GaloisRing z.bits e))}
    (hshares : HonestShares honest n t l disputes kind dealing layers)
    {order : Role → ℕ → ℕ → List Role}
    (horder : ∀ p ∈ honest, ∀ g i, (order p g i).Perm (partyRoles n))
    {rounds : ℕ → Role → BroadcastValue (LargeValue (GaloisRing z.bits e))}
    (hdelivered : Delivered (· ∈ honest) (fun p => verifySharing store kind l challenges (order p)
      ⟨⟨p, n, t, corrupt⟩, disputes⟩ (layers p)) rounds)
    (horderly : ∀ k, OrderlyRound corrupt n t disputes kind (rounds k)) :
    ∃ (corrupt' : Finset Role) (disputes' : DisputeSet) (ok : Bool)
      (layers' : Role → List (Layer (GaloisRing z.bits e))),
      (∀ p ∈ honest, (verifySharing store kind l challenges (order p)
        ⟨⟨p, n, t, corrupt⟩, disputes⟩ (layers p)).run rounds =
          .ok ⟨⟨⟨p, n, t, corrupt'⟩, disputes'⟩, layers' p, ok⟩) ∧
      (∀ p ∈ honest, p ∉ corrupt') ∧ ∀ p ∈ honest, ∀ q ∈ honest, q ∉ disputes'.get p := by
  have hensures : EnsuresWhen (· ∈ honest) (OrderlyRound corrupt n t disputes kind)
      (InStep honest corrupt n t l disputes kind dealing) (fun p => verifySharing store kind l
        challenges (order p) ⟨⟨p, n, t, corrupt⟩, disputes⟩ (layers p)) := by
    refine EnsuresWhen.foldlM (fun g hg state hin => ?_) (Or.inl ⟨layers, hshares, fun _ _ => rfl⟩)
    rcases hin with ⟨layers', hshares', heq⟩ | ⟨done, found, hfindings, hfailed⟩
    · refine (verifyRepetition_ensures hhonest hstate z.bits_pos hn store hchallenges horder hshares'
        (List.mem_range.mp hg)).congr (fun p hp => ?_)
      rw [heq p hp]
      rfl
    · refine .done state (fun p hp => ?_) (Or.inr ⟨done, found, hfindings, hfailed⟩)
      rw [(hfailed p hp).1]
      rfl
  obtain ⟨state, hrun, hin⟩ := hensures.run horderly hdelivered
  rcases hin with ⟨layers', -, heq⟩ | ⟨done, found, hfindings, hfailed⟩
  · exact ⟨corrupt, disputes, true, layers', fun p hp => (hrun p hp).trans (by rw [heq p hp]),
      fun p hp hmem => (mem_otherRoles.mp (hstate.subset hmem)).2 hp, hstate.apart⟩
  · obtain ⟨p₀, hp₀⟩ := hhonest.nonempty
    refine ⟨corrupt ∪ found, (state p₀).session.disputedRoles, false, fun p => (state p).layers,
      fun p hp => ?_, fun p hp hmem => ?_, fun p hp q hq hmem => ?_⟩
    · obtain ⟨hok, hrec⟩ := hfailed p hp
      have hbase : SessionAt (state p).session.baseSession p n t (corrupt ∪ found) :=
        ⟨hrec.sessionAt.myRole_eq, hrec.sessionAt.numParties_eq, hrec.sessionAt.threshold_eq,
          hrec.sessionAt.corruptRoles_eq⟩
      have hdisputes := hrec.disputedRoles_eq (hfailed p₀ hp₀).2
      have hsession : (state p).session =
          ⟨⟨p, n, t, corrupt ∪ found⟩, (state p₀).session.disputedRoles⟩ :=
        LargeSession.ext hbase.eq hdisputes
      rw [hrun p hp, ← hsession, ← hok]
    · rcases Finset.mem_union.mp hmem with hmem | hmem
      · exact (mem_otherRoles.mp (hstate.subset hmem)).2 hp
      · exact (mem_otherRoles.mp (hfindings.subset hmem)).2 hp
    · rcases ((hfailed p₀ hp₀).2.disputed p q).mp hmem with hdis | hdis | ⟨-, -, -, hdis | hdis⟩
      · exact hstate.apart p hp q hq hdis
      · exact hfindings.apart p hp q hq hdis
      · exact (mem_otherRoles.mp (hfindings.subset hdis)).2 hp
      · exact (mem_otherRoles.mp (hfindings.subset hdis)).2 hq

end Agreement

section Contradictions

variable {w : ℕ} {e : ExtensionDegree} {honest : Finset Role} {n t : ℕ}
  {wrong : Finset (Role × Role)}

/-- A dealing of zeros. -/
noncomputable def zeroDealing (w : ℕ) (e : ExtensionDegree) : Dealing w e :=
  ⟨[0], List.replicate (repetitions e) 0⟩

theorem eq_zero_of_mem_zeroDealing {f : (GaloisRing w e)[X]}
    (hf : f ∈ (zeroDealing w e).secrets ++ (zeroDealing w e).pads) : f = 0 := by
  rcases List.mem_append.mp hf with hf | hf
  · exact List.mem_singleton.mp hf
  · exact (List.mem_replicate.mp hf).2

theorem zeroDealing_valid (degree : ℕ) (disputes : Finset Role) :
    (zeroDealing w e).Valid degree 1 disputes where
  length_secrets := rfl
  length_pads := List.length_replicate
  natDegree_le := fun f hf => by simp [eq_zero_of_mem_zeroDealing hf]
  disputed := fun f hf role _ => by simp [eq_zero_of_mem_zeroDealing hf]

/-- Honest parties that do not contradict each other have honest shares. -/
theorem honestShares_contradictedLayer (hhonest : ∀ p ∈ honest, p ∈ partyRoles n)
    (hwrong : ∀ p ∈ honest, ∀ q ∈ honest, (p, q) ∉ wrong) :
    HonestShares honest n t 1 .new .single (fun _ _ => zeroDealing w e)
      (fun p => [contradictedLayer n wrong p]) where
  valid := fun _ _ _ degree _ => zeroDealing_valid degree _
  sameSecrets := fun _ _ _ _ => ⟨rfl, rfl⟩
  length_layers := fun _ _ => rfl
  holds := by
    intro p hp i layer hlayer
    obtain rfl : contradictedLayer n wrong p = layer := by
      cases i with
      | zero => exact Option.some.inj hlayer
      | succ i => cases hlayer
    have hzero : ∀ x : GaloisRing w e, (zeroDealing w e).pads.map (eval x) =
        List.replicate (repetitions e) 0 := fun x => by simp [zeroDealing]
    have hpads : ∀ role, (contradictedLayer n wrong p).pads.allShares.lookup role =
        if role ∈ partyRoles n then
          some (List.replicate (repetitions e) (contradictedPad wrong p role : GaloisRing w e))
        else none := lookup_collect_map _ _
    refine ⟨fun role hrole => ?_, fun role => ?_, fun role hrole => ⟨[0], lookup_zeros hrole, rfl⟩,
      fun role => ?_, fun role pads hlookup => ?_, fun q hq => ?_, fun q hq => ?_⟩
    · exact (lookup_zeros hrole).trans (by simp [zeroDealing])
    · rw [hzero]
      exact lookup_collect_map _ (fun _ => List.replicate (repetitions e) (0 : GaloisRing w e)) role
    · rw [← AList.lookup_isSome, hpads]
      by_cases hrole : role ∈ partyRoles n
      · simp [hrole]
      · simp [hrole]
    · rw [hpads] at hlookup
      split_ifs at hlookup
      cases hlookup
      exact List.length_replicate.ge
    · exact (lookup_zeros (hhonest q hq)).trans (by simp [zeroDealing])
    · rw [hzero, hpads, if_pos (hhonest q hq), contradictedPad, if_neg (hwrong p hp q hq)]

/-- The search for disputes among the contradictions. -/
def recordContradictions (n : ℕ) (wrong : Finset (Role × Role)) (order : List Role)
    (state : LargeSession × Bool) : LargeSession × Bool :=
  order.foldl (fun state s =>
    if s ∈ corruptRoles state.1 then state
    else (partyRoles n).foldl (fun state' r =>
      if (r ∉ corruptRoles state'.1 ∧ r ∉ state.1.disputedRoles.get s) ∧ (r, s) ∈ wrong then
        (state'.1.addDispute r s, false)
      else state') state) state

variable (wrong) in
theorem lookForDisputes_contradictedRound (hone : (1 : GaloisRing w e) ≠ 0) {order : List Role}
    (horder : ∀ s ∈ order, s ∈ partyRoles n) (session : LargeSession) :
    lookForDisputes order (contradictedData w e n wrong) session =
      .ok (recordContradictions n wrong order (session, true)) := by
  have hdata : ∀ role, contradictedData w e n wrong role =
      some (contradictedMaps n wrong role) := fun _ => rfl
  have hcheck : ∀ s ∈ partyRoles n, ∀ r ∈ partyRoles n, ∀ known state,
      compareChecks (contradictedData w e n wrong) s
        (contradictedMaps n wrong s).checksForMine known state r =
      .ok (if (r ∉ corruptRoles state.1 ∧ r ∉ known) ∧ (r, s) ∈ wrong then
        (state.1.addDispute r s, false) else state) := by
    intro s hs r hr known state
    have hdis := disagree_contradictedRound wrong hr hs hone
    unfold Disagree at hdis
    rw [hdata, hdata, Option.bind_some, Option.bind_some] at hdis
    unfold compareChecks
    simp only [hdata]
    by_cases hvoice : r ∉ corruptRoles state.1 ∧ r ∉ known
    · by_cases hmem : (r, s) ∈ wrong
      · rw [if_pos hvoice, if_neg (hdis.mpr hmem), if_pos ⟨hvoice, hmem⟩]
      · rw [if_pos hvoice, if_pos (not_not.mp (fun h => hmem (hdis.mp h))),
          if_neg (fun h => hmem h.2)]
    · rw [if_neg hvoice, if_neg (fun h => hvoice h.1)]
  have hsender : ∀ s ∈ partyRoles n, ∀ (state : LargeSession × Bool),
      compareSender (contradictedData w e n wrong) state s =
      .ok (if s ∈ corruptRoles state.1 then state
        else (partyRoles n).foldl (fun state' r =>
          if (r ∉ corruptRoles state'.1 ∧ r ∉ state.1.disputedRoles.get s) ∧ (r, s) ∈ wrong then
            (state'.1.addDispute r s, false)
          else state') state) := by
    intro s hs state
    have hkeys : (contradictedMaps n wrong s : MapsSharesChallenges (GaloisRing w
        e)).checksForMine.keys.sort = partyRoles n := by
      rw [show (contradictedMaps n wrong s : MapsSharesChallenges (GaloisRing w
        e)).checksForMine.keys = (partyRoles n).toFinset from keys_mapOf n _, sort_toFinset_partyRoles]
    unfold compareSender
    simp only [hdata, hkeys]
    split_ifs
    · rfl
    · exact Outcome.foldlM_pure _ (fun state' r hr => hcheck s hs r hr _ state') state
  exact Outcome.foldlM_pure _ (fun state s hs => hsender s (horder s hs) state) (session, true)

variable {F : Type} [Field F] [DecidableEq F] [G2p e F]

section Runs

variable (store : LagrangeStore F) (order : Role → ℕ → ℕ → List Role)

variable (w e n t wrong) in
/-- The verification at a party of the contradicted dealings of zeros. -/
abbrev contradictedRun (p : Role) : LargeProg (GaloisRing w e) (VerifyState w e) :=
  verifySharing store .single 1 (fun _ _ => [0]) (order p) ⟨⟨p, n, t, ∅⟩, .new⟩
    [contradictedLayer n wrong p]

variable (n t wrong) in
/-- What the party records in its first search. -/
abbrev recordedBy (p : Role) : LargeSession × Bool :=
  recordContradictions n wrong (order p 0 0) (⟨⟨p, n, t, ∅⟩, .new⟩, true)

variable (honest wrong) in
theorem delivered_contradictedRound (hw : 0 < w) (hn : n < 2 ^ e.deg) (ht : t < n)
    (hone : (1 : GaloisRing w e) ≠ 0) (hhonest : ∀ p ∈ honest, p ∈ partyRoles n)
    (horder : ∀ p ∈ honest, ∀ s ∈ order p 0 0, s ∈ partyRoles n)
    (hfails : ∀ p ∈ honest, (recordedBy n t wrong order p).2 = false) :
    Delivered (· ∈ honest) (contradictedRun w e n t wrong store order)
        (fun _ => contradictedRound n wrong) ∧
      ∀ p ∈ honest, ∃ layers', (contradictedRun w e n t wrong store order p).run
        (fun _ => contradictedRound n wrong) =
          .ok ⟨(recordedBy n t wrong order p).1, layers', false⟩ := by
  have hchallenges : ∀ (g : ℕ), ∀ role ∈ partyRoles n,
      ((fun _ _ => [0] : ℕ → Role → List (GaloisRing w e)) g role).length = 1 := fun _ _ _ => rfl
  have hend : ∀ p ∈ honest, ∃ next layers', contradictedRun w e n t wrong store order p =
        .send (contradictedRound n wrong p) next ∧
      next (contradictedRound n wrong) =
        .done ⟨(recordedBy n t wrong order p).1, layers', false⟩ := by
    intro p hp
    have hlook := lookForDisputes_contradictedRound wrong hone (horder p hp)
      ⟨⟨p, n, t, ∅⟩, .new⟩
    rw [← Prod.eta (recordContradictions _ _ _ _), hfails p hp] at hlook
    exact verifySharing_contradictedRound hw hn store ht (hhonest p hp) hchallenges (order p) hlook
  constructor
  · intro p hp k msg hsent
    obtain ⟨next, layers', hprog, hnext⟩ := hend p hp
    exact ((Prog.run_of_send hprog hnext).2 k msg hsent).2.symm
  · intro p hp
    obtain ⟨next, layers', hprog, hnext⟩ := hend p hp
    exact ⟨layers', (Prog.run_of_send hprog hnext).1⟩

end Runs

end Contradictions

theorem disputeState_new (honest : Finset Role) (n : ℕ) : DisputeState honest n ∅ .new where
  subset := Finset.empty_subset _
  closed := by simp
  apart := fun _ _ q _ => Finset.notMem_empty q
  roles := fun _ => Finset.empty_subset _

/-- The third of four parties contradicts the fourth, which is corrupt. -/
theorem verifySharing_agreement_four_parties :
    ∃ (corrupt' : Finset Role) (disputes' : DisputeSet) (ok : Bool)
      (layers' : Role → List (Layer (GaloisRing BaseRing.z64.bits .three))),
      (∀ p ∈ ({1, 2, 3} : Finset Role), (verifySharing (F := GF8) LagrangeStore.empty .single 1
        (fun _ _ => [0]) (fun _ _ => partyRoles 4) ⟨⟨p, 4, 1, ∅⟩, .new⟩
        [contradictedLayer 4 {(3, 4)} p]).run (fun _ => contradictedRound 4 {(3, 4)}) =
          .ok ⟨⟨⟨p, 4, 1, corrupt'⟩, disputes'⟩, layers' p, ok⟩) ∧
      (∀ p ∈ ({1, 2, 3} : Finset Role), p ∉ corrupt') ∧
      ∀ p ∈ ({1, 2, 3} : Finset Role), ∀ q ∈ ({1, 2, 3} : Finset Role), q ∉ disputes'.get p := by
  have hhonest : HonestMajority {1, 2, 3} 4 1 := ⟨by decide, by decide, by decide⟩
  obtain ⟨hdelivered, -⟩ := delivered_contradictedRound (F := GF8) (e := .three)
    {1, 2, 3} {(3, 4)} (n := 4) (t := 1) LagrangeStore.empty (fun _ _ _ => partyRoles 4)
    BaseRing.z64.bits_pos (by decide) (by decide) (by decide) hhonest.mem_roles
    (fun _ _ _ hs => hs) (by decide +kernel)
  refine verifySharing_agreement .z64 LagrangeStore.empty .single hhonest (by decide)
    (disputeState_new _ 4) (fun _ _ _ => rfl)
    (honestShares_contradictedLayer hhonest.mem_roles (by decide))
    (fun _ _ _ _ => List.Perm.refl _) hdelivered (fun _ i hi => ?_)
  obtain rfl : i = 0 := Nat.lt_one_iff.mp hi
  have hvisible : visible ∅ (contradictedRound 4 {(3, 4)} :
      Role → BroadcastValue (LargeValue (GaloisRing BaseRing.z64.bits .three))) =
      contradictedRound 4 {(3, 4)} :=
    funext (fun _ => if_neg (Finset.notMem_empty _))
  rw [hvisible, accusations_contradictedRound (by decide) (by decide)]
  exact orderly_third_fourth

/-- The corrupt dealers are the sixth and seventh of seven parties; the first three parties contradict
one of them, and the first two also the other. -/
def twoDealers : Finset (Role × Role) := {(1, 6), (2, 6), (3, 6), (1, 7), (2, 7)}

/-- The second party finds the disputes of the sixth party first. -/
def dividingOrder (p : Role) (_ _ : ℕ) : List Role :=
  if p = 2 then [6, 7, 1, 2, 3, 4, 5] else [7, 6, 1, 2, 3, 4, 5]

/-- The first party ends with one corrupt party, the second with two. -/
theorem verifySharing_divided :
    HonestMajority {1, 2, 3, 4, 5} 7 2 ∧ DisputeState {1, 2, 3, 4, 5} 7 ∅ .new ∧
    HonestShares {1, 2, 3, 4, 5} 7 2 1 .new .single
      (fun _ _ => zeroDealing BaseRing.z64.bits .three)
      (fun p => [contradictedLayer 7 twoDealers p]) ∧
    (∀ p g i, (dividingOrder p g i).Perm (partyRoles 7)) ∧
    Delivered (· ∈ ({1, 2, 3, 4, 5} : Finset Role)) (fun p => (verifySharing (F := GF8)
      LagrangeStore.empty .single 1 (fun _ _ => [0]) (dividingOrder p) ⟨⟨p, 7, 2, ∅⟩, .new⟩
      [contradictedLayer 7 twoDealers p] : LargeProg (GaloisRing BaseRing.z64.bits .three) _))
      (fun _ => contradictedRound 7 twoDealers) ∧
    ∃ state state', (verifySharing (F := GF8) LagrangeStore.empty .single 1 (fun _ _ => [0])
        (dividingOrder 1) ⟨⟨1, 7, 2, ∅⟩, .new⟩ [contradictedLayer 7 twoDealers 1] :
        LargeProg (GaloisRing BaseRing.z64.bits .three) _).run
        (fun _ => contradictedRound 7 twoDealers) = .ok state ∧
      (verifySharing (F := GF8) LagrangeStore.empty .single 1 (fun _ _ => [0])
        (dividingOrder 2) ⟨⟨2, 7, 2, ∅⟩, .new⟩ [contradictedLayer 7 twoDealers 2] :
        LargeProg (GaloisRing BaseRing.z64.bits .three) _).run
        (fun _ => contradictedRound 7 twoDealers) = .ok state' ∧
      corruptRoles state.session = {6} ∧ corruptRoles state'.session = {6, 7} := by
  have hhonest : HonestMajority {1, 2, 3, 4, 5} 7 2 := ⟨by decide, by decide, by decide⟩
  have hperm : ∀ p g i, (dividingOrder p g i).Perm (partyRoles 7) := by
    intro p g i
    unfold dividingOrder
    split_ifs
    · decide
    · decide
  obtain ⟨hdelivered, hrun⟩ := delivered_contradictedRound (F := GF8) (e := .three)
    {1, 2, 3, 4, 5} twoDealers (n := 7) (t := 2) LagrangeStore.empty dividingOrder
    BaseRing.z64.bits_pos (by decide) (by decide) (by decide) hhonest.mem_roles
    (fun p _ s hs => (hperm p 0 0).subset hs) (by decide +kernel)
  obtain ⟨layers₁, hrun₁⟩ := hrun 1 (by decide)
  obtain ⟨layers₂, hrun₂⟩ := hrun 2 (by decide)
  have hfirst : corruptRoles (recordContradictions 7 twoDealers (dividingOrder 1 0 0)
      (⟨⟨1, 7, 2, ∅⟩, .new⟩, true)).1 = {6} := by decide +kernel
  have hsecond : corruptRoles (recordContradictions 7 twoDealers (dividingOrder 2 0 0)
      (⟨⟨2, 7, 2, ∅⟩, .new⟩, true)).1 = {6, 7} := by decide +kernel
  exact ⟨hhonest, disputeState_new _ 7, honestShares_contradictedLayer hhonest.mem_roles (by decide),
    hperm, hdelivered, _, _, hrun₁, hrun₂, hfirst, hsecond⟩

end ThresholdKms
