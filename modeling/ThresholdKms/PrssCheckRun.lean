import ThresholdKms.PrssSharing
import ThresholdKms.PrssTally

/-!
# Shares recomputed by a check

From the true values of all sets everybody computes the shares of all parties, and these are the
shares that the generators return at the counter.
-/

open Polynomial

namespace ThresholdKms

open Outcome

open GaloisRing

variable {z : BaseRing} {e : ExtensionDegree}

section Keys

variable (keys : PrssKeys) (mode : ComputeShareMode)

/-- The values of a set that a check votes on. -/
def modeValues (t ctr : ℕ) (set : List Role) :
    List (GaloisRing z.bits e) :=
  match mode with
  | .prss => [psiOf keys ctr set]
  | .przs => List.ofFn (fun j : Fin t => chiOf keys ctr (j + 1) set)

/-- What a set contributes to the sharing. -/
noncomputable def modePoly (t ctr : ℕ) (set : List Role) :
    (GaloisRing z.bits e)[X] :=
  match mode with
  | .prss => C (psiOf keys ctr set)
  | .przs => chiPoly keys t ctr set

noncomputable def modeSharing (n t ctr : ℕ) : (GaloisRing z.bits e)[X] :=
  setSharing n t (modePoly keys mode t ctr)

/-- The powers of the points, which only sharings of zero need. -/
def modeAlphas (n t : ℕ) : List (List (GaloisRing z.bits e)) :=
  match mode with
  | .prss => []
  | .przs => List.ofFn (fun i : Fin n => computePowers (partyPoint i) t)

variable {n t : ℕ} (ctr : ℕ)

theorem addSetShare_eq (i : Fin n) (fA curS : GaloisRing z.bits e) (set : List Role) :
    addSetShare mode t (modeAlphas mode n t) (i + 1) fA curS (modeValues keys mode t ctr set) =
      .ok (curS + (modePoly keys mode t ctr set).eval (partyPoint i) * fA) := by
  cases mode with
  | prss =>
    have hadd : addSetShare .prss t (modeAlphas .prss n t) (i + 1) fA curS
        [psiOf keys ctr set] = .ok (curS + fA * psiOf keys ctr set) := rfl
    rw [modeValues, modePoly, eval_C, hadd, mul_comm]
  | przs =>
    have hindex : indexByRole (List.ofFn (fun i : Fin n =>
        computePowers (partyPoint i : GaloisRing z.bits e) t)) ((i : ℕ) + 1) =
        .ok (computePowers (partyPoint i) t) := indexByRole_ofFn _ i
    simp only [modeValues, modePoly, modeAlphas, addSetShare, List.length_ofFn, ne_eq,
      not_true_eq_false, if_false, hindex, ok_bind]
    refine (foldlM_sum id (f := fun v : GaloisRing z.bits e × ℕ =>
      fA * partyPoint i ^ (v.2 + 1) * v.1) ?_ curS).trans ?_
    · rintro ⟨value, idx⟩ hmem acc
      have hidx : idx < t := by
        have := List.snd_lt_of_mem_zipIdx hmem
        simpa using this
      have halpha : indexVec (computePowers (partyPoint i : GaloisRing z.bits e) t) (idx + 1) =
          .ok (partyPoint i ^ (idx + 1)) := by
        rw [indexVec, computePowers_eq, List.getElem?_map, List.getElem?_range (by omega)]
        rfl
      simp only [halpha, ok_bind]
      rfl
    · rw [zipIdx_ofFn, List.map_ofFn, List.sum_ofFn, chiPoly, eval_finsetSum, Finset.sum_mul]
      refine congrArg (fun x => Except.ok (curS + x)) (Finset.sum_congr rfl fun j _ => ?_)
      rw [Function.comp_apply, eval_mul, eval_C, eval_pow, eval_X]
      ring

section Shares

variable {vals : HashMap (List Role) (List (GaloisRing z.bits e))}
  (hvals : ∀ set ∈ allSets n t, vals.lookup set = some (modeValues keys mode t ctr set))
include hvals

theorem partyShare_eq (i : Fin n) :
    partyShare mode t (allSets n t)
        ((allSets n t).map
          (fun s => List.ofFn (fun i : Fin n => setPoint s i)))
        (modeAlphas mode n t) vals (i + 1) =
      .ok ((modeSharing keys mode n t ctr).eval (partyPoint i)) := by
  rw [modeSharing, eval_setSharing, partySets]
  refine (foldlM_sum id (f := fun v : List Role × ℕ => if (i : ℕ) + 1 ∈ v.1 then
    (modePoly keys mode t ctr v.1).eval (partyPoint i) * setPoint v.1 i else 0) ?_ 0).trans ?_
  · rintro ⟨set, idx⟩ hmem acc
    have hget := List.mk_mem_zipIdx_iff_getElem?.mp hmem
    simp only []
    split_ifs with hrole
    · have hpoints : indexVec ((allSets n t).map
          (fun s => List.ofFn (fun i : Fin n => (setPoint s i : GaloisRing z.bits e)))) idx =
          .ok (List.ofFn (fun i : Fin n => setPoint set i)) := by
        rw [indexVec, List.getElem?_map, hget]
        rfl
      have hpoint : indexByRole (List.ofFn (fun i : Fin n =>
          (setPoint set i : GaloisRing z.bits e))) ((i : ℕ) + 1) = .ok (setPoint set i) :=
        indexByRole_ofFn _ i
      rw [hpoints, ok_bind, hpoint, hvals set (List.mem_of_getElem? hget)]
      exact addSetShare_eq keys mode ctr i _ _ set
    · rw [add_zero]
  · refine congrArg (fun x => Except.ok x) ?_
    have hfst : (allSets n t).zipIdx.map (fun v => if (i : ℕ) + 1 ∈ v.1 then
        (modePoly keys mode t ctr v.1).eval (partyPoint i) *
          (setPoint v.1 i : GaloisRing z.bits e) else 0) =
        (allSets n t).map (fun s => if (i : ℕ) + 1 ∈ s then
          (modePoly keys mode t ctr s).eval (partyPoint i) * setPoint s i else 0) := by
      conv_rhs => rw [← List.zipIdx_map_fst 0 (allSets n t), List.map_map]
      rfl
    rw [hfst, List.sum_map_ite]
    simp

theorem computePartyShares_eq (F : Type) [Field F] [DecidableEq F] [G2p e F] (hn : n < 2 ^ e.deg)
    (ht : t ≤ n) :
    ∃ shares, computePartyShares F vals (partyRoles n) t mode = .ok shares ∧ ∀ r ∈ partyRoles n,
        shares.lookup r = some ((modeSharing keys mode n t ctr).eval (fromByte r)) := by
  have hshares : (partyRoles n).mapM (fun curRole => do
      let share ← partyShare mode t (allSets n t)
        ((allSets n t).map
          (fun s => List.ofFn (fun i : Fin n => setPoint s i))) (modeAlphas mode n t) vals curRole
      return (curRole, share)) =
      .ok ((partyRoles n).map (fun r => (r, (modeSharing keys mode n t ctr).eval (fromByte r)))) := by
    apply mapM_eq_ok
    intro r hr
    obtain ⟨i, rfl⟩ := List.mem_ofFn.mp hr
    rw [partyShare_eq keys mode ctr hvals i]
    rfl
  refine ⟨Tally.collect ((partyRoles n).map
    (fun r => (r, (modeSharing keys mode n t ctr).eval (fromByte r)))), ?_, fun r hr => ?_⟩
  · rw [computePartyShares, createSets_eq ht, ok_bind, partyComputeFAPoints_eq F z hn]
    have hcollect := (congrArg (· >>= fun shares => pure (Tally.collect shares)) hshares).trans
      (ok_bind _ _)
    cases mode with
    | prss => exact hcollect
    | przs =>
      simp only [length_partyRoles, embedPartiesAndComputeAlphaPowers_eq hn, ok_bind]
      exact hcollect
  · apply Tally.lookup_insertAll_of_mem
    · rw [List.map_map]
      exact List.mem_map.mpr ⟨r, hr, rfl⟩
    · intro entry hentry hkey
      obtain ⟨r', -, rfl⟩ := List.mem_map.mp hentry
      rw [← hkey]

end Shares

theorem mapM_chi {ctr : ℕ} (hctr : ctr < 2 ^ 104) (set : List Role) :
    (List.range' 1 t).mapM (fun j => chi (keys.prf set).chiAes ctr j) =
      .ok (modeValues keys .przs t ctr set : List (GaloisRing z.bits e)) := by
  rw [range'_one_eq]
  exact mapM_ofFn (fun j => chi_of_lt _ hctr _)

theorem prfVotes_eq {counters : PRSSCounters} {p : Role}
    {value : PrfAes → Outcome (List (GaloisRing z.bits e))}
    {truth : List Role → List (GaloisRing z.bits e)}
    (hvalue : ∀ set, value (keys.prf set) = .ok (truth set)) :
    prfVotes (partyState keys n t counters p) value =
      .ok ((partySets n t p).map (fun set => (set, truth set))) := by
  have hsets : (partyState keys n t counters p : PRSSState z.bits e).prssSetup.sets.map
      (fun set => (set.parties, truth set.parties)) =
      (partySets n t p).map (fun set => (set, truth set)) := List.map_map
  rw [← hsets]
  apply mapM_zipIdx
  intro set idx hget
  have hprf : (partyState keys n t counters p : PRSSState z.bits e).prfs[idx]? =
      some (keys.prf set.parties) := by
    change (partySetup keys n t p : PRSSSetup z.bits e).sets[idx]? = some set at hget
    rw [partySetup, List.getElem?_map, Option.map_eq_some_iff] at hget
    obtain ⟨s, hs, rfl⟩ := hget
    simp only [partyState, partySetup, PRSSSetup.newPrssSessionState, List.map_map,
      List.getElem?_map, hs]
    rfl
  simp only [hprf, hvalue, ok_bind]
  rfl

end Keys

/-!
## Runs of the checks

Whatever the corrupt parties vote for, the honest parties end a check with the same corrupt parties,
none of them honest, and with the shares that the generators return at the counter.
-/

open Lockstep

section Check

variable (F : Type) [Field F] [DecidableEq F] [G2p e F]
  {S : Type} [BaseSessionHandles S] [LawfulSession S] {keys : PrssKeys} {n t ctr : ℕ}
  {honest corrupt : Finset Role} {session : Role → S}

/-- What a check does with the votes that it has received. -/
def settleVotes (mode : ComputeShareMode)
    (broadcastResult : Role → BroadcastValue (SmallValue (GaloisRing z.bits e))) (session : S) :
    Outcome (S × HashMap Role (GaloisRing z.bits e)) := do
  let (truePrfVals, session) ← tallyVotes broadcastResult session
  let shares ← computePartyShares F truePrfVals (sessionRoles session) (threshold session) mode
  return (session, shares)

omit [LawfulSession S] in
theorem checkVotes_eq (mode : ComputeShareMode) (session : S)
    (votes : Outcome (List (List Role × List (GaloisRing z.bits e)))) :
    checkVotes F mode session votes = (do
      let values ← Prog.ofExcept votes
      let (session, broadcastResult) ← broadcastFromAllWithCorruptSetUpdate session
        (SmallValue.prssVotes values)
      Prog.ofExcept (settleVotes F mode broadcastResult session)) := by
  refine bind_congr (fun values => bind_congr (fun received => ?_))
  simp only [settleVotes, tallyVotes, Prog.ofExcept_bind, Prog.bind_assoc]
  rfl

/-- The votes settle to the same corrupt parties for all, and to the shares of the sharing. -/
theorem settleVotes_eq (hhonest : HonestMajority honest n t) (hn : n < 2 ^ e.deg)
    (mode : ComputeShareMode)
    {broadcastResult : Role → BroadcastValue (SmallValue (GaloisRing z.bits e))}
    (hvotes : HonestVotes honest n t (modeValues keys mode t ctr) broadcastResult) :
    ∃ (marked : List Role) (shares : HashMap Role (GaloisRing z.bits e)),
      (∀ r ∈ marked, r ∈ otherRoles honest n) ∧
      (∀ r ∈ partyRoles n,
        shares.lookup r = some ((modeSharing keys mode n t ctr).eval (fromByte r))) ∧
      ∀ s : S, numParties s = n → threshold s = t →
        settleVotes F mode broadcastResult s = .ok (markCorrupt s marked, shares) := by
  have htn : t ≤ n := by have := hhonest.lt; omega
  obtain ⟨vals, marked, hvals, hmarked, htally⟩ := hvotes.tallyVotes_eq hhonest (S := S)
  obtain ⟨shares, hshares, hlookup⟩ := computePartyShares_eq keys mode ctr
    (fun set hset => (hvals set).trans (if_pos hset)) F hn htn
  refine ⟨marked, shares, fun r hr => ?_, hlookup, fun s hs ht => ?_⟩
  · obtain ⟨hrole, hdeviates⟩ := (hmarked r).mp hr
    exact mem_otherRoles.mpr ⟨hrole, fun hr' => hvotes.not_deviates hr' hdeviates⟩
  · rw [settleVotes, htally s hs ht, Outcome.ok_bind]
    simp only [sessionRoles, numParties_markCorrupt, threshold_markCorrupt, hs, ht, hshares]
    rfl

/-- What the honest parties hold after a check. -/
structure Checked (honest : Finset Role) (n t : ℕ) (corrupt : Finset Role) (keys : PrssKeys)
    (mode : ComputeShareMode) (ctr : ℕ) (out : Role → S × HashMap Role (GaloisRing z.bits e)) :
    Prop where
  synced : ∃ corrupt', corrupt ⊆ corrupt' ∧ Synced honest n t corrupt' (fun p => (out p).1)
  shares : ∀ p ∈ honest, ∀ r ∈ partyRoles n,
    (out p).2.lookup r = some ((modeSharing keys mode n t ctr).eval (fromByte r))

section Ensured

variable (hhonest : HonestMajority honest n t) (hn : n < 2 ^ e.deg)
  (hsession : Synced honest n t corrupt session)

include hhonest hn hsession

theorem checkVotes_ensures (mode : ComputeShareMode)
    {votes : Role → Outcome (List (List Role × List (GaloisRing z.bits e)))}
    (hvotes : ∀ p ∈ honest, votes p = .ok (votesWith n t (modeValues keys mode t ctr) p)) :
    Ensures (· ∈ honest) (Checked honest n t corrupt keys mode ctr)
      (fun p => checkVotes F mode (session p) (votes p)) := by
  simp only [checkVotes_eq]
  have hvalues : Ensures (· ∈ honest)
      (fun values => values = votesWith n t (modeValues keys mode t ctr))
      (fun p => (Prog.ofExcept (votes p) : SmallProg (GaloisRing z.bits e) _)) :=
    .ofExcept hvotes rfl
  refine hvalues.bind ?_
  rintro values rfl
  refine hsession.broadcast (fun received hreceived corrupt' session' hle hsession' => ?_)
  have hvisible : HonestVotes honest n t (modeValues keys mode t ctr) (visible corrupt received) := by
    intro p hp
    rw [visible, if_neg (hsession.notMem hp), hreceived p hp]
  obtain ⟨marked, shares, hmarked, hlookup, hsettle⟩ :=
    settleVotes_eq F (S := S) hhonest hn mode hvisible
  refine .done (fun p => (markCorrupt (session' p) marked, shares)) (fun p hp => ?_)
    ⟨⟨_, hle.trans Finset.subset_union_left, hsession'.markCorrupt hmarked⟩, fun p _ => hlookup⟩
  have hat := hsession'.sessionAt p hp
  rw [hsettle (session' p) hat.numParties_eq hat.threshold_eq, Prog.ofExcept_ok]

variable {counters : PRSSCounters}

theorem prssCheck_ensures (hctr : ctr < 2 ^ 112) :
    Ensures (· ∈ honest) (Checked (z := z) (e := e) honest n t corrupt keys .prss ctr)
      (fun p => prssCheck F (partyState keys n t counters p) (session p) ctr) := by
  apply checkVotes_ensures F hhonest hn hsession
  intro p _
  apply prfVotes_eq
  intro set
  rw [psi_of_lt _ hctr]
  rfl

theorem przsCheck_ensures (hctr : ctr < 2 ^ 104) :
    Ensures (· ∈ honest) (Checked (z := z) (e := e) honest n t corrupt keys .przs ctr)
      (fun p => przsCheck F (partyState keys n t counters p) (session p) ctr) := by
  apply checkVotes_ensures F hhonest hn hsession
  intro p hp
  rw [(hsession.sessionAt p hp).threshold_eq]
  apply prfVotes_eq
  intro set
  exact mapM_chi keys hctr set

end Ensured

end Check

end ThresholdKms
