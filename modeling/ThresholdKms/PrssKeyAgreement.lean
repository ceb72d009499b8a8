import ThresholdKms.AgreeRandomAgreement

/-!
# Key agreement of the setup

Any two honest parties that return from the agreement with abort hold the same key for every set
with both of them. Nothing is needed of the commitments for this: a party that opens different
contributions to different members makes them fail in the last round.
-/

namespace ThresholdKms

open Outcome

variable {O C : Type}

section Unpack

variable {α : Type} {variantMatch : AgreeRandomMessage O C → Option (List α)} {typeStr : String}

theorem foldlM_unpack {received : List (Role × AgreeRandomMessage O C)}
    (hnodup : (received.map Prod.fst).Nodup) {vec vec' : Role → List α}
    (h : received.foldlM (fun rcvValues (entry : Role × AgreeRandomMessage O C) =>
      if entry.2.isAgreeRandomValue then
        match variantMatch entry.2 with
        | some value => .ok (Function.update rcvValues entry.1 value)
        | none => Outcome.err s!"Have not received a {typeStr} from role {entry.1}!"
      else
        Outcome.err s!"Have not received an AgreeRandomValue from role {entry.1}!") vec =
      .ok vec') :
    (∀ entry ∈ received, variantMatch entry.2 = some (vec' entry.1)) ∧
      ∀ p, p ∉ received.map Prod.fst → vec' p = vec p := by
  induction received generalizing vec with
  | nil =>
    cases h
    simp
  | cons entry received ih =>
    rw [List.map_cons, List.nodup_cons] at hnodup
    obtain ⟨mid, hmid, hrest⟩ := foldlM_cons_eq_ok.mp h
    obtain ⟨hall, hother⟩ := ih hnodup.2 hrest
    split_ifs at hmid with hvalue
    · cases hmatch : variantMatch entry.2 with
      | none =>
        rw [hmatch] at hmid
        cases hmid
      | some value =>
        simp only [hmatch] at hmid
        cases hmid
        refine ⟨List.forall_mem_cons.mpr ⟨?_, hall⟩, fun p hp => ?_⟩
        · rw [hother _ hnodup.1, Function.update_self, hmatch]
        · rw [List.map_cons, List.mem_cons, not_or] at hp
          rw [hother p hp.2, Function.update_of_ne hp.1]
    · cases hmid

theorem checkAndUnpack_eq_ok {run : AgreeRandomRun O C}
    {sent : Role → Role → AgreeRandomMessage O C} {j : Role} {vec : Role → List α}
    (h : checkAndUnpack variantMatch typeStr (run.received sent j) run.numParties = .ok vec)
    {p : Role} (hp : p ∈ partyRoles run.numParties) (hne : p ≠ j) :
    variantMatch (sent p j) = some (vec p) := by
  rw [checkAndUnpack] at h
  split_ifs at h with hlen
  · cases h
  · have hnodup : ((run.received sent j).map Prod.fst).Nodup := by
      rw [AgreeRandomRun.received, List.map_map]
      exact ((nodup_partyRoles _).filter _).map (fun _ _ h => h)
    have hmem : (p, sent p j) ∈ run.received sent j :=
      List.mem_map.mpr ⟨p, List.mem_filter.mpr ⟨hp, decide_eq_true hne⟩, rfl⟩
    exact (foldlM_unpack hnodup h).1 _ hmem

/-- A party that unpacks a message of an honest one knows that the sender got so far. -/
theorem sendIfOk_match {β : Type} {x : Outcome β} {message : β → AgreeRandomMessage O C}
    {list : List α} (hother : variantMatch .other = none)
    (h : variantMatch (AgreeRandomRun.sendIfOk x message) = some list) :
    ∃ b, x = .ok b ∧ variantMatch (message b) = some list := by
  cases x with
  | ok b => exact ⟨b, rfl, h⟩
  | error e =>
    rw [AgreeRandomRun.sendIfOk, hother] at h
    cases h

end Unpack

namespace AgreeRandomRun

variable (run : AgreeRandomRun O C)

/-- The honest parties among the parties of the run. -/
def honestParties : Finset Role := run.honest ∩ (partyRoles run.numParties).toFinset

/-- The sets of a party, in the order in which they are created. -/
def setsOf (i : Role) : List (List Role) := partySets run.numParties run.threshold i

variable {keys : List PrfKey}

section Agreement

variable {run} (ht : run.threshold < run.numParties) {i j : Role}

include ht

theorem sets_eq (i : Role) : run.sets i = .ok (run.setsOf i) := computePartySets_eq ht.le i

variable {aset : List Role}

omit ht in
theorem nodup_of_mem_setsOf (h : aset ∈ run.setsOf i) : aset.Nodup :=
  (nodup_partyRoles run.numParties).sublist (mem_combinations.mp (List.mem_filter.mp h).1).1

omit ht in
theorem nodup_setsOf (i : Role) : (run.setsOf i).Nodup :=
  (nodup_combinations (nodup_partyRoles _)).filter _

omit ht in
theorem keysOpens_setsOf (i j : Role) : run.keysOpens i (run.setsOf i) j =
    ((run.setsOf j).filter (fun aset => decide (i ∈ aset))).map (run.coins i) := by
  rw [keysOpens, groupByParty_map (fun aset h => nodup_of_mem_setsOf h), setsOf,
    filter_partySets_comm]
  rfl

theorem contents_of_unpack {rcvKeysOpens : Role → List (PrfKey × O)} {rcvComs : Role → List C}
    (h : checkAndUnpack AgreeRandomMessage.matchKeyOpenVal "KeyOpenValue"
      (run.received run.sentKeyOpens j) run.numParties = .ok rcvKeysOpens)
    {p : Role} (hp : p ∈ run.honestParties) :
    OpeningLists.contents j ⟨run.keysOpens j (run.setsOf j), rcvKeysOpens, rcvComs⟩ p =
      ((run.setsOf j).filter (fun aset => decide (p ∈ aset))).map (run.coins p) := by
  rw [OpeningLists.contents]
  rw [honestParties, Finset.mem_inter, List.mem_toFinset] at hp
  split_ifs with hpj
  · subst hpj
    exact keysOpens_setsOf p p
  · have hmatch := checkAndUnpack_eq_ok h hp.2 hpj
    rw [sentKeyOpens, if_pos hp.1] at hmatch
    obtain ⟨state, hstate, hmatch⟩ := sendIfOk_match rfl hmatch
    rw [committed, sets_eq ht, ok_bind] at hstate
    obtain ⟨coms, -, hstate⟩ := bind_eq_ok.mp hstate
    cases hstate
    rw [← keysOpens_setsOf]
    exact (Option.some.inj hmatch).symm

variable [DecidableEq C] {ars : List PrfKey}

theorem passiveExecute_eq_ok (h : run.passiveExecute j = .ok ars) :
    List.Forall₂ (fun aset key => (∀ p ∈ aset, p ∈ run.honestParties) →
      key = xorContributions (fun p => (run.coins p aset).1) aset 0) (run.setsOf j) ars := by
  rw [passiveExecute, committed, sets_eq ht, ok_bind] at h
  obtain ⟨state, hstate, h⟩ := bind_eq_ok.mp h
  obtain ⟨coms, -, hstate⟩ := bind_eq_ok.mp hstate
  cases hstate
  obtain ⟨rcvKeysOpens, hrcv, h⟩ := bind_eq_ok.mp h
  exact verifyAndXorKeys_eq_ok (fun aset h => nodup_of_mem_setsOf h)
    (fun p hp => contents_of_unpack ht hrcv hp) h

omit ht in
/-- The key of a set in a list of keys for the sets of a party. -/
def setKey (run : AgreeRandomRun O C) (i : Role) (keys : List PrfKey) (aset : List Role) :
    Option PrfKey :=
  keys[(run.setsOf i).idxOf aset]?

/-- The key of party `i` for a set after the first two rounds. -/
def passiveKey (run : AgreeRandomRun O C) (i : Role) (aset : List Role) : PrfKey :=
  match run.passiveExecute i with
  | .ok ars => (run.setKey i ars aset).getD 0
  | .error _ => 0

variable (h : run.passiveExecute i = .ok ars)
include h

theorem eq_map_passiveKey :
    ars = (run.setsOf i).map (run.passiveKey i) := by
  have hlen := (passiveExecute_eq_ok ht h).length_eq
  apply List.ext_getElem
  · rw [List.length_map, hlen]
  · intro k hk hk'
    rw [List.length_map] at hk'
    rw [List.getElem_map, passiveKey, h]
    simp only [setKey]
    rw [(nodup_setsOf i).idxOf_getElem k hk', List.getElem?_eq_getElem hk, Option.getD_some]

theorem passiveKey_eq_xor
    (hmem : aset ∈ run.setsOf i) (hhonest : ∀ p ∈ aset, p ∈ run.honestParties) :
    run.passiveKey i aset = xorContributions (fun p => (run.coins p aset).1) aset 0 := by
  have hall := passiveExecute_eq_ok ht h
  rw [eq_map_passiveKey ht h, List.forall₂_map_right_iff, List.forall₂_same] at hall
  exact hall aset hmem hhonest

theorem groupByParty_agreed (j : Role) :
    groupByParty ((run.setsOf i).zip ars) j =
      ((run.setsOf j).filter (fun aset => decide (i ∈ aset))).map (run.passiveKey i) := by
  rw [eq_map_passiveKey ht h, ← List.map_prod_left_eq_zip,
    groupByParty_map (fun aset h => nodup_of_mem_setsOf h), setsOf, filter_partySets_comm]
  rfl

omit h

theorem agreed_eq_ok {state : List (List Role) × List PrfKey} (h : run.agreed i = .ok state) :
    state.1 = run.setsOf i ∧ run.passiveExecute i = .ok state.2 := by
  rw [agreed, sets_eq ht, ok_bind] at h
  obtain ⟨ars, hars, h⟩ := bind_eq_ok.mp h
  cases h
  exact ⟨rfl, hars⟩

/-- A party that returns keeps its keys, and every honest member of its sets has the same ones. -/
theorem execute_eq_ok (h : run.execute j = .ok keys) :
    run.passiveExecute j = .ok keys ∧ ∀ aset ∈ run.setsOf j, ∀ p ∈ aset, p ∈ run.honestParties →
      run.passiveKey p aset = run.passiveKey j aset := by
  obtain ⟨state, hstate, h⟩ := bind_eq_ok.mp h
  obtain ⟨rcvKeys, hrcv, h⟩ := bind_eq_ok.mp h
  obtain ⟨hsets, hars⟩ := agreed_eq_ok ht hstate
  simp only [hsets] at h
  have hlists : ∀ p ∈ run.honestParties, p ≠ j → rcvKeys p =
      ((run.setsOf j).filter (fun aset => decide (p ∈ aset))).map (run.passiveKey p) := by
    intro p hp hne
    rw [honestParties, Finset.mem_inter, List.mem_toFinset] at hp
    have hmatch := checkAndUnpack_eq_ok hrcv hp.2 hne
    rw [sentKeys, if_pos hp.1] at hmatch
    obtain ⟨stateP, hstateP, hmatch⟩ := sendIfOk_match rfl hmatch
    obtain ⟨hsetsP, harsP⟩ := agreed_eq_ok ht hstateP
    rw [← groupByParty_agreed ht harsP, ← hsetsP]
    exact (Option.some.inj hmatch).symm
  obtain ⟨hkeys, hall⟩ := verifyKeysEqual_eq_ok (fun aset h => nodup_of_mem_setsOf h)
    (fun aset h => of_decide_eq_true (List.mem_filter.mp h).2) (groupByParty_agreed ht hars j)
    hlists h
  refine ⟨?_, ?_⟩
  · rw [hars, hkeys, ← eq_map_passiveKey ht hars]
  · intro aset haset p hp hhonest
    by_cases hne : p = j
    · rw [hne]
    · exact hall aset haset p hp hhonest hne

theorem setKey_eq (h : run.passiveExecute i = .ok keys)
    (hmem : aset ∈ run.setsOf i) : run.setKey i keys aset = some (run.passiveKey i aset) := by
  have hlt : (run.setsOf i).idxOf aset < (run.setsOf i).length := List.idxOf_lt_length_iff.mpr hmem
  rw [setKey, eq_map_passiveKey ht h, List.getElem?_map, List.getElem?_eq_getElem hlt,
    List.getElem_idxOf hlt, Option.map_some]

/-- Two honest parties that return hold one key for each set of theirs in the order of creation, the
same for every set with both, and the exclusive or of the contributions if all members are honest. -/
theorem execute_keyAgreement {keysI keysJ : List PrfKey} (hi : i ∈ run.honest)
    (hexecI : run.execute i = .ok keysI) (hexecJ : run.execute j = .ok keysJ) :
    keysI.length = (partySets run.numParties run.threshold i).length ∧
    ∀ aset ∈ combinations (run.numParties - run.threshold) (partyRoles run.numParties),
      i ∈ aset → j ∈ aset →
        ∃ key, run.setKey i keysI aset = some key ∧ run.setKey j keysJ aset = some key ∧
          ((∀ p ∈ aset, p ∈ run.honest) →
            key = xorContributions (fun p => (run.coins p aset).1) aset 0) := by
  obtain ⟨hpassiveI, -⟩ := execute_eq_ok ht hexecI
  obtain ⟨hpassiveJ, hcompare⟩ := execute_eq_ok ht hexecJ
  refine ⟨(passiveExecute_eq_ok ht hpassiveI).length_eq.symm, ?_⟩
  intro aset haset hia hja
  have hroles := (mem_combinations.mp haset).1.subset
  have hmemI : aset ∈ run.setsOf i := List.mem_filter.mpr ⟨haset, decide_eq_true hia⟩
  have hmemJ : aset ∈ run.setsOf j := List.mem_filter.mpr ⟨haset, decide_eq_true hja⟩
  have hparty : ∀ p ∈ aset, p ∈ run.honest → p ∈ run.honestParties := fun p hp hhonest =>
    Finset.mem_inter.mpr ⟨hhonest, List.mem_toFinset.mpr (hroles hp)⟩
  refine ⟨run.passiveKey i aset, setKey_eq ht hpassiveI hmemI, ?_, ?_⟩
  · rw [setKey_eq ht hpassiveJ hmemJ, hcompare aset hmemJ i hia (hparty i hia hi)]
  · exact fun hhonest => passiveKey_eq_xor ht hpassiveI hmemI
      (fun p hp => hparty p hp (hhonest p hp))

end Agreement

/-- Three parties, of which the third commits to a second contribution that it does not need. -/
def longLists : AgreeRandomRun Unit PrfKey where
  numParties := 3
  threshold := 1
  commit := fun key _ _ => key
  honest := {1, 2}
  coins := fun i _ => (BitVec.ofNat 128 i, ())
  corruptComs := fun _ _ => .commitmentValue [9, 5]
  corruptKeyOpens := fun _ _ => .keyOpenValue [(8, ()), (5, ())]
  corruptKeys := fun _ j => .keyValue [BitVec.ofNat 128 j ^^^ 5]

theorem execute_keyAgreement_longLists :
    longLists.execute 1 = .ok [3, 4] ∧ longLists.execute 2 = .ok [3, 7] ∧
      ∃ key, longLists.setKey 1 [3, 4] [1, 2] = some key ∧
        longLists.setKey 2 [3, 7] [1, 2] = some key := by
  have h₁ : longLists.execute 1 = .ok [3, 4] := by decide +kernel
  have h₂ : longLists.execute 2 = .ok [3, 7] := by decide +kernel
  obtain ⟨key, hkey₁, hkey₂, -⟩ :=
    (execute_keyAgreement (show (1 : ℕ) < 3 by decide) (by decide) h₁ h₂).2 [1, 2] (by decide)
      (by decide) (by decide)
  exact ⟨h₁, h₂, key, hkey₁, hkey₂⟩

end AgreeRandomRun

end ThresholdKms
