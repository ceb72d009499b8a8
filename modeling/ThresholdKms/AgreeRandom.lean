import ThresholdKms.PrssSetup

/-!
# Agreement on random keys, with abort

Every set of `n - t` parties agrees on a key. Each member commits to a contribution and opens it to
the other members; the key is the exclusive or of the contributions. In a last round the members
compare their keys. Two parties exchange one list for all sets that contain both, and the receiver
pops its entries while it goes through its sets from the last to the first.
-/

namespace ThresholdKms

section Vectors

variable {α : Type}

def pushTo (value : α) (vec : Role → List α) (p : Role) : Role → List α :=
  Function.update vec p (vec p ++ [value])

/-- The values of the sets, in the order of the sets, for each member. -/
def groupByParty (entries : List (List Role × α)) : Role → List α :=
  entries.foldl (fun vec entry => entry.1.foldl (pushTo entry.2) vec) (fun _ => [])

def popFrom (vec : Role → List α) (p : Role) : Option (α × (Role → List α)) :=
  (vec p).getLast?.map (fun a => (a, Function.update vec p (vec p).dropLast))

end Vectors

variable {O C : Type} [DecidableEq C]

/-- What a party receives in a round; `other` stands for `Bot` and all foreign messages. -/
inductive AgreeRandomMessage (O C : Type) where
  | commitmentValue (coms : List C)
  | keyOpenValue (keyOpens : List (PrfKey × O))
  | keyValue (keys : List PrfKey)
  | other

namespace AgreeRandomMessage

def matchComVal : AgreeRandomMessage O C → Option (List C)
  | commitmentValue coms => some coms
  | _ => none

def matchKeyOpenVal : AgreeRandomMessage O C → Option (List (PrfKey × O))
  | keyOpenValue keyOpens => some keyOpens
  | _ => none

def matchKeyVal : AgreeRandomMessage O C → Option (List PrfKey)
  | keyValue keys => some keys
  | _ => none

def isAgreeRandomValue : AgreeRandomMessage O C → Bool
  | other => false
  | _ => true

end AgreeRandomMessage

/-- The lists of the other parties, if all of them sent a list of the expected kind. -/
def checkAndUnpack {α : Type} (variantMatch : AgreeRandomMessage O C → Option (List α))
    (typeStr : String) (received : List (Role × AgreeRandomMessage O C)) (numParties : ℕ) :
    Outcome (Role → List α) :=
  if received.length ≠ numParties - 1 then
    Outcome.err s!"have received {received.length} {typeStr}, but expected {numParties - 1}"
  else
    received.foldlM (fun rcvValues (senderRole, senderData) =>
      if senderData.isAgreeRandomValue then
        match variantMatch senderData with
        | some value => .ok (Function.update rcvValues senderRole value)
        | none => Outcome.err s!"Have not received a {typeStr} from role {senderRole}!"
      else
        Outcome.err s!"Have not received an AgreeRandomValue from role {senderRole}!")
      (fun _ => [])

def computePartySets (myRole : Role) (allRoles : List Role) (threshold : ℕ) :
    Outcome (List (List Role)) := do
  let sets ← createSets allRoles threshold
  return sets.filter (fun aset => decide (myRole ∈ aset))

section VerifyAndXor

structure OpeningLists (O C : Type) where
  keysOpens : Role → List (PrfKey × O)
  rcvKeysOpens : Role → List (PrfKey × O)
  rcvComs : Role → List C

variable (commit : PrfKey → Role → O → C) (ownRole : Role)

def xorMember (state : OpeningLists O C × PrfKey) (p : Role) :
    Outcome (OpeningLists O C × PrfKey) :=
  if p = ownRole then
    match popFrom state.1.keysOpens p with
    | none => Outcome.err "could not find my own key!"
    | some (ko, keysOpens) => .ok ({ state.1 with keysOpens }, state.2 ^^^ ko.1)
  else
    match popFrom state.1.rcvKeysOpens p with
    | none => Outcome.err s!"could not find KeyOpenValue for party {p}!"
    | some (ko, rcvKeysOpens) =>
      match popFrom state.1.rcvComs p with
      | none => Outcome.err s!"could not find CommitmentValue for party {p}!"
      | some (com, rcvComs) =>
        if commit ko.1 p ko.2 = com then
          .ok ({ state.1 with rcvKeysOpens, rcvComs }, state.2 ^^^ ko.1)
        else
          Outcome.err s!"Commitment verification has failed for party {p}!"

def xorSet (state : OpeningLists O C × List PrfKey) (aset : List Role) :
    Outcome (OpeningLists O C × List PrfKey) := do
  let (lists, s) ← aset.foldlM (xorMember commit ownRole) (state.1, 0)
  return (lists, state.2 ++ [s])

def verifyAndXorKeys (partySets : List (List Role)) (lists : OpeningLists O C) :
    Outcome (List PrfKey) := do
  let (_, rAKeys) ← partySets.reverse.foldlM (xorSet commit ownRole) (lists, [])
  return rAKeys.reverse

end VerifyAndXor

section VerifyEqual

variable (selfRole : Role)

def compareMember (myKey : PrfKey) (rcvKeys : Role → List PrfKey) (p : Role) :
    Outcome (Role → List PrfKey) :=
  if p ≠ selfRole then
    match popFrom rcvKeys p with
    | none => Outcome.err s!"could not find key value for party {p}!"
    | some (k, rcvKeys) =>
      if k ≠ myKey then
        Outcome.err s!"received a key from party {p} that does not match my own!"
      else
        .ok rcvKeys
  else
    .ok rcvKeys

structure KeyLists where
  keys : Role → List PrfKey
  rcvKeys : Role → List PrfKey

def compareSet (state : KeyLists × List PrfKey) (aset : List Role) :
    Outcome (KeyLists × List PrfKey) :=
  match popFrom state.1.keys selfRole with
  | none => Outcome.err "could not find my own key!"
  | some (myKey, keys) => do
      let rcvKeys ← aset.foldlM (compareMember selfRole myKey) state.1.rcvKeys
      return (⟨keys, rcvKeys⟩, state.2 ++ [myKey])

def verifyKeysEqual (partySets : List (List Role)) (lists : KeyLists) : Outcome (List PrfKey) := do
  let (_, rAKeys) ← partySets.reverse.foldlM (compareSet selfRole) (lists, [])
  return rAKeys.reverse

end VerifyEqual

/-- One run: the coins of the honest parties for each of their sets, and what the other parties send
to each receiver in the three rounds. -/
structure AgreeRandomRun (O C : Type) where
  numParties : ℕ
  threshold : ℕ
  commit : PrfKey → Role → O → C
  honest : Finset Role
  coins : Role → List Role → PrfKey × O
  corruptComs : Role → Role → AgreeRandomMessage O C
  corruptKeyOpens : Role → Role → AgreeRandomMessage O C
  corruptKeys : Role → Role → AgreeRandomMessage O C

namespace AgreeRandomRun

variable (run : AgreeRandomRun O C)

def received (sent : Role → Role → AgreeRandomMessage O C) (j : Role) :
    List (Role × AgreeRandomMessage O C) :=
  ((partyRoles run.numParties).filter (fun i => decide (i ≠ j))).map (fun i => (i, sent i j))

def sets (i : Role) : Outcome (List (List Role)) :=
  computePartySets i (partyRoles run.numParties) run.threshold

def keysOpens (i : Role) (partySets : List (List Role)) : Role → List (PrfKey × O) :=
  groupByParty (partySets.map (fun aset => (aset, run.coins i aset)))

def coms (i : Role) (partySets : List (List Role)) : Role → List C :=
  groupByParty (partySets.map (fun aset =>
    (aset, run.commit (run.coins i aset).1 i (run.coins i aset).2)))

/-- The message of an honest party that got so far, and nothing from one that failed before. -/
def sendIfOk {α : Type} (x : Outcome α) (message : α → AgreeRandomMessage O C) :
    AgreeRandomMessage O C :=
  match x with
  | .ok a => message a
  | .error _ => .other

def sentComs (i j : Role) : AgreeRandomMessage O C :=
  if i ∈ run.honest then
    sendIfOk (run.sets i) (fun partySets => .commitmentValue (run.coms i partySets j))
  else
    run.corruptComs i j

def committed (j : Role) : Outcome (List (List Role) × (Role → List C)) := do
  let partySets ← run.sets j
  let rcvComs ← checkAndUnpack AgreeRandomMessage.matchComVal "CommitmentValue"
    (run.received run.sentComs j) run.numParties
  return (partySets, rcvComs)

def sentKeyOpens (i j : Role) : AgreeRandomMessage O C :=
  if i ∈ run.honest then
    sendIfOk (run.committed i) (fun state => .keyOpenValue (run.keysOpens i state.1 j))
  else
    run.corruptKeyOpens i j

def passiveExecute (j : Role) : Outcome (List PrfKey) := do
  let (partySets, rcvComs) ← run.committed j
  let rcvKeysOpens ← checkAndUnpack AgreeRandomMessage.matchKeyOpenVal "KeyOpenValue"
    (run.received run.sentKeyOpens j) run.numParties
  verifyAndXorKeys run.commit j partySets ⟨run.keysOpens j partySets, rcvKeysOpens, rcvComs⟩

/-- The keys of the first two rounds, with the sets that they are for. -/
def agreed (i : Role) : Outcome (List (List Role) × List PrfKey) := do
  let partySets ← run.sets i
  let ars ← run.passiveExecute i
  return (partySets, ars)

def sentKeys (i j : Role) : AgreeRandomMessage O C :=
  if i ∈ run.honest then
    sendIfOk (run.agreed i) (fun state => .keyValue (groupByParty (state.1.zip state.2) j))
  else
    run.corruptKeys i j

def execute (j : Role) : Outcome (List PrfKey) := do
  let (partySets, ars) ← run.agreed j
  let rcvKeys ← checkAndUnpack AgreeRandomMessage.matchKeyVal "KeyValue"
    (run.received run.sentKeys j) run.numParties
  verifyKeysEqual j partySets ⟨groupByParty (partySets.zip ars), rcvKeys⟩

end AgreeRandomRun

/-!
## The keys that honest parties agree on

`Grouped` relates the list that a party still holds of another one to the sets that it has still to
go through, so that each pop yields the entry of the current set. It holds of the list of every
honest party, whatever the others send.
-/

section Grouped

variable {α : Type}

theorem foldl_pushTo (value : α) {aset : List Role} (hnodup : aset.Nodup) (vec : Role → List α)
    (p : Role) :
    aset.foldl (pushTo value) vec p = if p ∈ aset then vec p ++ [value] else vec p := by
  induction aset generalizing vec with
  | nil => rfl
  | cons q aset ih =>
    obtain ⟨hq, hnodup⟩ := List.nodup_cons.mp hnodup
    rw [List.foldl_cons, ih hnodup, pushTo]
    by_cases hpq : p = q
    · subst hpq
      simp [hq]
    · simp [hpq]

theorem groupByParty_append (entries : List (List Role × α)) (entry : List Role × α)
    (hnodup : entry.1.Nodup) (p : Role) :
    groupByParty (entries ++ [entry]) p =
      if p ∈ entry.1 then groupByParty entries p ++ [entry.2] else groupByParty entries p := by
  rw [groupByParty, List.foldl_append, List.foldl_cons, List.foldl_nil, foldl_pushTo _ hnodup]
  rfl

theorem groupByParty_map {sets : List (List Role)} (hnodup : ∀ aset ∈ sets, aset.Nodup)
    (f : List Role → α) (p : Role) :
    groupByParty (sets.map (fun aset => (aset, f aset))) p =
      (sets.filter (fun aset => decide (p ∈ aset))).map f := by
  induction sets using List.reverseRecOn with
  | nil => rfl
  | append_singleton sets aset ih =>
    rw [List.map_append, List.map_singleton,
      groupByParty_append _ _ (hnodup aset (by simp)), ih (fun s hs => hnodup s (by simp [hs])),
      List.filter_append]
    by_cases hp : p ∈ aset
    · simp [hp]
    · simp [hp]

/-- The list is that of the values of the sets in `sets` with the member `p`, the first of `sets` at
its end. -/
def Grouped (f : List Role → α) (sets : List (List Role)) (p : Role) (list : List α) : Prop :=
  list = ((sets.filter (fun aset => decide (p ∈ aset))).map f).reverse

theorem grouped_reverse (f : List Role → α) (sets : List (List Role)) (p : Role) :
    Grouped f sets.reverse p ((sets.filter (fun aset => decide (p ∈ aset))).map f) := by
  rw [Grouped, List.filter_reverse, List.map_reverse, List.reverse_reverse]

variable {f : List Role → α} {aset : List Role} {sets : List (List Role)} {p : Role} {list : List α}

section Grouped

variable (h : Grouped f (aset :: sets) p list)
include h

theorem Grouped.getLast (hp : p ∈ aset) : list.getLast? = some (f aset) := by
  rw [h, List.filter_cons_of_pos (by simpa using hp), List.map_cons, List.reverse_cons,
    List.getLast?_concat]

theorem Grouped.dropLast (hp : p ∈ aset) : Grouped f sets p list.dropLast := by
  rw [h, List.filter_cons_of_pos (by simpa using hp), List.map_cons, List.reverse_cons,
    List.dropLast_concat]
  rfl

theorem Grouped.skip (hp : p ∉ aset) : Grouped f sets p list := by
  rw [h, List.filter_cons_of_neg (by simpa using hp)]
  rfl

theorem Grouped.step : Grouped f sets p (if p ∈ aset then list.dropLast else list) := by
  split_ifs with hp
  · exact h.dropLast hp
  · exact h.skip hp

end Grouped

theorem popFrom_cases (vec : Role → List α) (p : Role) : popFrom vec p = none ∨
    ∃ a, (vec p).getLast? = some a ∧
      popFrom vec p = some (a, Function.update vec p (vec p).dropLast) := by
  cases h : (vec p).getLast? with
  | none => exact Or.inl (by rw [popFrom, h]; rfl)
  | some a => exact Or.inr ⟨a, rfl, by rw [popFrom, h]; rfl⟩

end Grouped

section Sets

variable {n t : ℕ}

theorem computePartySets_eq (ht : t ≤ n) (p : Role) :
    computePartySets p (partyRoles n) t = .ok (partySets n t p) := by
  rw [computePartySets, createSets_eq ht]
  rfl

theorem filter_partySets_comm (p q : Role) :
    (partySets n t p).filter (fun aset => decide (q ∈ aset)) =
      (partySets n t q).filter (fun aset => decide (p ∈ aset)) := by
  rw [partySets, partySets, List.filter_filter, List.filter_filter]
  exact List.filter_congr (fun aset _ => Bool.and_comm _ _)

end Sets

end ThresholdKms
