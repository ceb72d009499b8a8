import ThresholdKms.AgreeRandom

/-!
# Agreement of the keys

A party that returns has compared its key for each set with the key of every honest member, and its
key for a set of honest members is the exclusive or of their contributions.
-/

namespace ThresholdKms

open Outcome

variable {O C : Type} [DecidableEq C] {sets : List (List Role)} {honest : Finset Role}
  {keys : List PrfKey}

section Xor

variable {commit : PrfKey → Role → O → C} {own : Role}

/-- The openings that a party holds of each member, its own among them. -/
def OpeningLists.contents (own : Role) (lists : OpeningLists O C) (p : Role) :
    List (PrfKey × O) :=
  if p = own then lists.keysOpens p else lists.rcvKeysOpens p

variable {state state' : OpeningLists O C × PrfKey}

theorem xorMember_eq_ok {p : Role} (h : xorMember commit own state p = .ok state') :
    ∃ ko, (state.1.contents own p).getLast? = some ko ∧ state'.1.contents own =
        Function.update (state.1.contents own) p (state.1.contents own p).dropLast ∧
      state'.2 = state.2 ^^^ ko.1 := by
  rw [xorMember] at h
  split_ifs at h with hp
  · subst hp
    obtain hpop | ⟨ko, hlast, hpop⟩ := popFrom_cases state.1.keysOpens p
    · rw [hpop] at h
      cases h
    · simp only [hpop, Except.ok.injEq] at h
      subst h
      refine ⟨ko, ?_, ?_, rfl⟩
      · rw [OpeningLists.contents, if_pos rfl, hlast]
      · funext q
        by_cases hq : q = p
        · subst hq
          simp [OpeningLists.contents]
        · simp [OpeningLists.contents, hq]
  · obtain hpop | ⟨ko, hlast, hpop⟩ := popFrom_cases state.1.rcvKeysOpens p
    · rw [hpop] at h
      cases h
    · cases hcom : popFrom state.1.rcvComs p with
      | none =>
        simp only [hpop, hcom] at h
        cases h
      | some com =>
        simp only [hpop, hcom] at h
        split_ifs at h with hverify
        · cases h
          refine ⟨ko, ?_, ?_, rfl⟩
          · rw [OpeningLists.contents, if_neg hp, hlast]
          · funext q
            by_cases hq : q = p
            · subst hq
              simp [OpeningLists.contents, hp]
            · simp [OpeningLists.contents, hq]
        · cases h

def xorContributions (value : Role → PrfKey) (aset : List Role) (s : PrfKey) : PrfKey :=
  aset.foldl (fun acc p => acc ^^^ value p) s

theorem foldlM_xorMember {aset : List Role} (hnodup : aset.Nodup)
    (h : aset.foldlM (xorMember commit own) state = .ok state') :
    (∀ p, state'.1.contents own p =
      if p ∈ aset then (state.1.contents own p).dropLast else state.1.contents own p) ∧
    ∀ value : Role → PrfKey × O, (∀ p ∈ aset, (state.1.contents own p).getLast? = some (value p)) →
        state'.2 = xorContributions (fun p => (value p).1) aset state.2 := by
  induction aset generalizing state with
  | nil =>
    cases h
    exact ⟨fun p => by simp, fun value _ => rfl⟩
  | cons q aset ih =>
    obtain ⟨hq, hnodup⟩ := List.nodup_cons.mp hnodup
    obtain ⟨mid, hmid, hrest⟩ := foldlM_cons_eq_ok.mp h
    obtain ⟨ko, hlast, hcontents, hxor⟩ := xorMember_eq_ok hmid
    obtain ⟨hdropped, hkey⟩ := ih hnodup hrest
    constructor
    · intro p
      rw [hdropped p, hcontents]
      by_cases hp : p = q
      · subst hp
        simp [hq]
      · simp [hp]
    · intro value hvalue
      have hq' := hvalue q List.mem_cons_self
      rw [hlast, Option.some_inj] at hq'
      have htail : ∀ p ∈ aset, (mid.1.contents own p).getLast? = some (value p) := by
        intro p hp
        rw [hcontents, Function.update_of_ne (ne_of_mem_of_not_mem hp hq)]
        exact hvalue p (List.mem_cons_of_mem _ hp)
      rw [hkey value htail, hxor, hq']
      rfl

variable {value : Role → List Role → PrfKey × O}

theorem foldlM_xorSet (hnodup : ∀ aset ∈ sets, aset.Nodup)
    {state state' : OpeningLists O C × List PrfKey}
    (hgrouped : ∀ p ∈ honest, Grouped (value p) sets p (state.1.contents own p))
    (h : sets.foldlM (xorSet commit own) state = .ok state') :
    ∃ keys, state'.2 = state.2 ++ keys ∧ List.Forall₂ (fun aset key => (∀ p ∈ aset, p ∈ honest) →
        key = xorContributions (fun p => (value p aset).1) aset 0) sets keys := by
  induction sets generalizing state with
  | nil =>
    cases h
    exact ⟨[], (List.append_nil _).symm, List.Forall₂.nil⟩
  | cons aset sets ih =>
    obtain ⟨mid, hmid, hrest⟩ := foldlM_cons_eq_ok.mp h
    obtain ⟨⟨lists, s⟩, hset, hmid⟩ := bind_eq_ok.mp hmid
    cases hmid
    obtain ⟨hdropped, hkey⟩ := foldlM_xorMember (hnodup aset List.mem_cons_self) hset
    have hgrouped' : ∀ p ∈ honest, Grouped (value p) sets p (lists.contents own p) := by
      intro p hp
      rw [hdropped p]
      exact (hgrouped p hp).step
    obtain ⟨keys, hkeys, hall⟩ :=
      ih (fun s hs => hnodup s (List.mem_cons_of_mem _ hs)) hgrouped' hrest
    refine ⟨s :: keys, ?_, List.Forall₂.cons ?_ hall⟩
    · rw [hkeys, List.append_assoc]
      rfl
    · intro hhonest
      exact hkey (fun p => value p aset)
        (fun p hp => (hgrouped p (hhonest p hp)).getLast hp)

theorem verifyAndXorKeys_eq_ok (hnodup : ∀ aset ∈ sets, aset.Nodup) {lists : OpeningLists O C}
    (hlists : ∀ p ∈ honest, lists.contents own p =
      (sets.filter (fun aset => decide (p ∈ aset))).map (value p))
    (h : verifyAndXorKeys commit own sets lists = .ok keys) :
    List.Forall₂ (fun aset key => (∀ p ∈ aset, p ∈ honest) →
      key = xorContributions (fun p => (value p aset).1) aset 0) sets keys := by
  obtain ⟨state, hstate, h⟩ := bind_eq_ok.mp h
  cases h
  have hgrouped : ∀ p ∈ honest, Grouped (value p) sets.reverse p (lists.contents own p) := by
    intro p hp
    rw [hlists p hp]
    exact grouped_reverse _ _ _
  obtain ⟨keys, hkeys, hall⟩ :=
    foldlM_xorSet (fun aset h => hnodup aset (List.mem_reverse.mp h)) hgrouped hstate
  rw [hkeys]
  have hrev := List.rel_reverse hall
  rwa [List.reverse_reverse] at hrev

end Xor

section Compare

variable {self : Role} {rcvKeys rcvKeys' : Role → List PrfKey}

theorem compareMember_eq_ok {myKey : PrfKey} {p : Role}
    (h : compareMember self myKey rcvKeys p = .ok rcvKeys') :
    p = self ∧ rcvKeys' = rcvKeys ∨ p ≠ self ∧ (rcvKeys p).getLast? = some myKey ∧
      rcvKeys' = Function.update rcvKeys p (rcvKeys p).dropLast := by
  rw [compareMember] at h
  split_ifs at h with hp
  · obtain hpop | ⟨key, hlast, hpop⟩ := popFrom_cases rcvKeys p
    · rw [hpop] at h
      cases h
    · simp only [hpop] at h
      split_ifs at h with hkey
      · cases h
      · cases h
        rw [not_not.mp hkey] at hlast
        exact Or.inr ⟨hp, hlast, rfl⟩
  · cases h
    exact Or.inl ⟨not_not.mp hp, rfl⟩

theorem foldlM_compareMember {myKey : PrfKey} {aset : List Role} (hnodup : aset.Nodup)
    (h : aset.foldlM (compareMember self myKey) rcvKeys = .ok rcvKeys') :
    ∀ p, p ≠ self →
      rcvKeys' p = (if p ∈ aset then (rcvKeys p).dropLast else rcvKeys p) ∧
      (p ∈ aset → (rcvKeys p).getLast? = some myKey) := by
  induction aset generalizing rcvKeys with
  | nil =>
    cases h
    intro p _
    simp
  | cons q aset ih =>
    obtain ⟨hq, hnodup⟩ := List.nodup_cons.mp hnodup
    obtain ⟨mid, hmid, hrest⟩ := foldlM_cons_eq_ok.mp h
    intro p hp
    obtain ⟨hdropped, hlast⟩ := ih hnodup hrest p hp
    rcases compareMember_eq_ok hmid with ⟨rfl, rfl⟩ | ⟨-, hkey, rfl⟩
    · rw [hdropped]
      simp only [List.mem_cons, hp, false_or]
      exact ⟨trivial, hlast⟩
    · by_cases hpq : p = q
      · subst hpq
        rw [hdropped]
        simp [hq, hkey]
      · rw [hdropped]
        rw [Function.update_of_ne hpq] at hlast ⊢
        simp only [List.mem_cons, hpq, false_or]
        exact ⟨trivial, hlast⟩

variable {value : Role → List Role → PrfKey} {own : List Role → PrfKey}

/-- A party keeps its own keys, and they are those of all honest members of its sets. -/
theorem foldlM_compareSet (hnodup : ∀ aset ∈ sets, aset.Nodup) (hself : ∀ aset ∈ sets, self ∈ aset)
    {state state' : KeyLists × List PrfKey}
    (hown : Grouped own sets self (state.1.keys self))
    (hgrouped : ∀ p ∈ honest, p ≠ self → Grouped (value p) sets p (state.1.rcvKeys p))
    (h : sets.foldlM (compareSet self) state = .ok state') :
    state'.2 = state.2 ++ sets.map own ∧
      ∀ aset ∈ sets, ∀ p ∈ aset, p ∈ honest → p ≠ self → value p aset = own aset := by
  induction sets generalizing state with
  | nil =>
    cases h
    simp
  | cons aset sets ih =>
    obtain ⟨mid, hmid, hrest⟩ := foldlM_cons_eq_ok.mp h
    have hmem := hself aset List.mem_cons_self
    rw [compareSet] at hmid
    obtain hpop | ⟨key, hlast, hpop⟩ := popFrom_cases state.1.keys self
    · rw [hpop] at hmid
      cases hmid
    · rw [hown.getLast hmem, Option.some_inj] at hlast
      simp only [hpop] at hmid
      obtain ⟨rcvKeys, hset, hmid⟩ := bind_eq_ok.mp hmid
      cases hmid
      have hcompare := foldlM_compareMember (hnodup aset List.mem_cons_self) hset
      have hown' : Grouped own sets self
          (Function.update state.1.keys self (state.1.keys self).dropLast self) := by
        rw [Function.update_self]
        exact hown.dropLast hmem
      have hgrouped' : ∀ p ∈ honest, p ≠ self → Grouped (value p) sets p (rcvKeys p) := by
        intro p hp hne
        rw [(hcompare p hne).1]
        exact (hgrouped p hp hne).step
      obtain ⟨hresult, hall⟩ := ih (fun s hs => hnodup s (List.mem_cons_of_mem _ hs))
        (fun s hs => hself s (List.mem_cons_of_mem _ hs)) hown' hgrouped' hrest
      constructor
      · rw [hresult, ← hlast, List.append_assoc]
        rfl
      · intro s hs p hp hhonest hne
        rcases List.mem_cons.mp hs with rfl | hs
        · have hkey := (hcompare p hne).2 hp
          rw [(hgrouped p hhonest hne).getLast hp, Option.some_inj] at hkey
          rw [hkey, hlast]
        · exact hall s hs p hp hhonest hne

theorem verifyKeysEqual_eq_ok (hnodup : ∀ aset ∈ sets, aset.Nodup)
    (hself : ∀ aset ∈ sets, self ∈ aset) {lists : KeyLists}
    (hown : lists.keys self = (sets.filter (fun aset => decide (self ∈ aset))).map own)
    (hlists : ∀ p ∈ honest, p ≠ self → lists.rcvKeys p =
      (sets.filter (fun aset => decide (p ∈ aset))).map (value p))
    (h : verifyKeysEqual self sets lists = .ok keys) :
    keys = sets.map own ∧
      ∀ aset ∈ sets, ∀ p ∈ aset, p ∈ honest → p ≠ self → value p aset = own aset := by
  obtain ⟨state, hstate, h⟩ := bind_eq_ok.mp h
  cases h
  have hown' : Grouped own sets.reverse self (lists.keys self) := by
    rw [hown]
    exact grouped_reverse _ _ _
  have hgrouped : ∀ p ∈ honest, p ≠ self → Grouped (value p) sets.reverse p (lists.rcvKeys p) := by
    intro p hp hne
    rw [hlists p hp hne]
    exact grouped_reverse _ _ _
  obtain ⟨hresult, hall⟩ := foldlM_compareSet (fun s hs => hnodup s (List.mem_reverse.mp hs))
    (fun s hs => hself s (List.mem_reverse.mp hs)) hown' hgrouped hstate
  refine ⟨?_, fun s hs => hall s (List.mem_reverse.mpr hs)⟩
  rw [hresult, List.nil_append, List.map_reverse, List.reverse_reverse]

end Compare

end ThresholdKms
