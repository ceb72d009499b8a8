import ThresholdKms.DisputeOrder
import ThresholdKms.LocalShareChecks
import ThresholdKms.LocalShareProgress

/-!
# What honest parties broadcast

An honest dealer shares its secrets and pads with polynomials that vanish at the parties with which it
is in dispute. The check values that honest parties broadcast are then values of one polynomial for
each honest dealer, the same combination of the dealer's polynomials.
-/

open Polynomial

namespace ThresholdKms

open GaloisRing

variable {w : ℕ} {e : ExtensionDegree}

/-- What a dealer shares with one degree: a polynomial for each secret and for each pad. -/
structure Dealing (w : ℕ) (e : ExtensionDegree) where
  secrets : List (GaloisRing w e)[X]
  pads : List (GaloisRing w e)[X]

namespace Dealing

variable (d : Dealing w e) (challenges : List (GaloisRing w e)) (g : ℕ)

/-- The combination that is checked in repetition `g`. -/
noncomputable def combined : (GaloisRing w e)[X] :=
  d.pads.getD g 0 + (List.zipWith (fun x f => C x * f) challenges d.secrets).sum

structure Valid (degree l : ℕ) (disputes : Finset Role) : Prop where
  length_secrets : d.secrets.length = l
  length_pads : d.pads.length = repetitions e
  natDegree_le : ∀ f ∈ d.secrets ++ d.pads, f.natDegree ≤ degree
  disputed : ∀ f ∈ d.secrets ++ d.pads, ∀ role ∈ disputes, f.eval (fromByte role) = 0

theorem eval_combined (x : GaloisRing w e) :
    (d.combined challenges g).eval x =
      checkValue ((d.pads.map (eval x)).getD g 0) challenges (d.secrets.map (eval x)) := by
  have hpad : (d.pads.getD g 0).eval x = (d.pads.map (eval x)).getD g 0 := by
    rw [List.getD_eq_getElem?_getD, List.getD_eq_getElem?_getD, List.getElem?_map]
    cases d.pads[g]? with
    | none => simp
    | some f => rfl
  have hsum : ∀ (cs : List (GaloisRing w e)) (fs : List (GaloisRing w e)[X]),
      (List.zipWith (fun c f => C c * f) cs fs).sum.eval x =
        (List.zipWith (· * ·) cs (fs.map (eval x))).sum := by
    intro cs
    induction cs with
    | nil => simp
    | cons c cs ih =>
      intro fs
      cases fs with
      | nil => simp
      | cons f fs => simp [ih]
  unfold combined
  rw [checkValue_eq, eval_add, hpad, hsum]

theorem mem_combined {P : (GaloisRing w e)[X] → Prop} (hzero : P 0)
    (hadd : ∀ f g, P f → P g → P (f + g)) (hmul : ∀ c f, P f → P (C c * f))
    (h : ∀ f ∈ d.secrets ++ d.pads, P f) :
    P (d.combined challenges g) := by
  have hpad : P (d.pads.getD g 0) := by
    rw [List.getD_eq_getElem?_getD]
    cases hf : d.pads[g]? with
    | none => exact hzero
    | some f => exact h f (List.mem_append_right _ (List.mem_of_getElem? hf))
  have hsum : ∀ (cs : List (GaloisRing w e)) (fs : List (GaloisRing w e)[X]), (∀ f ∈ fs, P f) →
      P (List.zipWith (fun c f => C c * f) cs fs).sum := by
    intro cs
    induction cs with
    | nil =>
      intro fs _
      simpa using hzero
    | cons c cs ih =>
      intro fs hfs
      cases fs with
      | nil => simpa using hzero
      | cons f fs =>
        exact hadd _ _ (hmul c f (List.forall_mem_cons.mp hfs).1)
          (ih fs (List.forall_mem_cons.mp hfs).2)
  exact hadd _ _ hpad (hsum challenges d.secrets (fun f hf => h f (List.mem_append_left _ hf)))

variable {d} {degree l : ℕ} {disputes : Finset Role} (h : d.Valid degree l disputes)
include h

theorem Valid.natDegree_combined_le :
    (d.combined challenges g).natDegree ≤ degree :=
  mem_combined d challenges g (P := fun f => f.natDegree ≤ degree) (by simp)
    (fun _ _ hf hg => (natDegree_add_le _ _).trans (max_le hf hg))
    (fun c f hf => (natDegree_C_mul_le c f).trans hf) h.natDegree_le

theorem Valid.eval_combined_eq_zero {role : Role} (hrole : role ∈ disputes) :
    (d.combined challenges g).eval (fromByte role) = 0 :=
  mem_combined d challenges g (P := fun f => f.eval (fromByte role) = 0) eval_zero
    (fun _ _ hf hg => by rw [eval_add, hf, hg, add_zero])
    (fun c f hf => by rw [eval_mul, hf, mul_zero]) (fun f hf => h.disputed f hf role hrole)

end Dealing

section Layers

variable {n l : ℕ} {honest : Finset Role} {dealing : Role → Dealing w e} {p : Role}
  {layer : Layer (GaloisRing w e)}

/-- The party has its shares of all honest dealings, and vectors of the right length of all parties. -/
structure HoldsLayer (n l : ℕ) (honest : Finset Role) (dealing : Role → Dealing w e) (p : Role)
    (layer : Layer (GaloisRing w e)) : Prop where
  secretsOwn : ∀ role ∈ partyRoles n, layer.secrets.sharesOwnSecret.lookup role =
    some ((dealing p).secrets.map (eval (fromByte role)))
  padsOwn : ∀ role, layer.pads.sharesOwnSecret.lookup role =
    if role ∈ partyRoles n then some ((dealing p).pads.map (eval (fromByte role))) else none
  secretsAll : ∀ role ∈ partyRoles n, ∃ shares,
    layer.secrets.allShares.lookup role = some shares ∧ shares.length = l
  padsAll : ∀ role, role ∈ layer.pads.allShares ↔ role ∈ partyRoles n
  length_padsAll : ∀ role pads, layer.pads.allShares.lookup role = some pads →
    repetitions e ≤ pads.length
  secretsHonest : ∀ h ∈ honest, layer.secrets.allShares.lookup h =
    some ((dealing h).secrets.map (eval (fromByte p)))
  padsHonest : ∀ h ∈ honest, layer.pads.allShares.lookup h =
    some ((dealing h).pads.map (eval (fromByte p)))

/-- The maps agree with the polynomials of the honest dealers. -/
structure TrueMaps (n : ℕ) (honest : Finset Role) (poly : Role → (GaloisRing w e)[X]) (p : Role)
    (maps : MapsSharesChallenges (GaloisRing w e)) : Prop where
  keys : maps.checksForMine.keys = (partyRoles n).toFinset
  mine : ∀ role ∈ partyRoles n, maps.checksForMine.lookup role = some ((poly p).eval (fromByte role))
  all : ∀ h ∈ honest, maps.checksForAll.lookup h = some ((poly h).eval (fromByte p))

theorem HoldsLayer.computeMaps_eq (h : HoldsLayer n l honest dealing p layer)
    {session : LargeSession} (hnum : numParties session = n)
    {challenges : Role → List (GaloisRing w e)}
    (hchallenges : ∀ role ∈ partyRoles n, (challenges role).length = l)
    (hlength : (dealing p).secrets.length = l ∧ (dealing p).pads.length = repetitions e)
    (hhonest : ∀ q ∈ honest, q ∈ partyRoles n) (hp : p ∈ honest) {g : ℕ} (hg : g < repetitions e) :
    ∃ maps, computeMaps (challengeMap session challenges) g p layer = .ok maps ∧
      TrueMaps n honest (fun q => (dealing q).combined (challenges q) g) p maps := by
  have hmap : ∀ role ∈ partyRoles n, challengeMap session challenges role =
      some (challenges role) := by
    intro role hrole
    rw [challengeMap, sessionRoles, hnum, if_pos hrole]
  have hvalueAll : ∀ role pads, layer.pads.allShares.lookup role = some pads →
      checkValueOf (challengeMap session challenges) layer.secrets.allShares g none role pads =
        .ok (checkValue (((layer.pads.allShares.lookup role).getD []).getD g 0) (challenges role)
          ((layer.secrets.allShares.lookup role).getD [])) := by
    intro role pads hpads
    have hrole := (h.padsAll role).mp (mem_of_lookup_eq_some hpads)
    obtain ⟨shares, hshares, hlen⟩ := h.secretsAll role hrole
    rw [hpads, hshares]
    exact checkValueOf_eq (hg.trans_le (h.length_padsAll role pads hpads)) (hmap role hrole) hshares
      ((hchallenges role hrole).trans hlen.symm)
  have hvalueMine : ∀ role pads, layer.pads.sharesOwnSecret.lookup role = some pads →
      checkValueOf (challengeMap session challenges) layer.secrets.sharesOwnSecret g (some p) role
        pads = .ok (((dealing p).combined (challenges p) g).eval (fromByte role)) := by
    intro role pads hpads
    have hrole : role ∈ partyRoles n := by
      by_contra hnot
      rw [h.padsOwn, if_neg hnot] at hpads
      cases hpads
    rw [h.padsOwn, if_pos hrole, Option.some.injEq] at hpads
    subst hpads
    rw [Dealing.eval_combined]
    refine checkValueOf_eq ?_ (hmap p (hhonest p hp)) (h.secretsOwn role hrole) ?_
    · rwa [List.length_map, hlength.2]
    · rw [List.length_map, hlength.1, hchallenges p (hhonest p hp)]
  obtain ⟨all, hall, hlookupAll⟩ := computeCheckValues_eq _ hvalueAll
  obtain ⟨mine, hmine, hlookupMine⟩ := computeCheckValues_eq _ hvalueMine
  have hmineMem : ∀ role, role ∈ layer.pads.sharesOwnSecret ↔ role ∈ partyRoles n := by
    intro role
    rw [← AList.lookup_isSome, h.padsOwn]
    by_cases hrole : role ∈ partyRoles n
    · simp [hrole]
    · simp [hrole]
  refine ⟨⟨all, mine⟩, ?_, ?_, fun role hrole => ?_, fun q hq => ?_⟩
  · rw [computeMaps, hall, hmine]
    rfl
  · ext role
    rw [Finmap.mem_keys, ← Finmap.lookup_isSome, hlookupMine]
    by_cases hrole : role ∈ partyRoles n
    · simp [hmineMem, hrole]
    · simp [hmineMem, hrole]
  · rw [hlookupMine, if_pos ((hmineMem role).mpr hrole)]
  · rw [hlookupAll, if_pos ((h.padsAll q).mpr (hhonest q hq)), h.padsHonest q hq,
      h.secretsHonest q hq, Dealing.eval_combined]
    rfl

theorem lookup_foldl_insert_zeros (roles : List Role) (shares : HashMap Role (List (GaloisRing w e)))
    (role : Role) :
    (roles.foldl (fun shares role => shares.insert role (List.replicate l 0)) shares).lookup role =
      if role ∈ roles then some (List.replicate l 0) else shares.lookup role := by
  induction roles generalizing shares with
  | nil => simp
  | cons r roles ih =>
    rw [List.foldl_cons, ih, Tally.lookup_insert_eq]
    by_cases hmem : role ∈ roles
    · simp [hmem]
    · by_cases heq : role = r
      · simp [heq]
      · simp [hmem, heq]

theorem HoldsLayer.zeroShares (h : HoldsLayer n l honest dealing p layer) {roles : List Role}
    (hroles : ∀ q ∈ honest, q ∉ roles) :
    HoldsLayer n l honest dealing p (zeroShares l roles layer) where
  secretsOwn := h.secretsOwn
  padsOwn := h.padsOwn
  secretsAll := by
    intro role hrole
    change ∃ shares, AList.lookup role (roles.foldl (fun shares role =>
      shares.insert role (List.replicate l 0)) layer.secrets.allShares) = some shares ∧ _
    rw [lookup_foldl_insert_zeros]
    split_ifs
    · exact ⟨_, rfl, List.length_replicate⟩
    · exact h.secretsAll role hrole
  padsAll := h.padsAll
  length_padsAll := h.length_padsAll
  secretsHonest := by
    intro q hq
    change AList.lookup q (roles.foldl (fun shares role =>
      shares.insert role (List.replicate l 0)) layer.secrets.allShares) = _
    rw [lookup_foldl_insert_zeros, if_neg (hroles q hq)]
    exact h.secretsHonest q hq
  padsHonest := h.padsHonest

end Layers

/-!
## Agreement of dispute control in one repetition

The honest parties find the same corrupt senders in what is broadcast, none of them honest. If no
sender is found, they look for disputes; under orderly disagreements they end with the same corrupt
parties and disputes, whatever the order in which each of them iterates.
-/

open LargeSession

/-- The corrupt parties are in dispute with everyone, and no two honest parties are in dispute. -/
structure DisputeState (honest : Finset Role) (n : ℕ) (corrupt : Finset Role)
    (disputes : DisputeSet) : Prop where
  subset : corrupt ⊆ otherRoles honest n
  closed : ∀ c ∈ corrupt, ∀ q ∈ partyRoles n, q ≠ c → q ∈ disputes.get c
  apart : ∀ p ∈ honest, ∀ q ∈ honest, q ∉ disputes.get p
  roles : ∀ p, disputes.get p ⊆ (partyRoles n).toFinset

section Sessions

variable {n t : ℕ} {me : Role} {found : Finset Role} {disputes : DisputeSet}
  {done : Finset (Role × Role)} {session : LargeSession}

theorem recorded_start (n t : ℕ) (me : Role) (corrupt : Finset Role) (disputes : DisputeSet) :
    Recorded n t me corrupt disputes ∅ ∅ ⟨⟨me, n, t, corrupt⟩, disputes⟩ where
  sessionAt := ⟨rfl, rfl, rfl, (Finset.union_empty corrupt).symm⟩
  disputed := by simp [LargeSession.Disputed, mem_partners]

theorem Recorded.markCorrupt (h : Recorded n t me corrupt disputes done found session)
    {roles : List Role} (hme : me ∉ roles) (hroles : ∀ r ∈ roles, r ∈ partyRoles n) :
    Recorded n t me corrupt disputes done (found ∪ roles.toFinset) (markCorrupt session roles) := by
  induction roles generalizing found session with
  | nil =>
    rw [List.toFinset_nil, Finset.union_empty]
    exact h
  | cons r roles ih =>
    rw [List.mem_cons, not_or] at hme
    obtain ⟨hr, hrest⟩ := List.forall_mem_cons.mp hroles
    have hstep := ih (h.addCorrupt (Ne.symm hme.1) hr) hme.2 hrest
    rw [List.toFinset_cons, Finset.union_insert, ← Finset.insert_union]
    exact hstep

theorem Recorded.eq_start (h : Recorded n t me corrupt disputes ∅ found session)
    (hclosed : ∀ c ∈ corrupt, ∀ q ∈ partyRoles n, q ≠ c → q ∈ disputes.get c)
    (hfound : found ⊆ corrupt) : session = ⟨⟨me, n, t, corrupt⟩, disputes⟩ := by
  apply LargeSession.ext
  · have hbase : SessionAt session.baseSession me n t (corrupt ∪ found) :=
      ⟨h.sessionAt.myRole_eq, h.sessionAt.numParties_eq, h.sessionAt.threshold_eq,
        h.sessionAt.corruptRoles_eq⟩
    rw [hbase.eq, Finset.union_eq_left.mpr hfound]
  · apply DisputeSet.ext
    funext p
    ext q
    refine (h.disputed p q).trans ⟨?_, Or.inl⟩
    rintro (hq | hq | ⟨hne, hp, hq, hmem | hmem⟩)
    · exact hq
    · simp [mem_partners] at hq
    · exact hclosed p (hfound hmem) q hq hne.symm
    · exact disputes.symm (hclosed q (hfound hmem) p hp hne)

end Sessions

section Repetition

variable {F : Type} [Field F] [DecidableEq F] [G2p e F] {honest corrupt : Finset Role} {n t : ℕ}
  {disputes : DisputeSet} {kind : LocalShare} {poly : ℕ → Role → (GaloisRing w e)[X]}
  {received : Role → BroadcastValue (LargeValue (GaloisRing w e))}

/-- The honest parties have broadcast the check values of honest dealings. -/
structure HonestChecks (honest : Finset Role) (n t : ℕ) (disputes : DisputeSet) (kind : LocalShare)
    (poly : ℕ → Role → (GaloisRing w e)[X])
    (received : Role → BroadcastValue (LargeValue (GaloisRing w e))) : Prop where
  natDegree_le : ∀ h ∈ honest, ∀ i degree, (kind.degrees t)[i]? = some degree →
    (poly i h).natDegree ≤ degree
  disputed : ∀ h ∈ honest, ∀ i < (kind.degrees t).length, ∀ role ∈ disputes.get h,
    (poly i h).eval (fromByte role) = 0
  sameSecret : ∀ h ∈ honest, ∀ i < (kind.degrees t).length, (poly i h).eval 0 = (poly 0 h).eval 0
  maps : ∀ h ∈ honest, ∃ maps, kind.parse (received h) = some maps ∧
    ∀ i m, maps[i]? = some m → TrueMaps n honest (poly i) h m

/-- The maps of one degree. -/
def layerData (kind : LocalShare) (received : Role → BroadcastValue (LargeValue (GaloisRing w e)))
    (i : ℕ) (role : Role) : Option (MapsSharesChallenges (GaloisRing w e)) :=
  (kind.parse (received role)).bind (·[i]?)

theorem LocalShare.length_of_parse {value : BroadcastValue (LargeValue (GaloisRing w e))}
    {maps : List (MapsSharesChallenges (GaloisRing w e))} (h : kind.parse value = some maps) (t : ℕ) :
    maps.length = (kind.degrees t).length := by
  unfold LocalShare.parse at h
  split at h
  · cases h
    rfl
  · cases h
    rfl
  · cases h

/-- A sender that broadcasts sharings of the degrees, all of the same value. -/
def GoodSender (n : ℕ) (degrees : List ℕ) (disputes : Finset Role)
    (value : Option (List (MapsSharesChallenges (GaloisRing w e)))) : Prop :=
  ∃ maps v, value = some maps ∧ ∀ m ∈ maps.zip degrees,
    ∃ f, SenderSharing n m.2 disputes m.1.checksForMine f ∧ f.eval 0 = v

section Senders

variable (hw : 0 < w) (hn : n < 2 ^ e.deg)

include hw hn

open Classical in
theorem senderIsCorrupt_eq (store : LagrangeStore F) {session : LargeSession}
    (hnum : numParties session = n) {degrees : List ℕ} (hdegrees : ∀ d ∈ degrees, d < n) {role : Role}
    (hroles : session.disputedRoles.get role ⊆ (partyRoles n).toFinset)
    (hrole : role ≠ myRole session)
    (value : Option (List (MapsSharesChallenges (GaloisRing w e)))) :
    senderIsCorrupt store session degrees role value =
      .ok (decide (¬ GoodSender n degrees (session.disputedRoles.get role) value)) := by
  unfold senderIsCorrupt
  cases value with
  | none =>
    have hbad : ¬ GoodSender n degrees (session.disputedRoles.get role)
        (none : Option (List (MapsSharesChallenges (GaloisRing w e)))) := by
      rintro ⟨maps, v, hmaps, -⟩
      cases hmaps
    exact congrArg Except.ok (decide_eq_true hbad).symm
  | some maps =>
    have hlt : ∀ m ∈ maps.zip degrees, m.2 < n := fun m hm => hdegrees m.2 (List.of_mem_zip hm).2
    have hreturns : ∀ m ∈ maps.zip degrees, ∃ v, verifySenderChallenge store session m.2 role
        m.1.checksForMine = .ok v :=
      fun m hm => verifySenderChallenge_returns hw hn (hlt m hm) store hnum hroles
    choose! v hv using hreturns
    simp only [if_neg hrole]
    rw [Outcome.mapM_eq_ok hv, Outcome.ok_bind, Outcome.pure_eq_ok, Except.ok.injEq,
      ← decide_not, decide_eq_decide, not_iff_not]
    constructor
    · rintro ⟨hsome, hsame⟩
      rcases hzip : maps.zip degrees with _ | ⟨m₀, rest⟩
      · exact ⟨maps, 0, rfl, by simp [hzip]⟩
      · have hm₀ : m₀ ∈ maps.zip degrees := by rw [hzip]; exact List.mem_cons_self
        obtain ⟨v₀, hv₀⟩ := Option.ne_none_iff_exists'.mp (hsome _ (List.mem_map_of_mem hm₀))
        refine ⟨maps, v₀, rfl, fun m hm => ?_⟩
        have heq : v m = some v₀ :=
          (hsame _ (List.mem_map_of_mem hm) _ (List.mem_map_of_mem hm₀)).trans hv₀
        obtain ⟨f, hf, hval⟩ := senderSharing_of_verifySenderChallenge hw hn (hlt m hm) hnum
          ((hv m hm).trans (congrArg Except.ok heq))
        exact ⟨f, hf, hval.symm⟩
    · rintro ⟨maps', v₀, hmaps, hgood⟩
      cases hmaps
      have heq : ∀ m ∈ maps.zip degrees, v m = some v₀ := by
        intro m hm
        obtain ⟨f, hf, hval⟩ := hgood m hm
        have hpass := verifySenderChallenge_of_senderSharing hw hn (hlt m hm) store hnum hf
        rw [hv m hm, hval] at hpass
        exact Except.ok.inj hpass
      constructor
      · intro x hx
        obtain ⟨m, hm, rfl⟩ := List.mem_map.mp hx
        rw [heq m hm]
        exact Option.some_ne_none v₀
      · intro x hx y hy
        obtain ⟨m, hm, rfl⟩ := List.mem_map.mp hx
        obtain ⟨m', hm', rfl⟩ := List.mem_map.mp hy
        rw [heq m hm, heq m' hm']

end Senders

variable (h : HonestChecks honest n t disputes kind poly received)
include h

theorem HonestChecks.goodSender
    (hroles : ∀ p, disputes.get p ⊆ (partyRoles n).toFinset) {p : Role} (hp : p ∈ honest) :
    GoodSender n (kind.degrees t) (disputes.get p) (kind.parse (received p)) := by
  obtain ⟨maps, hparse, htrue⟩ := h.maps p hp
  refine ⟨maps, (poly 0 p).eval 0, hparse, fun m hm => ?_⟩
  obtain ⟨i, hi, hget⟩ := List.mem_iff_getElem.mp hm
  rw [List.length_zip, lt_min_iff] at hi
  rw [List.getElem_zip] at hget
  have hmap : maps[i]? = some m.1 := by rw [List.getElem?_eq_getElem hi.1, ← hget]
  have hdegree : (kind.degrees t)[i]? = some m.2 := by rw [List.getElem?_eq_getElem hi.2, ← hget]
  have htrue' := htrue i m.1 hmap
  refine ⟨poly i p, ⟨htrue'.keys, h.natDegree_le p hp i m.2 hdegree, htrue'.mine, ?_⟩,
    h.sameSecret p hp i hi.2⟩
  intro role hrole
  rw [htrue'.mine role (List.mem_toFinset.mp (hroles p hrole)), h.disputed p hp i hi.2 role hrole]

theorem HonestChecks.not_disagree
    (hhonest : ∀ p ∈ honest, p ∈ partyRoles n) {i : ℕ} (hi : i < (kind.degrees t).length) {r s : Role}
    (hr : r ∈ honest) (hs : s ∈ honest) : ¬ Disagree (layerData kind received i) r s := by
  obtain ⟨mapsR, hparseR, htrueR⟩ := h.maps r hr
  obtain ⟨mapsS, hparseS, htrueS⟩ := h.maps s hs
  have hiR : i < mapsR.length := (LocalShare.length_of_parse hparseR t).symm ▸ hi
  have hiS : i < mapsS.length := (LocalShare.length_of_parse hparseS t).symm ▸ hi
  unfold Disagree layerData
  rw [hparseR, hparseS, Option.bind_some, Option.bind_some, List.getElem?_eq_getElem hiR,
    List.getElem?_eq_getElem hiS, Option.bind_some, Option.bind_some, not_not,
    (htrueR i _ (List.getElem?_eq_getElem hiR)).all s hs,
    (htrueS i _ (List.getElem?_eq_getElem hiS)).mine r (hhonest r hr)]

end Repetition

end ThresholdKms
