import ThresholdKms.LocalShareChecks

/-!
# The vectors of shares

Every party sends each party its shares of all secrets in one vector. A vector that is missing or of
the wrong type is replaced by zeros and a short one is filled up with them. A long one is kept, and
with it the check of the sharings fails.
-/

namespace ThresholdKms

open Tally

/-- The values that are sent; `other` is a value of another type or none. -/
inductive ShareMessage (Z : Type) where
  | vecRingValue (values : List Z)
  | vecPairRingValue (values : List (Z × Z))
  | other

/-- How the vector for each degree is read from a message. -/
def LocalShare.vectors {Z : Type} : LocalShare → List (ShareMessage Z → Option (List Z))
  | single => [fun | .vecRingValue values => some values | _ => none]
  | double => [Prod.fst, Prod.snd].map fun part =>
    fun | .vecPairRingValue values => some (values.map part) | _ => none

variable {Z : Type} [CommRing Z] (session : LargeSession) (len : ℕ)

/-- Whether the party communicates with the role. -/
def checkRoles (role : Role) : Prop :=
  role ≠ myRole session ∧ role ∉ corruptRoles session ∧ ¬ session.Disputed (myRole session) role

instance (role : Role) : Decidable (checkRoles session role) := inferInstanceAs (Decidable (_ ∧ _))

def fillUp (v : List Z) : List Z := v ++ List.replicate (len - v.length) 0

variable (result : HashMap Role (List Z))

def fillRole (role : Role) : HashMap Role (List Z) :=
  match result.lookup role with
  | none => result.insert role (List.replicate len 0)
  | some v => if v.length < len then result.insert role (fillUp len v) else result

def fillIncompleteOutput : HashMap Role (List Z) :=
  (sessionRoles session).foldl (fillRole len) result

variable (vector : ShareMessage Z → Option (List Z)) (received : Role → ShareMessage Z)

/-- The vectors received from the others and the own one. -/
def allShares (own : ShareMessage Z) : HashMap Role (List Z) :=
  let vectorOf := fun message => (vector message).getD (List.replicate len 0)
  fillIncompleteOutput session len ((collect (((sessionRoles session).filter (checkRoles session)).map
    fun role => (role, vectorOf (received role)))).insert (myRole session) (vectorOf own))

/-- `send_and_receive_share_dispute_single` and `_double`, with one output for each degree. -/
def sendAndReceiveShareDispute (kind : LocalShare) (polypointsMap : HashMap Role (ShareMessage Z)) :
    Outcome (List (ShareDisputeOutput Z)) :=
  match polypointsMap.lookup (myRole session) with
  | none => Outcome.err (match kind with
      | .single => s!"I am {myRole session} and can not find my own share"
      | .double => "Can not find my own share")
  | some own => kind.vectors.mapM fun vector => do
      let sharesOwnSecret ← polypointsMap.entries.mapM fun entry =>
        match vector entry.2 with
        | some v => .ok (entry.1, v)
        | none => Outcome.err "I had an incorrect type inside my own share sampling."
      return ⟨allShares session len vector received own, collect sharesOwnSecret⟩

/-- The map has a vector of the length for every role of the session. -/
def Shaped (shares : HashMap Role (List Z)) : Prop :=
  ∀ role, match shares.lookup role with
    | some v => role ∈ sessionRoles session ∧ v.length = len
    | none => role ∉ sessionRoles session

/-- The own vectors have the expected type, and the one for the party itself the length. -/
structure Dealt (kind : LocalShare) (polypointsMap : HashMap Role (ShareMessage Z)) : Prop where
  typed : ∀ vector ∈ kind.vectors, ∀ role message, polypointsMap.lookup role = some message →
    (vector message).isSome
  own : ∃ message, polypointsMap.lookup (myRole session) = some message ∧
    ∀ vector ∈ kind.vectors, ∀ v, vector message = some v → v.length = len

/-- The roles that are not heard have zeros, the shape is right unless a vector is too long, and with
the right shape the check values are computed. -/
structure KeepsShape (shares : HashMap Role (List Z)) : Prop where
  zeros : ∀ role ∈ sessionRoles session, role ≠ myRole session →
    ¬ checkRoles session role ∨ vector (received role) = none →
      shares.lookup role = some (List.replicate len 0)
  shaped_iff : Shaped session len shares ↔ ∀ role ∈ sessionRoles session, checkRoles session role →
    ∀ v, vector (received role) = some v → v.length ≤ len
  checked : Shaped session len shares → ∀ numPads pads challenges g, Shaped session numPads pads →
    g < numPads → (∀ role ∈ sessionRoles session, ∃ c, challenges role = some c ∧ c.length = len) →
      ∃ values, computeCheckValues pads challenges shares g none = .ok values

variable {session len vector received}

theorem length_fillUp {v : List Z} : (fillUp len v).length = len ↔ v.length ≤ len := by
  rw [fillUp, List.length_append, List.length_replicate]
  omega

theorem lookup_fillRole (r role : Role) : (fillRole len result r).lookup role = if role = r then
      some (fillUp len ((result.lookup r).getD [])) else result.lookup role := by
  unfold fillRole
  cases hr : result.lookup r with
  | none => exact lookup_insert_eq result r role _
  | some v =>
    dsimp only [Option.getD_some]
    split_ifs with hlen heq heq
    · rw [lookup_insert_eq, if_pos heq]
    · rw [lookup_insert_eq, if_neg heq]
    · rw [heq, hr, fillUp, Nat.sub_eq_zero_of_le (not_lt.mp hlen), List.replicate_zero,
        List.append_nil]
    · rfl

theorem lookup_foldl_fillRole (roles : List Role) (result : HashMap Role (List Z)) (role : Role) :
    (roles.foldl (fillRole len) result).lookup role = if role ∈ roles then
      some (fillUp len ((result.lookup role).getD [])) else result.lookup role := by
  induction roles generalizing result with
  | nil => rfl
  | cons r roles ih =>
    rw [List.foldl_cons, ih, lookup_fillRole]
    by_cases hr : role = r
    · subst hr
      simp [fillUp]
      omega
    · simp [hr]

theorem Shaped.exists_checkValues {shares pads : HashMap Role (List Z)} {numPads g : ℕ}
    {challenges : Role → Option (List Z)} (hshares : Shaped session len shares)
    (hpads : Shaped session numPads pads) (hg : g < numPads)
    (hchallenges : ∀ role ∈ sessionRoles session, ∃ c, challenges role = some c ∧ c.length = len) :
    ∃ values, computeCheckValues pads challenges shares g none = .ok values := by
  have hvalue : ∀ role v, pads.lookup role = some v → checkValueOf challenges shares g none role v =
      .ok (checkValue (((pads.lookup role).getD []).getD g 0) ((challenges role).getD [])
        ((shares.lookup role).getD [])) := by
    intro role v hv
    have hpad := hpads role
    have hshare := hshares role
    rw [hv] at hpad
    obtain ⟨c, hc, hlen⟩ := hchallenges role hpad.1
    cases hs : shares.lookup role with
    | none =>
      rw [hs] at hshare
      exact absurd hpad.1 hshare
    | some s =>
      rw [hs] at hshare
      rw [hv, hc]
      exact checkValueOf_eq (hpad.2 ▸ hg) hc hs (hlen.trans hshare.2.symm)
  obtain ⟨values, hvalues, -⟩ := computeCheckValues_eq _ hvalue
  exact ⟨values, hvalues⟩

section Shape

variable {own : ShareMessage Z} (hme : myRole session ∈ sessionRoles session)
include hme

theorem lookup_allShares (role : Role) :
    (allShares session len vector received own).lookup role = if role ∈ sessionRoles session then
      some (fillUp len (if role = myRole session then (vector own).getD (List.replicate len 0)
        else if checkRoles session role then (vector (received role)).getD (List.replicate len 0)
        else [])) else none := by
  rw [allShares, fillIncompleteOutput, lookup_foldl_fillRole, lookup_insert_eq,
    lookup_collect_map _ (fun role => (vector (received role)).getD (List.replicate len 0))]
  by_cases hrole : role ∈ sessionRoles session
  · simp only [hrole, if_true, List.mem_filter, true_and, decide_eq_true_eq]
    split_ifs
    · rfl
    · rfl
    · rfl
  · have hne : role ≠ myRole session := fun heq => hrole (heq ▸ hme)
    simp [hrole, hne]

theorem keepsShape_allShares (hown : ∀ v, vector own = some v → v.length = len) :
    KeepsShape session len vector received (allShares session len vector received own) where
  zeros role hrole hne hnone := by
    rw [lookup_allShares hme]
    split_ifs with hcheck
    · rw [hnone.resolve_left (not_not.mpr hcheck)]
      simp [fillUp]
    · rfl
  shaped_iff := by
    constructor
    · intro h role hrole hcheck v hv
      have hlen := h role
      rw [lookup_allShares hme, if_pos hrole, if_neg hcheck.1, if_pos hcheck, hv] at hlen
      exact length_fillUp.mp hlen.2
    · intro h role
      rw [lookup_allShares hme]
      split_ifs with hrole heq hcheck
      · refine ⟨hrole, length_fillUp.mpr ?_⟩
        cases hv : vector own with
        | none => simp
        | some v => exact (hown v hv).le
      · refine ⟨hrole, length_fillUp.mpr ?_⟩
        cases hv : vector (received role) with
        | none => simp
        | some v => exact h role hrole hcheck v hv
      · exact ⟨hrole, length_fillUp.mpr (Nat.zero_le _)⟩
      · exact hrole
  checked hshaped _ _ _ _ hpads hg hchallenges := hshaped.exists_checkValues hpads hg hchallenges

end Shape

/-- The outputs have the right shape exactly if no party that is heard sends too long a vector. -/
theorem sendAndReceiveShareDispute_keepsShape (kind : LocalShare) (session : LargeSession)
    (hme : myRole session ∈ sessionRoles session) (numSecrets : ℕ)
    (polypointsMap : HashMap Role (ShareMessage Z)) (received : Role → ShareMessage Z)
    (hdealt : Dealt session numSecrets kind polypointsMap) :
    ∃ outputs, sendAndReceiveShareDispute session numSecrets received kind polypointsMap =
      .ok outputs ∧ List.Forall₂ (fun vector output =>
        KeepsShape session numSecrets vector received output.allShares) kind.vectors outputs := by
  obtain ⟨own, hlookup, hown⟩ := hdealt.own
  refine ⟨kind.vectors.map fun vector => ⟨allShares session numSecrets vector received own,
    collect (polypointsMap.entries.map fun entry => (entry.1, (vector entry.2).getD []))⟩, ?_, ?_⟩
  · unfold sendAndReceiveShareDispute
    rw [hlookup]
    refine Outcome.mapM_eq_ok fun vector hvector => ?_
    rw [Outcome.mapM_eq_ok (g := fun entry => (entry.1, (vector entry.2).getD []))]
    · rfl
    · intro entry hentry
      obtain ⟨v, hv⟩ := Option.isSome_iff_exists.mp
        (hdealt.typed vector hvector entry.1 entry.2 (AList.mem_lookup_iff.mpr hentry))
      rw [hv]
      rfl
  · rw [List.forall₂_map_right_iff, List.forall₂_same]
    exact fun vector hvector => keepsShape_allShares hme (hown vector hvector)

/-- The zeros that the first of four parties deals. -/
def dealtZeros : HashMap Role (ShareMessage (GaloisRing BaseRing.z64.bits .three)) :=
  collect ((partyRoles 4).map fun role => (role, .vecRingValue [0]))

/-- The second party sends its value, the third one sends none, and the fourth a pair. -/
def mixedMessages (sender : Role) : ShareMessage (GaloisRing BaseRing.z64.bits .three) :=
  if sender = 2 then .vecRingValue [1] else if sender = 3 then .vecRingValue []
    else .vecPairRingValue [(1, 0)]

theorem sendAndReceiveShareDispute_keepsShape_mixed :
    ∃ outputs, sendAndReceiveShareDispute ⟨⟨1, 4, 1, ∅⟩, .new⟩ 1 mixedMessages .single dealtZeros =
      .ok outputs ∧ List.Forall₂ (fun vector output => KeepsShape ⟨⟨1, 4, 1, ∅⟩, .new⟩ 1 vector
        mixedMessages output.allShares) LocalShare.single.vectors outputs := by
  refine sendAndReceiveShareDispute_keepsShape .single _ (by decide) 1 _ _ ⟨?_, _, rfl, ?_⟩
  · rintro vector hvector role message hmessage
    obtain rfl := List.mem_singleton.mp hvector
    obtain ⟨_, -, heq⟩ := List.mem_map.mp (mem_of_lookup_collect hmessage)
    cases heq
    rfl
  · rintro vector hvector v hv
    obtain rfl := List.mem_singleton.mp hvector
    cases hv
    rfl

/-- The other parties send two values instead of one. -/
theorem longVector_stops_check :
    ∃ pads output, sendAndReceiveShareDispute ⟨⟨1, 4, 1, ∅⟩, .new⟩ 1 (fun _ => .vecRingValue [0]) .single
        dealtZeros = .ok [pads] ∧
      sendAndReceiveShareDispute ⟨⟨1, 4, 1, ∅⟩, .new⟩ 1 (fun _ => .vecRingValue [0, 0]) .single
        dealtZeros = .ok [output] ∧ ¬ Shaped ⟨⟨1, 4, 1, ∅⟩, .new⟩ 1 output.allShares ∧
      computeCheckValues pads.allShares (fun _ => some [0]) output.allShares 0 none =
        Outcome.err "Inconsistent vector lengths" := by
  refine ⟨_, _, rfl, rfl, fun h => ?_, rfl⟩
  have hlen := (h 2).2
  exact absurd hlen (by decide)

end ThresholdKms
