import ThresholdKms.BroadcastRounds

/-!
# Validity and agreement of the broadcast

The votes of a corrupt party are counted again in every round, so that a few parties can lift a key
over a threshold that grows by one in each round. As long as they do not, every honest party returns
the values of all honest senders.

Votes are private, so a corrupt party can vote at one honest party only and lift a key over the
threshold there. As long as the votes of the corrupt parties are the same for all honest parties, and
count once, all of them return the same values.
-/

namespace ThresholdKms

open Tally

namespace BroadcastRun

variable {round round' : ℕ}

section Bounds

variable {P H : Type} [DecidableEq H] (R : BroadcastRun P H)

/-- The key of the message of an honest sender. -/
def HonestKey (k : Role × H) : Prop :=
  k.1 ∈ R.senders ∧ k.1 ∈ R.honest ∧ k.2 = R.toBcastHash (R.message k.1)

/-- Corrupt parties alone reach no threshold for any other key. -/
structure BoundedVotes : Prop where
  below_round : ∀ p ∈ R.honest, ∀ k : Role × H, ¬ R.HonestKey k → ∀ round, round < R.threshold →
    R.corruptVotes p k (round + 1) < R.threshold + (round + 1)
  below_quorum : ∀ p ∈ R.honest, ∀ k : Role × H, ¬ R.HonestKey k →
    R.corruptVotes p k (R.threshold + 1) < R.numParties - R.threshold

/-- Each corrupt party votes at most once for a key, and for the keys of corrupt senders all honest
parties count the same number of these votes. -/
structure ConsistentVotes : Prop where
  once : ∀ p ∈ R.honest, ∀ k : Role × H, ¬ R.HonestKey k →
    R.corruptVotes p k (R.threshold + 1) ≤ R.corrupted.length
  same : ∀ p ∈ R.honest, ∀ q ∈ R.honest, ∀ k : Role × H, k.1 ∈ R.corrupted →
    R.corruptVotes p k (R.threshold + 1) = R.corruptVotes q k (R.threshold + 1)

variable {R}

theorem corruptVotes_le_mul (p : Role) (k : Role × H) (round : ℕ) :
    R.corruptVotes p k round ≤ round * R.corrupted.length := by
  induction round with
  | zero => exact Nat.zero_le _
  | succ round ih =>
    rw [Nat.succ_mul]
    exact Nat.add_le_add ih List.countP_le_length

theorem corruptVotes_mono (p : Role) (k : Role × H) (h : round ≤ round') :
    R.corruptVotes p k round ≤ R.corruptVotes p k round' := by
  induction h with
  | refl => exact le_rfl
  | step _ ih => exact ih.trans (Nat.le_add_right _ _)

theorem boundedVotes_of_threshold_le_one (hR : R.Admissible) (ht : R.threshold ≤ 1) :
    R.BoundedVotes := by
  have hlt := hR.threshold_lt
  have hle := hR.corrupted_le
  constructor
  · intro p _ k _ round hround
    have hvotes := corruptVotes_le_mul (R := R) p k (round + 1)
    have hone : round = 0 := by omega
    subst hone
    omega
  · intro p _ k _
    have hvotes := corruptVotes_le_mul (R := R) p k (R.threshold + 1)
    rcases Nat.le_one_iff_eq_zero_or_eq_one.mp ht with hzero | hone
    · rw [hzero] at hvotes hle hlt ⊢
      omega
    · rw [hone] at hvotes hle hlt ⊢
      omega

theorem ConsistentVotes.boundedVotes (hR : R.Admissible) (h : R.ConsistentVotes) :
    R.BoundedVotes := by
  have hlt := hR.threshold_lt
  have hle := hR.corrupted_le
  constructor
  · intro p hp k hk round hround
    have honce := h.once p hp k hk
    have hmono := corruptVotes_mono (R := R) p k (show round + 1 ≤ R.threshold + 1 by omega)
    omega
  · intro p hp k hk
    have honce := h.once p hp k hk
    omega

end Bounds

variable {P H : Type} [DecidableEq P] [DecidableEq H] {R : BroadcastRun P H}

theorem honestVotes_mono (k : Role × H) (h : round ≤ round') :
    R.honestVotes k round ≤ R.honestVotes k round' := by
  induction h with
  | refl => exact le_rfl
  | step _ ih => exact ih.trans (Nat.le_add_right _ _)

section Bounded

variable (hR : R.Admissible) (hbound : R.BoundedVotes) {p : Role} (hp : p ∈ R.honest) {k : Role × H}
include hR

theorem finalVotes_of_honest {s : Role} (hs : s ∈ R.senders)
    (hhonest : s ∈ R.honest) (p : Role) : R.numParties - R.threshold ≤
      R.finalVotes p (s, R.toBcastHash (R.message s)) := by
  have hall : R.honest.countP (R.votes 0 (s, R.toBcastHash (R.message s))) = R.honest.length := by
    rw [List.countP_eq_length]
    intro q hq
    exact (votes_zero_iff hR hq _).mpr (registers_of_honest hR hq hs hhonest)
  have hmono := honestVotes_mono (R := R) (s, R.toBcastHash (R.message s))
    (show 1 ≤ R.threshold + 1 by omega)
  rw [honestVotes, honestVotes] at hmono
  have hlength := length_honest_add (R := R)
  have hle := hR.corrupted_le
  rw [finalVotes]
  omega

include hp in
omit [DecidableEq H] in
theorem HonestKey.registers (h : R.HonestKey k) : R.Registers p k := by
  obtain ⟨hsender, hhonest, heq⟩ := h
  have hreg := registers_of_honest hR hp hsender hhonest
  rwa [← heq] at hreg

include hbound

/-- No honest party votes for a key that none of them has registered. -/
theorem allVoting_of_boundedVotes {round : ℕ} (hround : round ≤ R.threshold) : R.AllVoting round ∧
      ∀ k : Role × H, (∀ p ∈ R.honest, ¬ R.Registers p k) → R.honestVotes k (round + 1) = 0 := by
  have hkey : ∀ p ∈ R.honest, ∀ k : Role × H, ¬ R.Registers p k → ¬ R.HonestKey k :=
    fun p hp k hreg hk => hreg (hk.registers hR hp)
  induction round with
  | zero =>
    refine ⟨allVoting_zero hR, ?_⟩
    intro k hk
    rw [honestVotes, honestVotes, zero_add, List.countP_eq_zero]
    intro p hp hv
    exact hk p hp ((votes_zero_iff hR hp k).mp hv)
  | succ round ih =>
    obtain ⟨hall, hzero⟩ := ih (by omega)
    have hstep := fun p (hp : p ∈ R.honest) => voting_succ hp (by
      intro k hk
      by_contra hrole
      have hunregistered : ∀ q ∈ R.honest, ¬ R.Registers q k :=
        fun q hq hreg => hrole (hreg.mem_senders hR hq)
      rw [hzero k hunregistered] at hk
      have hlt := hbound.below_round p hp k (hkey p hp k (hunregistered p hp)) round (by omega)
      omega) hall (by omega)
    refine ⟨fun p hp => (hstep p hp).1, ?_⟩
    intro k hk
    rw [honestVotes, hzero k hk, zero_add, List.countP_eq_zero]
    intro p hp hv
    have hvotes := (hstep p hp).2 k hv
    rw [hzero k hk] at hvotes
    have hlt := hbound.below_round p hp k (hkey p hp k (hk p hp)) round (by omega)
    omega

include hp

/-- A key with enough votes in the end was registered by an honest party. -/
theorem exists_registers_of_finalVotes (hvotes : R.numParties - R.threshold ≤ R.finalVotes p k) :
    ∃ q ∈ R.honest, R.Registers q k := by
  by_contra hnone
  have hk : ∀ q ∈ R.honest, ¬ R.Registers q k := fun q hq hreg => hnone ⟨q, hq, hreg⟩
  rw [finalVotes, (allVoting_of_boundedVotes hR hbound le_rfl).2 k hk] at hvotes
  have hlt := hbound.below_quorum p hp k (fun hkey => hk p hp (hkey.registers hR hp))
  omega

theorem returnsVoted_of_boundedVotes : R.ReturnsVoted p := by
  refine returnsVoted_of_values hp hR (allVoting_of_boundedVotes hR hbound le_rfl).1 ?_
  intro k hk
  obtain ⟨q, hq, hreg⟩ := exists_registers_of_finalVotes hR hbound hp hk
  exact hreg.lookup_ne_none hR hq hp

theorem execute_lookup_honest {result : RoleValueMap P} (hresult : R.execute p = .ok result) {s : Role}
    (hs : s ∈ R.senders) (hhonest : s ∈ R.honest) : result.lookup s = some (R.message s) := by
  obtain ⟨result', hrun, hvalue, -⟩ := returnsVoted_of_boundedVotes hR hbound hp
  rw [hresult] at hrun
  cases hrun
  have hvotes := finalVotes_of_honest hR hs hhonest p
  have hlookup := hvalue _ hvotes (by
    intro h hvotes'
    obtain ⟨q, hq, hreg⟩ := exists_registers_of_finalVotes hR hbound hp hvotes'
    exact hreg.unique hR hq (registers_of_honest hR hq hs hhonest))
  obtain ⟨v, hv⟩ := Option.ne_none_iff_exists'.mp
    ((registers_of_honest hR hp hs hhonest).lookup_ne_none hR hp hp)
  have hmessage : v = R.message s := hR.hash_injective (hash_of_lookup_processEchos hv)
  rw [hlookup, hv, hmessage]

end Bounded

/-- Every honest party returns, and its result has the message of every honest sender. -/
theorem execute_validity (hR : R.Admissible) (hbound : R.BoundedVotes) {p : Role}
    (hp : p ∈ R.honest) : ∃ result, R.execute p = .ok result ∧
      ∀ s ∈ R.senders, s ∈ R.honest → result.lookup s = some (R.message s) := by
  obtain ⟨result, hrun, -⟩ := returnsVoted_of_boundedVotes hR hbound hp
  exact ⟨result, hrun, fun s hs hhonest => execute_lookup_honest hR hbound hp hrun hs hhonest⟩

def storedOrder : IterOrder (Role × BroadcastValue ℕ) ℕ := ⟨id, fun l => List.Perm.refl l⟩

/-- Four parties, one of which sends different values to the others and votes twice. -/
def equivocatingSender : BroadcastRun ℕ (BroadcastValue ℕ) where
  numParties := 4
  threshold := 1
  senders := [1, 4]
  toBcastHash := id
  corrupt := [4]
  message := fun _ => .payload 5
  adversary := fun round _ p =>
    match round, p with
    | 0, 3 => some (.send (.payload 8))
    | 0, _ => some (.send (.payload 7))
    | 1, 1 => some (.echoBatch (collect [(4, .payload 7)]))
    | _, 2 => some (.voteBatch (collect [(4, .payload 7)]))
    | _, _ => some .empty
  order := fun _ _ => storedOrder

theorem equivocatingSender_admissible : equivocatingSender.Admissible :=
  ⟨by decide, by decide, by decide, by decide, Function.injective_id⟩

theorem execute_validity_equivocatingSender :
    ∃ result, equivocatingSender.execute 2 = .ok result ∧
      ∀ s ∈ equivocatingSender.senders, s ∈ equivocatingSender.honest →
        result.lookup s = some (equivocatingSender.message s) :=
  execute_validity equivocatingSender_admissible
    (boundedVotes_of_threshold_le_one equivocatingSender_admissible (by decide)) (by decide)

/-- Seven parties, two of which vote twice for a party that is not a sender. -/
def votesForNonSender : BroadcastRun ℕ (BroadcastValue ℕ) where
  numParties := 7
  threshold := 2
  senders := [1]
  toBcastHash := id
  corrupt := [6, 7]
  message := fun _ => .payload 5
  adversary := fun round _ _ =>
    match round with
    | 2 => some (.voteBatch (collect [(2, .payload 7)]))
    | 3 => some (.voteBatch (collect [(2, .payload 7)]))
    | _ => some .empty
  order := fun _ _ => storedOrder

theorem votesForNonSender_fails : votesForNonSender.Admissible ∧ 1 ∈ votesForNonSender.honest ∧
    ∀ p ∈ votesForNonSender.honest,
      votesForNonSender.execute p = Outcome.err "Cant retrieve whether I casted a vote" := by
  have hfault : ∀ p ∈ votesForNonSender.honest, (votesForNonSender.execute p).fault =
      some (.err "Cant retrieve whether I casted a vote") := by decide +kernel
  refine ⟨⟨by decide, by decide, by decide, by decide, Function.injective_id⟩, by decide, ?_⟩
  intro p hp
  exact Outcome.eq_error_of_fault (hfault p hp)

theorem honestVotes_eq_sum (k : Role × H) (round : ℕ) :
    R.honestVotes k (round + 1) = (R.honest.map (fun p => R.votesCast k p round)).sum := by
  induction round with
  | zero =>
    rw [honestVotes, honestVotes, zero_add, countP_eq_sum]
    rfl
  | succ round ih =>
    rw [honestVotes, ih, countP_eq_sum, ← List.sum_map_add]
    rfl

variable (hR : R.Admissible)
include hR

theorem honestVotes_add_le (hbound : R.BoundedVotes) (role : Role) {h h' : H}
    (hne : h ≠ h') : R.honestVotes (role, h) (R.threshold + 1) +
      R.honestVotes (role, h') (R.threshold + 1) ≤ R.honest.length := by
  rw [honestVotes_eq_sum, honestVotes_eq_sum, ← List.sum_map_add]
  have hone : ∀ x ∈ R.honest.map (fun p => R.votesCast (role, h) p R.threshold +
      R.votesCast (role, h') p R.threshold), x ≤ 1 := by
    intro x hx
    obtain ⟨p, hp, rfl⟩ := List.mem_map.mp hx
    obtain ⟨⟨st, -, hst⟩, -⟩ := (allVoting_of_boundedVotes hR hbound le_rfl).1 p hp
    refine (hst.casted_once role h h' hne).trans ?_
    split_ifs
    · exact le_rfl
    · exact Nat.zero_le _
  have hsum := List.sum_le_card_nsmul _ 1 hone
  rwa [List.length_map, smul_eq_mul, mul_one] at hsum

variable {p role : Role}

theorem finalVotes_unique (hvotes : R.ConsistentVotes)
    (hp : p ∈ R.honest) (hrole : role ∈ R.corrupted) {h h' : H}
    (hh : R.numParties - R.threshold ≤ R.finalVotes p (role, h))
    (hh' : R.numParties - R.threshold ≤ R.finalVotes p (role, h')) : h = h' := by
  by_contra hne
  have hnot : ∀ h, ¬ R.HonestKey (role, h) :=
    fun h hkey => (mem_honest.mp hkey.2.1).2 (mem_corrupted.mp hrole).2
  have honce := hvotes.once p hp (role, h) (hnot h)
  have honce' := hvotes.once p hp (role, h') (hnot h')
  have hhonest := honestVotes_add_le hR (hvotes.boundedVotes hR) role hne
  have hlength := length_honest_add (R := R)
  have hlt := hR.threshold_lt
  have hle := hR.corrupted_le
  rw [finalVotes] at hh hh'
  omega

variable {result : RoleValueMap P}

theorem lookup_corrupted (hvotes : R.ConsistentVotes)
    (hp : p ∈ R.honest) (hrole : role ∈ R.corrupted) (hsender : role ∈ R.senders)
    (hresult : R.execute p = .ok result) :
    (∀ h, R.numParties - R.threshold ≤ R.finalVotes p (role, h) →
      ∃ v, R.toBcastHash v = h ∧ result.lookup role = some v) ∧
    ((∀ h, R.finalVotes p (role, h) < R.numParties - R.threshold) →
      result.lookup role = some .bot) := by
  have hbound := hvotes.boundedVotes hR
  obtain ⟨result', hrun, hvalue, hrest⟩ := returnsVoted_of_boundedVotes hR hbound hp
  rw [hresult] at hrun
  cases hrun
  constructor
  · intro h hh
    have hlookup := hvalue (role, h) hh
      (fun h' hh' => finalVotes_unique hR hvotes hp hrole hh' hh)
    obtain ⟨q, hq, hreg⟩ := exists_registers_of_finalVotes hR hbound hp hh
    obtain ⟨v, hv⟩ := Option.ne_none_iff_exists'.mp (hreg.lookup_ne_none hR hq hp)
    exact ⟨v, hash_of_lookup_processEchos hv, hlookup.trans hv⟩
  · intro hnone
    rw [hrest role hnone, lookup_initialData, if_pos hsender, if_neg (ne_of_mem hp hrole)]

theorem lookup_nonSender (hbound : R.BoundedVotes) (hp : p ∈ R.honest) (hsender : role ∉ R.senders)
    (hresult : R.execute p = .ok result) : result.lookup role = none := by
  obtain ⟨result', hrun, -, hrest⟩ := returnsVoted_of_boundedVotes hR hbound hp
  rw [hresult] at hrun
  cases hrun
  rw [hrest role, lookup_initialData, if_neg hsender]
  intro h
  by_contra hh
  obtain ⟨q, hq, hreg⟩ := exists_registers_of_finalVotes hR hbound hp (not_lt.mp hh)
  exact hsender (hreg.mem_senders hR hq)

omit hR

/-- Two honest parties return the same values. -/
theorem execute_agreement (hR : R.Admissible) (hvotes : R.ConsistentVotes) {p q : Role}
    (hp : p ∈ R.honest) (hq : q ∈ R.honest) {a b : RoleValueMap P} (ha : R.execute p = .ok a)
    (hb : R.execute q = .ok b) (role : Role) : a.lookup role = b.lookup role := by
  have hbound := hvotes.boundedVotes hR
  by_cases hsender : role ∈ R.senders
  · by_cases hcorrupt : role ∈ R.corrupt
    · have hrole : role ∈ R.corrupted := mem_corrupted.mpr ⟨hR.senders_sub role hsender, hcorrupt⟩
      have hsame : ∀ h, R.finalVotes p (role, h) = R.finalVotes q (role, h) := fun h =>
        congrArg (R.honestVotes (role, h) (R.threshold + 1) + ·)
          (hvotes.same p hp q hq (role, h) hrole)
      obtain ⟨hvalue, hbot⟩ := lookup_corrupted hR hvotes hp hrole hsender ha
      obtain ⟨hvalue', hbot'⟩ := lookup_corrupted hR hvotes hq hrole hsender hb
      by_cases hnone : ∀ h, R.finalVotes p (role, h) < R.numParties - R.threshold
      · rw [hbot hnone, hbot' (fun h => hsame h ▸ hnone h)]
      · obtain ⟨h, hh⟩ := not_forall.mp hnone
        obtain ⟨v, hv, hlookup⟩ := hvalue h (not_lt.mp hh)
        obtain ⟨v', hv', hlookup'⟩ := hvalue' h (hsame h ▸ not_lt.mp hh)
        rw [hlookup, hlookup', hR.hash_injective (hv.trans hv'.symm)]
    · have hrole : role ∈ R.honest := mem_honest.mpr ⟨hR.senders_sub role hsender, hcorrupt⟩
      rw [execute_lookup_honest hR hbound hp ha hsender hrole,
        execute_lookup_honest hR hbound hq hb hsender hrole]
  · rw [lookup_nonSender hR hbound hp hsender ha, lookup_nonSender hR hbound hq hsender hb]

/-- Four parties, one of which sends different values but votes once and at everyone. -/
def publicVote : BroadcastRun ℕ (BroadcastValue ℕ) where
  numParties := 4
  threshold := 1
  senders := [1, 4]
  toBcastHash := id
  corrupt := [4]
  message := fun _ => .payload 5
  adversary := fun round _ p =>
    match round, p with
    | 0, 3 => some (.send (.payload 8))
    | 0, _ => some (.send (.payload 7))
    | 1, 1 => some (.echoBatch (collect [(4, .payload 7)]))
    | 2, _ => some (.voteBatch (collect [(4, .payload 7)]))
    | _, _ => some .empty
  order := fun _ _ => storedOrder

theorem publicVote_admissible : publicVote.Admissible :=
  ⟨by decide, by decide, by decide, by decide, Function.injective_id⟩

theorem corruptVotes_publicVote {p : Role} (hp : p ∈ publicVote.honest)
    (k : Role × BroadcastValue ℕ) : publicVote.corruptVotes p k 2 =
      (supports (some (collect [(4, BroadcastValue.payload 7)])) k).toNat := by
  have hcorrupted : publicVote.corrupted = [4] := by decide
  have hheard : ∀ p ∈ publicVote.honest, publicVote.heard p 1 4 = true := by decide
  have hempty : supports ((some NetworkValue.empty).bind
      (matchVote (P := ℕ) (H := BroadcastValue ℕ))) k = false := by
    simp [matchVote, supports]
  have hfirst : publicVote.adversary 2 4 p =
      some (.voteBatch (collect [(4, BroadcastValue.payload 7)])) := rfl
  have hsecond : publicVote.adversary 3 4 p = some .empty := rfl
  rw [corruptVotes, corruptVotes, corruptVotes, hcorrupted, List.countP_singleton,
    List.countP_singleton, hheard p hp, hfirst, hsecond, hempty]
  cases hv : supports (some (collect [(4, BroadcastValue.payload 7)])) k with
  | true => simp [matchVote, hv]
  | false => simp [matchVote, hv]

theorem publicVote_consistentVotes : publicVote.ConsistentVotes := by
  constructor
  · intro p hp k _
    refine (corruptVotes_publicVote hp k).le.trans ?_
    exact (Bool.toNat_le _).trans (by decide)
  · intro p hp q hq k _
    exact (corruptVotes_publicVote hp k).trans (corruptVotes_publicVote hq k).symm

theorem execute_agreement_publicVote : ∃ a b, publicVote.execute 1 = .ok a ∧
    publicVote.execute 2 = .ok b ∧ ∀ role, a.lookup role = b.lookup role := by
  have hreturns := fun p => returnsVoted_of_boundedVotes (p := p) publicVote_admissible
    (publicVote_consistentVotes.boundedVotes publicVote_admissible)
  obtain ⟨a, ha, -⟩ := hreturns 1 (by decide)
  obtain ⟨b, hb, -⟩ := hreturns 2 (by decide)
  exact ⟨a, b, ha, hb, execute_agreement publicVote_admissible publicVote_consistentVotes
    (by decide) (by decide) ha hb⟩

/-- Four parties, one of which sends different values, echoes at the first party only and votes at the
second party only. -/
def privateVote : BroadcastRun ℕ (BroadcastValue ℕ) where
  numParties := 4
  threshold := 1
  senders := [4]
  toBcastHash := id
  corrupt := [4]
  message := fun _ => .bot
  adversary := fun round _ p =>
    match round, p with
    | 0, 3 => some (.send (.payload 8))
    | 0, _ => some (.send (.payload 7))
    | 1, 1 => some (.echoBatch (collect [(4, .payload 7)]))
    | 2, 2 => some (.voteBatch (collect [(4, .payload 7)]))
    | _, _ => some .empty
  order := fun _ _ => storedOrder

theorem privateVote_disagrees : privateVote.Admissible ∧ 1 ∈ privateVote.honest ∧
    2 ∈ privateVote.honest ∧ ∃ a b, privateVote.execute 1 = .ok a ∧ privateVote.execute 2 = .ok b ∧
      a.lookup 4 = some .bot ∧ b.lookup 4 = some (.payload 7) := by
  have hfirst : ((privateVote.execute 1).toOption.bind (fun m => m.lookup 4)) = some .bot := by
    decide +kernel
  have hsecond : ((privateVote.execute 2).toOption.bind (fun m => m.lookup 4)) =
      some (.payload 7) := by decide +kernel
  obtain ⟨a, ha, hlookup⟩ := Option.bind_eq_some_iff.mp hfirst
  obtain ⟨b, hb, hlookup'⟩ := Option.bind_eq_some_iff.mp hsecond
  exact ⟨⟨by decide, by decide, by decide, by decide, Function.injective_id⟩, by decide, by decide,
    a, b, Outcome.eq_ok_of_toOption ha, Outcome.eq_ok_of_toOption hb, hlookup, hlookup'⟩

end BroadcastRun

end ThresholdKms
