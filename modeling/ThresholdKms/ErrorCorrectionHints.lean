import ThresholdKms.ErrorCorrectionRun

/-!
# Hints do not change the decoded polynomial

The hinted loop replaces the points, the Lagrange basis and the vanishing polynomial of the valid
parties by precomputed ones. It runs in lockstep with the plain loop as long as the hints it would
use next are the ones computed afresh from the parties that are still valid.
-/

namespace ThresholdKms

open GaloisRing Outcome

variable {w : ℕ} {e : ExtensionDegree} {F : Type} [Field F] [DecidableEq F]

theorem computeVanishingPoly_eq (points : List F) :
    computeVanishingPoly points = vanishingPoly points := by
  have hlinear : ∀ x : F, Poly.fromCoefs [-x, 1] = ⟨[-x, 1]⟩ := by
    intro x
    simp [Poly.fromCoefs, Poly.compress]
  rw [computeVanishingPoly, vanishingPoly]
  simp only [hlinear]

variable [G2p e F] (store : LagrangeStore F)

theorem fieldHints_new_eq_ok {parties : List Role}
    (hparties : Embeddable e parties) :
    ∃ polys vanishing, FieldHints.new e store parties =
        .ok ⟨parties.map (G2p.fromU8 e), polys, vanishing⟩ ∧
      lagrangePolynomials (parties.map (G2p.fromU8 e : ℕ → F)) = .ok polys ∧
      vanishingPoly (parties.map (G2p.fromU8 e : ℕ → F)) = .ok vanishing := by
  obtain ⟨polys, hpolys, -⟩ := lagrangePolynomials_eq_ok (hparties.nodup_fromU8 F)
  obtain ⟨vanishing, hvanishing, -⟩ := vanishingPoly_eq_ok (parties.map (G2p.fromU8 e : ℕ → F))
  refine ⟨polys, vanishing, ?_, hpolys, hvanishing⟩
  rw [FieldHints.new, hparties.mapM_field F, ok_bind, computeVanishingPoly_eq, hvanishing]
  cases hcached : store.cached (parties.map (G2p.fromU8 e)) with
  | some cached =>
    have hbasis := store.cached_eq _ _ hcached
    rw [hpolys] at hbasis
    cases hbasis
    rfl
  | none =>
    rw [hpolys]
    rfl

theorem errorCorrectionWithFieldHints_eq {shares : List (Share F)}
    (howners : Embeddable e (shares.map Share.owner)) {hints : FieldHints F}
    (hhints : FieldHints.new e store (shares.map Share.owner) = .ok hints) (degree maxErrors : ℕ) :
    errorCorrectionWithFieldHints shares degree maxErrors hints =
      errorCorrection e store shares degree maxErrors := by
  obtain ⟨polys, vanishing, hnew, hpolys, hvanishing⟩ := fieldHints_new_eq_ok store howners
  rw [hnew] at hhints
  cases hhints
  rw [errorCorrection, howners.mapM_field F, ok_bind,
    gaoDecoding_eq_withFieldHints store hpolys hvanishing]
  rfl

section Correction

variable {shares shares' : List (FlaggedShare w e)} {orderedPowers : List (List (GaloisRing w e))}
  {bitwise : List ℕ} {bitIdx : ℕ}

theorem correctShare_frame {s s' : FlaggedShare w e} {powers : List (GaloisRing w e)}
    (h : correctShare bitwise bitIdx (s, powers) = .ok s') :
    s'.1.owner = s.1.owner ∧ (s.2 = false → s'.2 = false) := by
  unfold correctShare at h
  split_ifs at h with hs
  · obtain ⟨value, -, h⟩ := bind_eq_ok.mp h
    obtain ⟨isValid, -, h⟩ := bind_eq_ok.mp h
    cases h
    exact ⟨rfl, fun hf => by simp_all⟩
  · cases h
    exact ⟨rfl, id⟩

theorem correctShares_frame (hlen : shares.length = orderedPowers.length)
    (h : (shares.zip orderedPowers).mapM (correctShare bitwise bitIdx) = .ok shares') :
    List.Forall₂ (fun s s' => s'.1.owner = s.1.owner ∧ (s.2 = false → s'.2 = false))
      shares shares' := by
  have hall := forall₂_of_mapM h
  clear h
  induction shares generalizing orderedPowers shares' with
  | nil =>
    cases hall
    exact List.Forall₂.nil
  | cons s shares ih =>
    cases orderedPowers with
    | nil => cases hlen
    | cons p orderedPowers =>
      cases hall with
      | cons hs hrest =>
        exact List.Forall₂.cons (correctShare_frame hs) (ih (by simpa using hlen) hrest)

theorem validParties_of_no_eviction (hframe : List.Forall₂ (fun s s' : FlaggedShare w e =>
      s'.1.owner = s.1.owner ∧ (s.2 = false → s'.2 = false)) shares shares')
    (hnone : ((shares.zip shares').filter (fun p => p.1.2 && !p.2.2)).map
      (fun p => p.2.1.owner) = []) :
    validParties shares' = validParties shares := by
  induction hframe with
  | nil => rfl
  | @cons s s' shares shares' hs _ ih =>
    obtain ⟨howner, hflag⟩ := hs
    simp only [validParties, List.filter_cons] at ih ⊢
    cases hv : s.2 <;> cases hv' : s'.2 <;> simp_all

theorem owners_of_frame (hframe : List.Forall₂ (fun s s' : FlaggedShare w e =>
      s'.1.owner = s.1.owner ∧ (s.2 = false → s'.2 = false)) shares shares') :
    shares'.map (fun s => s.1.owner) = shares.map (fun s => s.1.owner) := by
  induction hframe with
  | nil => rfl
  | cons hs _ ih => rw [List.map_cons, List.map_cons, hs.1, ih]

omit [DecidableEq F] in
theorem applyBitCorrection_frame {s s' : LiftState w e} {fiMod2 : Poly F} {evicted : List Role}
    (hlen : s.shares.length = orderedPowers.length)
    (h : applyBitCorrection s orderedPowers fiMod2 bitIdx = .ok (s', evicted)) :
    s'.shares.map (fun f => f.1.owner) = s.shares.map (fun f => f.1.owner) ∧
      (evicted = [] → validParties s'.shares = validParties s.shares) := by
  obtain ⟨shares', hmap, hret⟩ := bind_eq_ok.mp h
  have hframe := correctShares_frame hlen hmap
  cases hret
  exact ⟨owners_of_frame hframe, validParties_of_no_eviction hframe⟩

end Correction

/-- The hinted state carries the plain state, and its next hints are those of the valid parties. -/
structure Mirrors (store : LagrangeStore F) (hints : ReconstructionHints (GaloisRing w e) F)
    (hinted : HintedState w e F) (s : LiftState w e) : Prop where
  lift_eq : hinted.lift = s
  owners_eq : s.shares.map (fun f => f.1.owner) = hints.parties
  hints_eq : currentHints store hints.fieldHints hinted =
    FieldHints.new e store (validParties s.shares)

section Step

variable {store} {hints : ReconstructionHints (GaloisRing w e) F}
  {hinted : HintedState w e F} {s : LiftState w e}

theorem Mirrors.embeddable (h : Mirrors store hints hinted s)
    (hparties : Embeddable e hints.parties) : Embeddable e (validParties s.shares) := by
  apply hparties.sublist
  rw [← h.owners_eq]
  exact List.filter_sublist.map _

omit [DecidableEq F] in
theorem owners_computeBinaryShares (shares : List (FlaggedShare w e)) (i : ℕ) :
    (computeBinaryShares F shares i).map Share.owner = validParties shares := by
  rw [computeBinaryShares, validParties, List.map_map]
  rfl

/-- A hinted round and a plain round end alike. -/
theorem shamirErrorCorrectWithHintsStep_simulates (hparties : Embeddable e hints.parties)
    (hpowers : hints.parties.length = hints.exceptionalPowers.length)
    (degree maxErrors initialLength i : ℕ) (h : Mirrors store hints hinted s) :
    Simulates (Mirrors store hints)
      (shamirErrorCorrectWithHintsStep store hints degree maxErrors initialLength hinted i)
      (shamirErrorCorrectStep store hints.exceptionalPowers degree maxErrors initialLength s i) := by
  have howners := h.embeddable hparties
  obtain ⟨polys, vanishing, hnew, -, -⟩ := fieldHints_new_eq_ok store howners
  have hbinary := owners_computeBinaryShares (F := F) s.shares i
  have hdecode := errorCorrectionWithFieldHints_eq (e := e) store (hbinary ▸ howners)
    ((congrArg (FieldHints.new e store) hbinary).trans hnew)
  have hlen : s.shares.length = hints.exceptionalPowers.length := by
    rw [← hpowers, ← h.owners_eq, List.length_map]
  simp only [shamirErrorCorrectWithHintsStep, shamirErrorCorrectStep, roundBudget, h.lift_eq,
    h.hints_eq, hnew, ok_bind, hdecode, bind_assoc]
  refine (Simulates.refl _).bind (fun _ _ hbot => ?_)
  subst hbot
  refine (Simulates.refl _).bind (fun _ _ hbudget => ?_)
  subst hbudget
  refine (Simulates.refl _).bind (fun fi _ hdigit => ?_)
  subst hdigit
  cases happly : applyBitCorrection s hints.exceptionalPowers fi i with
  | error fault => exact Or.inr ⟨fault, rfl, rfl⟩
  | ok result =>
    obtain ⟨s', evicted⟩ := result
    obtain ⟨howners', hvalid'⟩ := applyBitCorrection_frame hlen happly
    simp only [ok_bind, pure_eq_ok]
    split_ifs with hnone hchanged
    · refine Simulates.ok ⟨rfl, howners'.trans h.owners_eq, ?_⟩
      rw [hvalid' hnone, hnew, currentHints, if_pos hchanged]
    · refine Simulates.ok ⟨rfl, howners'.trans h.owners_eq, ?_⟩
      have hhints := h.hints_eq
      rw [currentHints, if_neg hchanged] at hhints
      rw [hvalid' hnone, ← hhints, currentHints, if_neg hchanged]
    · exact Simulates.ok ⟨rfl, howners'.trans h.owners_eq, rfl⟩

end Step

theorem validParties_init (sharing : ShamirSharings (GaloisRing w e)) :
    validParties (LiftState.init sharing).shares = sharing.owners := by
  rw [validParties, LiftState.init, List.filter_map, List.map_map]
  exact congrArg (List.map Share.owner) (List.filter_eq_self.mpr (fun _ _ => rfl))

variable {sharing : ShamirSharings (GaloisRing w e)}

theorem mirrors_init {store : LagrangeStore F}
    (hints : ReconstructionHints (GaloisRing w e) F) (hparties : hints.parties = sharing.owners)
    (hfield : FieldHints.new e store sharing.owners = .ok hints.fieldHints) :
    Mirrors store hints ⟨LiftState.init sharing, false, none⟩ (LiftState.init sharing) := by
  refine ⟨rfl, ?_, ?_⟩
  · rw [hparties, LiftState.init, List.map_map]
    rfl
  · rw [validParties_init, hfield]
    rfl

theorem reconstructionHints_new_eq_ok
    (howners : Embeddable e sharing.owners) (degree : ℕ) :
    ∃ fieldHints, FieldHints.new e store sharing.owners = .ok fieldHints ∧
      ReconstructionHints.new store sharing degree = .ok ⟨sharing.owners, degree,
        sharing.owners.map fromByte,
        sharing.shares.map (fun o => computePowers (fromByte o.owner) degree), fieldHints⟩ := by
  obtain ⟨polys, vanishing, hnew, -, -⟩ := fieldHints_new_eq_ok store howners
  refine ⟨_, hnew, ?_⟩
  rw [ReconstructionHints.new, ReconstructionHints.fromPartiesSorted, howners.mapM_ring,
    hnew, ok_bind]
  simp only [ShamirSharings.owners, List.map_map]
  rfl

theorem shamirErrorCorrectWithHints_eq {store : LagrangeStore F}
    (howners : Embeddable e sharing.owners)
    {degree : ℕ} {hints : ReconstructionHints (GaloisRing w e) F}
    (hhints : ReconstructionHints.new store sharing degree = .ok hints) (maxErrors : ℕ) :
    shamirErrorCorrectWithHints store sharing degree maxErrors hints =
      shamirErrorCorrect store sharing degree maxErrors := by
  obtain ⟨fieldHints, hfield, hnew⟩ := reconstructionHints_new_eq_ok store howners degree
  rw [hnew] at hhints
  cases hhints
  have hinit := mirrors_init ⟨sharing.owners, degree, sharing.owners.map fromByte,
    sharing.shares.map (fun o => computePowers (fromByte o.owner) degree), fieldHints⟩ rfl hfield
  rw [shamirErrorCorrectWithHints, shamirErrorCorrect, mapM_exceptionalSet sharing degree howners,
    ok_bind]
  simp only [ne_eq, not_true, if_false]
  apply Simulates.eq
  refine Simulates.bind (Simulates.foldlM _ ?_ hinit) ?_
  · intro i hinted s h
    exact shamirErrorCorrectWithHintsStep_simulates howners (by simp [ShamirSharings.owners])
      degree maxErrors sharing.shares.length i h
  · intro hinted s h
    rw [h.lift_eq]
    exact Simulates.ok rfl

end ThresholdKms
