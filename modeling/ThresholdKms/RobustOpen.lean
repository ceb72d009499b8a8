import ThresholdKms.Reconstruction

/-!
# Collecting shares for an opening

The receive jobs of an opening complete in any order. Each one adds a share to every sharing of the
batch or counts as a bot, and once enough parties are heard from the whole batch is reconstructed.
A job whose task failed is counted and skipped without an attempt.
-/

open Polynomial ReceivedWord

namespace ThresholdKms

open GaloisRing

variable {w : ℕ} {e : ExtensionDegree} {F : Type} [Field F] [DecidableEq F] [G2p e F]

/-- What joining a receive job yields. -/
inductive JobResult (R : Type) where
  | shares (contributor : Role) (partialOpenings : List R)
  | malformed (contributor : Role)
  | timedOut
  | failed

inductive NetworkMode where
  | sync
  | async
  deriving DecidableEq, Repr

variable {R : Type}

/-- The vector is cut or padded with zeros to the length. -/
def resize [Zero R] (values : List R) (length : ℕ) : List R :=
  values.take length ++ List.replicate (length - values.length) 0

def fillIndexedShares [Zero R] (sharings : List (ShamirSharings R)) (values : List R)
    (partyId : Role) : List (ShamirSharings R) :=
  List.zipWith (fun v sharing => sharing.addShare ⟨partyId, v⟩) (resize values sharings.length)
    sharings

abbrev ReconsFunc (w : ℕ) (e : ExtensionDegree) (F : Type) :=
  ℕ → ℕ → ℕ → ℕ → ShamirSharings (GaloisRing w e) → ReconstructionHints (GaloisRing w e) F →
    Outcome (Option (GaloisRing w e))

variable (store : LagrangeStore F)

def selectReconstruction (numParties degree t : ℕ) :
    NetworkMode → ReconsFunc w e F × ℕ
  | .sync => (reconstructWErrorsSync store, degree + 2 * t)
  | .async =>
    if degree + 3 * t < numParties then
      (reconstructWErrorsAsync store, degree + 2 * t)
    else
      (reconstructWErrorsAsync store, degree + t)

/-- The `unwrap_or_default` of a fallible optional value. -/
def unwrapOrDefault {α : Type} : Outcome (Option α) → Outcome (Option α)
  | .error (.err _) => .ok none
  | x => x

def attemptReconstruction (reconstructFn : ReconsFunc w e F)
    (numParties degree threshold numBots : ℕ) (sharings : List (ShamirSharings (GaloisRing w e))) :
    Outcome (Option (List (GaloisRing w e))) :=
  match sharings with
  | [] => .ok (some [])
  | first :: rest => do
      let hints ← ReconstructionHints.new store first degree
      let opened ← (first :: rest).mapM (fun sharing =>
        unwrapOrDefault (reconstructFn numParties degree threshold numBots sharing hints))
      return opened.mapM id

structure OpenState (w : ℕ) (e : ExtensionDegree) where
  sharings : List (ShamirSharings (GaloisRing w e))
  numBots : ℕ
  collectedShares : ℕ
  hasAttempted : Bool
  lastReconstructionAttempt : ℕ

namespace OpenState

variable (s : OpenState w e)

def addBot : OpenState w e := { s with numBots := s.numBots + 1 }

def collect (contributor : Role) (values : List (GaloisRing w e)) :
    OpenState w e :=
  { s with
    sharings := fillIndexedShares s.sharings values contributor
    collectedShares := s.collectedShares + 1 }

def receive : JobResult (GaloisRing w e) → OpenState w e
  | .shares contributor values => s.collect contributor values
  | .malformed _ => s.addBot
  | .timedOut => s.addBot
  | .failed => s.addBot

def shouldAttempt (initialShares attemptBound : ℕ) (jobsEmpty : Bool) : Bool :=
  decide (attemptBound < initialShares + s.collectedShares + s.numBots) &&
    (!s.hasAttempted || decide (s.lastReconstructionAttempt < s.collectedShares) || jobsEmpty)

def attempted : OpenState w e :=
  { s with hasAttempted := true, lastReconstructionAttempt := s.collectedShares }

end OpenState

def JobResult.isFailed : JobResult R → Bool
  | .failed => true
  | _ => false

/-- The loop over the completed jobs. -/
def reconstructLoop (store : LagrangeStore F) (reconstructFn : ReconsFunc w e F)
    (numParties degree threshold initialShares attemptBound : ℕ) :
    OpenState w e → List (JobResult (GaloisRing w e)) → Outcome (Option (List (GaloisRing w e)))
  | _, [] => Outcome.err "Could not reconstruct the sharing"
  | s, job :: jobs =>
    if job.isFailed then
      reconstructLoop store reconstructFn numParties degree threshold initialShares attemptBound
        s.addBot jobs
    else if (s.receive job).shouldAttempt initialShares attemptBound jobs.isEmpty then do
      let res ← attemptReconstruction store reconstructFn numParties degree threshold
        (s.receive job).numBots (s.receive job).sharings
      match res with
      | some opened => .ok (some opened)
      | none =>
        reconstructLoop store reconstructFn numParties degree threshold initialShares
          attemptBound (s.receive job).attempted jobs
    else
      reconstructLoop store reconstructFn numParties degree threshold initialShares attemptBound
        (s.receive job) jobs

def tryReconstructFromShares (numParties threshold numBots : ℕ)
    (sharings : List (ShamirSharings (GaloisRing w e))) (degree : ℕ)
    (jobs : List (JobResult (GaloisRing w e))) (networkMode : NetworkMode) :
    Outcome (Option (List (GaloisRing w e))) :=
  let selected := selectReconstruction store numParties degree threshold networkMode
  let initialShares := (sharings.head?.map (fun s => s.shares.length)).getD 0
  reconstructLoop store selected.1 numParties degree threshold initialShares selected.2
    ⟨sharings, numBots, 0, false, 0⟩ jobs

/-!
## Batches of sharings

All sharings of a batch are filled with the same contributors, so one set of hints serves them all.
A batch whose wrong shares fit what bots leave of the threshold opens in one attempt.
-/

open ShamirSharings

/-- Every sharing of the batch has these owners and at most this many wrong shares. -/
def BatchWithin (fs : List (GaloisRing w e)[X]) (owners : List Role) (lies : ℕ)
    (sharings : List (ShamirSharings (GaloisRing w e))) : Prop :=
  List.Forall₂ (fun f s => s.owners = owners ∧ disagreements (sharingWord s) f ≤ lies) fs sharings

variable {fs : List (GaloisRing w e)[X]} {owners : List Role} {lies : ℕ}
  {sharings : List (ShamirSharings (GaloisRing w e))}

section Share

variable {s : ShamirSharings (GaloisRing w e)} (share : Share (GaloisRing w e))
  (h : share.owner ∉ s.owners)
include h

theorem sharingWord_addShare_perm :
    (sharingWord (s.addShare share)).Perm ((fromByte share.owner, share.value) :: sharingWord s) :=
  (insertShare_perm h).map _

theorem disagreements_addShare_le (f : (GaloisRing w e)[X]) :
    disagreements (sharingWord (s.addShare share)) f ≤ disagreements (sharingWord s) f + 1 := by
  rw [disagreements_perm (sharingWord_addShare_perm share h)]
  exact disagreements_cons_le _ _ f

theorem disagreements_addShare_of_eq {f : (GaloisRing w e)[X]}
    (hf : f.eval (fromByte share.owner) = share.value) :
    disagreements (sharingWord (s.addShare share)) f = disagreements (sharingWord s) f := by
  rw [disagreements_perm (sharingWord_addShare_perm share h)]
  exact disagreements_cons_of_eq hf _

end Share

theorem length_resize {R : Type} [Zero R] (values : List R) (n : ℕ) :
    (resize values n).length = n := by
  rw [resize, List.length_append, List.length_take, List.length_replicate]
  omega

variable {contributor : Role}

/-- Filling in a vector of any length adds at most one wrong share to each sharing. -/
theorem BatchWithin.fill (h : BatchWithin fs owners lies sharings)
    (hnew : contributor ∉ owners) (values : List (GaloisRing w e)) :
    BatchWithin fs (insertOwner contributor owners) (lies + 1)
      (fillIndexedShares sharings values contributor) := by
  have hlen := length_resize values sharings.length
  rw [fillIndexedShares]
  generalize resize values sharings.length = padded at hlen
  induction h generalizing padded with
  | nil =>
    rw [List.zipWith_nil_right]
    exact List.Forall₂.nil
  | @cons f s fs sharings hs _ ih =>
    obtain ⟨v, rest, rfl⟩ := List.exists_cons_of_length_eq_add_one hlen
    refine List.Forall₂.cons ⟨?_, ?_⟩ (ih rest (by simpa using hlen))
    · rw [owners_addShare, hs.1]
    · exact (disagreements_addShare_le ⟨contributor, v⟩ (hs.1 ▸ hnew) f).trans
        (Nat.add_le_add_right hs.2 1)

theorem BatchWithin.fill_correct (h : BatchWithin fs owners lies sharings)
    (hnew : contributor ∉ owners) :
    BatchWithin fs (insertOwner contributor owners) lies
      (fillIndexedShares sharings (fs.map (fun f => f.eval (fromByte contributor)))
        contributor) := by
  have hresize : resize (fs.map (fun f => f.eval (fromByte contributor))) sharings.length =
      fs.map (fun f => f.eval (fromByte contributor)) := by
    rw [resize, ← h.length_eq]
    simp
  rw [fillIndexedShares, hresize]
  clear hresize
  induction h with
  | nil => exact List.Forall₂.nil
  | @cons f s fs sharings hs _ ih =>
    refine List.Forall₂.cons ⟨?_, ?_⟩ ih
    · rw [owners_addShare, hs.1]
    · exact (disagreements_addShare_of_eq ⟨contributor, f.eval (fromByte contributor)⟩
        (hs.1 ▸ hnew) rfl).trans_le hs.2

theorem mapM_id_map_some {α β : Type} (g : α → β) (l : List α) :
    (l.map (fun a => some (g a))).mapM id = some (l.map g) := by
  induction l with
  | nil => rfl
  | cons a l ih =>
    rw [List.map_cons, List.mapM_cons, ih]
    rfl

section Attempt

variable {store} {degree numParties threshold numBots : ℕ} (hw : 0 < w)
  (howners : Embeddable e owners) (hn : degree + 2 * threshold < numParties)
  (hwrong : numBots + lies ≤ threshold) (hfs : ∀ f ∈ fs, f.natDegree ≤ degree)
  (h : BatchWithin fs owners lies sharings)
include hw howners hn hwrong hfs h

theorem reconstructBatch_finds {hints : ReconstructionHints (GaloisRing w e) F}
    (hhints : ReconstructionHints.fromPartiesSorted store owners degree = .ok hints)
    (hheard : degree + 2 * threshold < owners.length + numBots) :
    sharings.mapM (fun sharing => unwrapOrDefault
        (reconstructWErrorsSync store numParties degree threshold numBots sharing hints)) =
      .ok (fs.map (fun f => some (f.eval 0))) := by
  induction h with
  | nil => rfl
  | @cons f s fs sharings hs _ ih =>
    have hlen : owners.length = s.shares.length := by
      rw [← hs.1, ShamirSharings.owners, List.length_map]
    have hopen : reconstructWErrorsSync store numParties degree threshold numBots s hints =
        .ok (some (f.eval 0)) := by
      apply reconstructWErrorsSync_finds hw (hs.1 ▸ howners) _ (hlen ▸ hheard) (hfs f (by simp))
        (by omega) hn
      rw [ReconstructionHints.new, hs.1, hhints]
    rw [List.mapM_cons, hopen, ih (fun g hg => hfs g (by simp [hg]))]
    rfl

/-- Once enough parties are heard from, an attempt opens the whole batch. -/
theorem attemptReconstruction_finds
    (hheard : fs ≠ [] → degree + 2 * threshold < owners.length + numBots) :
    attemptReconstruction store (reconstructWErrorsSync store) numParties degree threshold numBots
      sharings = .ok (some (fs.map (fun f => f.eval 0))) := by
  cases h with
  | nil => rfl
  | @cons f s fs sharings hs hrest =>
    have howners' : Embeddable e s.owners := hs.1 ▸ howners
    obtain ⟨hints, hnew⟩ : ∃ hints, ReconstructionHints.new store s degree = .ok hints := by
      obtain ⟨fieldHints, -, hnew⟩ := reconstructionHints_new_eq_ok store howners' degree
      exact ⟨_, hnew⟩
    have hparties := hnew
    rw [ReconstructionHints.new, hs.1] at hparties
    rw [attemptReconstruction, hnew, Outcome.ok_bind,
      reconstructBatch_finds hw howners hn hwrong hfs (List.Forall₂.cons hs hrest) hparties
        (hheard (by simp)), Outcome.ok_bind, mapM_id_map_some]
    rfl

end Attempt

/-!
## Openings in a synchronous network

Along a run every sharing of the batch has the same owners and at most as many wrong shares as
there were lies. Bots, lies and the faults still to come stay within the threshold, so the first
attempt opens the whole batch; an attempt is made at the first job that does not fail after enough
parties were heard from.
-/

/-- The job brought the contributor's shares of the batch. -/
def JobResult.Correct (fs : List (GaloisRing w e)[X]) : JobResult (GaloisRing w e) → Prop
  | .shares contributor values => values = fs.map (fun f => f.eval (fromByte contributor))
  | _ => False

open Classical in
/-- The jobs that fail or lie. -/
noncomputable def numFaulty (fs : List (GaloisRing w e)[X])
    (jobs : List (JobResult (GaloisRing w e))) : ℕ :=
  (jobs.filter (fun job => ¬ job.Correct fs)).length

variable {R : Type}

def JobResult.contributor? : JobResult R → Option Role
  | .shares contributor _ => some contributor
  | _ => none

open Classical in
theorem numFaulty_cons (job : JobResult (GaloisRing w e))
    (jobs : List (JobResult (GaloisRing w e))) :
    numFaulty fs (job :: jobs) = (if job.Correct fs then 0 else 1) + numFaulty fs jobs := by
  rw [numFaulty, List.filter_cons, numFaulty]
  by_cases h : job.Correct fs
  · simp [h]
  · simp [h, add_comm]

/-- The state of a run whose attempts are still to come. -/
structure OpenInvariant (fs : List (GaloisRing w e)[X]) (initialShares : ℕ) (owners : List Role)
    (lies : ℕ) (s : OpenState w e) : Prop where
  batch : BatchWithin fs owners lies s.sharings
  count : fs ≠ [] → owners.length = initialShares + s.collectedShares
  pending : s.hasAttempted = false

variable {initialShares : ℕ} {s : OpenState w e}

section Step

variable {jobs : List (JobResult (GaloisRing w e))}

theorem OpenInvariant.addBot (h : OpenInvariant fs initialShares owners lies s) :
    OpenInvariant fs initialShares owners lies s.addBot :=
  ⟨h.batch, h.count, h.pending⟩

theorem embeddable_insertOwner {contributor : Role} {rest : List Role}
    (h : Embeddable e (owners ++ contributor :: rest)) :
    contributor ∉ owners ∧ Embeddable e (insertOwner contributor owners ++ rest) := by
  have hnew : contributor ∉ owners := by
    intro hmem
    exact List.disjoint_of_nodup_append h.nodup hmem (by simp)
  have hperm : (insertOwner contributor owners ++ rest).Perm (owners ++ contributor :: rest) :=
    ((insertOwner_perm hnew).append_right rest).trans List.perm_middle.symm
  exact ⟨hnew, hperm.nodup_iff.mpr h.nodup, fun o ho => h.lt o (hperm.subset ho)⟩

variable {job : JobResult (GaloisRing w e)}

theorem addBot_budget (hfaulty : ¬ job.Correct fs) :
    s.addBot.numBots + lies + numFaulty fs jobs ≤
      s.numBots + lies + numFaulty fs (job :: jobs) := by
  rw [numFaulty_cons, if_neg hfaulty]
  change s.numBots + 1 + lies + _ ≤ _
  omega

/-- A job costs at most one fault and keeps the invariant. -/
theorem OpenInvariant.receive (h : OpenInvariant fs initialShares owners lies s)
    (howners : Embeddable e (owners ++ (job :: jobs).filterMap JobResult.contributor?)) :
    ∃ owners' lies', OpenInvariant fs initialShares owners' lies' (s.receive job) ∧
      (s.receive job).numBots + lies' + numFaulty fs jobs ≤
        s.numBots + lies + numFaulty fs (job :: jobs) ∧
      (s.receive job).collectedShares + (s.receive job).numBots =
        s.collectedShares + s.numBots + 1 ∧
      Embeddable e (owners' ++ jobs.filterMap JobResult.contributor?) := by
  cases job with
  | shares contributor values =>
    rw [numFaulty_cons]
    obtain ⟨hnew, hembed⟩ := embeddable_insertOwner howners
    have hcount : fs ≠ [] → (insertOwner contributor owners).length =
        initialShares + (s.collectedShares + 1) := by
      intro hne
      rw [(insertOwner_perm hnew).length_eq, List.length_cons, h.count hne]
      omega
    by_cases hcorrect : (JobResult.shares contributor values).Correct fs
    · refine ⟨_, lies, ⟨?_, hcount, h.pending⟩, ?_, ?_, hembed⟩
      · have hvalues : values = fs.map (fun f => f.eval (fromByte contributor)) := hcorrect
        subst hvalues
        exact h.batch.fill_correct hnew
      · change s.numBots + lies + _ ≤ _
        omega
      · change s.collectedShares + 1 + s.numBots = _
        omega
    · refine ⟨_, lies + 1, ⟨h.batch.fill hnew values, hcount, h.pending⟩, ?_, ?_, hembed⟩
      · rw [if_neg hcorrect]
        change s.numBots + (lies + 1) + _ ≤ _
        omega
      · change s.collectedShares + 1 + s.numBots = _
        omega
  | malformed | timedOut | failed =>
    exact ⟨owners, lies, h.addBot, addBot_budget id, rfl, howners⟩

end Step

variable (bound heard : ℕ)

/-- Some job that did not fail completes after more than `bound` parties were heard from. -/
def HearsEnough (jobs : List (JobResult R)) : Prop :=
  ∃ i job, jobs[i]? = some job ∧ job.isFailed = false ∧ bound < heard + (i + 1)

theorem not_hearsEnough_nil :
    ¬ HearsEnough bound heard ([] : List (JobResult R)) := by
  rintro ⟨i, job, hjob, -⟩
  simp at hjob

theorem hearsEnough_cons (job : JobResult R) (jobs : List (JobResult R)) :
    HearsEnough bound heard (job :: jobs) ↔
      (job.isFailed = false ∧ bound < heard + 1) ∨ HearsEnough bound (heard + 1) jobs := by
  constructor
  · rintro ⟨i, job', hjob, hok, hlt⟩
    cases i with
    | zero =>
      obtain rfl : job = job' := by simpa using hjob
      exact Or.inl ⟨hok, hlt⟩
    | succ i => exact Or.inr ⟨i, job', by simpa using hjob, hok, by omega⟩
  · rintro (⟨hok, hlt⟩ | ⟨i, job', hjob, hok, hlt⟩)
    · exact ⟨0, job, rfl, hok, hlt⟩
    · exact ⟨i + 1, job', by simpa using hjob, hok, by omega⟩

/-- A run opens the batch exactly when it hears enough. -/
theorem reconstructLoop_sync (hw : 0 < w) {numParties degree threshold : ℕ}
    (hn : degree + 2 * threshold < numParties) (hfs : ∀ f ∈ fs, f.natDegree ≤ degree)
    (jobs : List (JobResult (GaloisRing w e)))
    (hinv : OpenInvariant fs initialShares owners lies s)
    (hbudget : s.numBots + lies + numFaulty fs jobs ≤ threshold)
    (howners : Embeddable e (owners ++ jobs.filterMap JobResult.contributor?)) :
    (HearsEnough (degree + 2 * threshold) (initialShares + s.collectedShares + s.numBots) jobs ∧
      reconstructLoop store (reconstructWErrorsSync store) numParties degree threshold
        initialShares (degree + 2 * threshold) s jobs = .ok (some (fs.map (fun f => f.eval 0)))) ∨
    (¬ HearsEnough (degree + 2 * threshold) (initialShares + s.collectedShares + s.numBots) jobs ∧
      reconstructLoop store (reconstructWErrorsSync store) numParties degree threshold
        initialShares (degree + 2 * threshold) s jobs =
          Outcome.err "Could not reconstruct the sharing") := by
  induction jobs generalizing owners lies s with
  | nil => exact Or.inr ⟨not_hearsEnough_nil _ _, rfl⟩
  | cons job jobs ih =>
    obtain ⟨owners', lies', hinv', hbudget', hcount, howners'⟩ := hinv.receive howners
    have hheard : initialShares + s.collectedShares + s.numBots + 1 = initialShares +
        (s.receive job).collectedShares + (s.receive job).numBots := by omega
    rw [hearsEnough_cons, hheard, reconstructLoop]
    by_cases hfailed : job.isFailed = true
    · have hbot : s.addBot = s.receive job := by
        cases job <;> first | rfl | cases hfailed
      rw [if_pos hfailed, hbot]
      rcases ih hinv' (by omega) howners' with ⟨henough, hrun⟩ | ⟨henough, hrun⟩
      · exact Or.inl ⟨Or.inr henough, hrun⟩
      · refine Or.inr ⟨?_, hrun⟩
        rintro (⟨hok, -⟩ | h)
        · rw [hfailed] at hok
          cases hok
        · exact henough h
    · have hok : job.isFailed = false := by simpa using hfailed
      rw [if_neg hfailed]
      by_cases hbound : degree + 2 * threshold < initialShares +
          (s.receive job).collectedShares + (s.receive job).numBots
      · left
        refine ⟨Or.inl ⟨hok, hbound⟩, ?_⟩
        have hattempt : (s.receive job).shouldAttempt initialShares (degree + 2 * threshold)
            jobs.isEmpty = true := by
          simp [OpenState.shouldAttempt, hbound, hinv'.pending]
        have howned : Embeddable e owners' := howners'.sublist (List.sublist_append_left _ _)
        rw [if_pos hattempt, attemptReconstruction_finds hw howned hn (by omega) hfs hinv'.batch
          (fun hne => by rw [hinv'.count hne]; omega)]
        rfl
      · have hattempt : ¬ (s.receive job).shouldAttempt initialShares (degree + 2 * threshold)
            jobs.isEmpty = true := by
          simp [OpenState.shouldAttempt, hbound]
        rw [if_neg hattempt]
        rcases ih hinv' (by omega) howners' with ⟨henough, hrun⟩ | ⟨henough, hrun⟩
        · exact Or.inl ⟨Or.inr henough, hrun⟩
        · exact Or.inr ⟨fun h => h.elim (fun h => hbound h.2) henough, hrun⟩

variable (own : Option Role)

/-- The batch before any job completes: each sharing holds the own share, if there is one. -/
noncomputable def seededSharings (fs : List (GaloisRing w e)[X]) :
    List (ShamirSharings (GaloisRing w e)) :=
  fs.map (fun f => ⟨own.toList.map (fun r => ⟨r, f.eval (fromByte r)⟩)⟩)

theorem batchWithin_seeded (fs : List (GaloisRing w e)[X]) :
    BatchWithin fs own.toList 0 (seededSharings own fs) := by
  rw [BatchWithin, seededSharings, List.forall₂_map_right_iff, List.forall₂_same]
  intro f _
  constructor
  · rw [owners, List.map_map]
    exact List.map_id _
  · rw [sharingWord]
    simp [disagreements, errors]

theorem openInvariant_seeded (fs : List (GaloisRing w e)[X]) (numBots : ℕ) :
    OpenInvariant fs (((seededSharings own fs).head?.map (fun s => s.shares.length)).getD 0)
      own.toList 0 ⟨seededSharings own fs, numBots, 0, false, 0⟩ := by
  refine ⟨batchWithin_seeded own fs, ?_, rfl⟩
  intro hne
  obtain ⟨f, rest, rfl⟩ := List.exists_cons_of_ne_nil hne
  simp [seededSharings]

/-- A synchronous opening with at most `threshold` known, failing or lying parties yields all
secrets exactly when a job that did not fail completes after enough parties were heard from. -/
theorem tryReconstructFromShares_sync_iff (z : BaseRing) (store : LagrangeStore F)
    (numParties threshold numBots degree : ℕ) (hn : degree + 2 * threshold < numParties)
    (fs : List (GaloisRing z.bits e)[X]) (hfs : ∀ f ∈ fs, f.natDegree ≤ degree)
    (own : Option Role) (jobs : List (JobResult (GaloisRing z.bits e)))
    (howners : Embeddable e (own.toList ++ jobs.filterMap JobResult.contributor?))
    (hfaults : numBots + numFaulty fs jobs ≤ threshold) :
    tryReconstructFromShares store numParties threshold numBots (seededSharings own fs) degree jobs
        .sync = .ok (some (fs.map (fun f => f.eval 0))) ↔
      HearsEnough (degree + 2 * threshold)
        (((seededSharings own fs).head?.map (fun s => s.shares.length)).getD 0 + numBots) jobs := by
  rw [tryReconstructFromShares, selectReconstruction]
  rcases reconstructLoop_sync store z.bits_pos hn hfs jobs (openInvariant_seeded own fs numBots)
    (by simpa using hfaults) howners with ⟨henough, hrun⟩ | ⟨henough, hrun⟩
  · exact ⟨fun _ => henough, fun _ => hrun⟩
  · constructor
    · intro hopen
      rw [hrun] at hopen
      cases hopen
    · intro h
      exact absurd h henough

/-- Four parties open one secret although the second job times out. -/
theorem tryReconstructFromShares_with_timeout :
    tryReconstructFromShares (F := GF8) LagrangeStore.empty 4 1 0
        (seededSharings (some 1) [(1 : (GaloisRing BaseRing.z64.bits .three)[X])]) 1
        [.shares 2 [1], .timedOut, .shares 3 [1]] .sync = .ok (some [eval 0 1]) := by
  apply (tryReconstructFromShares_sync_iff .z64 LagrangeStore.empty 4 1 0 1 (by norm_num) [1]
    (by simp) (some 1) [.shares 2 [1], .timedOut, .shares 3 [1]] ⟨by decide, by decide⟩ ?_).mpr
  · exact ⟨2, .shares 3 [1], rfl, rfl, by decide⟩
  · simp [numFaulty, JobResult.Correct]

/-- The last of the three jobs is a failed task: it is counted, but no attempt follows. -/
theorem tryReconstructFromShares_failed_last :
    1 + 2 * 1 < 4 ∧ Embeddable .three ((some 1).toList ++
        [JobResult.shares 2 [1], .shares 3 [1], .failed].filterMap
          (JobResult.contributor? (R := GaloisRing BaseRing.z64.bits .three))) ∧
      0 + numFaulty [(1 : (GaloisRing BaseRing.z64.bits .three)[X])]
        [.shares 2 [1], .shares 3 [1], .failed] ≤ 1 ∧
      tryReconstructFromShares (F := GF8) LagrangeStore.empty 4 1 0
        (seededSharings (some 1) [(1 : (GaloisRing BaseRing.z64.bits .three)[X])]) 1
        [.shares 2 [1], .shares 3 [1], .failed] .sync =
          Outcome.err "Could not reconstruct the sharing" := by
  refine ⟨by norm_num, ⟨by decide, by decide⟩, ?_, rfl⟩
  simp [numFaulty, JobResult.Correct]

end ThresholdKms
