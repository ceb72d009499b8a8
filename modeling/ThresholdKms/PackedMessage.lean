import ThresholdKms.NoiseFlooding

/-!
# Packed messages

Every coefficient of an opened ring element is a block. The loop over the elements goes on when the
requested blocks are there, so every element that is not needed adds its first block.
-/

namespace ThresholdKms

open Outcome

variable {e : ExtensionDegree} {totalModBits numBlocks : ℕ} {openeds : List (GaloisRing 128 e)}

/-- The loop over the coefficients, with the blocks so far and their number. -/
def processCoefs (totalModBits numBlocks : ℕ) :
    List (BitVec 128) → List (BitVec 128) × ℕ → Outcome (List (BitVec 128) × ℕ)
  | [], s => .ok s
  | coef :: coefs, (out, processed) => do
      let block ← fromExpandedMsg coef totalModBits
      let s := (out ++ [block], processed + 1)
      if numBlocks ≤ processed + 1 then return s else processCoefs totalModBits numBlocks coefs s

def reconstructPackedMessage (openeds : Option (List (GaloisRing 128 e)))
    (totalModBits numBlocks : ℕ) : Outcome (List (BitVec 128)) :=
  match openeds with
  | none => Outcome.err "No opened value"
  | some openeds => do
      let (out, processed) ← openeds.foldlM
        (fun s opened => processCoefs totalModBits numBlocks (List.ofFn opened.coefs) s) ([], 0)
      if processed < numBlocks then
        Outcome.err s!"expected to process {numBlocks} but only processed {processed}"
      else return out

/-- The coefficients that the loops read when `need` blocks are missing. -/
def readCoefs : ℕ → List (GaloisRing 128 e) → List (BitVec 128)
  | _, [] => []
  | need, opened :: openeds =>
      (List.ofFn opened.coefs).take (max 1 need) ++ readCoefs (need - e.deg) openeds

def allCoefs (openeds : List (GaloisRing 128 e)) : List (BitVec 128) :=
  openeds.flatMap (fun opened => List.ofFn opened.coefs)

theorem allCoefs_cons (opened : GaloisRing 128 e) :
    allCoefs (opened :: openeds) = List.ofFn opened.coefs ++ allCoefs openeds := rfl

theorem length_allCoefs : (allCoefs openeds).length = openeds.length * e.deg := by
  simp [allCoefs, List.length_flatMap]

theorem exists_fromExpandedMsg (h : totalModBits < 127) (coef : BitVec 128) :
    ∃ block, fromExpandedMsg coef totalModBits = .ok block := by
  unfold fromExpandedMsg
  rw [usizeSub_of_le (by omega), ok_bind, usizeSub_of_le (by omega)]
  split_ifs
  · exact ⟨_, rfl⟩
  · exact ⟨_, rfl⟩

section Loops

variable {g : BitVec 128 → BitVec 128}
  (hg : ∀ coef, fromExpandedMsg coef totalModBits = .ok (g coef))
include hg

theorem processCoefs_eq (coefs l : List (BitVec 128)) :
    processCoefs totalModBits numBlocks coefs (l.map g, l.length) =
      .ok ((l ++ coefs.take (max 1 (numBlocks - l.length))).map g,
        (l ++ coefs.take (max 1 (numBlocks - l.length))).length) := by
  induction coefs generalizing l with
  | nil => simp [processCoefs]
  | cons coef coefs ih =>
    rw [processCoefs, hg, ok_bind]
    split_ifs with hdone
    · rw [max_eq_left (by omega)]
      simp
    · have hnext := ih (l ++ [coef])
      rw [List.map_append, List.length_append, List.append_assoc] at hnext
      have htake : max 1 (numBlocks - l.length) =
          max 1 (numBlocks - (l.length + [coef].length)) + 1 := by
        rw [List.length_singleton]
        omega
      rw [htake, List.take_succ_cons]
      exact hnext

theorem foldlM_processCoefs (numBlocks : ℕ) (openeds : List (GaloisRing 128 e))
    (l : List (BitVec 128)) :
    openeds.foldlM (fun s opened =>
        processCoefs totalModBits numBlocks (List.ofFn opened.coefs) s) (l.map g, l.length) =
      .ok ((l ++ readCoefs (numBlocks - l.length) openeds).map g,
        (l ++ readCoefs (numBlocks - l.length) openeds).length) := by
  induction openeds generalizing l with
  | nil => simp [readCoefs]
  | cons opened openeds ih =>
    have hneed : numBlocks - (l ++ (List.ofFn opened.coefs).take
        (max 1 (numBlocks - l.length))).length = numBlocks - l.length - e.deg := by
      have hdeg := e.deg_pos
      rw [List.length_append, List.length_take, List.length_ofFn]
      omega
    rw [List.foldlM_cons, processCoefs_eq hg, ok_bind, ih, hneed, readCoefs, List.append_assoc]

end Loops

/-- Without an element that is not needed, the blocks are the first ones. -/
theorem readCoefs_eq_take {need : ℕ} (h : openeds.length * e.deg < need + e.deg) :
    readCoefs need openeds = (allCoefs openeds).take need := by
  induction openeds generalizing need with
  | nil => simp [readCoefs, allCoefs]
  | cons opened openeds ih =>
    rw [List.length_cons, Nat.succ_mul] at h
    rw [readCoefs, ih (by omega), max_eq_right (by omega), allCoefs_cons, List.take_append,
      List.length_ofFn]

theorem lt_length_readCoefs {need : ℕ} (h : need + e.deg ≤ openeds.length * e.deg) :
    need < (readCoefs need openeds).length := by
  have hdeg := e.deg_pos
  induction openeds generalizing need with
  | nil => simp only [List.length_nil, Nat.zero_mul] at h; omega
  | cons opened openeds ih =>
    rw [List.length_cons, Nat.succ_mul] at h
    rw [readCoefs, List.length_append, List.length_take, List.length_ofFn]
    by_cases hneed : need = 0
    · omega
    have hmore : e.deg ≤ openeds.length * e.deg := by
      refine Nat.le_mul_of_pos_left _ (Nat.pos_of_ne_zero (fun hzero => ?_))
      rw [hzero] at h
      omega
    have hrest := @ih (need - e.deg) (by omega)
    omega

/-- The result is exact if and only if all elements are needed. -/
theorem reconstructPackedMessage_exact_iff (hbits : totalModBits < 127) :
    ((∀ out, reconstructPackedMessage (some openeds) totalModBits numBlocks = .ok out →
        ((allCoefs openeds).take numBlocks).mapM (fromExpandedMsg · totalModBits) = .ok out) ∧
      ((∃ msg, reconstructPackedMessage (some openeds) totalModBits numBlocks = Outcome.err msg) ↔
        (allCoefs openeds).length < numBlocks)) ↔
    openeds.length * e.deg < numBlocks + e.deg := by
  choose g hg using exists_fromExpandedMsg hbits
  have hmap : ∀ l : List (BitVec 128), l.mapM (fromExpandedMsg · totalModBits) = .ok (l.map g) :=
    fun l => mapM_eq_ok (fun coef _ => hg coef)
  have hloops := foldlM_processCoefs hg numBlocks openeds []
  simp only [List.map_nil, List.length_nil, List.nil_append, Nat.sub_zero] at hloops
  simp only [reconstructPackedMessage, hloops, ok_bind, pure_eq_ok, length_allCoefs, hmap]
  constructor
  · rintro ⟨hout, -⟩
    by_contra hneed
    have hlong := lt_length_readCoefs (not_lt.mp hneed)
    have heq := Except.ok.inj (hout _ (if_neg (by omega)))
    have hlen := congrArg List.length heq
    simp only [List.length_map, List.length_take] at hlen
    omega
  · intro hneed
    rw [readCoefs_eq_take hneed, List.length_take, length_allCoefs]
    by_cases hfew : openeds.length * e.deg < numBlocks
    · rw [if_pos (by omega)]
      refine ⟨?_, fun _ => hfew, fun _ => ⟨_, rfl⟩⟩
      intro out h
      cases h
    · rw [if_neg (by omega)]
      refine ⟨fun out h => h, ?_, fun h => absurd h hfew⟩
      rintro ⟨msg, h⟩
      cases h

theorem reconstructPackedMessage_exact_two :
    let openeds : List (GaloisRing 128 .four) := [⟨fun i => i.val⟩, ⟨fun i => 7 - i.val⟩]
    (∀ out, reconstructPackedMessage (some openeds) 4 6 = .ok out →
      ((allCoefs openeds).take 6).mapM (fromExpandedMsg · 4) = .ok out) ∧
    ((∃ msg, reconstructPackedMessage (some openeds) 4 6 = Outcome.err msg) ↔
      (allCoefs openeds).length < 6) :=
  (reconstructPackedMessage_exact_iff (by decide)).mpr (by decide)

/-- One block is requested of two elements, and two are returned. -/
theorem reconstructPackedMessage_two_blocks :
    reconstructPackedMessage (some [(0 : GaloisRing 128 .four), 0]) 4 1 = .ok [0, 0] := by
  rfl

end ThresholdKms
