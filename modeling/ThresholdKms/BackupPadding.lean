import ThresholdKms.Bytes
import ThresholdKms.Outcome

/-!
# Padding and bytes of a backup

A secret is padded to a multiple of the block length, as in PKCS#7, and cut into blocks. A block is
read as the coefficients of a ring element, eight little-endian bytes each.
-/

namespace ThresholdKms

inductive SetupSkipReason where
  | invalidTimestamp
  | invalidHeader
  | invalidRole
  | duplicateRole
  deriving DecidableEq, Repr

inductive RecoverySkipReason where
  | missingVerificationKey
  | invalidSigncryption
  | parseError
  | duplicateRole
  | backupIdMalformed
  | mpcContextIdMalformed
  | backupIdMismatch
  | mpcContextIdMismatch
  | custodianRoleMismatchInPayload
  | custodianKeyMismatchInPayload
  | operatorMismatchInPayload
  | missingCommitment
  | commitmentMismatch
  deriving DecidableEq, Repr

inductive BackupError where
  | internalCryptographyError (msg : String)
  | paddingError
  | sharingError (msg : String)
  | reconstructError (msg : String)
  | setupError (msg : String)
  | noBlocksError
  | operatorError (msg : String)
  | setupValidationFailed (expectedMin received : ℕ) (skipped : List SetupSkipReason)
  | recoveryThresholdNotMet (requiredMin received threshold : ℕ)
      (skipped : List RecoverySkipReason)
  deriving DecidableEq, Repr

inductive BackupFault where
  | err (e : BackupError)
  | panic (msg : String)
  | diverge
  deriving DecidableEq, Repr

/-- A call returns a value or a backup error, panics, or never returns. -/
abbrev BackupOutcome (α : Type) := Except BackupFault α

def BackupOutcome.err {α : Type} (e : BackupError) : BackupOutcome α := .error (.err e)

/-- The `map_err` of a call whose error is only kept as a text. -/
def Outcome.mapErr {α : Type} (f : String → BackupError) : Outcome α → BackupOutcome α
  | .ok a => .ok a
  | .error (.err msg) => .error (.err (f msg))
  | .error (.panic msg) => .error (.panic msg)
  | .error .diverge => .error .diverge

theorem Outcome.mapErr_eq_ok {α : Type} {f : String → BackupError} {x : Outcome α} {a : α} :
    mapErr f x = .ok a ↔ x = .ok a := by
  rcases x with (_ | _ | _) | _ <;> simp [mapErr]

def maxCipherBlockLen : ℕ := 32

variable (blockLen : ℕ) (data : Bytes)

def addPadding : BackupOutcome Bytes :=
  if blockLen = 0 then
    .error (.panic "attempt to calculate the remainder with a divisor of zero")
  else
    let remainder := data.length % blockLen
    let paddingSize := blockLen - remainder
    if 256 ≤ paddingSize then
      BackupOutcome.err .paddingError
    else if maxCipherBlockLen < paddingSize then
      .error (.panic "range end index out of range for slice")
    else
      .ok (data ++ List.replicate paddingSize (UInt8.ofNat paddingSize))

def removePadding : BackupOutcome Bytes :=
  if 256 ≤ blockLen then
    BackupOutcome.err .paddingError
  else if data.isEmpty ∨ data.length < blockLen then
    BackupOutcome.err .paddingError
  else
    let padding := data.getLastD 0
    if padding = 0 ∨ blockLen < padding.toNat then
      BackupOutcome.err .paddingError
    else if (data.drop (data.length - padding.toNat)).all (· = padding) then
      .ok (data.take (data.length - padding.toNat))
    else
      BackupOutcome.err .paddingError

section Padding

variable {blockLen : ℕ} (hpos : 0 < blockLen) (hmax : blockLen ≤ maxCipherBlockLen) (data : Bytes)
include hpos hmax

theorem addPadding_eq : addPadding blockLen data =
    .ok (data ++ List.replicate (blockLen - data.length % blockLen)
      (UInt8.ofNat (blockLen - data.length % blockLen))) := by
  unfold maxCipherBlockLen at hmax
  unfold addPadding
  rw [if_neg hpos.ne', if_neg (by omega), if_neg (by unfold maxCipherBlockLen; omega)]

theorem removePadding_addPadding {padded : Bytes} (h : addPadding blockLen data = .ok padded) :
    removePadding blockLen padded = .ok data := by
  have hlt := Nat.mod_lt data.length hpos
  rw [addPadding_eq hpos hmax, Except.ok.injEq] at h
  unfold maxCipherBlockLen at hmax
  have hdvd : blockLen ≤ data.length + (blockLen - data.length % blockLen) := by
    have := Nat.mod_le data.length blockLen
    omega
  generalize hsize : blockLen - data.length % blockLen = size at h hdvd
  subst h
  have hsizepos : size ≠ 0 := by omega
  have hval : (UInt8.ofNat size).toNat = size := by
    rw [UInt8.toNat_ofNat', Nat.mod_eq_of_lt (by omega)]
  have hne : UInt8.ofNat size ≠ 0 := by
    intro h0
    rw [h0] at hval
    exact hsizepos hval.symm
  have hlast : (data ++ List.replicate size (UInt8.ofNat size)).getLastD 0 = UInt8.ofNat size := by
    obtain ⟨k, rfl⟩ := Nat.exists_eq_succ_of_ne_zero hsizepos
    rw [List.replicate_succ', ← List.append_assoc, List.getLastD_concat]
  have hlen : (data ++ List.replicate size (UInt8.ofNat size)).length = data.length + size := by
    rw [List.length_append, List.length_replicate]
  unfold removePadding
  rw [hlast, hlen]
  dsimp only
  rw [hval, if_neg (by omega), if_neg, if_neg, if_pos]
  · rw [Nat.add_sub_cancel, List.take_left]
  · simp
  · rintro (h0 | h0)
    · exact hne h0
    · omega
  · rintro (h0 | h0)
    · rw [List.isEmpty_iff, ← List.length_eq_zero_iff] at h0
      omega
    · omega

theorem length_addPadding {padded : Bytes} (h : addPadding blockLen data = .ok padded) :
    padded.length = (data.length / blockLen + 1) * blockLen := by
  rw [addPadding_eq hpos hmax, Except.ok.injEq] at h
  have hdiv := Nat.div_add_mod data.length blockLen
  have hlt := Nat.mod_lt data.length hpos
  rw [← h, List.length_append, List.length_replicate, Nat.add_mul, mul_comm]
  omega

end Padding

/-- The blocks of a padded secret. -/
def blocksOf : List Bytes :=
  (List.range (data.length / blockLen)).map fun i => (data.drop (i * blockLen)).take blockLen

theorem flatten_take_drop (m : ℕ) :
    ((List.range m).map fun i => (data.drop (i * blockLen)).take blockLen).flatten =
      data.take (m * blockLen) := by
  induction m with
  | zero => simp
  | succ m ih =>
    rw [List.range_succ, List.map_append, List.flatten_append, ih, List.map_singleton,
      List.flatten_singleton, Nat.succ_mul, List.take_add]

theorem flatten_blocksOf {blockLen m : ℕ} (hpos : 0 < blockLen) {data : Bytes}
    (hlen : data.length = m * blockLen) : (blocksOf blockLen data).flatten = data := by
  unfold blocksOf
  rw [flatten_take_drop, hlen, Nat.mul_div_cancel _ hpos, ← hlen, List.take_length]

theorem length_of_mem_blocksOf {blockLen : ℕ} {data block : Bytes}
    (h : block ∈ blocksOf blockLen data) : block.length = blockLen := by
  obtain ⟨i, hi, rfl⟩ := List.mem_map.mp h
  rw [List.mem_range] at hi
  have hle : (i + 1) * blockLen ≤ data.length :=
    (Nat.mul_le_mul_right _ hi).trans (Nat.div_mul_le_self _ _)
  rw [List.length_take, List.length_drop]
  rw [Nat.add_mul] at hle
  omega

end ThresholdKms
