import ThresholdKms.Bytes
import ThresholdKms.NegacyclicProduct

/-!
# Encryptions under shared keys

The parts of a public key are encryptions under keys that are shared over the integers modulo
`2 ^ 128`. The masks have 64 bits and are embedded as they are; the body is computed in the large
ring. Everything here is about the shared values: a step that is linear is done on the shares.
-/

namespace ThresholdKms

open NegacyclicProduct

abbrev Mask := Fin (2 ^ 64)

section Loops

variable {n : ℕ} {A : Type*} [CommRing A]

/-- A mask of 64 random bits as an element of the sharing ring. -/
def maskElement (randomness : Mask) : A := (randomness.val : A)

variable (acc lhs rhs : Fin n → A)

def negacyclicMulReduceAcc : Fin n → A :=
  (List.finRange n).foldl (fun acc i =>
    (List.finRange n).foldl (fun acc j =>
      if h : i.val + j.val < n then
        acc + Pi.single ⟨i.val + j.val, h⟩ (rhs j * lhs i)
      else
        acc - Pi.single ⟨i.val + j.val - n, by omega⟩ (rhs j * lhs i)) acc) acc

def sliceWrappingDotProduct : A :=
  (List.finRange n).foldl (fun acc i => acc + rhs i * lhs i) 0

theorem foldl_add_eq {ι G : Type*} [AddCommMonoid G] (f : ι → G) (l : List ι) (acc : G) :
    l.foldl (fun acc i => acc + f i) acc = acc + (l.map f).sum := by
  induction l generalizing acc with
  | nil => simp
  | cons i l ih => rw [List.foldl_cons, ih, List.map_cons, List.sum_cons, add_assoc]

theorem add_mulMonomials (i j : Fin n) (a : A) :
    (if h : i.val + j.val < n then acc + Pi.single ⟨i.val + j.val, h⟩ a
      else acc - Pi.single ⟨i.val + j.val - n, by omega⟩ a) = acc + mulMonomials a i j := by
  unfold mulMonomials
  split_ifs with h
  · rw [show (⟨i.val + j.val, h⟩ : Fin n) = i + j from Fin.ext (Fin.val_add_eq_of_add_lt h).symm]
  · rw [Pi.single_neg, sub_eq_add_neg, show (⟨i.val + j.val - n, _⟩ : Fin n) = i + j from
      Fin.ext (by rw [Fin.val_add_eq_ite, if_pos (not_lt.mp h)])]

theorem negacyclicMulReduceAcc_eq :
    negacyclicMulReduceAcc acc lhs rhs = acc + negacyclicMul rhs lhs := by
  unfold negacyclicMulReduceAcc
  simp only [add_mulMonomials, foldl_add_eq, ← Fin.sum_univ_def]
  rw [Finset.sum_comm, sum_mulMonomials]

theorem sliceWrappingDotProduct_eq :
    sliceWrappingDotProduct lhs rhs = ∑ i, rhs i * lhs i := by
  rw [sliceWrappingDotProduct, foldl_add_eq, zero_add, Fin.sum_univ_def]

variable (mask : Fin n → Mask)

/-- The body of `fill_lwe_mask_and_body_for_encryption`. -/
def lweBody (sk : Fin n → A)
    (noise encoded : A) : A :=
  sliceWrappingDotProduct (fun i => maskElement (mask i)) sk + noise + encoded

/-- The body of `fill_glwe_mask_and_body_for_encryption_assign`. -/
def glweBody {k N : ℕ} (mask : Fin k → Fin N → Mask) (sk : Fin k → Fin N → A)
    (noise encoded : Fin N → A) : Fin N → A :=
  (List.finRange k).foldl
    (fun acc j => negacyclicMulReduceAcc acc (fun c => maskElement (mask j c)) (sk j))
    (encoded + noise)

/-- The body of `generate_lwe_compact_public_key`. -/
def compactPublicKeyBody (sk noise : Fin n → A) :
    Fin n → A :=
  negacyclicMulReduceAcc 0 (fun i => maskElement (mask i)) (fun i => sk i.rev) + noise

theorem glweBody_eq {k N : ℕ} (mask : Fin k → Fin N → Mask) (sk : Fin k → Fin N → A)
    (noise encoded : Fin N → A) : glweBody mask sk noise encoded =
      encoded + noise + ∑ j, negacyclicMul (sk j) (fun c => maskElement (mask j c)) := by
  unfold glweBody
  simp only [negacyclicMulReduceAcc_eq]
  rw [foldl_add_eq, Fin.sum_univ_def]

end Loops

variable (v : ZMod (2 ^ 128))

def toByteVec : Bytes := toLeBytes 16 v.val

/-- The published part of an opened body: its bytes from the last one, folded into 64 bits. -/
def toU64 : ℕ :=
  (toByteVec v).reverse.foldl (fun acc byte => (acc * 2 ^ 8 % 2 ^ 64 + byte.toNat) % 2 ^ 64) 0

theorem foldr_toLeBytes (m v : ℕ) :
    (toLeBytes m v).foldr (fun byte acc => (acc * 2 ^ 8 % 2 ^ 64 + byte.toNat) % 2 ^ 64) 0 =
      v % 256 ^ m % 2 ^ 64 := by
  induction m generalizing v with
  | zero => rw [pow_zero, Nat.mod_one]; rfl
  | succ m ih =>
    rw [toLeBytes, List.foldr_cons, ih, pow_succ' 256 m, Nat.mod_mul, UInt8.toNat_ofNat']
    omega

theorem toU64_eq : toU64 v = v.val % 2 ^ 64 := by
  unfold toU64 toByteVec
  rw [List.foldl_reverse, foldr_toLeBytes, Nat.mod_eq_of_lt (show v.val < 256 ^ 16 from v.val_lt)]

/-- Bodies that are published equal are equal if they differ by less than `2 ^ 64`. -/
theorem eq_of_toU64_eq {x y : ZMod (2 ^ 128)} (h : toU64 x = toU64 y) {z : ℤ} (hz : x - y = z)
    (hlt : |z| < 2 ^ 64) : x = y := by
  have hdvd : ((2 ^ 64 : ℕ) : ℤ) ∣ z := by
    rw [toU64_eq, toU64_eq, ← ZMod.natCast_eq_natCast_iff'] at h
    let φ := ZMod.castHom (show 2 ^ 64 ∣ 2 ^ 128 by decide) (ZMod (2 ^ 64))
    have hφ : ∀ z : ZMod (2 ^ 128), φ z = ((z.val : ℕ) : ZMod (2 ^ 64)) := fun z => by
      rw [← map_natCast φ, ZMod.natCast_zmod_val]
    rw [← ZMod.intCast_zmod_eq_zero_iff_dvd, ← map_intCast φ, ← hz, map_sub, hφ, hφ, h, sub_self]
  rwa [Int.eq_zero_of_abs_lt_dvd hdvd hlt, Int.cast_zero, sub_eq_zero] at hz

/-!
## What key generation opens

The bodies of the parts of a public key are opened as elements modulo `2 ^ 128` and reduced modulo
`2 ^ 64` afterwards. The upper half of an opened body is the carry of the products of masks and key
bits; it is not a function of the published key.
-/

structure Decomposition where
  baseLog : ℕ
  levelCount : ℕ
  fits : baseLog * levelCount ≤ 64

/-- The factor of a level; the levels are encrypted from the last one on. -/
def Decomposition.factor {A : Type*} [CommRing A] (d : Decomposition) (level : Fin d.levelCount) : A :=
  (2 ^ (64 - d.baseLog * (d.levelCount - level)) : ℕ)

/-- A part of a public key: the secret keys it is about, by their numbers, their dimensions, and the
public masks. -/
inductive KeyPart where
  | compactPublicKey (key n : ℕ) (mask : Fin n → Mask)
  | keySwitchKey (input output inputDim n : ℕ) (d : Decomposition)
      (mask : Fin inputDim → Fin d.levelCount → Fin n → Mask)
  | bootstrapKey (input output inputDim k N : ℕ) (d : Decomposition)
      (mask : Fin inputDim → Fin d.levelCount → Fin (k + 1) → Fin k → Fin N → Mask)

/-- A coefficient of a sum of products of masks and key coefficients, the latter by their numbers. -/
structure MaskedProduct where
  k : ℕ
  N : ℕ
  index : Fin k → Fin N → ℕ
  mask : Fin k → Fin N → Mask
  coefficient : Fin N

variable {A : Type*} [CommRing A]

namespace MaskedProduct

variable (m : MaskedProduct)

def eval (sk : ℕ → A) : A :=
  ∑ j, negacyclicMul (fun i => sk (m.index j i)) (fun i => maskElement (m.mask j i)) m.coefficient

def maskSum : ℕ := ∑ j, ∑ i, (m.mask j i).val

theorem eval_mk {k N : ℕ} (index : Fin k → Fin N → ℕ) (mask : Fin k → Fin N → Mask) (c : Fin N)
    (sk : ℕ → A) : eval ⟨k, N, index, mask, c⟩ sk =
      ∑ j, negacyclicMul (fun i => sk (index j i)) (fun i => maskElement (mask j i)) c := rfl

theorem eval_sub (sk sk' : ℕ → A) : m.eval (fun i => sk i - sk' i) = m.eval sk - m.eval sk' := by
  rw [eval, eval, eval, ← Finset.sum_sub_distrib]
  refine Finset.sum_congr rfl fun j _ => ?_
  exact congrFun (sub_negacyclicMul (fun i => sk (m.index j i)) (fun i => sk' (m.index j i)) _) _

theorem map_eval {B : Type*} [CommRing B] (φ : A →+* B) (sk : ℕ → A) :
    φ (m.eval sk) = m.eval (fun i => φ (sk i)) := by
  simp only [eval, map_sum, map_negacyclicMul, maskElement, map_natCast]

theorem abs_eval_le {sk : ℕ → ℤ} {D : ℤ} (hD : ∀ i, |sk i| ≤ D) : |m.eval sk| ≤ D * m.maskSum := by
  rw [maskSum, Nat.cast_sum, Finset.mul_sum]
  refine (Finset.abs_sum_le_sum_abs _ _).trans (Finset.sum_le_sum fun j _ => ?_)
  have hle := abs_negacyclicMul_le (fun i => hD (m.index j i)) (fun i => maskElement (m.mask j i))
    m.coefficient
  simpa only [maskElement, Nat.abs_cast, ← Nat.cast_sum] using hle

end MaskedProduct

namespace KeyPart

/-- The bodies of a part. -/
def Body : KeyPart → Type
  | .compactPublicKey _ n _ => Fin n
  | .keySwitchKey _ _ inputDim _ d _ => Fin inputDim × Fin d.levelCount
  | .bootstrapKey _ _ inputDim k N d _ => Fin inputDim × Fin d.levelCount × Fin (k + 1) × Fin N

/-- The key that encrypts. -/
def outputKey : KeyPart → ℕ
  | .compactPublicKey key _ _ => key
  | .keySwitchKey _ output _ _ _ _ => output
  | .bootstrapKey _ output _ _ _ _ _ => output

variable (key : ℕ → ℕ → A)

/-- What is encrypted, scaled: nothing, the input key, or the products of the input key with the
negated output key and with one. -/
def encoded : (part : KeyPart) → part.Body → A
  | .compactPublicKey _ _ _ => fun _ => 0
  | .keySwitchKey input _ _ _ d _ => fun (i, level) => key input i * d.factor level
  | .bootstrapKey input output _ k N d _ => fun (i, level, row, c) =>
    if row.val < k then -(key output (row * N + c) * key input i) * d.factor level
    else if c.val = 0 then key input i * d.factor level else 0

/-- The bodies, for the coefficients of the encrypting key. -/
def bodies (sk : ℕ → A) :
    (part : KeyPart) → (noise encoded : part.Body → A) → part.Body → A
  | .compactPublicKey _ _ mask => fun noise _ => compactPublicKeyBody mask (fun i => sk i) noise
  | .keySwitchKey _ _ _ _ _ mask => fun noise encoded (i, level) =>
    lweBody (mask i level) (fun c => sk c) (noise (i, level)) (encoded (i, level))
  | .bootstrapKey _ _ _ _ N _ mask => fun noise encoded (i, level, row, c) =>
    glweBody (mask i level row) (fun j c => sk (j * N + c)) (fun c => noise (i, level, row, c))
      (fun c => encoded (i, level, row, c)) c

/-- The product of masks and key coefficients in a body. -/
def maskedProduct : (part : KeyPart) → part.Body → MaskedProduct
  | .compactPublicKey _ n mask => fun i => ⟨1, n, fun _ c => c.rev, fun _ => mask, i⟩
  | .keySwitchKey _ _ _ n _ mask => fun (i, level) =>
    ⟨n, 1, fun c _ => c, fun c _ => mask i level c, 0⟩
  | .bootstrapKey _ _ _ k N _ mask => fun (i, level, row, c) =>
    ⟨k, N, fun j c => j * N + c, mask i level row, c⟩

theorem bodies_eq (part : KeyPart) (noise : part.Body → A) (body : part.Body) :
    bodies (key part.outputKey) part noise (part.encoded key) body =
      (part.maskedProduct body).eval (key part.outputKey) + noise body + part.encoded key body := by
  cases part with
  | compactPublicKey key' n mask =>
    change Fin n at body
    simp only [bodies, compactPublicKeyBody, negacyclicMulReduceAcc_eq, zero_add, encoded, add_zero,
      maskedProduct, MaskedProduct.eval_mk, Finset.univ_unique, Finset.sum_singleton]
    rfl
  | keySwitchKey input output inputDim n d mask =>
    obtain ⟨i, level⟩ := body
    simp [bodies, lweBody, sliceWrappingDotProduct_eq, maskedProduct, MaskedProduct.eval_mk,
      negacyclicMul]
  | bootstrapKey input output inputDim k N d mask =>
    obtain ⟨i, level, row, c⟩ := body
    simp only [bodies, glweBody_eq, maskedProduct, MaskedProduct.eval_mk, Pi.add_apply,
      Finset.sum_apply]
    abel

end KeyPart

/-- The secrets of a key generation: the coefficients of the secret keys and the noise of each body,
all shared over the integers modulo `2 ^ 128`. -/
structure KeySecrets (parts : List KeyPart) where
  key : ℕ → ℕ → ZMod (2 ^ 128)
  noise : (q : Fin parts.length) → (parts.get q).Body → ZMod (2 ^ 128)

variable {parts : List KeyPart} (s : KeySecrets parts) (q : Fin parts.length)
  (body : (parts.get q).Body)

/-- The values all parties obtain from `open_list`. -/
def openedBodies :
    ZMod (2 ^ 128) :=
  (parts.get q).bodies (s.key (parts.get q).outputKey) (s.noise q) ((parts.get q).encoded s.key) body

/-- The bodies of the published ciphertexts. -/
def publishedBodies : ℕ :=
  toU64 (openedBodies s q body)

/-- The difference of two bodies, by representatives of the differences of the secrets. -/
theorem openedBodies_sub (s s' : KeySecrets parts) (q : Fin parts.length)
    (body : (parts.get q).Body) :
    openedBodies s q body - openedBodies s' q body =
      ((((parts.get q).maskedProduct body).eval (fun i => (s.key (parts.get q).outputKey i -
          s'.key (parts.get q).outputKey i).valMinAbs) +
        (s.noise q body - s'.noise q body).valMinAbs +
        ((parts.get q).encoded s.key body - (parts.get q).encoded s'.key body).valMinAbs : ℤ) :
          ZMod (2 ^ 128)) := by
  have hproduct := ((parts.get q).maskedProduct body).map_eval (Int.castRingHom (ZMod (2 ^ 128)))
    (fun i => (s.key (parts.get q).outputKey i - s'.key (parts.get q).outputKey i).valMinAbs)
  simp only [eq_intCast, ZMod.coe_valMinAbs, MaskedProduct.eval_sub] at hproduct
  unfold openedBodies
  rw [KeyPart.bodies_eq, KeyPart.bodies_eq, Int.cast_add, Int.cast_add, hproduct, ZMod.coe_valMinAbs,
    ZMod.coe_valMinAbs]
  ring

/-- Of two assignments with the same published key the same values are opened if the coefficients of
their keys differ by at most `D`, and for every body `D` times the sum of its masks, with the
differences of the noises and of the encoded keys, stays below `2 ^ 64`. -/
theorem openedBodies_eq_of_noCarry {s s' : KeySecrets parts} {D : ℤ}
    (hD : ∀ key i, |(s.key key i - s'.key key i).valMinAbs| ≤ D)
    (hsmall : ∀ q body, D * ((parts.get q).maskedProduct body).maskSum +
      |(s.noise q body - s'.noise q body).valMinAbs| +
      |((parts.get q).encoded s.key body - (parts.get q).encoded s'.key body).valMinAbs| < 2 ^ 64)
    (hkey : publishedBodies s = publishedBodies s') : openedBodies s = openedBodies s' := by
  funext q body
  refine eq_of_toU64_eq (congrFun (congrFun hkey q) body) (openedBodies_sub s s' q body) ?_
  refine lt_of_le_of_lt ?_ (hsmall q body)
  refine (abs_add_le _ _).trans (add_le_add_left ((abs_add_le _ _).trans (add_le_add_left ?_ _)) _)
  exact MaskedProduct.abs_eval_le _ (hD _)

/-- The first bit of each key is the given one; all else is zero. -/
def firstBits (parts : List KeyPart) (bit : ZMod (2 ^ 128)) : KeySecrets parts where
  key _ i := if i = 0 then bit else 0
  noise _ _ := 0

/-- A key of zeros with the bodies of the given secrets as its noise. -/
def zeroKey : KeySecrets parts := ⟨fun _ _ => 0, openedBodies s⟩

theorem openedBodies_eq_unit_mask :
    let s := firstBits [.compactPublicKey 0 2 fun _ => 1] 1
    openedBodies s = openedBodies (zeroKey s) := by
  intro s
  refine openedBodies_eq_of_noCarry (D := 1) (fun key i => ?_) (fun q body => ?_) ?_
  · simp only [s, firstBits, zeroKey, sub_zero]
    split_ifs
    · decide +kernel
    · decide +kernel
  · fin_cases q
    change Fin 2 at body
    fin_cases body <;> decide +kernel
  · funext q body
    fin_cases q
    change Fin 2 at body
    fin_cases body <;> decide +kernel

/-- A decomposition of one level. -/
def oneLevel (baseLog : ℕ) (h : baseLog ≤ 64) : Decomposition := ⟨baseLog, 1, by omega⟩

/-- The parts for an encryption key `0`, a small key `1` and a large key `2`. The masks cancel the
first bits of the small and the large key modulo `2 ^ 64`. -/
def carryParts : List KeyPart :=
  [.compactPublicKey 0 2 (fun _ => 0),
    .keySwitchKey 2 1 2 2 (oneLevel 4 (by decide))
      (fun i _ c => if i.val = 0 ∧ c.val = 0 then 2 ^ 64 - 2 ^ 60 else 0),
    .bootstrapKey 1 2 2 1 2 (oneLevel 23 (by decide))
      (fun i _ row _ c =>
        if i.val = 0 ∧ c.val = 0 then (if row.val = 0 then 2 ^ 41 else 2 ^ 64 - 2 ^ 41)
        else 0)]

theorem openedBodies_carry :
    publishedBodies (firstBits carryParts 1) = publishedBodies (firstBits carryParts 0) ∧
      openedBodies (firstBits carryParts 1) ≠ openedBodies (firstBits carryParts 0) := by
  constructor
  · funext q body
    fin_cases q
    · change Fin 2 at body
      fin_cases body <;> decide +kernel
    · change Fin 2 × Fin 1 at body
      fin_cases body <;> decide +kernel
    · change Fin 2 × Fin 1 × Fin 2 × Fin 2 at body
      fin_cases body <;> decide +kernel
  · intro heq
    have hbody : openedBodies (firstBits carryParts 1) (1 : Fin 3) ((0, 0) : Fin 2 × Fin 1) ≠
        openedBodies (firstBits carryParts 0) (1 : Fin 3) ((0, 0) : Fin 2 × Fin 1) := by
      decide +kernel
    exact hbody (congrFun (congrFun heq (1 : Fin 3)) ((0, 0) : Fin 2 × Fin 1))

end ThresholdKms
