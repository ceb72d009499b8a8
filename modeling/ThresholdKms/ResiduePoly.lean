import ThresholdKms.ExtensionDegree
import ThresholdKms.Karatsuba

/-!
# Residue polynomials

`ResiduePoly Z e` is the ring `Z[X]/F` of the source for the moduli `F` of degree 3 to 8. Its
product is a Karatsuba product followed by the reduction table. The ring laws are carried over from
`AdjoinRoot F` along the evaluation at the root, which is injective on residues.
-/

open Polynomial

namespace ThresholdKms

@[ext]
structure ResiduePoly (Z : Type) (e : ExtensionDegree) where
  coefs : Fin e.deg → Z
  deriving DecidableEq

namespace ResiduePoly

variable {Z : Type} [CommRing Z] {e : ExtensionDegree}

def fromScalar (x : Z) : ResiduePoly Z e := ⟨fun i => if i.val = 0 then x else 0⟩

def karatsuba : (e : ExtensionDegree) → (Fin e.deg → Z) → (Fin e.deg → Z) →
    (Fin (e.deg + (e.deg - 1)) → Z)
  | .three => karatsuba3
  | .four => karatsuba4
  | .five => karatsuba5
  | .six => karatsuba6
  | .seven => karatsuba7
  | .eight => karatsuba8

variable (c : Fin (e.deg + (e.deg - 1)) → Z)

def reduceMul : ResiduePoly Z e :=
  ⟨fun j => c (Fin.castAdd _ j) + ∑ i : Fin (e.deg - 1),
    ((e.reductionTable (i.castLE (Nat.sub_le _ _)) j : ℤ) : Z) * c (Fin.natAdd e.deg i)⟩

instance : Zero (ResiduePoly Z e) := ⟨⟨fun _ => 0⟩⟩

instance : One (ResiduePoly Z e) := ⟨fromScalar 1⟩

instance : Add (ResiduePoly Z e) := ⟨fun a b => ⟨fun i => a.coefs i + b.coefs i⟩⟩

instance : Neg (ResiduePoly Z e) := ⟨fun a => ⟨fun i => -a.coefs i⟩⟩

instance : Sub (ResiduePoly Z e) := ⟨fun a b => ⟨fun i => a.coefs i - b.coefs i⟩⟩

instance : Mul (ResiduePoly Z e) := ⟨fun a b => reduceMul (karatsuba e a.coefs b.coefs)⟩

instance : SMul ℕ (ResiduePoly Z e) := ⟨fun n a => ⟨fun i => n • a.coefs i⟩⟩

instance : SMul ℤ (ResiduePoly Z e) := ⟨fun n a => ⟨fun i => n • a.coefs i⟩⟩

instance : NatCast (ResiduePoly Z e) := ⟨fun n => fromScalar n⟩

instance : IntCast (ResiduePoly Z e) := ⟨fun n => fromScalar n⟩

instance : Pow (ResiduePoly Z e) ℕ := ⟨fun a n => npowRec n a⟩

variable {S : Type*}

/-- The value of a residue at a root of the modulus in another ring. -/
def valueAt [CommRing S] (g : Z →+* S) (x : S) (a : ResiduePoly Z e) : S :=
  powerSum g x a.coefs

section Value

variable [CommRing S] (g : Z →+* S) {x : S}

theorem powerSum_karatsuba (a b : Fin e.deg → Z) :
    powerSum g x (karatsuba e a b) = powerSum g x a * powerSum g x b := by
  cases e with
  | three => exact powerSum_karatsuba3 g x a b
  | four => exact powerSum_karatsuba4 g x a b
  | five => exact powerSum_karatsuba5 g x a b
  | six => exact powerSum_karatsuba6 g x a b
  | seven => exact powerSum_karatsuba7 g x a b
  | eight => exact powerSum_karatsuba8 g x a b

/-- Reduction by the table keeps the value at a root of the modulus. -/
theorem valueAt_reduceMul (h : e.modulusAt x = 0) (c : Fin (e.deg + (e.deg - 1)) → Z) :
    (reduceMul c).valueAt g x = powerSum g x c := by
  simp only [valueAt, powerSum, reduceMul]
  rw [Fin.sum_univ_add]
  have hhigh : ∀ i : Fin (e.deg - 1), g (c (Fin.natAdd e.deg i)) * x ^ (Fin.natAdd e.deg i : ℕ) =
      ∑ j, g (c (Fin.natAdd e.deg i)) *
        (((e.reductionTable (i.castLE (Nat.sub_le _ _)) j : ℤ) : S) * x ^ (j : ℕ)) := by
    intro i
    rw [← Finset.mul_sum, ← e.pow_deg_add_eq h]
    rfl
  rw [Finset.sum_congr rfl (fun i _ => hhigh i), Finset.sum_comm, ← Finset.sum_add_distrib]
  apply Finset.sum_congr rfl
  intro j _
  rw [map_add, map_sum, add_mul, Finset.sum_mul]
  congr 1
  apply Finset.sum_congr rfl
  intro i _
  rw [map_mul, map_intCast]
  ring

theorem valueAt_zero : valueAt g x (0 : ResiduePoly Z e) = 0 := by
  simp [valueAt, powerSum, show (0 : ResiduePoly Z e).coefs = fun _ => 0 from rfl]

theorem valueAt_add (a b : ResiduePoly Z e) :
    valueAt g x (a + b) = valueAt g x a + valueAt g x b := by
  simp [valueAt, powerSum, show (a + b).coefs = fun i => a.coefs i + b.coefs i from rfl, add_mul,
    Finset.sum_add_distrib]

theorem valueAt_neg (a : ResiduePoly Z e) : valueAt g x (-a) = -valueAt g x a := by
  simp [valueAt, powerSum, show (-a).coefs = fun i => -a.coefs i from rfl]

theorem valueAt_sub (a b : ResiduePoly Z e) :
    valueAt g x (a - b) = valueAt g x a - valueAt g x b := by
  simp [valueAt, powerSum, show (a - b).coefs = fun i => a.coefs i - b.coefs i from rfl, sub_mul]

theorem valueAt_mul (h : e.modulusAt x = 0) (a b : ResiduePoly Z e) :
    valueAt g x (a * b) = valueAt g x a * valueAt g x b :=
  (valueAt_reduceMul g h _).trans (powerSum_karatsuba g _ _)

theorem valueAt_fromScalar (r : Z) : valueAt g x (fromScalar r : ResiduePoly Z e) = g r := by
  have hsingle : ∀ i : Fin e.deg, i ≠ ⟨0, e.deg_pos⟩ →
      g ((fromScalar r : ResiduePoly Z e).coefs i) * x ^ (i : ℕ) = 0 := by
    intro i hi
    have : i.val ≠ 0 := fun h => hi (Fin.ext h)
    simp [fromScalar, this]
  rw [valueAt, powerSum, Finset.sum_eq_single _ (fun i _ hi => hsingle i hi) (by simp)]
  simp [fromScalar]

theorem valueAt_nsmul (n : ℕ) (a : ResiduePoly Z e) :
    valueAt g x (n • a) = n • valueAt g x a := by
  simp [valueAt, powerSum, show (n • a).coefs = fun i => n • a.coefs i from rfl, Finset.mul_sum,
    mul_assoc]

theorem valueAt_zsmul (n : ℤ) (a : ResiduePoly Z e) :
    valueAt g x (n • a) = n • valueAt g x a := by
  simp [valueAt, powerSum, show (n • a).coefs = fun i => n • a.coefs i from rfl, Finset.mul_sum,
    mul_assoc]

theorem valueAt_npow (h : e.modulusAt x = 0) (a : ResiduePoly Z e) (n : ℕ) :
    valueAt g x (a ^ n) = valueAt g x a ^ n := by
  induction n with
  | zero =>
    rw [pow_zero, ← map_one g]
    exact valueAt_fromScalar g 1
  | succ n ih =>
    rw [pow_succ, ← ih]
    exact valueAt_mul g h _ _

end Value

/-- The polynomial with the coefficients of a residue. -/
noncomputable def toPolynomial (a : ResiduePoly Z e) : Z[X] := ∑ i, C (a.coefs i) * X ^ (i : ℕ)

variable (a : ResiduePoly Z e)

theorem coeff_toPolynomial (j : Fin e.deg) : a.toPolynomial.coeff j = a.coefs j := by
  simp [toPolynomial, coeff_X_pow, Fin.val_inj]

theorem degree_toPolynomial_lt [Nontrivial Z] :
    a.toPolynomial.degree < (e.modulusAt (X : Z[X])).degree := by
  rw [e.degree_modulusAt_X]
  exact degree_sum_fin_lt _

theorem valueAt_root_eq :
    valueAt (AdjoinRoot.of (e.modulusAt (X : Z[X]))) (AdjoinRoot.root (e.modulusAt (X : Z[X]))) a =
      AdjoinRoot.mk (e.modulusAt X) a.toPolynomial := by
  simp [valueAt, powerSum, toPolynomial]

theorem valueAt_root_injective : Function.Injective (valueAt
    (AdjoinRoot.of (e.modulusAt (X : Z[X]))) (AdjoinRoot.root (e.modulusAt (X : Z[X]))) :
      ResiduePoly Z e → _) := by
  intro a b hab
  rcases subsingleton_or_nontrivial Z with hsub | hnon
  · ext j
    exact Subsingleton.elim _ _
  rw [valueAt_root_eq, valueAt_root_eq, AdjoinRoot.mk_eq_mk] at hab
  have hzero : a.toPolynomial - b.toPolynomial = 0 := by
    by_contra hne
    refine (e.monic_modulusAt_X (S := Z)).not_dvd_of_degree_lt hne ?_ hab
    exact (degree_sub_le _ _).trans_lt
      (max_lt (degree_toPolynomial_lt a) (degree_toPolynomial_lt b))
  ext j
  rw [← coeff_toPolynomial a j, ← coeff_toPolynomial b j, sub_eq_zero.mp hzero]

theorem modulusAt_root :
    e.modulusAt (AdjoinRoot.root (e.modulusAt (X : Z[X]))) = 0 := by
  have := e.map_modulusAt (AdjoinRoot.mk (e.modulusAt (X : Z[X]))) X
  rw [AdjoinRoot.mk_self] at this
  exact this.symm

/-- The product is the product of the polynomials, reduced modulo the modulus. -/
theorem toPolynomial_reduceMul [Nontrivial Z] (a b : ResiduePoly Z e) :
    (reduceMul (karatsuba e a.coefs b.coefs) : ResiduePoly Z e).toPolynomial =
      (a.toPolynomial * b.toPolynomial) %ₘ e.modulusAt X := by
  have hmonic := e.monic_modulusAt_X (S := Z)
  have hvalue := valueAt_mul (AdjoinRoot.of (e.modulusAt (X : Z[X]))) modulusAt_root a b
  rw [valueAt_root_eq, valueAt_root_eq, valueAt_root_eq, ← map_mul, AdjoinRoot.mk_eq_mk] at hvalue
  rw [← modByMonic_eq_of_dvd_sub hmonic hvalue]
  exact ((modByMonic_eq_self_iff hmonic).mpr (degree_toPolynomial_lt _)).symm

/-- The ring laws, by comparison with the quotient ring. -/
noncomputable abbrev quotientLaws : CommRing (ResiduePoly Z e) :=
  valueAt_root_injective.commRing _ (valueAt_zero _)
    ((valueAt_fromScalar _ 1).trans (map_one _)) (valueAt_add _) (valueAt_mul _ modulusAt_root)
    (valueAt_neg _) (valueAt_sub _) (fun n a => valueAt_nsmul _ n a)
    (fun n a => valueAt_zsmul _ n a) (fun a n => valueAt_npow _ modulusAt_root a n)
    (fun n => (valueAt_fromScalar _ (n : Z)).trans (map_natCast _ n))
    (fun n => (valueAt_fromScalar _ (n : Z)).trans (map_intCast _ n))

instance : CommRing (ResiduePoly Z e) where
  add_assoc := quotientLaws.add_assoc
  zero_add := quotientLaws.zero_add
  add_zero := quotientLaws.add_zero
  add_comm := quotientLaws.add_comm
  neg_add_cancel := quotientLaws.neg_add_cancel
  sub_eq_add_neg := quotientLaws.sub_eq_add_neg
  mul_assoc := quotientLaws.mul_assoc
  one_mul := quotientLaws.one_mul
  mul_one := quotientLaws.mul_one
  mul_comm := quotientLaws.mul_comm
  zero_mul := quotientLaws.zero_mul
  mul_zero := quotientLaws.mul_zero
  left_distrib := quotientLaws.left_distrib
  right_distrib := quotientLaws.right_distrib
  nsmul := (· • ·)
  nsmul_zero := quotientLaws.nsmul_zero
  nsmul_succ := quotientLaws.nsmul_succ
  zsmul := (· • ·)
  zsmul_zero' := quotientLaws.zsmul_zero'
  zsmul_succ' := quotientLaws.zsmul_succ'
  zsmul_neg' := quotientLaws.zsmul_neg'
  npow := fun n a => a ^ n
  npow_zero := quotientLaws.npow_zero
  npow_succ := quotientLaws.npow_succ
  natCast_zero := quotientLaws.natCast_zero
  natCast_succ := quotientLaws.natCast_succ
  intCast_ofNat := quotientLaws.intCast_ofNat
  intCast_negSucc := quotientLaws.intCast_negSucc

/-- Evaluation at a root of the modulus is a ring homomorphism. -/
def valueHom [CommRing S] (g : Z →+* S) {x : S} (h : e.modulusAt x = 0) :
    ResiduePoly Z e →+* S where
  toFun := valueAt g x
  map_zero' := valueAt_zero g
  map_one' := (valueAt_fromScalar g 1).trans (map_one g)
  map_add' := valueAt_add g
  map_mul' := valueAt_mul g h

@[simp] theorem coefs_zero (i : Fin e.deg) : (0 : ResiduePoly Z e).coefs i = 0 := rfl

@[simp] theorem coefs_add (a b : ResiduePoly Z e) (i : Fin e.deg) :
    (a + b).coefs i = a.coefs i + b.coefs i := rfl

theorem coefs_fromScalar_mul (r : Z) (a : ResiduePoly Z e) (i : Fin e.deg) :
    (fromScalar r * a).coefs i = r * a.coefs i := by
  have heq : fromScalar r * a = ⟨fun i => r * a.coefs i⟩ := by
    apply valueAt_root_injective
    rw [valueAt_mul _ modulusAt_root, valueAt_fromScalar]
    simp only [valueAt, powerSum, Finset.mul_sum, map_mul, mul_assoc]
  rw [heq]

def scalarHom : Z →+* ResiduePoly Z e where
  toFun := fromScalar
  map_zero' := by
    ext i
    simp [fromScalar]
  map_one' := rfl
  map_add' x y := by
    ext i
    by_cases hi : i.val = 0 <;> simp [fromScalar, hi]
  map_mul' x y := by
    ext i
    rw [coefs_fromScalar_mul]
    by_cases hi : i.val = 0 <;> simp [fromScalar, hi]

/-- The class of the indeterminate. -/
def generator : ResiduePoly Z e := ⟨fun i => if i.val = 1 then 1 else 0⟩

theorem valueAt_generator [CommRing S] (g : Z →+* S) (x : S) :
    valueAt g x (generator : ResiduePoly Z e) = x := by
  have hone : 1 < e.deg := by cases e <;> decide
  rw [valueAt, powerSum, Finset.sum_eq_single (⟨1, hone⟩ : Fin e.deg)]
  · simp [generator]
  · intro i _ hi
    have : i.val ≠ 1 := fun h => hi (Fin.ext h)
    simp [generator, this]
  · simp

theorem modulusAt_generator : e.modulusAt (generator : ResiduePoly Z e) = 0 := by
  apply valueAt_root_injective
  change valueHom _ modulusAt_root (e.modulusAt generator) = valueHom _ modulusAt_root 0
  rw [e.map_modulusAt, map_zero]
  change e.modulusAt (valueAt _ _ generator) = 0
  rw [valueAt_generator, modulusAt_root]

/-- Every residue is the value of its own coefficients at the generator. -/
theorem valueAt_scalarHom_generator : valueAt scalarHom generator a = a := by
  apply valueAt_root_injective
  change valueHom _ modulusAt_root (powerSum scalarHom generator a.coefs) = powerSum _ _ a.coefs
  simp only [powerSum, map_sum, map_mul, map_pow]
  apply Finset.sum_congr rfl
  intro i _
  change valueAt _ _ (fromScalar (a.coefs i)) * valueAt _ _ generator ^ (i : ℕ) = _
  rw [valueAt_fromScalar, valueAt_generator]

theorem reduceMul_eq_powerSum :
    (reduceMul c : ResiduePoly Z e) = powerSum scalarHom generator c := by
  rw [← valueAt_reduceMul scalarHom modulusAt_generator c, valueAt_scalarHom_generator]

end ResiduePoly

end ThresholdKms
