import Mathlib.Tactic

/-!
# Karatsuba products of coefficient arrays

The products of two arrays of 2 to 8 coefficients, in the order of operations of the source. Under
any ring homomorphism and at any point, the value of the product is the product of the values.
-/

namespace ThresholdKms

section Products

variable {Z : Type} [CommRing Z]

def karatsuba2 (a b : Fin 2 → Z) : Fin 3 → Z :=
  let z0 := a 1 * b 1
  let z2 := a 0 * b 0
  let z3 := (a 0 + a 1) * (b 0 + b 1)
  let z1 := z3 - z2 - z0
  ![z2, z1, z0]

def karatsuba3 (a b : Fin 3 → Z) : Fin 5 → Z :=
  let z0 := karatsuba2 ![a 1, a 2] ![b 1, b 2]
  let z2 := a 0 * b 0
  let z3 := karatsuba2 ![a 1, a 0 + a 2] ![b 1, b 0 + b 2]
  let z1 : Fin 3 → Z := ![z3 0 - z0 0, z3 1 - z0 1, z3 2 - z2 - z0 2]
  ![z2 + z1 0, z1 1, z1 2 + z0 0, z0 1, z0 2]

def karatsuba4 (a b : Fin 4 → Z) : Fin 7 → Z :=
  let z0 := karatsuba2 ![a 2, a 3] ![b 2, b 3]
  let z2 := karatsuba2 ![a 0, a 1] ![b 0, b 1]
  let z3 := karatsuba2 ![a 0 + a 2, a 1 + a 3] ![b 0 + b 2, b 1 + b 3]
  let z1 : Fin 3 → Z := ![z3 0 - z2 0 - z0 0, z3 1 - z2 1 - z0 1, z3 2 - z2 2 - z0 2]
  ![z2 0, z2 1, z2 2 + z1 0, z1 1, z1 2 + z0 0, z0 1, z0 2]

def karatsuba5 (a b : Fin 5 → Z) : Fin 9 → Z :=
  let z0 := karatsuba3 ![a 2, a 3, a 4] ![b 2, b 3, b 4]
  let z2 := karatsuba2 ![a 0, a 1] ![b 0, b 1]
  let z3 := karatsuba3 ![a 2, a 0 + a 3, a 1 + a 4] ![b 2, b 0 + b 3, b 1 + b 4]
  let z1 : Fin 5 → Z :=
    ![z3 0 - z0 0, z3 1 - z0 1, z3 2 - z2 0 - z0 2, z3 3 - z2 1 - z0 3, z3 4 - z2 2 - z0 4]
  ![z2 0, z2 1 + z1 0, z2 2 + z1 1, z1 2, z1 3 + z0 0, z1 4 + z0 1, z0 2, z0 3, z0 4]

def karatsuba6 (a b : Fin 6 → Z) : Fin 11 → Z :=
  let z0 := karatsuba3 ![a 3, a 4, a 5] ![b 3, b 4, b 5]
  let z2 := karatsuba3 ![a 0, a 1, a 2] ![b 0, b 1, b 2]
  let z3 := karatsuba3 ![a 0 + a 3, a 1 + a 4, a 2 + a 5] ![b 0 + b 3, b 1 + b 4, b 2 + b 5]
  let z1 : Fin 5 → Z :=
    ![z3 0 - z2 0 - z0 0, z3 1 - z2 1 - z0 1, z3 2 - z2 2 - z0 2, z3 3 - z2 3 - z0 3,
      z3 4 - z2 4 - z0 4]
  ![z2 0, z2 1, z2 2, z2 3 + z1 0, z2 4 + z1 1, z1 2, z1 3 + z0 0, z1 4 + z0 1, z0 2, z0 3, z0 4]

def karatsuba7 (a b : Fin 7 → Z) : Fin 13 → Z :=
  let z0 := karatsuba4 ![a 3, a 4, a 5, a 6] ![b 3, b 4, b 5, b 6]
  let z2 := karatsuba3 ![a 0, a 1, a 2] ![b 0, b 1, b 2]
  let z3 := karatsuba4 ![a 3, a 0 + a 4, a 1 + a 5, a 2 + a 6]
    ![b 3, b 0 + b 4, b 1 + b 5, b 2 + b 6]
  let z1 : Fin 7 → Z :=
    ![z3 0 - z0 0, z3 1 - z0 1, z3 2 - z2 0 - z0 2, z3 3 - z2 1 - z0 3, z3 4 - z2 2 - z0 4,
      z3 5 - z2 3 - z0 5, z3 6 - z2 4 - z0 6]
  ![z2 0, z2 1, z1 0 + z2 2, z1 1 + z2 3, z1 2 + z2 4, z1 3, z1 4 + z0 0, z1 5 + z0 1,
    z1 6 + z0 2, z0 3, z0 4, z0 5, z0 6]

def karatsuba8 (a b : Fin 8 → Z) : Fin 15 → Z :=
  let z0 := karatsuba4 ![a 4, a 5, a 6, a 7] ![b 4, b 5, b 6, b 7]
  let z2 := karatsuba4 ![a 0, a 1, a 2, a 3] ![b 0, b 1, b 2, b 3]
  let z3 := karatsuba4 ![a 0 + a 4, a 1 + a 5, a 2 + a 6, a 3 + a 7]
    ![b 0 + b 4, b 1 + b 5, b 2 + b 6, b 3 + b 7]
  let z1 : Fin 7 → Z :=
    ![z3 0 - z2 0 - z0 0, z3 1 - z2 1 - z0 1, z3 2 - z2 2 - z0 2, z3 3 - z2 3 - z0 3,
      z3 4 - z2 4 - z0 4, z3 5 - z2 5 - z0 5, z3 6 - z2 6 - z0 6]
  ![z2 0, z2 1, z2 2, z2 3, z1 0 + z2 4, z1 1 + z2 5, z1 2 + z2 6, z1 3, z1 4 + z0 0,
    z1 5 + z0 1, z1 6 + z0 2, z0 3, z0 4, z0 5, z0 6]

end Products

section Values

variable {Z S : Type*} [CommRing Z] [CommRing S]

/-- The value at `x` of the polynomial with coefficients `c`, mapped into `S`. -/
def powerSum (g : Z →+* S) (x : S) {n : ℕ} (c : Fin n → Z) : S := ∑ i, g (c i) * x ^ (i : ℕ)

end Values

section ProductValues

variable {Z : Type} {S : Type*} [CommRing Z] [CommRing S] (g : Z →+* S) (x : S)

theorem powerSum_karatsuba2 (a b : Fin 2 → Z) :
    powerSum g x (karatsuba2 a b) = powerSum g x a * powerSum g x b := by
  simp [powerSum, karatsuba2, Fin.sum_univ_succ]
  ring

theorem powerSum_karatsuba3 (a b : Fin 3 → Z) :
    powerSum g x (karatsuba3 a b) = powerSum g x a * powerSum g x b := by
  have h0 := powerSum_karatsuba2 g x ![a 1, a 2] ![b 1, b 2]
  have h3 := powerSum_karatsuba2 g x ![a 1, a 0 + a 2] ![b 1, b 0 + b 2]
  simp [powerSum, karatsuba3, Fin.sum_univ_succ] at h0 h3 ⊢
  linear_combination (x ^ 2 - 1) * h0 + h3

theorem powerSum_karatsuba4 (a b : Fin 4 → Z) :
    powerSum g x (karatsuba4 a b) = powerSum g x a * powerSum g x b := by
  have h0 := powerSum_karatsuba2 g x ![a 2, a 3] ![b 2, b 3]
  have h2 := powerSum_karatsuba2 g x ![a 0, a 1] ![b 0, b 1]
  have h3 := powerSum_karatsuba2 g x ![a 0 + a 2, a 1 + a 3] ![b 0 + b 2, b 1 + b 3]
  simp [powerSum, karatsuba4, Fin.sum_univ_succ] at h0 h2 h3 ⊢
  linear_combination (x ^ 4 - x ^ 2) * h0 + (1 - x ^ 2) * h2 + x ^ 2 * h3

theorem powerSum_karatsuba5 (a b : Fin 5 → Z) :
    powerSum g x (karatsuba5 a b) = powerSum g x a * powerSum g x b := by
  have h0 := powerSum_karatsuba3 g x ![a 2, a 3, a 4] ![b 2, b 3, b 4]
  have h2 := powerSum_karatsuba2 g x ![a 0, a 1] ![b 0, b 1]
  have h3 := powerSum_karatsuba3 g x ![a 2, a 0 + a 3, a 1 + a 4] ![b 2, b 0 + b 3, b 1 + b 4]
  simp [powerSum, karatsuba5, Fin.sum_univ_succ] at h0 h2 h3 ⊢
  linear_combination (x ^ 4 - x) * h0 + (1 - x ^ 3) * h2 + x * h3

theorem powerSum_karatsuba6 (a b : Fin 6 → Z) :
    powerSum g x (karatsuba6 a b) = powerSum g x a * powerSum g x b := by
  have h0 := powerSum_karatsuba3 g x ![a 3, a 4, a 5] ![b 3, b 4, b 5]
  have h2 := powerSum_karatsuba3 g x ![a 0, a 1, a 2] ![b 0, b 1, b 2]
  have h3 := powerSum_karatsuba3 g x ![a 0 + a 3, a 1 + a 4, a 2 + a 5]
    ![b 0 + b 3, b 1 + b 4, b 2 + b 5]
  simp [powerSum, karatsuba6, Fin.sum_univ_succ] at h0 h2 h3 ⊢
  linear_combination (x ^ 6 - x ^ 3) * h0 + (1 - x ^ 3) * h2 + x ^ 3 * h3

theorem powerSum_karatsuba7 (a b : Fin 7 → Z) :
    powerSum g x (karatsuba7 a b) = powerSum g x a * powerSum g x b := by
  have h0 := powerSum_karatsuba4 g x ![a 3, a 4, a 5, a 6] ![b 3, b 4, b 5, b 6]
  have h2 := powerSum_karatsuba3 g x ![a 0, a 1, a 2] ![b 0, b 1, b 2]
  have h3 := powerSum_karatsuba4 g x ![a 3, a 0 + a 4, a 1 + a 5, a 2 + a 6]
    ![b 3, b 0 + b 4, b 1 + b 5, b 2 + b 6]
  simp [powerSum, karatsuba7, Fin.sum_univ_succ] at h0 h2 h3 ⊢
  linear_combination (x ^ 6 - x ^ 2) * h0 + (1 - x ^ 4) * h2 + x ^ 2 * h3

theorem powerSum_karatsuba8 (a b : Fin 8 → Z) :
    powerSum g x (karatsuba8 a b) = powerSum g x a * powerSum g x b := by
  have h0 := powerSum_karatsuba4 g x ![a 4, a 5, a 6, a 7] ![b 4, b 5, b 6, b 7]
  have h2 := powerSum_karatsuba4 g x ![a 0, a 1, a 2, a 3] ![b 0, b 1, b 2, b 3]
  have h3 := powerSum_karatsuba4 g x ![a 0 + a 4, a 1 + a 5, a 2 + a 6, a 3 + a 7]
    ![b 0 + b 4, b 1 + b 5, b 2 + b 6, b 3 + b 7]
  simp [powerSum, karatsuba8, Fin.sum_univ_succ] at h0 h2 h3 ⊢
  linear_combination (x ^ 8 - x ^ 4) * h0 + (1 - x ^ 4) * h2 + x ^ 4 * h3

end ProductValues

end ThresholdKms
