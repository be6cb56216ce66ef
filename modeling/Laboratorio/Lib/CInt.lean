import Mathlib

/-!
# C integers and C array indices

`wrap32` is the value a 32-bit `int` holds after an arithmetic result has been stored in it
(two's complement), and `indice` is a C index checked against the bounds of its array.
-/

namespace Laboratorio.Lib

/-- The `int` that holds `x` modulo `2 ^ 32`. -/
def wrap32 (x : Int) : Int := x.bmod (2 ^ 32)

theorem wrap32_of_range {x : Int} (h1 : -2 ^ 31 ≤ x) (h2 : x < 2 ^ 31) : wrap32 x = x := by
  unfold wrap32
  rw [Int.bmod_eq_iff (by decide)]
  omega

/-- A result that has been stored goes on as the exact one would. -/
theorem wrap32_wrap32_add (x y : Int) : wrap32 (wrap32 x + y) = wrap32 (x + y) := by
  unfold wrap32
  exact Int.bmod_add_bmod

theorem wrap32_wrap32_succ (x : Int) : wrap32 (wrap32 x + 1) = wrap32 (x + 1) := wrap32_wrap32_add x 1

theorem wrap32_wrap32 (x : Int) : wrap32 (wrap32 x) = wrap32 x := by
  unfold wrap32
  exact Int.bmod_bmod

/-- What does not fit into 31 bits comes out as 0 or less. -/
theorem wrap32_nonpos {x : Int} (h1 : 2 ^ 31 ≤ x) (h2 : x ≤ 2 ^ 32) : wrap32 x ≤ 0 := by
  unfold wrap32
  rw [Int.bmod_def]
  split <;> omega

def INT_MAX : Int := 2147483647

theorem wrap32_le (x : Int) : wrap32 x ≤ INT_MAX := by
  have := Int.bmod_lt (x := x) (m := 2 ^ 32) (by decide)
  unfold wrap32 INT_MAX
  omega

/-- The array element that index `i` names in an array of `n` elements, if it is one. -/
def indice (n : Nat) (i : Int) : Option (Fin n) :=
  if h : 0 ≤ i ∧ i < n then some ⟨i.toNat, by omega⟩ else none

theorem indice_ofNat {n : Nat} (i : Fin n) : indice n (i : Nat) = some i := by
  unfold indice
  rw [dif_pos ⟨by omega, by omega⟩]
  rfl

end Laboratorio.Lib
