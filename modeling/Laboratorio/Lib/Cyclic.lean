import Mathlib

/-!
# Positions on a circle

`after a d` is the position `d` steps after `a` on a circle of `n` positions, `dist a b` the
number of steps from `a` forward to `b`.  Going forward to a position that does not lie beyond
`b` shortens the distance to `b` by exactly the steps made (`dist_after_left`), which is the
decreasing measure of a cyclic scan.
-/

namespace Laboratorio.Lib.Cyclic

variable {n : Nat} [NeZero n]

/-- The position `d` steps after `a`. -/
def after (a : Fin n) (d : Nat) : Fin n := Fin.ofNat n (a + d)

/-- The number of steps from `a` forward to `b`. -/
def dist (a b : Fin n) : Nat := (b + n - a) % n

theorem dist_lt (a b : Fin n) : dist a b < n := Nat.mod_lt _ (Nat.pos_of_neZero n)

omit [NeZero n] in
/-- The value of the distance, by cases on whether the way passes position 0. -/
theorem dist_cases (a b : Fin n) :
    ((a : Nat) ≤ b ∧ dist a b + a = b) ∨ ((b : Nat) < a ∧ dist a b + a = b + n) := by
  have ha := a.isLt
  have hb := b.isLt
  unfold dist
  rcases Nat.lt_or_ge b a with h | h
  · right
    rw [Nat.mod_eq_of_lt (by omega)]
    omega
  · left
    rw [show (b : Nat) + n - a = (b - a) + n by omega, Nat.add_mod_right,
      Nat.mod_eq_of_lt (by omega)]
    omega

theorem after_cases {a : Fin n} {d : Nat} (h : d < n) :
    ((after a d : Nat) = a + d) ∨ ((after a d : Nat) + n = a + d) := by
  have ha := a.isLt
  unfold after
  rw [Fin.val_ofNat]
  rcases Nat.lt_or_ge (a + d) n with hlt | hge
  · left; exact Nat.mod_eq_of_lt hlt
  · right
    rw [Nat.mod_eq_sub_mod hge, Nat.mod_eq_of_lt (by omega)]
    omega

theorem after_dist (a b : Fin n) : after a (dist a b) = b := by
  have hb := b.isLt
  have hl := (after a (dist a b)).isLt
  apply Fin.ext
  rcases dist_cases a b with h | h <;>
    rcases after_cases (a := a) (dist_lt a b) with k | k <;> omega

omit [NeZero n] in
theorem dist_pos {a b : Fin n} (h : b ≠ a) : 0 < dist a b := by
  have hne : (b : Nat) ≠ a := fun e => h (Fin.ext e)
  have := b.isLt
  rcases dist_cases a b with h | h <;> omega

theorem after_ne {a : Fin n} {d : Nat} (h0 : 0 < d) (h : d < n) : after a d ≠ a := by
  intro e
  have := congrArg Fin.val e
  rcases after_cases (a := a) h with k | k <;> omega

theorem dist_after_left {a b : Fin n} {d : Nat} (h : d ≤ dist a b) :
    dist (after a d) b + d = dist a b := by
  have h1 := dist_lt a b
  have h2 := dist_lt (after a d) b
  have ha := a.isLt
  have hb := b.isLt
  have hl := (after a d).isLt
  rcases after_cases (a := a) (show d < n by omega) with k | k <;>
    rcases dist_cases a b with i | i <;> rcases dist_cases (after a d) b with j | j <;> omega

end Laboratorio.Lib.Cyclic
