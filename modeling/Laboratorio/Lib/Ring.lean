import Mathlib

/-!
# Ring buffers

A ring of `size` cells through which a sequence `f` passes: item `k` goes to cell `k % size`.
`Holds f size buf c p` says that the items from `c` up to `p`, written and not yet read, are in
their cells.  While `p < c + size` the cell of the next item holds none of them.

The counters of a program are often unsigned 32-bit words.  They wrap, and still say where the items
are if `size` divides `2 ^ 32`, and how many there are if `size` is less.
-/

namespace Laboratorio.Lib

variable {α : Type*} {f : Nat → α} {size : Nat} {buf : Nat → α} {c p : Nat}

def Holds (f : Nat → α) (size : Nat) (buf : Nat → α) (c p : Nat) : Prop :=
  ∀ k, c ≤ k → k < p → buf (k % size) = f k

theorem mod_ne_of_window {k : Nat} (hck : c ≤ k) (hkp : k < p) (hroom : p < c + size) :
    k % size ≠ p % size := by
  intro h
  have hdvd : size ∣ p - k := (Nat.modEq_iff_dvd' (by omega)).1 h
  have := Nat.le_of_dvd (by omega) hdvd
  omega

theorem Holds.congr {g : Nat → α} (h : Holds f size buf c p) (hfg : ∀ k, c ≤ k → k < p → g k = f k) :
    Holds g size buf c p :=
  fun k hck hkp => (h k hck hkp).trans (hfg k hck hkp).symm

theorem Holds.write (h : Holds f size buf c p) (hroom : p < c + size) :
    Holds f size (Function.update buf (p % size) (f p)) c (p + 1) := by
  intro k hck hkp
  rcases eq_or_ne k p with rfl | hne
  · rw [Function.update_self]
  · have hlt : k < p := by omega
    rw [Function.update_of_ne (mod_ne_of_window hck hlt hroom)]
    exact h k hck hlt

theorem Holds.drop (h : Holds f size buf c p) : Holds f size buf (c + 1) p :=
  fun k hck hkp => h k (by omega) hkp

theorem Holds.mono {q : Nat} (h : Holds f size buf c p) (hq : q ≤ p) : Holds f size buf c q :=
  fun k hck hkq => h k hck (Nat.lt_of_lt_of_le hkq hq)

/-! ## Wrapping counters -/

section Counters

variable {a b : UInt32} {r w : Nat}

/-- While there are fewer than `2 ^ 32` items, the difference of the counters is their number. -/
theorem toNat_sub_of_counts (hr : a.toNat = r % 2 ^ 32) (hw : b.toNat = w % 2 ^ 32) (h : r ≤ w)
    (hlt : w - r < 2 ^ 32) : (b - a).toNat = w - r := by
  rw [UInt32.toNat_sub]
  omega

theorem counts_eq_iff (hr : a.toNat = r % 2 ^ 32) (hw : b.toNat = w % 2 ^ 32) (h : r ≤ w)
    (hlt : w - r < 2 ^ 32) : a = b ↔ r = w := by
  rw [← UInt32.toNat_inj, hr, hw]
  omega

/-- The number of the cell is not lost when the counter wraps. -/
theorem count_mod (hsize : size ∣ 2 ^ 32) (h : a.toNat = r % 2 ^ 32) :
    a.toNat % size = r % size := by
  rw [h]
  exact Nat.mod_mod_of_dvd r hsize

theorem count_add (n : Nat) (h : a.toNat = r % 2 ^ 32) :
    (a + UInt32.ofNat n).toNat = (r + n) % 2 ^ 32 := by
  rw [UInt32.toNat_add, h, UInt32.toNat_ofNat']
  omega

theorem count_succ (h : a.toNat = r % 2 ^ 32) : (a + 1).toNat = (r + 1) % 2 ^ 32 :=
  count_add 1 h

theorem count_pred (h : a.toNat = (r + 1) % 2 ^ 32) : (a - 1).toNat = r % 2 ^ 32 := by
  have hone : (1 : UInt32).toNat = 1 := rfl
  rw [UInt32.toNat_sub, h, hone]
  omega

end Counters

end Laboratorio.Lib
