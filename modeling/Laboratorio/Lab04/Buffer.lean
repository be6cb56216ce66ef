import Laboratorio.Lib.CInt
import Laboratorio.Lib.Runs

/-!
# The shared buffer of `lab-04/sched-threads.c`

`count` threads run `write_buffer`.  In each of its `items` turns a thread writes its number to `buf[pos]`,
any number of times, and then adds one to `pos`, by a load and an unprotected store.

The buffer has `count * items` elements, a product of two `int`s.  `malloc` does not fail.
-/

namespace Laboratorio.Lab04.Buffer

open Laboratorio.Lib Function Finset

structure Estado (count : Nat) where
  pos : Nat
  buf : Nat → Nat
  i : Fin count → Nat
  /-- The value of `pos` that the thread has loaded to add one. -/
  loc : Fin count → Option Nat

inductive Stop where
  | outside
  | finished

variable {count items : Nat} {s t : Estado count} {a : Fin count × Bool}

/-- The number of elements that `malloc` is asked for. -/
def elementos (count items : Nat) : Int := wrap32 (count * items)

def inicial : Estado count := ⟨0, fun _ => 0, fun _ => 0, fun _ => none⟩

/-- One step of thread `a.1`; within a turn it writes or loads, as `a.2` says. -/
def write_buffer (items : Nat) (s : Estado count) (a : Fin count × Bool) : Except Stop (Estado count) :=
  match s.loc a.1 with
  | some p => .ok { s with
      pos := p + 1, i := update s.i a.1 (s.i a.1 + 1), loc := update s.loc a.1 none }
  | none =>
    if s.i a.1 < items then
      if a.2 then
        if s.pos < elementos count items then .ok { s with buf := update s.buf s.pos a.1 }
        else .error .outside
      else .ok { s with loc := update s.loc a.1 (some s.pos) }
    else .error .finished

/-- No value of `pos` is larger than the number of stores so far. -/
structure Inv (items : Nat) (s : Estado count) : Prop where
  pos : s.pos ≤ ∑ h, s.i h
  loc : ∀ h p, s.loc h = some p → p ≤ ∑ h, s.i h ∧ s.i h < items
  le : ∀ h, s.i h ≤ items

theorem Inv.step (h : Inv items s) (ht : write_buffer items s a = .ok t) : Inv items t := by
  obtain ⟨hpos, hloc, hle⟩ := h
  have hsum : ∑ k, update s.i a.1 (s.i a.1 + 1) k = ∑ k, s.i k + 1 := by
    rw [sum_update_of_mem (mem_univ a.1), ← add_sum_erase _ s.i (mem_univ a.1), sdiff_singleton_eq_erase]
    omega
  unfold write_buffer at ht
  split at ht
  · cases ht
    constructor <;> grind [update_apply]
  · split_ifs at ht <;> cases ht <;> constructor <;> grind [update_apply]

theorem elementos_eq (hfit : (count * items : Int) ≤ INT_MAX) :
    elementos count items = (count * items : Nat) := by
  have h0 : (0 : Int) ≤ count * items := by positivity
  unfold INT_MAX at hfit
  unfold elementos
  rw [wrap32_of_range (by omega) (by omega), Nat.cast_mul]

theorem Inv.inside (h : Inv items s) (hfit : (count * items : Int) ≤ INT_MAX) :
    write_buffer items s a ≠ .error .outside := by
  have hpos := h.pos
  have hsum (hi : s.i a.1 < items) : ∑ k, s.i k < ∑ _k : Fin count, items :=
    sum_lt_sum (fun k _ => h.le k) ⟨a.1, mem_univ _, hi⟩
  simp only [sum_const, card_univ, Fintype.card_fin, smul_eq_mul] at hsum
  unfold write_buffer
  rw [elementos_eq hfit]
  clear hfit
  grind

/-- **No interleaving writes outside the buffer**, if its size is an `int`. -/
theorem buffer_inside (hfit : (count * items : Int) ≤ INT_MAX) (ops : List (Fin count × Bool)) :
    run (write_buffer items) inicial ops ≠ .error .outside := by
  refine run_ne_error fun pre a u _ hu => Inv.inside ?_ hfit
  have h0 : Inv items (inicial : Estado count) := by constructor <;> simp [inicial]
  exact run_invariant (P := fun _ t => Inv items t) h0 (fun _ _ _ _ _ h => h.step) pre u hu

/-- Both threads load `pos` before either stores it, and go on. -/
theorem buffer_inside_lost_update : ((2 * 2 : Nat) : Int) ≤ INT_MAX ∧
    run (write_buffer 2) inicial [((0 : Fin 2), true), (0, false), (1, false), (0, true), (1, true),
      (0, false), (1, true)] ≠ .error .outside :=
  ⟨by decide, buffer_inside (by decide) _⟩

end Laboratorio.Lab04.Buffer
