import Laboratorio.Xv6.Balance
import Laboratorio.Xv6.Fs.Held

/-!
# Block allocation is exact

`BlocksExact` is what a checker of the disk would look at: the bit map against the block numbers in the
inodes and their indirect blocks.  `Held` of `Xv6/Fs/Held.lean` implies it, and every system call
keeps `Held`.
-/

namespace Laboratorio.Xv6.Kernel

open Laboratorio.Lib
open Vm (Geometry)
open Fs (Superblock Good Held)

structure BlocksExact (sb : Superblock) (s : Fs.State) : Prop where
  /-- A block is in use if it is metadata, or some allocated inode has its number. -/
  bit : ∀ b < sb.size, s.bit b = true ↔
    b < sb.nmeta ∨ ∃ x k, (s.dinode x).type ≠ .free ∧ (s.dinode x).slot s.data k = some b
  data : ∀ x k b, (s.dinode x).type ≠ .free → (s.dinode x).slot s.data k = some b →
    sb.nmeta ≤ b ∧ b < sb.size
  once : ∀ x y k l b, (s.dinode x).type ≠ .free → (s.dinode y).type ≠ .free →
    (s.dinode x).slot s.data k = some b → (s.dinode y).slot s.data l = some b → x = y ∧ k = l

theorem exact_of_good {sb : Superblock} {s : Fs.State} (h : Good sb s) : BlocksExact sb s := by
  have hslots : ∀ x k b, (s.dinode x).type ≠ .free → (s.dinode x).slot s.data k = some b →
      k < Fs.NSLOT ∧ Fs.slots s.dinode s.data x k = some b := by
    intro x k b hx hk
    refine ⟨Fs.lt_nslot hk, ?_⟩
    rw [Fs.slots_alloc hx, hk]
  obtain ⟨-, hitems, -, hmark⟩ := Ledger.marked_iff.1 h.account.marked
  simp only [add_zero, Finset.mem_range] at hitems hmark
  refine ⟨fun b hb => ?_, fun x k b hx hk => ?_, fun x y k l b hx hy hk hl => ?_⟩
  · rw [hmark b hb, Fs.mem_blocks_iff h.account.beyond]
  · obtain ⟨hk', hslot⟩ := hslots x k b hx hk
    have hb := hitems b (Fs.mem_blocks h.account.beyond hk' hslot)
    exact ⟨Nat.le_of_not_lt hb.2, hb.1⟩
  · obtain ⟨hk', hslot⟩ := hslots x k b hx hk
    obtain ⟨hl', hslot'⟩ := hslots y l b hy hl
    exact h.account.inj hk' hl' hslot hslot'

theorem heldRules {sb : Superblock} : CallRules sb (· ≠ .freeingFreeBlock) fun _ => Held sb :=
  .of_rules Held.rules

/-- After every run of complete system calls from a well-formed disk, the bit map is exact.  Whatever
else stops a run, it is not `bfree` of a free block. -/
theorem block_allocation_exact (g : Geometry) (sb : Superblock) (ncpu : Nat) (disk : Fs.State)
    (deny : List Bool) (cs : List (Slot × Call)) (h : Good sb (start disk deny).fs) :
    wp (fun e => e ≠ .fs .freeingFreeBlock) (do main g ncpu; calls g sb cs)
      (fun _ s => BlocksExact sb s.fs) (start disk deny) := by
  have hstart : Held sb 0 0 0 (start disk deny).fs :=
    ⟨refs_start disk deny, h, Multiset.nodup_zero, nofun⟩
  have hrun : wp (Stops (· ≠ .freeingFreeBlock)) (do main g ncpu; calls g sb cs)
      (fun _ s => Bal (Held sb 0 0) 0 0 s) (start disk deny) := by
    refine wp_seq (main_bal (b := true) heldRules ncpu (start_bal disk deny hstart)) fun _ s₁ h₁ => ?_
    exact calls_bal heldRules (fun _ _ _ _ _ _ src off hip h₂ => Held.rules.writei src off hip h₂) cs h₁
  refine wp_weaken hrun (fun _ _ h₁ => exact_of_good h₁.fs.good) ?_
  rintro _ he rfl
  exact he rfl

/-- A directory and a file in it are made, and both are removed again. -/
def madeAndRemoved : List (Slot × Call) :=
  [(0, .mkdir (some [97])), (0, .opens (some [97, 47, 98]) O_CREATE), (0, .close 0),
    (0, .unlink (some [97, 47, 98])), (0, .unlink (some [97]))]

theorem block_allocation_exact_madeAndRemoved : Good .mkfs (start .mkfs []).fs ∧
    ∃ s, (do main .small 1; calls .small .mkfs madeAndRemoved) (start .mkfs []) = .ok ((), s) ∧
      BlocksExact .mkfs s.fs := by
  refine ⟨Good.mkfs, ?_⟩
  have hexact := block_allocation_exact .small .mkfs 1 .mkfs [] madeAndRemoved Good.mkfs
  obtain ⟨s, hrun, -⟩ : ∃ s, (do main .small 1; calls .small .mkfs madeAndRemoved) (start .mkfs []) =
      .ok ((), s) ∧ True := by decide +kernel
  exact ⟨s, hrun, hexact.of_ok hrun⟩

end Laboratorio.Xv6.Kernel
