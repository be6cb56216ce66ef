import Laboratorio.Xv6.Calls
import Laboratorio.Xv6.Fs.Refs

/-!
# Reference counts balance

`Balanced` is what a reader of the kernel's data would check between two system calls.  It is the
invariant `Bal` of `Xv6/Calls.lean` for the references of `Xv6/Fs/Refs.lean`.
-/

namespace Laboratorio.Xv6.Kernel

open Laboratorio.Lib TwoLevel
open Vm (Geometry)
open Fs (Ino Superblock Refs)

/-- The number of open `FD_INODE` files that point to `ip`. -/
def inodeFiles (file : FileIx → File) (ip : Ino) : Nat :=
  (Finset.univ.filter fun f => 0 < (file f).ref ∧ (file f).type = .FD_INODE ∧ (file f).ip = ip).card

/-- The number of processes whose current directory is `ip`. -/
def currentDirs (proc : Slot → Proc) (ip : Ino) : Nat :=
  (Finset.univ.filter fun i => (proc i).cwd = some ip).card

structure Balanced (s : State) : Prop where
  file : ∀ f, (s.file f).ref = descriptors s.proc f
  inode : ∀ ip, (s.fs.inode ip).ref = (inodeFiles s.file ip + currentDirs s.proc ip : Nat)
  unique : ∀ ip jp, 0 < (s.fs.inode ip).ref → 0 < (s.fs.inode jp).ref →
    (s.fs.inode ip).dev = (s.fs.inode jp).dev → (s.fs.inode ip).inum = (s.fs.inode jp).inum → ip = jp
  ops : s.fs.begun = s.fs.ended

theorem Bal.balanced {s : State} (h : Bal (fun E F => Refs E 0 F) 0 0 s) : Balanced s := by
  refine ⟨fun f => ?_, fun ip => ?_, h.fs.unique, h.fs.ops⟩
  · have := h.file f
    simpa using this
  · have hfiles : (∑ f, (s.file f).inodeRef).count ip = inodeFiles s.file ip := by
      rw [Multiset.count_sum', inodeFiles, Finset.card_filter]
      refine Finset.sum_congr rfl fun f _ => ?_
      unfold File.inodeRef
      by_cases hf : 0 < (s.file f).ref ∧ (s.file f).type = .FD_INODE
      · simp [hf, Multiset.count_singleton, eq_comm]
      · rw [if_neg hf, if_neg fun hf' => hf ⟨hf'.1, hf'.2.1⟩, Multiset.count_zero]
    have hcwds : (∑ i, target (s.proc i).cwd).count ip = currentDirs s.proc ip := by
      rw [Multiset.count_sum', currentDirs, Finset.card_filter]
      refine Finset.sum_congr rfl fun i _ => ?_
      cases (s.proc i).cwd <;> simp [Multiset.count_singleton, eq_comm]
    rw [h.fs.ref ip, zero_add, inodeRefs, Multiset.count_add, hfiles, hcwds]

theorem refs_start (disk : Fs.State) (deny : List Bool) : Refs 0 0 (start disk deny).fs := by
  refine ⟨fun ip => ?_, fun ip jp hip => ?_, rfl⟩
  · simp [start]
  · simp [start] at hip

/-- After every run of complete system calls, from any file system and with any failures of
`kalloc`, the counts of files, inodes and operations balance. -/
theorem references_balance (g : Geometry) (sb : Superblock) (ncpu : Nat) (disk : Fs.State)
    (deny : List Bool) (cs : List (Slot × Call)) :
    wp (fun _ => True) (do main g ncpu; calls g sb cs) (fun _ s => Balanced s) (start disk deny) := by
  have R : CallRules sb _ _ := CallRules.of_rules Refs.rules
  have hrun : wp (Stops fun _ => True) (do main g ncpu; calls g sb cs)
      (fun _ s => Bal (fun E F => Refs E 0 F) 0 0 s) (start disk deny) := by
    refine wp_seq (main_bal (b := true) (L := 0) R ncpu (start_bal disk deny (refs_start disk deny))) fun _ s₁ h₁ => ?_
    exact calls_bal (L := 0) R (fun _ _ _ _ _ _ _ _ _ h => h.fixes (Fs.writei_refs _ _ _)) cs h₁
  exact wp_weaken hrun (fun _ _ h => h.balanced) fun _ _ => trivial

/-- The root directory is open and was duplicated, and a child has both descriptors too. -/
example : (match (do main .small 1; calls .small .mkfs [(0, .opens (some [47]) 0), (0, .dup 0), (0, .fork)])
      (start .mkfs []) with
    | .ok (_, s) => (s.file 0).ref == 4 && (s.fs.inode 0).ref == 3
    | .error _ => false) = true := by
  decide +kernel

end Laboratorio.Xv6.Kernel
