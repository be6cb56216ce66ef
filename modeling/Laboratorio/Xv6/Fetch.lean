import Laboratorio.Xv6.Ownership

/-!
# The arguments of system calls: `fetchint`, `fetchstr`, `argint`, `argptr` and `argstr`

A process puts any number into `%esp` before it makes a call.  The kernel computes the addresses of
the arguments with 32-bit unsigned numbers and compares them with `sz`.  What it reads there is
`load`; where no page is present the kernel traps, and the fetch ends with `Fetch.fault`.
-/

namespace Laboratorio.Xv6.Kernel

open Laboratorio.Lib Bytes Function
open Vm (Geometry PGSIZE KERNBASE)
open Fs (Superblock)

/-- How a fetch ends; `reject` is -1. -/
inductive Fetch (α : Type) where
  | fault
  | reject
  | accept (a : α)
  deriving DecidableEq, Repr

/-- The byte at an address of the process. -/
def load (s : State) (i : Slot) (va : Nat) : Option UInt8 :=
  (Vm.user s.mem (s.proc i).pgdir va).map fun x => x.2 (va % PGSIZE)

def fetchint (s : State) (i : Slot) (addr : Nat) : Fetch Nat :=
  if addr ≥ (s.proc i).sz ∨ (addr + 4) % 2 ^ 32 > (s.proc i).sz then .reject
  else
    match (List.range 4).mapM fun k => load s i (addr + k) with
    | none => .fault
    | some bytes => .accept (ofBytes bytes)

/-- The loop of `fetchstr`, with `n` bytes to go before `ep`; `k` is `s - *pp`. -/
def strLoop (s : State) (i : Slot) (addr : Nat) : (n k : Nat) → Fetch Nat
  | 0, _ => .reject
  | n + 1, k =>
    match load s i (addr + k) with
    | none => .fault
    | some c => if c = 0 then .accept k else strLoop s i addr n (k + 1)

/-- The length of the string. -/
def fetchstr (s : State) (i : Slot) (addr : Nat) : Fetch Nat :=
  if addr ≥ (s.proc i).sz then .reject else strLoop s i addr ((s.proc i).sz - addr) 0

/-- `(myproc()->tf->esp) + 4 + 4*n` -/
def argAddr (esp : Nat) (n : Int) : Nat := ((esp + 4 + 4 * n) % 2 ^ 32).toNat

def argint (s : State) (i : Slot) (esp : Nat) (n : Int) : Fetch Nat := fetchint s i (argAddr esp n)

/-- The pointer. -/
def argptr (s : State) (i : Slot) (esp : Nat) (n size : Int) : Fetch Nat :=
  match argint s i esp n with
  | .accept p =>
    if size < 0 ∨ p ≥ (s.proc i).sz ∨ ((p + size) % 2 ^ 32).toNat > (s.proc i).sz then .reject
    else .accept p
  | r => r

/-- The pointer, and the length of the string. -/
def argstr (s : State) (i : Slot) (esp : Nat) (n : Int) : Fetch (Nat × Nat) :=
  match argint s i esp n with
  | .accept addr =>
    match fetchstr s i addr with
    | .accept len => .accept (addr, len)
    | .reject => .reject
    | .fault => .fault
  | .reject => .reject
  | .fault => .fault

variable {s : State} {i : Slot}

/-! ## The checks -/

/-- The bytes from `addr` on are a string of this length, with its NUL below `sz`. -/
structure IsString (s : State) (i : Slot) (addr len : Nat) : Prop where
  inside : addr + len < (s.proc i).sz
  nul : load s i (addr + len) = some 0
  chars : ∀ k < len, ∃ c, load s i (addr + k) = some c ∧ c ≠ 0

/-- What is accepted lies in the memory of the process. -/
structure ArgsSound (s : State) (i : Slot) : Prop where
  fetchint : ∀ addr < 2 ^ 32, ∀ w, fetchint s i addr = .accept w →
    addr + 4 ≤ (s.proc i).sz ∧ addr + 4 < 2 ^ 32
  argint : ∀ esp < 2 ^ 32, ∀ n w, argint s i esp n = .accept w →
    argAddr esp n + 4 ≤ (s.proc i).sz ∧ argAddr esp n + 4 < 2 ^ 32
  argptr : ∀ esp < 2 ^ 32, ∀ n size : Int, -2 ^ 31 ≤ size → size < 2 ^ 31 → ∀ p,
    argptr s i esp n size = .accept p → 0 ≤ size ∧ p + size ≤ (s.proc i).sz ∧ p + size < 2 ^ 32
  fetchstr : ∀ addr < 2 ^ 32, ∀ len, fetchstr s i addr = .accept len → IsString s i addr len
  argstr : ∀ esp < 2 ^ 32, ∀ n addr len, argstr s i esp n = .accept (addr, len) →
    IsString s i addr len

theorem fetchint_accept {addr w : Nat} (hsz : (s.proc i).sz < KERNBASE)
    (h : fetchint s i addr = .accept w) : addr + 4 ≤ (s.proc i).sz ∧ addr + 4 < 2 ^ 32 := by
  unfold fetchint at h
  split at h
  · cases h
  · unfold KERNBASE at hsz
    omega

theorem strLoop_accept {addr n k len : Nat} (h : strLoop s i addr n k = .accept len) :
    k ≤ len ∧ len < k + n ∧ load s i (addr + len) = some 0 ∧
      ∀ j, k ≤ j → j < len → ∃ c, load s i (addr + j) = some c ∧ c ≠ 0 := by
  induction n generalizing k with
  | zero => cases h
  | succ n ih =>
    unfold strLoop at h
    split at h
    · cases h
    · rename_i c hc
      split at h
      · rename_i hzero
        cases h
        rw [hzero] at hc
        exact ⟨Nat.le_refl _, by omega, hc, fun j hlo hhi => absurd hhi (by omega)⟩
      · rename_i hne
        obtain ⟨hle, hlt, hnul, hchars⟩ := ih h
        refine ⟨by omega, by omega, hnul, fun j hlo hhi => ?_⟩
        rcases Nat.eq_or_lt_of_le hlo with rfl | hlo
        · exact ⟨c, hc, hne⟩
        · exact hchars j hlo hhi

theorem fetchstr_accept {addr len : Nat} (h : fetchstr s i addr = .accept len) :
    IsString s i addr len := by
  unfold fetchstr at h
  split at h
  · cases h
  · obtain ⟨-, hlt, hnul, hchars⟩ := strLoop_accept h
    exact ⟨by omega, hnul, fun k hk => hchars k (Nat.zero_le k) hk⟩

theorem argptr_accept {esp p : Nat} {n size : Int} (hsz : (s.proc i).sz < KERNBASE)
    (hsize : size < 2 ^ 31) (h : argptr s i esp n size = .accept p) :
    0 ≤ size ∧ p + size ≤ (s.proc i).sz ∧ p + size < 2 ^ 32 := by
  unfold argptr at h
  split at h
  · split at h
    · cases h
    · cases h
      unfold KERNBASE at hsz
      omega
  · rename_i hnone
    exact absurd h (hnone p)

theorem argstr_accept {esp addr len : Nat} {n : Int} (h : argstr s i esp n = .accept (addr, len)) :
    IsString s i addr len := by
  unfold argstr at h
  split at h
  · split at h
    · rename_i hstr
      cases h
      exact fetchstr_accept hstr
    · cases h
    · cases h
  · cases h
  · cases h

theorem argsSound_of_lt (hsz : (s.proc i).sz < KERNBASE) : ArgsSound s i where
  fetchint _ _ _ h := fetchint_accept hsz h
  argint _ _ _ _ h := fetchint_accept hsz h
  argptr _ _ _ _ _ hsize _ h := argptr_accept hsz hsize h
  fetchstr _ _ _ h := fetchstr_accept h
  argstr _ _ _ _ _ h := argstr_accept h

/-- After any calls of any processes, what the checks accept for a process that runs lies below its
size, for every `%esp`, every argument and every size. -/
theorem fetch_sound (g : Geometry) (sb : Superblock) (ncpu : Nat) (disk : Fs.State) (deny : List Bool)
    (cs : List (Slot × Call)) :
    wp (fun _ => True) (do main g ncpu; calls g sb cs) (fun _ s => ∀ i,
      (s.proc i).state = .RUNNABLE → (s.proc i).sz < KERNBASE ∧ ArgsSound s i) (start disk deny) := by
  refine wp_weaken (run_owned g sb ncpu disk deny cs) ?_ fun _ _ => trivial
  intro _ s h i _
  exact ⟨h.size i, argsSound_of_lt (h.size i)⟩

/-- The first process may point `%esp` at the end of the address space: the address of its second
argument is 0 then, and `argint` reads it. -/
theorem argint_wraps : ∃ s, main .small 1 (start .mkfs []) = .ok ((), s) ∧
    (s.proc 0).state = .RUNNABLE ∧
    ∃ esp < 2 ^ 32, ∃ w, argint s 0 esp 1 = .accept w ∧ 2 ^ 32 ≤ esp + 4 + 4 * 1 := by
  have hrun : (match main .small 1 (start .mkfs []) with
      | .ok ((), s) =>
        match argint s 0 (2 ^ 32 - 8) 1 with
        | .accept _ => decide ((s.proc 0).state = .RUNNABLE)
        | _ => false
      | .error _ => false) = true := by
    decide +kernel
  split at hrun
  · rename_i s hmain
    split at hrun
    · rename_i w hw
      exact ⟨s, hmain, of_decide_eq_true hrun, 2 ^ 32 - 8, by decide, w, hw, by decide⟩
    · cases hrun
  · cases hrun

end Laboratorio.Xv6.Kernel
