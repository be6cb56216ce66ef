import Laboratorio.Lib.Runs
import Laboratorio.Lib.SList

/-!
# `xv6/umalloc.c`

The memory allocator of user programs: a circular list of free blocks, sorted by address, with `base`
as a block of size 0 in it.  A `Header` is a pair of a pointer and a size at an address; a block is a
header and the memory behind it, its size counts both in units of `sizeof(Header)`.

`sbrk` is the kernel's: it fails, or it returns a region above all those it has returned before.  Which
of the two, and how far above, is given from outside (`answers`).
-/

namespace Laboratorio.Xv6.Umalloc

open Laboratorio.Lib SList Function

/-- `sizeof(Header)`. -/
def HEADER : Nat := 8

/-- Where the kernel begins, and with it the end of what `sbrk` can give. -/
def KERNBASE : Nat := 0x80000000

structure Heap where
  ptr : Nat → Nat
  size : Nat → Nat
  freep : Nat
  /-- The end of the memory that `sbrk` has given. -/
  brk : Nat
  /-- What `sbrk` will do: fail, or leave so many bytes free before the region it returns. -/
  answers : List (Option Nat)
  /-- The regions that `sbrk` has returned, with their lengths. -/
  regions : List (Nat × Nat)

/-- A loop has not ended within the turns that it was given. -/
inductive Stop where
  | turns
  deriving DecidableEq, Repr

/-- `p + n`, for a pointer to a `Header`. -/
def plus (p n : Nat) : Nat := (p + HEADER * n) % 2 ^ 32

/-- The address of a region of `n` bytes, or `none` for `(char*)-1`. -/
def sbrk (n : Nat) (h : Heap) : Option Nat × Heap :=
  match h.answers with
  | some gap :: answers =>
    let p := h.brk + gap
    if p + n ≤ KERNBASE then
      (some p, { h with brk := p + n, answers := answers, regions := (p, n) :: h.regions })
    else (none, { h with answers := answers })
  | _ => (none, { h with answers := h.answers.tail })

/-- The condition on which the loop of `free` ends. -/
def Stops (h : Heap) (bp p : Nat) : Prop :=
  (bp > p ∧ bp < h.ptr p) ∨ (p ≥ h.ptr p ∧ (bp > p ∨ bp < h.ptr p))

instance (h : Heap) (bp : Nat) : DecidablePred (Stops h bp) := fun _ => inferInstanceAs (Decidable (_ ∨ _))

/-- The first `if` of `free`: whether the block ends where the next free one begins. -/
def joinNext (bp p : Nat) (h : Heap) : Heap :=
  if plus bp (h.size bp) = h.ptr p then
    { h with
      size := update h.size bp ((h.size bp + h.size (h.ptr p)) % 2 ^ 32)
      ptr := update h.ptr bp (h.ptr (h.ptr p)) }
  else { h with ptr := update h.ptr bp (h.ptr p) }

/-- The second `if` of `free`: whether the free block before it ends where the block begins. -/
def joinPrev (bp p : Nat) (h : Heap) : Heap :=
  if plus p (h.size p) = bp then
    { h with
      size := update h.size p ((h.size p + h.size bp) % 2 ^ 32)
      ptr := update h.ptr p (h.ptr bp) }
  else { h with ptr := update h.ptr p bp }

def free (n ap : Nat) (h : Heap) : Except Stop Heap :=
  let bp := (ap + 2 ^ 32 - HEADER) % 2 ^ 32
  match scan h.ptr (Stops h bp) n h.freep with
  | none => .error .turns
  | some p => .ok { joinPrev bp p (joinNext bp p h) with freep := p }

/-- `freep` after more memory, or 0. -/
def morecore (n nu : Nat) (h : Heap) : Except Stop (Nat × Heap) :=
  let nu := if nu < 4096 then 4096 else nu
  match sbrk (nu * HEADER % 2 ^ 32) h with
  | (none, h) => .ok (0, h)
  | (some hp, h) => do
    let h ← free n (plus hp 1) { h with size := update h.size hp nu }
    .ok (h.freep, h)

/-- `malloc` takes what it needs of the block `p`: all of it, or its tail. -/
def take (nunits prevp p : Nat) (h : Heap) : Nat × Heap :=
  if h.size p = nunits then
    (plus p 1, { h with ptr := update h.ptr prevp (h.ptr p), freep := prevp })
  else
    let size := h.size p - nunits
    let p' := plus p size
    (plus p' 1, { h with
      size := update (update h.size p size) p' nunits, freep := prevp })

/-- The loop of `malloc`; `n` bounds the turns of `free`. -/
def mallocLoop (n nunits : Nat) : (turns prevp p : Nat) → Heap → Except Stop (Nat × Heap)
  | 0, _, _, _ => .error .turns
  | turns + 1, prevp, p, h =>
    if h.size p ≥ nunits then .ok (take nunits prevp p h)
    else if p = h.freep then do
      let (p, h) ← morecore n nunits h
      if p = 0 then .ok (0, h) else mallocLoop n nunits turns p (h.ptr p) h
    else mallocLoop n nunits turns p (h.ptr p) h

/-- `base`, when `malloc` is called for the first time. -/
def init (base : Nat) (h : Heap) : Heap :=
  if h.freep = 0 then
    { h with
      ptr := update h.ptr base base, freep := base, size := update h.size base 0 }
  else h

def nunits (nbytes : Nat) : Nat := (nbytes + HEADER - 1) % 2 ^ 32 / HEADER + 1

/-- A pointer to `nbytes` bytes, or 0. -/
def malloc (base n nbytes : Nat) (h : Heap) : Except Stop (Nat × Heap) :=
  let h := init base h
  mallocLoop n (nunits nbytes) n h.freep (h.ptr h.freep) h

/-! ## Programs -/

/-- A program, with the pointers that it has got and not freed, and what it asked for. -/
structure Machine where
  heap : Heap
  live : List (Nat × Nat)

inductive Op where
  /-- Only for `nbytes < 2 ^ 30`. -/
  | malloc (nbytes : Nat)
  /-- The pointer at position `k` of those it has. -/
  | free (k : Nat)
  /-- Anything may be written to the bytes that it asked for. -/
  | write (a ptr size : Nat)

def step (base n : Nat) (m : Machine) : Op → Except Stop Machine
  | .malloc nbytes =>
    if nbytes < 2 ^ 30 then do
      let (p, h) ← malloc base n nbytes m.heap
      .ok ⟨h, if p = 0 then m.live else (p, nbytes) :: m.live⟩
    else .ok m
  | .free k =>
    match m.live[k]? with
    | none => .ok m
    | some (p, _) => do
      let h ← free n p m.heap
      .ok ⟨h, m.live.eraseIdx k⟩
  | .write a ptr size =>
    if ∃ x ∈ m.live, x.1 ≤ a ∧ a < x.1 + x.2 then
      .ok { m with heap := { m.heap with
        ptr := update m.heap.ptr a ptr, size := update m.heap.size a size } }
    else .ok m

/-- Before the first call, with memory up to `brk` and anything in it. -/
def start (ptr size : Nat → Nat) (brk : Nat) (answers : List (Option Nat)) : Machine :=
  ⟨⟨ptr, size, 0, brk, answers, []⟩, []⟩

end Laboratorio.Xv6.Umalloc
