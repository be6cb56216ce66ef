import Laboratorio.Lib.Bytes
import Laboratorio.Lib.Wp

/-!
# Physical pages and page tables: `xv6/kalloc.c` and `xv6/vm.c`

A physical page is its number.  `Mem.page p` are the 1024 entries of a page that serves as a page
directory or a page table, and `Mem.bytes p` are the 4096 bytes of a page that holds data.
`kmem.freelist` is the list of its pages.

Addresses are numbers below `2 ^ 32`.  `Geometry` has what the linker and `kmap` decide: where the
kernel ends, how much memory there is, and which regions every page directory maps for the kernel.

`kalloc` returns 0 when the free list is empty, and also when `Mem.deny` says so, since other
processes may hold any number of pages while a system call runs.
-/

namespace Laboratorio.Xv6.Vm

open Laboratorio.Lib Bytes Function

abbrev Page := Nat

def PGSIZE : Nat := 4096

def KERNBASE : Nat := 0x80000000

def PDX (va : Nat) : Nat := va / 2 ^ 22 % 1024

def PTX (va : Nat) : Nat := va / 2 ^ 12 % 1024

def PGROUNDUP (sz : Nat) : Nat := (sz + PGSIZE - 1) / PGSIZE * PGSIZE

def PGROUNDDOWN (a : Nat) : Nat := a / PGSIZE * PGSIZE

/-- An entry: `PTE_ADDR` as a page, `PTE_P`, `PTE_W`, `PTE_U`, and the other nine flag bits. -/
structure Pte where
  ppn : Page
  P : Bool
  W : Bool
  U : Bool
  rest : Nat
  deriving DecidableEq, Repr

def Pte.zero : Pte := ⟨0, false, false, false, 0⟩

/-- What `kfree` leaves in a page: every byte is 1. -/
def Pte.junk : Pte := ⟨0x01010, true, false, false, 0x100⟩

/-- A line of `kmap`. -/
structure Kmap where
  virt : Nat
  phys_start : Nat
  phys_end : Nat
  W : Bool
  deriving DecidableEq, Repr

/-- `k->phys_end - k->phys_start`, as an unsigned number. -/
def Kmap.size (k : Kmap) : Nat := (k.phys_end + 2 ^ 32 - k.phys_start) % 2 ^ 32

/-- A region that lies above `KERNBASE`. -/
def Kmap.Ok (k : Kmap) : Prop := KERNBASE ≤ k.virt ∧ 0 < k.size ∧ k.virt + k.size ≤ 2 ^ 32

structure Geometry where
  /-- The first page behind the kernel, `PGROUNDUP(V2P(end)) / PGSIZE`. -/
  first : Page
  /-- The pages below this one are mapped by `entrypgdir`: `4 * 1024 * 1024 / PGSIZE`. -/
  low : Page
  /-- `PHYSTOP / PGSIZE`. -/
  top : Page
  kmap : List Kmap
  first_pos : 0 < first
  first_le : first ≤ low
  low_le : low ≤ top
  kmap_ok : ∀ k ∈ kmap, k.Ok

def EXTMEM : Nat := 0x100000

def PHYSTOP : Nat := 0xE000000

def DEVSPACE : Nat := 0xFE000000

/-- The machine that xv6 is built for, with the addresses `data` and `end` of the linker. -/
def Geometry.xv6 (data kend : Nat) (hdata : KERNBASE + EXTMEM < data) (hend : data ≤ kend)
    (hlow : kend ≤ KERNBASE + 4 * 1024 * 1024) : Geometry where
  first := PGROUNDUP (kend - KERNBASE) / PGSIZE
  low := 4 * 1024 * 1024 / PGSIZE
  top := PHYSTOP / PGSIZE
  kmap := [⟨KERNBASE, 0, EXTMEM, true⟩,
    ⟨KERNBASE + EXTMEM, EXTMEM, data - KERNBASE, false⟩,
    ⟨data, data - KERNBASE, PHYSTOP, true⟩,
    ⟨DEVSPACE, DEVSPACE, 0, true⟩]
  first_pos := by
    show (0 : Nat) < PGROUNDUP (kend - KERNBASE) / PGSIZE
    unfold PGROUNDUP PGSIZE KERNBASE EXTMEM at *
    omega
  first_le := by
    show (PGROUNDUP (kend - KERNBASE) / PGSIZE : Nat) ≤ 4 * 1024 * 1024 / PGSIZE
    unfold PGROUNDUP PGSIZE KERNBASE at *
    omega
  low_le := by decide
  kmap_ok := by
    simp only [List.forall_mem_cons, List.not_mem_nil, false_imp_iff, implies_true, and_true, Kmap.Ok,
      Kmap.size, KERNBASE, EXTMEM, PHYSTOP, DEVSPACE] at *
    omega

/-- A machine with eleven pages and a kernel that maps nothing of its own. -/
def Geometry.small : Geometry where
  first := 1
  low := 4
  top := 12
  kmap := []
  first_pos := by decide
  first_le := by decide
  low_le := by decide
  kmap_ok := nofun

/-- Why the kernel stops: a panic, or an access through a null pointer. -/
inductive Stop where
  | kfree
  | remap
  | copyuvmExist
  | copyuvmPresent
  | loaduvm
  | loaduvmAligned
  | clearpteu
  /-- `uva2ka` reads `*pte` when `walkpgdir` has returned 0. -/
  | nullPte
  deriving DecidableEq, Repr

structure Mem where
  free : List Page
  page : Page → Nat → Pte
  bytes : Page → Nat → UInt8
  /-- Whether the next calls of `kalloc` find nothing. -/
  deny : List Bool

abbrev M := StateT Mem (Except Stop)

def kfree (g : Geometry) (v : Page) : M Unit := do
  if v < g.first ∨ g.top ≤ v then throw .kfree
  else
    modify fun m => { m with
      free := v :: m.free
      page := update m.page v fun _ => .junk
      bytes := update m.bytes v fun _ => 1 }

def kalloc : M (Option Page) := do
  let m ← get
  if m.deny.headD false then
    set { m with deny := m.deny.tail }
    pure none
  else
    match m.free with
    | [] => do
      set { m with deny := m.deny.tail }
      pure none
    | r :: free => do
      set { m with free := free, deny := m.deny.tail }
      pure (some r)

/-- `memset(p, 0, PGSIZE)`. -/
def zero (p : Page) : M Unit :=
  modify fun m => { m with
    page := update m.page p fun _ => .zero
    bytes := update m.bytes p fun _ => 0 }

/-- `memmove(P2V(p) + off, data, data.length)`, into a page that holds data. -/
def memmove (p : Page) (off : Nat) (data : List UInt8) : M Unit :=
  modify fun m => { m with bytes := update m.bytes p (splice (m.bytes p) off data) }

/-- `memmove(P2V(p), P2V(q), PGSIZE)`. -/
def copyPage (p q : Page) : M Unit :=
  modify fun m => { m with bytes := update m.bytes p (m.bytes q) }

/-- `*pte = e`, for the entry `j` of page `t`. -/
def store (t : Page) (j : Nat) (e : Pte) : M Unit :=
  modify fun m => { m with page := update m.page t (update (m.page t) j e) }

/-- The table and the index of the entry for `va`. -/
def walkpgdir (pgdir : Page) (va : Nat) (alloc : Bool) : M (Option (Page × Nat)) := do
  let m ← get
  let pde := m.page pgdir (PDX va)
  if pde.P then pure (some (pde.ppn, PTX va))
  else if alloc then
    match ← kalloc with
    | none => pure none
    | some pgtab => do
      zero pgtab
      store pgdir (PDX va) ⟨pgtab, true, true, true, 0⟩
      pure (some (pgtab, PTX va))
  else pure none

/-- The loop of `mappages`, with `n` pages to go after this one; false if it returns -1. -/
def mapLoop (pgdir : Page) (W U : Bool) (rest : Nat) : (n a : Nat) → Page → M Bool
  | n, a, pa => do
    match ← walkpgdir pgdir a true with
    | none => pure false
    | some (t, j) => do
      let m ← get
      if (m.page t j).P then throw .remap
      else do
        store t j ⟨pa, true, W, U, rest⟩
        match n with
        | 0 => pure true
        | n + 1 => mapLoop pgdir W U rest n ((a + PGSIZE) % 2 ^ 32) (pa + 1)

/-- `pa` is the first physical page. -/
def mappages (pgdir : Page) (va size : Nat) (pa : Page) (W U : Bool) (rest : Nat) :
    M Bool :=
  let a := PGROUNDDOWN va
  let last := PGROUNDDOWN ((va + size + 2 ^ 32 - 1) % 2 ^ 32)
  mapLoop pgdir W U rest ((last + 2 ^ 32 - a) % 2 ^ 32 / PGSIZE) a pa

/-- The loop of `deallocuvm`; every turn goes on by a page at least, so `n` turns are enough. -/
def deallocLoop (g : Geometry) (pgdir : Page) (oldsz : Nat) : (n a : Nat) → M Unit
  | 0, _ => pure ()
  | n + 1, a =>
    if a < oldsz then do
      match ← walkpgdir pgdir a false with
      | none => deallocLoop g pgdir oldsz n ((PDX a + 1) * 2 ^ 22)
      | some (t, j) => do
        let m ← get
        let pte := m.page t j
        if pte.P then
          if pte.ppn = 0 then throw .kfree
          else do
            kfree g pte.ppn
            store t j .zero
            deallocLoop g pgdir oldsz n (a + PGSIZE)
        else deallocLoop g pgdir oldsz n (a + PGSIZE)
    else pure ()

def deallocuvm (g : Geometry) (pgdir : Page) (oldsz newsz : Nat) : M Nat :=
  if newsz ≥ oldsz then pure oldsz
  else do
    deallocLoop g pgdir oldsz (oldsz / PGSIZE + 1) (PGROUNDUP newsz)
    pure newsz

/-- The entries from `i` on of a page directory. -/
def freeTables (g : Geometry) (pgdir : Page) : (n i : Nat) → M Unit
  | 0, _ => pure ()
  | n + 1, i => do
    let m ← get
    if (m.page pgdir i).P then kfree g (m.page pgdir i).ppn
    freeTables g pgdir n (i + 1)

def freevm (g : Geometry) (pgdir : Page) : M Unit := do
  let _ ← deallocuvm g pgdir KERNBASE 0
  freeTables g pgdir 1024 0
  kfree g pgdir

/-- The loop of `setupkvm`. -/
def setupLoop (g : Geometry) (pgdir : Page) : List Kmap → M (Option Page)
  | [] => pure (some pgdir)
  | k :: ks => do
    if ← mappages pgdir k.virt k.size (k.phys_start / PGSIZE) k.W false 0 then
      setupLoop g pgdir ks
    else do
      freevm g pgdir
      pure none

def setupkvm (g : Geometry) : M (Option Page) := do
  match ← kalloc with
  | none => pure none
  | some pgdir => do
    zero pgdir
    setupLoop g pgdir g.kmap

/-- The loop of `allocuvm`, with at most `n` turns to go. -/
def allocLoop (g : Geometry) (pgdir : Page) (oldsz newsz : Nat) : (n a : Nat) → M Nat
  | 0, _ => pure newsz
  | n + 1, a =>
    if a < newsz then do
      match ← kalloc with
      | none => do
        let _ ← deallocuvm g pgdir newsz oldsz
        pure 0
      | some mem => do
        zero mem
        if ← mappages pgdir a PGSIZE mem true true 0 then allocLoop g pgdir oldsz newsz n (a + PGSIZE)
        else do
          let _ ← deallocuvm g pgdir newsz oldsz
          kfree g mem
          pure 0
    else pure newsz

def allocuvm (g : Geometry) (pgdir : Page) (oldsz newsz : Nat) : M Nat :=
  if newsz ≥ KERNBASE then pure 0
  else if newsz < oldsz then pure oldsz
  else allocLoop g pgdir oldsz newsz (newsz / PGSIZE + 1) (PGROUNDUP oldsz)

/-- The loop of `copyuvm`, with at most `n` turns to go. -/
def copyLoop (g : Geometry) (pgdir d : Page) (sz : Nat) : (n i : Nat) → M (Option Page)
  | 0, _ => pure (some d)
  | n + 1, i =>
    if i < sz then do
      match ← walkpgdir pgdir i false with
      | none => throw .copyuvmExist
      | some (t, j) => do
        let m ← get
        let pte := m.page t j
        if pte.P then
          match ← kalloc with
          | none => do
            freevm g d
            pure none
          | some mem => do
            copyPage mem pte.ppn
            if ← mappages d i PGSIZE mem pte.W pte.U pte.rest then
              copyLoop g pgdir d sz n (i + PGSIZE)
            else do
              kfree g mem
              freevm g d
              pure none
        else throw .copyuvmPresent
    else pure (some d)

def copyuvm (g : Geometry) (pgdir : Page) (sz : Nat) : M (Option Page) := do
  match ← setupkvm g with
  | none => pure none
  | some d => copyLoop g pgdir d sz (sz / PGSIZE + 1) 0

def clearpteu (pgdir : Page) (uva : Nat) : M Unit := do
  match ← walkpgdir pgdir uva false with
  | none => throw .clearpteu
  | some (t, j) => do
    let m ← get
    store t j { m.page t j with U := false }

/-- The physical page, or `none` for a null pointer. -/
def uva2ka (pgdir : Page) (uva : Nat) : M (Option Page) := do
  match ← walkpgdir pgdir uva false with
  | none => throw .nullPte
  | some (t, j) => do
    let m ← get
    let pte := m.page t j
    pure (if pte.P ∧ pte.U then some pte.ppn else none)

/-- `copyout` of the bytes `buf`, with at most `n` turns to go; false if it returns -1. -/
def copyout (pgdir : Page) : (n va : Nat) → (buf : List UInt8) → M Bool
  | 0, _, _ => pure true
  | n + 1, va, buf =>
    if 0 < buf.length then do
      let va0 := PGROUNDDOWN va
      match ← uva2ka pgdir va0 with
      | none => pure false
      | some pa0 => do
        let k := min (PGSIZE - (va - va0)) buf.length
        memmove pa0 (va - va0) (buf.take k)
        copyout pgdir n ((va0 + PGSIZE) % 2 ^ 32) (buf.drop k)
    else pure true

end Laboratorio.Xv6.Vm
