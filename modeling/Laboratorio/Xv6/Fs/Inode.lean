import Laboratorio.Lib.Bytes
import Laboratorio.Lib.CInt
import Laboratorio.Lib.Wp

/-!
# Blocks and inodes: the lower half of `xv6/fs.c`

The disk is seen through the buffer cache and the log, which do not change what is read.  Its inode
blocks are kept as the `struct dinode`s in them and its bit map as bits; the data blocks, directories
and indirect blocks among them, are bytes.  A `struct inode *` is an index into `icache.inode`.

One system call runs at a time.  A sleep lock that is taken twice is therefore taken twice by the
same process, which then sleeps forever: `Panic.deadlock`.

`iget` is irreducible, so that its search is not unfolded by accident.

The calls of `begin_op` and `end_op` are counted, and `State.ops` has the blocks that each operation
gives to `log_write`, the last operation first.  `State.input` is what the next reads of the console
give.
-/

namespace Laboratorio.Xv6.Fs

open Laboratorio.Lib Bytes Function

def BSIZE : Nat := 512

def NDIRECT : Nat := 12

def NINDIRECT : Nat := BSIZE / 4

def MAXFILE : Nat := NDIRECT + NINDIRECT

def ROOTDEV : Nat := 1

def ROOTINO : Nat := 1

/-- `CONSOLE`, the only major number with functions in `devsw`. -/
def CONSOLE : Int := 1

/-- `FSSIZE` of `param.h`. -/
def FSSIZE : Nat := 1000

/-- `IPB`, the inodes in a block. -/
def IPB : Nat := BSIZE / 64

/-- `BPB`, the bits in a block. -/
def BPB : Nat := BSIZE * 8

/-- What the kernel reads of `struct superblock`. -/
structure Superblock where
  size : Nat
  nblocks : Nat
  ninodes : Nat
  size_lt : size < 2 ^ 32
  nblocks_lt : nblocks < size
  ninodes_gt : ROOTINO < ninodes
  ninodes_le : ninodes ≤ 2 ^ 16

/-- The boot block, the super block, the log, the inode blocks and the bit map. -/
def Superblock.nmeta (sb : Superblock) : Nat := sb.size - sb.nblocks

/-- The super block that `mkfs` writes. -/
def Superblock.mkfs : Superblock where
  size := FSSIZE
  nblocks := 941
  ninodes := 200
  size_lt := by decide
  nblocks_lt := by decide
  ninodes_gt := by decide
  ninodes_le := by decide

/-- `type`, where `free` is 0. -/
inductive FType where
  | free
  | T_DIR
  | T_FILE
  | T_DEV
  deriving DecidableEq, Repr

/-- `struct dinode`. -/
structure Dinode where
  type : FType
  major : Int
  minor : Int
  nlink : Int
  size : Nat
  addrs : Nat → Nat

def Dinode.zero : Dinode := ⟨.free, 0, 0, 0, 0, fun _ => 0⟩

/-- `struct inode`; `copy` is the copy of the disk inode. -/
structure Inode where
  dev : Nat
  inum : Nat
  ref : Int
  lock : Bool
  valid : Bool
  copy : Dinode

/-- `NINODE = 50`. -/
abbrev Ino := Fin 50

scoped instance neZero_50 : NeZero 50 := ⟨by decide⟩

inductive Panic where
  | outOfBlocks
  | freeingFreeBlock
  | noInodes
  | iget
  | ilock
  | ilockNoType
  | iunlock
  | bmap
  | dirlookupNotDir
  | dirlookupRead
  | dirlinkRead
  | dirlink
  | isdirempty
  | unlinkNlink
  | unlinkWritei
  | createDots
  | createDirlink
  | shortFilewrite
  /-- A process waits for a lock that it holds itself. -/
  | deadlock
  deriving DecidableEq, Repr

/-- What is given to `log_write`: a block of the bit map, a block of inodes, or a block of data. -/
inductive LogBlock where
  | bitmap (i : Nat)
  | inodes (i : Nat)
  | data (b : Nat)
  deriving DecidableEq, Repr

structure State where
  dinode : Nat → Dinode
  bit : Nat → Bool
  data : Nat → Nat → UInt8
  inode : Ino → Inode
  begun : Nat
  ended : Nat
  ops : List (List LogBlock)
  input : List (Option (List UInt8))

abbrev F := StateT State (Except Panic)

variable (sb : Superblock)

def begin_op : F Unit := modify fun s => { s with begun := s.begun + 1, ops := [] :: s.ops }

def end_op : F Unit := modify fun s => { s with ended := s.ended + 1 }

/-! ## Blocks -/

def log_write (b : LogBlock) : F Unit := modify fun s => { s with ops := s.ops.modifyHead (b :: ·) }

def bzero (b : Nat) : F Unit := do
  modify fun s => { s with data := update s.data b fun _ => 0 }
  log_write (.data b)

/-- The two loops go through the bits in order. -/
def balloc : F Nat := do
  let s ← get
  match (List.range sb.size).find? fun b => !s.bit b with
  | none => throw .outOfBlocks
  | some b => do
    set { s with bit := update s.bit b true }
    log_write (.bitmap (b / BPB))
    bzero b
    pure b

def bfree (b : Nat) : F Unit := do
  let s ← get
  if s.bit b then do
    set { s with bit := update s.bit b false }
    log_write (.bitmap (b / BPB))
  else throw .freeingFreeBlock

/-! ## Inodes -/

def modInode (ip : Ino) (f : Inode → Inode) : F Unit :=
  modify fun s => { s with inode := update s.inode ip (f (s.inode ip)) }

def modCopy (ip : Ino) (f : Dinode → Dinode) : F Unit :=
  modInode ip fun i => { i with copy := f i.copy }

def iupdate (ip : Ino) : F Unit := do
  let s ← get
  set { s with dinode := update s.dinode (s.inode ip).inum (s.inode ip).copy }
  log_write (.inodes ((s.inode ip).inum / IPB))

@[irreducible] def iget (dev inum : Nat) : F Ino := do
  let s ← get
  match Fin.find? fun i => decide (0 < (s.inode i).ref ∧ (s.inode i).dev = dev ∧
      (s.inode i).inum = inum) with
  | some ip => do
    modInode ip fun i => { i with ref := i.ref + 1 }
    pure ip
  | none =>
    match Fin.find? fun i => decide ((s.inode i).ref = 0) with
    | none => throw .iget
    | some ip => do
      modInode ip fun i => { i with dev := dev, inum := inum, ref := 1, valid := false }
      pure ip

def ialloc (dev : Nat) (type : FType) : F Ino := do
  let s ← get
  match (List.range' 1 (sb.ninodes - 1)).find? fun inum => decide ((s.dinode inum).type = .free) with
  | none => throw .noInodes
  | some inum => do
    set { s with dinode := update s.dinode inum { Dinode.zero with type := type } }
    log_write (.inodes (inum / IPB))
    iget dev inum

def idup (ip : Ino) : F Ino := do
  modInode ip fun i => { i with ref := i.ref + 1 }
  pure ip

def acquiresleep (ip : Ino) : F Unit := do
  let s ← get
  if (s.inode ip).lock then throw .deadlock
  else modInode ip fun i => { i with lock := true }

def releasesleep (ip : Ino) : F Unit := modInode ip fun i => { i with lock := false }

def ilock (ip : Ino) : F Unit := do
  let s ← get
  if (s.inode ip).ref < 1 then throw .ilock
  else do
    acquiresleep ip
    if (s.inode ip).valid then pure ()
    else do
      modInode ip fun i => { i with copy := s.dinode i.inum, valid := true }
      if (s.dinode (s.inode ip).inum).type = .free then throw .ilockNoType else pure ()

def iunlock (ip : Ino) : F Unit := do
  let s ← get
  if (s.inode ip).lock = false ∨ (s.inode ip).ref < 1 then throw .iunlock
  else releasesleep ip

/-- `bfree` of `n` blocks in `ip->addrs` from `i` on. -/
def truncDirect (ip : Ino) : (n i : Nat) → F Unit
  | 0, _ => pure ()
  | n + 1, i => do
    let s ← get
    if (s.inode ip).copy.addrs i = 0 then truncDirect ip n (i + 1)
    else do
      bfree ((s.inode ip).copy.addrs i)
      modCopy ip fun c => { c with addrs := update c.addrs i 0 }
      truncDirect ip n (i + 1)

/-- The word `j` of a block, an `uint`. -/
def word (f : Nat → UInt8) (j : Nat) : Nat := ofBytes (slice f (4 * j) 4)

/-- `bfree` of `n` blocks in the indirect block `b` from `j` on. -/
def truncIndirect (b : Nat) : (n j : Nat) → F Unit
  | 0, _ => pure ()
  | n + 1, j => do
    let s ← get
    if word (s.data b) j = 0 then truncIndirect b n (j + 1)
    else do
      bfree (word (s.data b) j)
      truncIndirect b n (j + 1)

/-- The part of `itrunc` about the indirect block. -/
def truncLast (ip : Ino) : F Unit := do
  let s ← get
  let b := (s.inode ip).copy.addrs NDIRECT
  if b = 0 then pure ()
  else do
    truncIndirect b NINDIRECT 0
    bfree b
    modCopy ip fun c => { c with addrs := update c.addrs NDIRECT 0 }

def itrunc (ip : Ino) : F Unit := do
  truncDirect ip NDIRECT 0
  truncLast ip
  modCopy ip fun c => { c with size := 0 }
  iupdate ip

/-- The part of `iput` between the calls of `acquiresleep` and `releasesleep`. -/
def ifree (ip : Ino) : F Unit := do
  let s ← get
  if (s.inode ip).valid ∧ (s.inode ip).copy.nlink = 0 ∧ (s.inode ip).ref = 1 then do
    itrunc ip
    modCopy ip fun c => { c with type := .free }
    iupdate ip
    modInode ip fun i => { i with valid := false }
  else pure ()

def iput (ip : Ino) : F Unit := do
  acquiresleep ip
  ifree ip
  releasesleep ip
  modInode ip fun i => { i with ref := i.ref - 1 }

def iunlockput (ip : Ino) : F Unit := do
  iunlock ip
  iput ip

/-! ## The content of an inode -/

/-- `ip->addrs[k]`, allocating if necessary. -/
def addrAlloc (ip : Ino) (k : Nat) : F Nat := do
  let s ← get
  if (s.inode ip).copy.addrs k = 0 then do
    let addr ← balloc sb
    modCopy ip fun c => { c with addrs := update c.addrs k addr }
    pure addr
  else pure ((s.inode ip).copy.addrs k)

def bmap (ip : Ino) (bn : Nat) : F Nat :=
  if bn < NDIRECT then addrAlloc sb ip bn
  else if bn - NDIRECT < NINDIRECT then do
    let a ← addrAlloc sb ip NDIRECT
    let s ← get
    if word (s.data a) (bn - NDIRECT) = 0 then do
      let addr ← balloc sb
      modify fun s => { s with
        data := update s.data a
          (splice (s.data a) (4 * (bn - NDIRECT)) (toBytes 4 addr)) }
      log_write (.data a)
      pure addr
    else pure (word (s.data a) (bn - NDIRECT))
  else throw .bmap

/-- The loop of `readi`, with `n` bytes to go; every turn reads one of them at least. -/
def readLoop (ip : Ino) : (turns off n : Nat) → F (List UInt8)
  | 0, _, _ => pure []
  | turns + 1, off, n =>
    if n = 0 then pure []
    else do
      let b ← bmap sb ip (off / BSIZE)
      let s ← get
      let m := min n (BSIZE - off % BSIZE)
      let rest ← readLoop ip turns (off + m) (n - m)
      pure (slice (s.data b) (off % BSIZE) m ++ rest)

/-- The bytes read, or `none` for -1. -/
def readi (ip : Ino) (off n : Nat) : F (Option (List UInt8)) := do
  let s ← get
  let c := (s.inode ip).copy
  if c.type = .T_DEV then
    if c.major = CONSOLE then do
      set { s with input := s.input.tail }
      pure ((s.input.headD none).map (·.take n))
    else pure none
  else if off > c.size ∨ (off + n) % 2 ^ 32 < off then pure none
  else do
    let n := if off + n > c.size then c.size - off else n
    let bytes ← readLoop sb ip n off n
    pure (some bytes)

/-- The loop of `writei`; every turn writes one byte of `src` at least. -/
def writeLoop (ip : Ino) : (turns off : Nat) → List UInt8 → F Unit
  | 0, _, _ => pure ()
  | turns + 1, off, src =>
    if src.length = 0 then pure ()
    else do
      let b ← bmap sb ip (off / BSIZE)
      let m := min src.length (BSIZE - off % BSIZE)
      modify fun s => { s with
        data := update s.data b (splice (s.data b) (off % BSIZE) (src.take m)) }
      log_write (.data b)
      writeLoop ip turns (off + m) (src.drop m)

/-- The end of `writei`: a file that has grown. -/
def grow (ip : Ino) (n off : Nat) : F Unit := do
  let s ← get
  if n > 0 ∧ off > (s.inode ip).copy.size then do
    modCopy ip fun c => { c with size := off }
    iupdate ip
  else pure ()

/-- The number of bytes written, or `none` for -1. -/
def writei (ip : Ino) (src : List UInt8) (off : Nat) : F (Option Nat) := do
  let s ← get
  let c := (s.inode ip).copy
  let n := src.length
  if c.type = .T_DEV then
    if c.major = CONSOLE then pure (some n) else pure none
  else if off > c.size ∨ (off + n) % 2 ^ 32 < off then pure none
  else if off + n > MAXFILE * BSIZE then pure none
  else do
    writeLoop sb ip n off src
    grow ip n (off + n)
    pure (some n)

/-! ## Entries of the cache, as preconditions -/

/-- The state with another entry of the cache. -/
def State.setInode (s : State) (ip : Ino) (i : Inode) : State :=
  { s with inode := update s.inode ip i }

@[simp] theorem setInode_self (s : State) (ip : Ino) (i : Inode) : (s.setInode ip i).inode ip = i :=
  update_self ..

theorem setInode_of_ne (s : State) {ip j : Ino} (i : Inode) (h : j ≠ ip) :
    (s.setInode ip i).inode j = s.inode j := update_of_ne h ..

theorem ilock_wp {ip : Ino} {E : Panic → Prop} {Q : Unit → State → Prop} {s : State} :
    wp E (ilock ip) Q s ↔
    if (s.inode ip).ref < 1 then E .ilock
    else if (s.inode ip).lock then E .deadlock
    else if (s.inode ip).valid then Q () (s.setInode ip { s.inode ip with lock := true })
    else if (s.dinode (s.inode ip).inum).type = .free then E .ilockNoType
    else Q () (s.setInode ip { s.inode ip with
      lock := true, copy := s.dinode (s.inode ip).inum, valid := true }) := by
  unfold ilock acquiresleep modInode State.setInode
  simp only [wp_bind, wp_get]
  by_cases href : (s.inode ip).ref < 1
  · simp [href, wp_throw]
  · by_cases hlock : (s.inode ip).lock = true
    · simp [href, hlock, wp_bind, wp_get, wp_throw]
    · by_cases hvalid : (s.inode ip).valid = true
      · simp [href, hlock, hvalid, wp_bind, wp_get, wp_modify]
      · by_cases hfree : (s.dinode (s.inode ip).inum).type = .free
        · simp [href, hlock, hvalid, hfree, wp_bind, wp_get, wp_modify, wp_throw]
        · simp [href, hlock, hvalid, hfree, wp_bind, wp_get, wp_modify]

theorem iunlock_wp {ip : Ino} {E : Panic → Prop} {Q : Unit → State → Prop} {s : State} :
    wp E (iunlock ip) Q s ↔
    if (s.inode ip).lock = false ∨ (s.inode ip).ref < 1 then E .iunlock
    else Q () (s.setInode ip { s.inode ip with lock := false }) := by
  unfold iunlock releasesleep modInode State.setInode
  simp only [wp_bind, wp_get]
  by_cases h : (s.inode ip).lock = false ∨ (s.inode ip).ref < 1
  · simp [h, wp_throw]
  · simp [h, wp_modify]

/-- The two ways in which `iget` finds an entry. -/
inductive Got (dev inum : Nat) (ip : Ino) (s : State) : State → Prop where
  | shared (hlive : 0 < (s.inode ip).ref) (hdev : (s.inode ip).dev = dev)
      (hinum : (s.inode ip).inum = inum) :
      Got dev inum ip s (s.setInode ip { s.inode ip with ref := (s.inode ip).ref + 1 })
  | fresh (hfree : (s.inode ip).ref = 0)
      (hnew : ∀ j, 0 < (s.inode j).ref → (s.inode j).dev = dev → (s.inode j).inum ≠ inum) :
      Got dev inum ip s (s.setInode ip { s.inode ip with
        dev := dev, inum := inum, ref := 1, valid := false })

theorem iget_wp {E : Panic → Prop} {s : State} (dev inum : Nat)
    (hfull : (∀ i, (s.inode i).ref ≠ 0) →
      (∀ j, 0 < (s.inode j).ref → (s.inode j).dev = dev → (s.inode j).inum ≠ inum) → E .iget) :
    wp E (iget dev inum) (fun ip s' => Got dev inum ip s s') s := by
  unfold iget
  simp only [wp_bind, wp_get]
  cases hf : Fin.find? fun i => decide (0 < (s.inode i).ref ∧ (s.inode i).dev = dev ∧
      (s.inode i).inum = inum) with
  | some ip =>
    have hip := Fin.eq_true_of_find?_eq_some hf
    simp only [decide_eq_true_eq] at hip
    exact .shared hip.1 hip.2.1 hip.2.2
  | none =>
    have hnone := Fin.find?_eq_none_iff.1 hf
    simp only [decide_eq_false_iff_not, not_and] at hnone
    cases hfree : Fin.find? fun i => decide ((s.inode i).ref = 0) with
    | none => exact hfull (by simpa using Fin.find?_eq_none_iff.1 hfree) hnone
    | some ip =>
      have hip := Fin.eq_true_of_find?_eq_some hfree
      simp only [decide_eq_true_eq] at hip
      exact .fresh hip hnone

end Laboratorio.Xv6.Fs
