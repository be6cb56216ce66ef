import Laboratorio.Xv6.Fs.Dir

/-!
# `xv6/mkfs.c`

`mkfs` writes a file of sectors on a little-endian host.  `State.len` is the number of sectors the
file has; `rsect` behind its end reads nothing and ends the program, `wsect` behind its end makes the
file longer.  Other errors of the host's `lseek`, `read` and `write` are not considered, and the name
of the image is given.

An argument is a name and, if it can be opened, what the calls of `read` return.  `State.inums`,
`State.blocks` and `State.iwrites` record the numbers that `ialloc` has returned, the blocks that
`iappend` has taken, and the sectors that `winode` has written.
-/

namespace Laboratorio.Xv6.Mkfs

open Laboratorio.Lib Bytes
open Fs (BSIZE NDIRECT NINDIRECT MAXFILE FSSIZE ROOTINO DIRSIZ)

def NINODES : Nat := 200

/-- `LOGSIZE` -/
def nlog : Nat := 30

/-- `sizeof(struct dinode)` -/
def DINODE : Nat := 64

/-- Inodes per block. -/
def IPB : Nat := BSIZE / DINODE

def nbitmap : Nat := FSSIZE / (BSIZE * 8) + 1

def ninodeblocks : Nat := NINODES / IPB + 1

def nmeta : Nat := 2 + nlog + ninodeblocks + nbitmap

def nblocks : Nat := FSSIZE - nmeta

def inodestart : Nat := 2 + nlog

def bmapstart : Nat := 2 + nlog + ninodeblocks

/-- The block of inode `i`. -/
def IBLOCK (i : Nat) : Nat := i / IPB + inodestart

abbrev Buf := Nat → UInt8

def zeroes : Buf := fun _ => 0

/-- `struct dinode`, its numbers as they are in the file. -/
structure Din where
  type : Nat
  major : Nat
  minor : Nat
  nlink : Nat
  size : Nat
  addrs : Nat → Nat

def Din.zero : Din := ⟨0, 0, 0, 0, 0, fun _ => 0⟩

def Din.bytes (d : Din) : List UInt8 :=
  toBytes 2 d.type ++ toBytes 2 d.major ++ toBytes 2 d.minor ++ toBytes 2 d.nlink ++
    toBytes 4 d.size ++ (List.range (NDIRECT + 1)).flatMap fun i => toBytes 4 (d.addrs i)

/-- The `struct dinode` at offset `o` of a sector. -/
def Din.read (f : Buf) (o : Nat) : Din where
  type := ofBytes (slice f o 2)
  major := ofBytes (slice f (o + 2) 2)
  minor := ofBytes (slice f (o + 4) 2)
  nlink := ofBytes (slice f (o + 6) 2)
  size := ofBytes (slice f (o + 8) 4)
  addrs := fun i => if i ≤ NDIRECT then ofBytes (slice f (o + 12 + 4 * i) 4) else 0

structure State where
  len : Nat
  sect : Nat → Buf
  freeinode : Nat
  freeblock : Nat
  inums : List Nat
  blocks : List Nat
  iwrites : List Nat

/-- Why the program stops with an error. -/
inductive Exit where
  | perrorOpen
  | perrorRead
  | assert
  deriving DecidableEq, Repr

abbrev M := StateT State (Except Exit)

/-- The sector at the `uint` `sec * BSIZE`. -/
def sector (sec : Nat) : Nat := sec * BSIZE % 2 ^ 32 / BSIZE

def wsect (sec : Nat) (buf : Buf) : M Unit :=
  modify fun s => { s with
    len := max s.len (sector sec + 1)
    sect := Function.update s.sect (sector sec) buf }

def rsect (sec : Nat) : M Buf := do
  let s ← get
  if sector sec < s.len then pure (s.sect (sector sec)) else throw .perrorRead

def winode (inum : Nat) (d : Din) : M Unit := do
  let buf ← rsect (IBLOCK inum)
  wsect (IBLOCK inum) (splice buf (inum % IPB * DINODE) d.bytes)
  modify fun s => { s with iwrites := s.iwrites ++ [IBLOCK inum] }

def rinode (inum : Nat) : M Din := do
  let buf ← rsect (IBLOCK inum)
  pure (Din.read buf (inum % IPB * DINODE))

/-- `freeinode++` -/
def nextinode : M Nat := do
  let s ← get
  set { s with freeinode := (s.freeinode + 1) % 2 ^ 32, inums := s.inums ++ [s.freeinode] }
  pure s.freeinode

/-- `freeblock++` -/
def nextblock : M Nat := do
  let s ← get
  set { s with freeblock := (s.freeblock + 1) % 2 ^ 32, blocks := s.blocks ++ [s.freeblock] }
  pure s.freeblock

def T_DIR : Nat := 1

def T_FILE : Nat := 2

def ialloc (type : Nat) : M Nat := do
  let inum ← nextinode
  winode inum { Din.zero with type := type, nlink := 1 }
  pure inum

/-- The loop of `balloc`: the first `used` bits. -/
def bitmap (used : Nat) : Buf :=
  (List.range used).foldl
    (fun buf i => Function.update buf (i / 8) (UInt8.ofNat ((buf (i / 8)).toNat ||| 1 <<< (i % 8))))
    zeroes

/-- `balloc(used)`, where `used` is an `int`.  It is irreducible, so that the arithmetic of `int` is not
unfolded by accident. -/
@[irreducible] def balloc (used : Nat) : M Unit :=
  if wrap32 used < BSIZE * 8 then wsect bmapstart (bitmap (wrap32 used).toNat)
  else throw .assert

/-- `din.addrs[k]`, which is given a new block if it is zero. -/
def addr (d : Din) (k : Nat) : M Din :=
  if d.addrs k = 0 then do
    let b ← nextblock
    pure { d with addrs := Function.update d.addrs k b }
  else pure d

/-- `indirect[j]`, which is given a new block if it is zero. -/
def indirectAddr (d : Din) (j : Nat) : M Nat := do
  let indirect ← rsect (d.addrs NDIRECT)
  if Fs.word indirect j = 0 then do
    let b ← nextblock
    wsect (d.addrs NDIRECT) (splice indirect (4 * j) (toBytes 4 b))
    pure b
  else pure (Fs.word indirect j)

/-- The block `x` for block `fbn` of the file. -/
def blockOf (d : Din) (fbn : Nat) : M (Din × Nat) :=
  if fbn < NDIRECT then do
    let d ← addr d fbn
    pure (d, d.addrs fbn)
  else do
    let d ← addr d NDIRECT
    let x ← indirectAddr d (fbn - NDIRECT)
    pure (d, x)

/-- The loop of `iappend`; every turn copies one byte of `p` at least. -/
def appendLoop : (turns : Nat) → Din → (off : Nat) → List UInt8 → M (Din × Nat)
  | 0, d, off, _ => pure (d, off)
  | turns + 1, d, off, p =>
    if p.length = 0 then pure (d, off)
    else if off / BSIZE < MAXFILE then do
      let (d, x) ← blockOf d (off / BSIZE)
      let n1 := min p.length ((off / BSIZE + 1) * BSIZE - off)
      let buf ← rsect x
      wsect x (splice buf (off - off / BSIZE * BSIZE) (p.take n1))
      appendLoop turns d (off + n1) (p.drop n1)
    else throw .assert

def iappend (inum : Nat) (p : List UInt8) : M Unit := do
  let d ← rinode inum
  let (d, off) ← appendLoop p.length d d.size p
  winode inum { d with size := off }

/-- An argument: `fd` is what the calls of `read` return until there is no more. -/
structure Input where
  name : List UInt8
  fd : Option (List (List UInt8))
  nul : 0 ∉ name
  chunk : ∀ cs, fd = some cs → ∀ c ∈ cs, 0 < c.length ∧ c.length ≤ BSIZE

def underscore : UInt8 := 95

/-- `argv[i]` without a leading underscore. -/
def Input.stripped (f : Input) : List UInt8 :=
  if f.name.head? = some underscore then f.name.tail else f.name

/-- `de.name`, which has no NUL if the name is long. -/
def Input.dename (f : Input) : Fs.Name := f.stripped.take DIRSIZ

def appendChunks (inum : Nat) : List (List UInt8) → M Unit
  | [] => pure ()
  | c :: cs => do
    iappend inum c
    appendChunks inum cs

/-- One turn of the loop over the arguments. -/
def addFile (rootino : Nat) (f : Input) : M Unit :=
  if Fs.slash ∈ f.name then throw .assert
  else
    match f.fd with
    | none => throw .perrorOpen
    | some cs => do
      let inum ← ialloc T_FILE
      iappend rootino (Fs.dirent f.dename inum)
      appendChunks inum cs

def addFiles (rootino : Nat) : List Input → M Unit
  | [] => pure ()
  | f :: fs => do
    addFile rootino f
    addFiles rootino fs

/-- The loop that clears the first `n` sectors. -/
def clear : (n : Nat) → M Unit
  | 0 => pure ()
  | n + 1 => do
    clear n
    wsect n zeroes

theorem clear_zero : clear 0 = pure () := rfl

theorem clear_succ (n : Nat) : clear (n + 1) = (do clear n; wsect n zeroes) := rfl

-- the loop must not be run by accident
attribute [irreducible] clear

/-- `struct superblock` -/
def superblock : List UInt8 :=
  [FSSIZE, nblocks, NINODES, nlog, 2, inodestart, bmapstart].flatMap (toBytes 4)

/-- The root directory with `.` and `..`. -/
def makeRoot : M Nat := do
  let rootino ← ialloc T_DIR
  if rootino = ROOTINO then do
    iappend rootino (Fs.dirent Fs.dot rootino)
    iappend rootino (Fs.dirent Fs.dotdot rootino)
    pure rootino
  else throw .assert

/-- `fix size of root inode dir` -/
def fixRoot (rootino : Nat) : M Unit := do
  let d ← rinode rootino
  winode rootino { d with size := (d.size / BSIZE + 1) * BSIZE }

def main (files : List Input) : M Unit := do
  clear FSSIZE
  wsect 1 (splice zeroes 0 superblock)
  let rootino ← makeRoot
  addFiles rootino files
  fixRoot rootino
  let s ← get
  balloc s.freeblock

/-- The image file has just been truncated. -/
def start : State := ⟨0, fun _ => zeroes, 1, nmeta, [], [], []⟩

/-- The state in which the program ends with status 0. -/
def mkfs (files : List Input) : Except Exit State := (main files start).map Prod.snd

end Laboratorio.Xv6.Mkfs
