import Laboratorio.Lib.Redo
import Laboratorio.Lib.Runs

/-!
# The log of `xv6/log.c`

The disk maps block numbers to blocks of `BSIZE = 512` bytes, read here as 128 `int`s.  Of the
buffer cache the model keeps what the log relies on: a buffer that `log_write` has pinned with
`B_DIRTY` holds contents the disk does not have yet (`State.dirty`), and every other buffer agrees
with the disk.  A call of `bwrite` is one atomic write that reaches the disk before it returns;
`State.writes` lists these writes in order, so that a crash leaves the disk after a prefix of them.

The locked parts of `begin_op` and `end_op` are single steps.  `end_op` only sets `committing`; the
call of `commit` that follows outside the lock is a step of its own.  `log_write` is one step as well,
although its two tests come before `acquire(&log.lock)`; `Xv6/LogSpace.lean` has the tests and the
locked part apart.
-/

namespace Laboratorio.Xv6.Log

open Laboratorio.Lib

abbrev Block := Fin 128 → Int

scoped instance neZero_128 : NeZero 128 := ⟨by decide⟩

abbrev Disk := Int → Block

/-- `LOGSIZE` and `MAXOPBLOCKS` of `param.h`. -/
def MAXOPBLOCKS : Int := 10

def LOGSIZE : Int := MAXOPBLOCKS * 3

/-- Where the superblock puts the log: the header at `start`, then the copies of the blocks. -/
structure Geometry where
  start : Int
  size : Int
  size_pos : 0 < size

/-- The log that `mkfs` lays out: `nlog = LOGSIZE` blocks after the boot and the super block. -/
def mkfsLog : Geometry := ⟨2, LOGSIZE, by decide⟩

/-- The blocks outside the log area. -/
def Home (g : Geometry) (b : Int) : Prop := b < g.start ∨ g.start + g.size ≤ b

instance (g : Geometry) (b : Int) : Decidable (Home g b) :=
  inferInstanceAs (Decidable (_ ∨ _))

/-- `struct logheader`. -/
structure LogHeader where
  n : Int
  block : Nat → Int

structure State where
  disk : Disk
  dirty : Int → Option Block
  lh : LogHeader
  outstanding : Int
  committing : Bool
  writes : List (Int × Block)

/-- Why a call does not return: it sleeps, it panics, it leaves `log.lh.block`, or it is not the
turn of `commit`. -/
inductive Stop where
  | sleeping
  /-- `panic("too big a transaction")` -/
  | tooBig
  /-- `panic("log_write outside of trans")` -/
  | outsideOfTrans
  /-- `panic("log.committing")` -/
  | committing
  | outOfBounds
  | notCommitting
  deriving DecidableEq, Repr

/-- The contents that the cache returns for a block. -/
def bread (s : State) (b : Int) : Block := (s.dirty b).getD (s.disk b)

/-- Give the buffer of block `b` the contents `data` and write it to disk. -/
def bwrite (s : State) (b : Int) (data : Block) : State :=
  { s with
    disk := Function.update s.disk b data
    dirty := Function.update s.dirty b none
    writes := s.writes ++ [(b, data)] }

/-- The loop of `install_trans` and of `write_log`, which differ in the direction of the copy. -/
def copyBlocks (src dst : Nat → Int) (n : Nat) (s : State) : State :=
  (List.range n).foldl (fun s tail => bwrite s (dst tail) (bread s (src tail))) s

/-- The block of the log that holds the copy of `log.lh.block[tail]`. -/
def logBlock (g : Geometry) (tail : Nat) : Int := g.start + tail + 1

def install_trans (g : Geometry) (s : State) : State :=
  copyBlocks (logBlock g) s.lh.block s.lh.n.toNat s

def write_log (g : Geometry) (s : State) : State :=
  copyBlocks s.lh.block (logBlock g) s.lh.n.toNat s

/-- `lh->block[i]` of the header block. -/
def Block.block (hb : Block) (i : Nat) : Int := hb (Fin.ofNat 128 (i + 1))

def read_head (g : Geometry) (s : State) : Except Stop State :=
  let lh := bread s g.start
  -- a longer header overruns the array `log.lh.block`
  if lh 0 > LOGSIZE then .error .outOfBounds
  else .ok { s with
    lh := ⟨lh 0, fun i => if i < (lh 0).toNat then Block.block lh i else s.lh.block i⟩ }

/-- The header block with `n` and the first `n` block numbers replaced. -/
def headBlock (lh : LogHeader) (hb : Block) : Block := fun w =>
  if w = 0 then lh.n
  else if w.val - 1 < lh.n.toNat then lh.block (w.val - 1)
  else hb w

def write_head (g : Geometry) (s : State) : State :=
  bwrite s g.start (headBlock s.lh (bread s g.start))

/-- `log.lh.n = 0;` -/
def State.emptied (s : State) : State := { s with lh := { s.lh with n := 0 } }

/-- `log.lh.n = 0; write_head();`, the end of `commit` and of `recover_from_log`. -/
def clearLog (g : Geometry) (s : State) : State := write_head g s.emptied

def recover_from_log (g : Geometry) (s : State) : Except Stop State := do
  let s ← read_head g s
  .ok (clearLog g (install_trans g s))

def commit (g : Geometry) (s : State) : State :=
  if s.lh.n > 0 then clearLog g (install_trans g (write_head g (write_log g s)))
  else s

/-- The kernel with an empty cache and its static variables zero. -/
def boot (d : Disk) : State where
  disk := d
  dirty := fun _ => none
  lh := ⟨0, fun _ => 0⟩
  outstanding := 0
  committing := false
  writes := []

/-- `initlog` on a machine that has just been started with the disk `d`. -/
def initlog (g : Geometry) (d : Disk) : Except Stop State := recover_from_log g (boot d)

/-- One turn of the loop of `begin_op`. -/
def begin_op (s : State) : Except Stop State :=
  if s.committing then .error .sleeping
  else if s.lh.n + (s.outstanding + 1) * MAXOPBLOCKS > LOGSIZE then .error .sleeping
  else .ok { s with outstanding := s.outstanding + 1 }

/-- `end_op` up to the call of `commit`. -/
def end_op (s : State) : Except Stop State :=
  if s.committing then .error .committing
  else if s.outstanding - 1 = 0 then
    .ok { s with outstanding := s.outstanding - 1, committing := true }
  else .ok { s with outstanding := s.outstanding - 1 }

/-- Where the loop of `log_write` stops: at the block itself, or behind the last one. -/
def absorb (lh : LogHeader) (b : Int) : Nat :=
  ((List.range lh.n.toNat).find? fun i => lh.block i = b).getD lh.n.toNat

/-- `log_write` of the buffer of block `b`, which its caller has modified to `data`. -/
def log_write (g : Geometry) (s : State) (b : Int) (data : Block) : Except Stop State :=
  if s.lh.n ≥ LOGSIZE ∨ s.lh.n ≥ g.size - 1 then .error .tooBig
  else if s.outstanding < 1 then .error .outsideOfTrans
  else
    let i := absorb s.lh b
    .ok { s with
      lh :=
        { n := if i = s.lh.n then s.lh.n + 1 else s.lh.n
          block := Function.update s.lh.block i b }
      dirty := Function.update s.dirty b (some data) }

/-- The calls that processes make, in the order in which they take `log.lock`. -/
inductive Op where
  | begin_op
  | log_write (b : Int) (data : Block)
  | end_op
  /-- The process whose `end_op` has set `committing` commits and clears it. -/
  | commit

def step (g : Geometry) (s : State) : Op → Except Stop State
  | .begin_op => begin_op s
  | .log_write b data => log_write g s b data
  | .end_op => end_op s
  | .commit =>
    if s.committing then .ok { commit g s with committing := false } else .error .notCommitting

/-- Only blocks outside the log area are logged. -/
def Op.LogsHome (g : Geometry) : Op → Prop
  | .log_write b _ => Home g b
  | _ => True

end Laboratorio.Xv6.Log
