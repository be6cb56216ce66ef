import Laboratorio.Lib.DList
import Laboratorio.Lib.Runs
import Laboratorio.Xv6.Fs.Inode

/-!
# The buffer cache of `xv6/bio.c` and the disk queue of `xv6/ide.c`

A task is one use of a buffer, from `bread` to `brelse`; a process that holds several buffers is
several tasks.  What a task does while it holds `bcache.lock` or `idelock` is one step, and so is an
interrupt of the disk.  `acquiresleep` and the end of `iderw` are steps that may have to wait.  All
calls are for device 1, which is there and answers every request without an error.

A block is any type of contents.  `State.written` records the contents with which `log_write` or
`bwrite` was last called for a block.  A task that has changed its buffer calls one of the two before
`brelse`, as everywhere in the kernel.
-/

namespace Laboratorio.Xv6.Bio

open Laboratorio.Lib DList

/-- `MAXOPBLOCKS*3` -/
def NBUF : Nat := 30

/-- A `struct buf *` into `bcache.buf`. -/
abbrev Ptr := Fin NBUF

abbrev Task := Nat

/-- `struct buf` without its pointers; `lock` is the holder of the sleep lock. -/
structure Buf (β : Type) where
  /-- `B_VALID` in `flags` -/
  valid : Bool
  /-- `B_DIRTY` in `flags` -/
  dirty : Bool
  dev : Nat
  blockno : Nat
  lock : Option Task
  refcnt : Nat
  data : β

/-- Where a task stands between `bread` and the end of `brelse`. -/
inductive Pos where
  /-- Before `acquiresleep` in `bget`. -/
  | acquire
  /-- At the test of `B_VALID` in `bread`. -/
  | test
  /-- Asleep in `iderw`. -/
  | io
  /-- The task holds the buffer and has not changed it since `bread`, `log_write` or `bwrite`. -/
  | held
  | modified
  /-- In `brelse`, after `releasesleep`. -/
  | release
  deriving DecidableEq, Repr

/-- The task holds the sleep lock of its buffer. -/
def Pos.locked : Pos → Bool
  | .test | .io | .held | .modified => true
  | .acquire | .release => false

inductive Pc where
  | out
  /-- `bread(1, blockno)` has been given `b`. -/
  | use (blockno : Nat) (b : Ptr) (pos : Pos)
  deriving DecidableEq, Repr

structure State (β : Type) where
  buf : Ptr → Buf β
  links : Links Ptr
  idequeue : List Ptr
  disk : Nat × Nat → β
  pc : Task → Pc
  written : Nat → Option β

/-- A panic, or why a step is not possible. -/
inductive Stop where
  | noBuffers
  | bwrite
  | brelse
  | iderwNotLocked
  | iderwNothing
  | incorrectBlockno
  /-- A list that does not lead back to its head. -/
  | diverges
  /-- The task has to wait. -/
  | blocked
  /-- The task is not at this call. -/
  | turn
  deriving DecidableEq, Repr

variable {β : Type}

def State.setBuf (s : State β) (b : Ptr) (x : Buf β) : State β :=
  { s with buf := Function.update s.buf b x }

def State.goto (s : State β) (h : Task) (pc : Pc) : State β :=
  { s with pc := Function.update s.pc h pc }

/-! ## `bio.c` -/

/-- The list that `binit` makes. -/
def binit : Links Ptr := (List.finRange NBUF).foldl (fun s b => insertFront b s) DList.empty

/-- After `binit`; the buffers are in memory that is zero. -/
def boot (disk : Nat × Nat → β) (zero : β) : State β where
  buf := fun _ => ⟨false, false, 0, 0, none, 0, zero⟩
  links := binit
  idequeue := []
  disk := disk
  pc := fun _ => .out
  written := fun _ => none

/-- `b->dev == dev && b->blockno == blockno` -/
def State.cached (s : State β) (dev blockno : Nat) (b : Ptr) : Bool :=
  (s.buf b).dev == dev && (s.buf b).blockno == blockno

/-- `b->refcnt == 0 && (b->flags & B_DIRTY) == 0` -/
def State.unused (s : State β) (b : Ptr) : Bool := (s.buf b).refcnt == 0 && !(s.buf b).dirty

/-- The second loop of `bget`. -/
def recycle (dev blockno : Nat) (s : State β) : Except Stop (Ptr × State β) :=
  match walk s.links.prev s.unused NBUF (s.links.prev none) with
  | some (some b) =>
    .ok (b, s.setBuf b
      { s.buf b with dev := dev, blockno := blockno, valid := false, dirty := false, refcnt := 1 })
  | some none => .error .noBuffers
  | none => .error .diverges

/-- `bget` up to the call of `acquiresleep`. -/
def bget (dev blockno : Nat) (s : State β) : Except Stop (Ptr × State β) :=
  match walk s.links.next (s.cached dev blockno) NBUF (s.links.next none) with
  | some (some b) => .ok (b, s.setBuf b { s.buf b with refcnt := (s.buf b).refcnt + 1 })
  | some none => recycle dev blockno s
  | none => .error .diverges

/-- The part of `brelse` under `bcache.lock`. -/
def bdrop (b : Ptr) (s : State β) : State β :=
  let s := s.setBuf b { s.buf b with refcnt := (s.buf b).refcnt - 1 }
  if (s.buf b).refcnt = 0 then { s with links := insertFront b (unlink b s.links) } else s

/-! ## `ide.c` -/

/-- The data of a write go out at once, those of a read come in with the interrupt. -/
def idestart (b : Ptr) (s : State β) : Except Stop (State β) :=
  let x := s.buf b
  if Fs.FSSIZE ≤ x.blockno then .error .incorrectBlockno
  else if x.dirty then
    .ok { s with disk := Function.update s.disk (x.dev % 2, x.blockno) x.data }
  else .ok s

def ideintr (s : State β) : Except Stop (State β) :=
  match s.idequeue with
  | [] => .ok s
  | b :: q =>
    let x := s.buf b
    let s := { s with idequeue := q }
    let s := s.setBuf b
      { x with
        data := if x.dirty then x.data else s.disk (x.dev % 2, x.blockno)
        valid := true
        dirty := false }
    match q with
    | [] => .ok s
    | c :: _ => idestart c s

/-- `iderw` up to its loop. -/
def iderw (h : Task) (b : Ptr) (s : State β) : Except Stop (State β) :=
  if (s.buf b).lock ≠ some h then .error .iderwNotLocked
  else if (s.buf b).valid = true ∧ (s.buf b).dirty = false then .error .iderwNothing
  else
    let s := { s with idequeue := s.idequeue ++ [b] }
    if s.idequeue.head? = some b then idestart b s else .ok s

/-! ## Tasks -/

/-- The next step of a task inside `bread`, `bwrite` or `brelse`. -/
def advance (h : Task) (k : Nat) (b : Ptr) (s : State β) : Pos → Except Stop (State β)
  | .acquire =>
    if (s.buf b).lock = none then
      .ok ((s.setBuf b { s.buf b with lock := some h }).goto h (.use k b .test))
    else .error .blocked
  | .test =>
    if (s.buf b).valid then .ok (s.goto h (.use k b .held))
    else (iderw h b s).map (·.goto h (.use k b .io))
  | .io =>
    if (s.buf b).valid = true ∧ (s.buf b).dirty = false then .ok (s.goto h (.use k b .held))
    else .error .blocked
  | .release => .ok ((bdrop b s).goto h .out)
  | .held | .modified => .error .turn

/-- `b->flags |= B_DIRTY`, for which the contents are recorded. -/
def mark (b : Ptr) (s : State β) : State β :=
  { s.setBuf b { s.buf b with dirty := true } with
    written := Function.update s.written (s.buf b).blockno (some (s.buf b).data) }

def bwrite (h : Task) (b : Ptr) (s : State β) : Except Stop (State β) :=
  if (s.buf b).lock ≠ some h then .error .bwrite else iderw h b (mark b s)

/-- `brelse` up to `acquire(&bcache.lock)`. -/
def brelse (h : Task) (b : Ptr) (s : State β) : Except Stop (State β) :=
  if (s.buf b).lock ≠ some h then .error .brelse
  else .ok (s.setBuf b { s.buf b with lock := none })

inductive Op (β : Type) where
  | bread (h : Task) (blockno : Nat)
  /-- The next step of a task inside a call. -/
  | next (h : Task)
  /-- The buffer is changed in place. -/
  | modify (h : Task) (data : β)
  | log_write (h : Task)
  | bwrite (h : Task)
  | brelse (h : Task)
  | ideintr

/-- The buffer of a task that may use it. -/
def Pc.inHand : Pc → Option (Nat × Ptr)
  | .use k b .held | .use k b .modified => some (k, b)
  | _ => none

def step (s : State β) : Op β → Except Stop (State β)
  | .bread h k =>
    match s.pc h with
    | .out => (bget Fs.ROOTDEV k s).map fun r => r.2.goto h (.use k r.1 .acquire)
    | .use .. => .error .turn
  | .next h =>
    match s.pc h with
    | .out => .error .turn
    | .use k b pos => advance h k b s pos
  | .modify h d =>
    match (s.pc h).inHand with
    | some (k, b) => .ok ((s.setBuf b { s.buf b with data := d }).goto h (.use k b .modified))
    | none => .error .turn
  | .log_write h =>
    match (s.pc h).inHand with
    | some (k, b) => .ok ((mark b s).goto h (.use k b .held))
    | none => .error .turn
  | .bwrite h =>
    match (s.pc h).inHand with
    | some (k, b) => (bwrite h b s).map (·.goto h (.use k b .io))
    | none => .error .turn
  | .brelse h =>
    match s.pc h with
    | .use k b .held => (brelse h b s).map (·.goto h (.use k b .release))
    | _ => .error .turn
  | .ideintr => ideintr s

end Laboratorio.Xv6.Bio
