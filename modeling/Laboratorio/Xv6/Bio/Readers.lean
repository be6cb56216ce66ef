import Laboratorio.Xv6.Bio.Content

/-!
# Readers run out of buffers

Up to `NPROC` processes call `read`, each on its own open regular file.  A process in `fileread` goes
through the loop of `readi`; for every block `bmap` may have to read the indirect block first.  A
process refers to one buffer at a time, so the task of a process is its number.  Each file has all the
blocks of its size, so that `bmap` has nothing to allocate (`readers_backed`).  `ilock` finds the
inode of an open file valid and, as nobody else has the file, unlocked.

* `ReadInv` — the cache is consistent and clean, and `readi` stays inside the file.
-/

namespace Laboratorio.Xv6.Bio

open Laboratorio.Lib DList Bytes Function

def NPROC : Nat := 64

abbrev Pid := Fin NPROC

abbrev Block := Nat → UInt8

/-- A `struct file` with its regular file, all of whose bytes are in blocks of the disk. -/
structure File (disk : Nat × Nat → Block) where
  readable : Bool
  addrs : Nat → Nat
  size : Nat
  size_le : size ≤ Fs.MAXFILE * Fs.BSIZE
  direct : ∀ i < Fs.NDIRECT, i * Fs.BSIZE < size → addrs i ≠ 0
  indirect : Fs.NDIRECT * Fs.BSIZE < size → addrs Fs.NDIRECT ≠ 0
  entries : ∀ j < Fs.NINDIRECT, (Fs.NDIRECT + j) * Fs.BSIZE < size →
    Fs.word (disk (Fs.ROOTDEV, addrs Fs.NDIRECT)) j ≠ 0

/-- The variables of `readi`; `got` is what has been copied to `dst`. -/
structure Locals where
  n : Nat
  off : Nat
  tot : Nat
  got : List UInt8

/-- Where a process stands in `fileread`. -/
inductive ReadAt where
  | out
  /-- At the test of the loop, once `brelse` has returned. -/
  | loop (v : Locals)
  /-- `bmap` reads the indirect block. -/
  | indirect (v : Locals)
  /-- `bmap` returns `addr`, once `brelse` has returned. -/
  | found (v : Locals) (addr : Nat)
  /-- `readi` reads the block. -/
  | data (v : Locals)

structure Readers (disk : Nat × Nat → Block) where
  cache : State Block
  file : Pid → File disk
  /-- `f->off` -/
  off : Pid → Nat
  pos : Pid → ReadAt
  /-- The bytes that the last call has returned; `none` is -1. -/
  ret : Pid → Option (List UInt8)

inductive Halt where
  | stop (e : Stop)
  /-- The panic of `bmap`. -/
  | bmap
  /-- `bmap` calls `balloc`. -/
  | balloc
  deriving DecidableEq, Repr

variable {disk : Nat × Nat → Block}

def Readers.goto (s : Readers disk) (p : Pid) (pos : ReadAt) : Readers disk :=
  { s with pos := update s.pos p pos }

/-- Leave `fileread` with the bytes in `got`. -/
def Readers.leave (s : Readers disk) (p : Pid) (got : List UInt8) : Readers disk :=
  { s.goto p .out with
    off := update s.off p (s.off p + got.length)
    ret := update s.ret p (some got) }

/-- A step of the cache. -/
def Readers.lift (s : Readers disk) (op : Op Block) : Except Halt (Readers disk) :=
  match step s.cache op with
  | .ok c => .ok { s with cache := c }
  | .error e => .error (.stop e)

/-- `fileread` up to the loop of `readi`. -/
def fileread (p : Pid) (n : Nat) (s : Readers disk) : Readers disk :=
  let f := s.file p
  if f.readable = false then { s with ret := update s.ret p none }
  else if s.off p > f.size ∨ (s.off p + n) % 2 ^ 32 < s.off p then
    { s with ret := update s.ret p none }
  else
    let n := if s.off p + n > f.size then f.size - s.off p else n
    s.goto p (.loop ⟨n, s.off p, 0, []⟩)

/-- The call of `bread` that comes next in `readi`, and where the process stands then. -/
def request (f : File disk) : ReadAt → Except Halt (Option (Nat × ReadAt))
  | .loop v =>
    if v.tot < v.n then
      let bn := v.off / Fs.BSIZE
      if bn < Fs.NDIRECT then
        if f.addrs bn = 0 then .error .balloc else .ok (some (f.addrs bn, .data v))
      else if bn - Fs.NDIRECT < Fs.NINDIRECT then
        if f.addrs Fs.NDIRECT = 0 then .error .balloc
        else .ok (some (f.addrs Fs.NDIRECT, .indirect v))
      else .error .bmap
    else .ok none
  | .found v addr => .ok (some (addr, .data v))
  | _ => .ok none

/-- What the process does with the buffer that `bread` has returned. -/
def consume (x : Buf Block) : ReadAt → Except Halt ReadAt
  | .indirect v =>
    let addr := Fs.word x.data (v.off / Fs.BSIZE - Fs.NDIRECT)
    if addr = 0 then .error .balloc else .ok (.found v addr)
  | .data v =>
    let m := min (v.n - v.tot) (Fs.BSIZE - v.off % Fs.BSIZE)
    .ok (.loop ⟨v.n, v.off + m, v.tot + m, v.got ++ slice x.data (v.off % Fs.BSIZE) m⟩)
  | pos => .ok pos

/-- The end of the loop. -/
def finish (p : Pid) (s : Readers disk) : Except Halt (Readers disk) :=
  match s.pos p with
  | .loop v => .ok (s.leave p v.got)
  | _ => .error (.stop .turn)

/-- The next step of a process in `fileread`. -/
def readNext (p : Pid) (s : Readers disk) : Except Halt (Readers disk) :=
  match s.cache.pc p with
  | .out =>
    match request (s.file p) (s.pos p) with
    | .ok (some (k, pos)) => (s.goto p pos).lift (.bread p k)
    | .ok none => finish p s
    | .error e => .error e
  | .use _ b .held =>
    match consume (s.cache.buf b) (s.pos p) with
    | .ok pos => (s.goto p pos).lift (.brelse p)
    | .error e => .error e
  | .use .. => s.lift (.next p)

inductive ReadOp where
  | read (p : Pid) (n : Nat)
  | next (p : Pid)
  | ideintr

def readStep (s : Readers disk) : ReadOp → Except Halt (Readers disk)
  | .read p n =>
    match s.pos p with
    | .out => .ok (fileread p n s)
    | _ => .error (.stop .turn)
  | .next p => readNext p s
  | .ideintr => s.lift .ideintr

/-- After `binit`, with the files open. -/
def opened (file : Pid → File disk) (off : Pid → Nat) : Readers disk where
  cache := boot disk fun _ => 0
  file := file
  off := off
  pos := fun _ => .out
  ret := fun _ => none

/-- The processes between `bread` and the end of `brelse`. -/
def Readers.users (s : Readers disk) : Finset Pid :=
  Finset.univ.filter fun p => s.cache.pc p ≠ .out

/-- The next step of the process is a call of `bread`. -/
def Readers.callsBread (s : Readers disk) (p : Pid) : Bool :=
  match s.cache.pc p, request (s.file p) (s.pos p) with
  | .out, .ok (some _) => true
  | _, _ => false

/-- If the step is a call of `bread`, fewer than `NBUF` processes are between `bread` and `brelse`. -/
def BuffersLeft (s : Readers disk) : ReadOp → Prop
  | .next p => s.callsBread p = true → s.users.card < NBUF
  | _ => True

instance (s : Readers disk) (op : ReadOp) : Decidable (BuffersLeft s op) :=
  match op with
  | .next p => inferInstanceAs (Decidable (s.callsBread p = true → s.users.card < NBUF))
  | .read _ _ => isTrue trivial
  | .ideintr => isTrue trivial

/-! ## The cache of readers -/

/-- A cache that has only been read through by the processes. -/
structure Calm (disk : Nat × Nat → Block) (c : State Block) : Prop where
  inv : Inv disk c
  clean : ∀ b, (c.buf b).dirty = false
  unwritten : ∀ k, c.written k = none
  tasks : ∀ h, NPROC ≤ h → c.pc h = .out

variable {c d : State Block} {p q : Pid} {k : Nat} {b : Ptr}

theorem calm_boot (disk : Nat × Nat → Block) : Calm disk (boot disk fun _ => 0) :=
  ⟨inv_boot disk _, fun _ => rfl, fun _ => rfl, fun _ _ => rfl⟩

theorem Calm.goto {u : State Block} {pc : Pc} (hc : Calm disk c) (hu : Kept c u)
    (hI : Inv disk (u.goto p pc)) : Calm disk (u.goto p pc) := by
  refine ⟨hI, fun b => ?_, fun k => ?_, fun h hh => ?_⟩
  · by_contra hd
    have := hu.dirty b (by simpa [State.goto] using hd)
    rw [hc.clean b] at this
    cases this
  · show u.written k = none
    rw [hu.written]
    exact hc.unwritten k
  · have hne : h ≠ p := by
      intro he
      exact absurd p.isLt (by omega)
    simp only [State.goto, update_of_ne hne, hu.pc]
    exact hc.tasks h hh

theorem Calm.bread (hc : Calm disk c) (hstep : step c (.bread p k) = .ok d) :
    Calm disk d ∧ ∃ b, d.pc = update c.pc p (.use k b .acquire) := by
  have hI := hc.inv.step hstep
  simp only [step] at hstep
  split at hstep
  · rcases hc.inv.shape.bget_cases k with ⟨b, -, hget⟩ | ⟨-, ⟨b, -, hget⟩ | ⟨-, hget⟩⟩
    · rw [hget] at hstep
      cases hstep
      refine ⟨hc.goto ?_ hI, b, rfl⟩
      exact kept_update rfl ⟨rfl, rfl, fun h => h⟩ ⟨rfl, rfl⟩
    · rw [hget] at hstep
      cases hstep
      refine ⟨⟨hI, fun e => ?_, hc.unwritten, fun h hh => ?_⟩, b, rfl⟩
      · by_cases he : e = b
        · simp [State.goto, State.setBuf, he]
        · simp only [State.goto, State.setBuf, update_of_ne he]
          exact hc.clean e
      · have hne : h ≠ p := by
          intro he
          exact absurd p.isLt (by omega)
        exact (update_of_ne hne _ _).trans (hc.tasks h hh)
    · rw [hget] at hstep
      cases hstep
  · cases hstep

theorem Calm.next {pos : Pos} (hc : Calm disk c) (hpc : c.pc p = .use k b pos)
    (hstep : step c (.next p) = .ok d) :
    Calm disk d ∧ ∃ pc, d.pc = update c.pc p pc ∧
      (pos ≠ .release → ∃ pos', pc = .use k b pos' ∧ pos' ≠ .release) := by
  have hI := hc.inv.step hstep
  simp only [step, hpc] at hstep
  obtain ⟨u, pc, hu, rfl, hpos⟩ := advance_cases hstep
  exact ⟨hc.goto hu hI, pc, by simp only [State.goto, hu.pc], hpos⟩

theorem Calm.brelse (hc : Calm disk c) (hpc : c.pc p = .use k b .held)
    (hstep : step c (.brelse p) = .ok d) :
    Calm disk d ∧ d.pc = update c.pc p (.use k b .release) := by
  have hI := hc.inv.step hstep
  simp only [step, hpc] at hstep
  obtain ⟨u, hu, rfl⟩ := exists_of_map_eq_ok hstep
  exact ⟨hc.goto (kept_brelse hu) hI, by simp only [State.goto, (kept_brelse hu).pc]⟩

theorem Calm.ideintr (hc : Calm disk c) (hstep : step c .ideintr = .ok d) :
    Calm disk d ∧ d.pc = c.pc := by
  have hI := hc.inv.step hstep
  have hk := kept_ideintr hstep
  refine ⟨⟨hI, fun b => ?_, fun k => ?_, fun h hh => ?_⟩, hk.pc⟩
  · by_contra hd
    have := hk.dirty b (by simpa using hd)
    rw [hc.clean b] at this
    cases this
  · rw [hk.written]
    exact hc.unwritten k
  · rw [hk.pc]
    exact hc.tasks h hh

/-- `bread` has returned the block of the disk. -/
theorem Calm.data (hc : Calm disk c) (hpc : c.pc p = .use k b .held) :
    (c.buf b).data = disk (Fs.ROOTDEV, k) := by
  have hlock := (hc.inv.shape.lock p b).2 ⟨k, .held, hpc, rfl⟩
  obtain ⟨hdev, hblk⟩ := hc.inv.shape.ident p k b .held hpc
  have hvalid := hc.inv.content.ready p k b (by rw [hpc]; rfl)
  have hclean := hc.inv.content.clean b hdev hvalid fun g l hg => by
    rw [hc.inv.shape.holder_unique (.inr hlock) hg rfl, hpc] at hg
    cases hg
  rw [hclean, State.latest, hc.unwritten, hblk]
  rfl

/-! ## Inside the file -/

/-- What is still to be read is inside the file. -/
def Locals.inside (v : Locals) (f : File disk) : Prop :=
  v.tot ≤ v.n ∧ v.off + (v.n - v.tot) ≤ f.size

def ReadAt.inside (f : File disk) (pc : Pc) : ReadAt → Prop
  | .out => True
  | .loop v => v.inside f
  | .indirect v => v.inside f ∧ v.tot < v.n ∧ Fs.NDIRECT ≤ v.off / Fs.BSIZE ∧
      ∃ b pos, pc = .use (f.addrs Fs.NDIRECT) b pos ∧ pos ≠ .release
  | .found v _ => v.inside f ∧ v.tot < v.n
  | .data v => v.inside f ∧ v.tot < v.n

structure ReadInv (s : Readers disk) : Prop where
  calm : Calm disk s.cache
  inside : ∀ p, (s.pos p).inside (s.file p) (s.cache.pc p)

variable {s t : Readers disk} {f : File disk} {pos pos' : ReadAt} {pc : Pc}

theorem lift_eq_ok {op : Op Block} (h : s.lift op = .ok t) :
    ∃ c, step s.cache op = .ok c ∧ t = { s with cache := c } := by
  unfold Readers.lift at h
  split at h
  · rename_i c hc
    exact ⟨c, hc, (Except.ok.inj h).symm⟩
  · cases h

/-- `bmap` finds the block of every byte of the file. -/
theorem request_ok (hin : pos.inside f pc) :
    ∃ r, request f pos = .ok r ∧ ∀ k pos', r = some (k, pos') →
      ∀ b, pos'.inside f (.use k b .acquire) := by
  cases pos with
  | out => exact ⟨none, rfl, nofun⟩
  | indirect v => exact ⟨none, rfl, nofun⟩
  | data v => exact ⟨none, rfl, nofun⟩
  | found v addr =>
    refine ⟨_, rfl, fun k pos' hr b => ?_⟩
    cases hr
    exact hin
  | loop v =>
    simp only [request]
    split
    · rename_i hlt
      obtain ⟨hle, hsize⟩ := hin
      have hoff : v.off < f.size := by omega
      have hbn : v.off / Fs.BSIZE * Fs.BSIZE < f.size :=
        lt_of_le_of_lt (Nat.div_mul_le_self _ _) hoff
      split
      · rename_i hdirect
        rw [if_neg (f.direct _ hdirect hbn)]
        refine ⟨_, rfl, fun k pos' hr b => ?_⟩
        cases hr
        exact ⟨⟨hle, hsize⟩, hlt⟩
      · rename_i hdirect
        have hge : Fs.NDIRECT ≤ v.off / Fs.BSIZE := Nat.not_lt.1 hdirect
        have hmax : v.off / Fs.BSIZE < Fs.MAXFILE := by
          apply (Nat.div_lt_iff_lt_mul (by decide)).2
          exact lt_of_lt_of_le hoff f.size_le
        have hind : Fs.NDIRECT * Fs.BSIZE < f.size :=
          lt_of_le_of_lt (Nat.mul_le_mul_right _ hge) hbn
        rw [if_pos (by unfold Fs.MAXFILE at hmax; omega), if_neg (f.indirect hind)]
        refine ⟨_, rfl, fun k pos' hr b => ?_⟩
        cases hr
        exact ⟨⟨hle, hsize⟩, hlt, hge, b, .acquire, rfl, nofun⟩
    · exact ⟨none, rfl, nofun⟩

/-- The word of the indirect block is there, and a turn of the loop stays inside the file. -/
theorem consume_ok {x : Buf Block} (hin : pos.inside f (.use k b .held))
    (hx : x.data = disk (Fs.ROOTDEV, k)) :
    ∃ pos', consume x pos = .ok pos' ∧ pos'.inside f (.use k b .release) := by
  cases pos with
  | out => exact ⟨_, rfl, trivial⟩
  | loop v => exact ⟨_, rfl, hin⟩
  | found v addr => exact ⟨_, rfl, hin⟩
  | indirect v =>
    obtain ⟨⟨hle, hsize⟩, hlt, hge, b', pos, hpc, -⟩ := hin
    cases hpc
    have hoff : v.off < f.size := by omega
    have hmax : v.off / Fs.BSIZE < Fs.MAXFILE := by
      apply (Nat.div_lt_iff_lt_mul (by decide)).2
      exact lt_of_lt_of_le hoff f.size_le
    have hj : v.off / Fs.BSIZE - Fs.NDIRECT < Fs.NINDIRECT := by
      unfold Fs.MAXFILE at hmax
      omega
    have hbn : (Fs.NDIRECT + (v.off / Fs.BSIZE - Fs.NDIRECT)) * Fs.BSIZE < f.size := by
      rw [Nat.add_sub_cancel' hge]
      exact lt_of_le_of_lt (Nat.div_mul_le_self _ _) hoff
    have hword := f.entries _ hj hbn
    simp only [consume, hx, if_neg hword]
    exact ⟨_, rfl, ⟨hle, hsize⟩, hlt⟩
  | data v =>
    obtain ⟨⟨hle, hsize⟩, hlt⟩ := hin
    refine ⟨_, rfl, ?_, ?_⟩
    · dsimp only
      omega
    · dsimp only
      omega

theorem ReadInv.move {s' : Readers disk} (hI : ReadInv s) (hcalm : Calm disk s'.cache)
    (hfile : s'.file = s.file) (hpos : ∀ q, q ≠ p → s'.pos q = s.pos q)
    (hpc : s'.cache.pc = update s.cache.pc p pc)
    (hp : (s'.pos p).inside (s.file p) pc) : ReadInv s' := by
  refine ⟨hcalm, fun q => ?_⟩
  rw [hfile, hpc]
  by_cases hq : q = p
  · rw [hq, update_self]
    exact hp
  · have hne : (q : Nat) ≠ p := fun he => hq (Fin.ext he)
    rw [update_of_ne hne, hpos q hq]
    exact hI.inside q

theorem inside_advance {h : Nat} {pos1 : Pos} (pos2 : Pos) (hin : pos.inside f (.use h b pos1))
    (hpos : pos1 ≠ .release → pc = .use h b pos2 ∧ pos2 ≠ .release) : pos.inside f pc := by
  cases pos with
  | indirect v =>
    obtain ⟨hv, hlt, hge, b', q, hq, hne⟩ := hin
    cases hq
    obtain ⟨rfl, hne'⟩ := hpos hne
    exact ⟨hv, hlt, hge, b, pos2, rfl, hne'⟩
  | out => exact trivial
  | loop v => exact hin
  | found v addr => exact hin
  | data v => exact hin

theorem ReadInv.fileread (hI : ReadInv s) (p : Pid) (n : Nat) : ReadInv (fileread p n s) := by
  have hself : s.cache.pc = update s.cache.pc p (s.cache.pc p) :=
    (update_eq_self _ _).symm
  unfold Bio.fileread
  dsimp only
  split
  · exact ⟨hI.calm, hI.inside⟩
  · split
    · exact ⟨hI.calm, hI.inside⟩
    · rename_i hle
      have hoff : s.off p ≤ (s.file p).size := by omega
      refine hI.move hI.calm rfl (fun q hq => update_of_ne hq _ _) hself ?_
      simp only [Readers.goto, update_self]
      refine ⟨Nat.zero_le _, ?_⟩
      dsimp only
      split <;> omega

theorem ReadInv.next (hI : ReadInv s) (hstep : readNext p s = .ok t) : ReadInv t := by
  have hin := hI.inside p
  unfold readNext at hstep
  split at hstep
  · -- no buffer: the next call of `bread`, or the end
    rename_i hpc
    obtain ⟨r, hr, hr'⟩ := request_ok hin
    rw [hr] at hstep
    cases r with
    | some r =>
      obtain ⟨c, hc, rfl⟩ := lift_eq_ok hstep
      obtain ⟨hcalm, b, hb⟩ := hI.calm.bread hc
      refine hI.move hcalm rfl (fun q hq => update_of_ne hq _ _) hb ?_
      simp only [Readers.goto, update_self]
      exact hr' r.1 r.2 rfl b
    | none =>
      simp only [finish] at hstep
      split at hstep
      · cases hstep
        refine hI.move hI.calm rfl (fun q hq => update_of_ne hq _ _)
          (update_eq_self _ _).symm ?_
        simp [Readers.leave, Readers.goto, ReadAt.inside]
      · cases hstep
  · -- the buffer is used and given back
    rename_i k b hpc
    rw [hpc] at hin
    obtain ⟨pos', hpos', hin'⟩ := consume_ok hin (hI.calm.data hpc)
    rw [hpos'] at hstep
    obtain ⟨c, hc, rfl⟩ := lift_eq_ok hstep
    obtain ⟨hcalm, hb⟩ := hI.calm.brelse hpc hc
    refine hI.move hcalm rfl (fun q hq => update_of_ne hq _ _) hb ?_
    simp only [Readers.goto, update_self]
    exact hin'
  · rename_i k b pos hpos hpc
    obtain ⟨c, hc, rfl⟩ := lift_eq_ok hstep
    obtain ⟨hcalm, pc, hb, hpc'⟩ := hI.calm.next hpc hc
    refine hI.move hcalm rfl (fun q _ => rfl) hb ?_
    rw [hpc] at hin
    by_cases hrel : pos = .release
    · exact inside_advance pos hin fun hne => absurd hrel hne
    · obtain ⟨pos2, h2⟩ := hpc' hrel
      exact inside_advance pos2 hin fun _ => h2

theorem ReadInv.step {op : ReadOp} (hI : ReadInv s) (hstep : readStep s op = .ok t) :
    ReadInv t := by
  cases op with
  | read p n =>
    simp only [readStep] at hstep
    split at hstep
    · cases hstep
      exact hI.fileread p n
    · cases hstep
  | next p => exact hI.next hstep
  | ideintr =>
    obtain ⟨c, hc, rfl⟩ := lift_eq_ok hstep
    obtain ⟨hcalm, hpc⟩ := hI.calm.ideintr hc
    refine ⟨hcalm, fun p => ?_⟩
    show (s.pos p).inside (s.file p) (c.pc p)
    rw [hpc]
    exact hI.inside p

theorem readInv_opened (file : Pid → File disk) (off : Pid → Nat) : ReadInv (opened file off) :=
  ⟨calm_boot disk, fun _ => trivial⟩

theorem run_readInv (file : Pid → File disk) (off : Pid → Nat) (ops : List ReadOp)
    (s : Readers disk) (hrun : run readStep (opened file off) ops = .ok s) : ReadInv s :=
  run_invariant (P := fun _ s => ReadInv s) (readInv_opened file off)
    (fun _ _ _ _ _ hI hstep => hI.step hstep) ops s hrun

/-! ## Errors -/

theorem lift_error {op : Op Block} {e : Halt} (h : s.lift op = .error e) :
    ∃ e', e = .stop e' ∧ step s.cache op = .error e' := by
  unfold Readers.lift at h
  split at h
  · cases h
  · rename_i e' he
    exact ⟨e', (Except.error.inj h).symm, he⟩

/-- `bmap` has nothing to allocate: a step of the readers only stops where a step of the cache does,
and at the end of a read. -/
theorem ReadInv.error {op : ReadOp} {e : Halt} (hI : ReadInv s)
    (hstep : readStep s op = .error e) : ∃ e', e = .stop e' := by
  cases op with
  | read p n =>
    simp only [readStep] at hstep
    split at hstep
    · cases hstep
    · exact ⟨_, (Except.error.inj hstep).symm⟩
  | ideintr =>
    obtain ⟨e', he, -⟩ := lift_error hstep
    exact ⟨e', he⟩
  | next p =>
    have hin := hI.inside p
    simp only [readStep, readNext] at hstep
    split at hstep
    · obtain ⟨r, hr, -⟩ := request_ok hin
      rw [hr] at hstep
      cases r with
      | some r =>
        obtain ⟨e', he, -⟩ := lift_error hstep
        exact ⟨e', he⟩
      | none =>
        simp only [finish] at hstep
        split at hstep
        · cases hstep
        · exact ⟨_, (Except.error.inj hstep).symm⟩
    · rename_i k b hpc
      rw [hpc] at hin
      obtain ⟨pos', hpos', -⟩ := consume_ok hin (hI.calm.data hpc)
      rw [hpos'] at hstep
      obtain ⟨e', he, -⟩ := lift_error hstep
      exact ⟨e', he⟩
    · obtain ⟨e', he, -⟩ := lift_error hstep
      exact ⟨e', he⟩

/-- Reads allocate no blocks. -/
theorem readers_backed (file : Pid → File disk) (off : Pid → Nat) (ops : List ReadOp) :
    run readStep (opened file off) ops ≠ .error .balloc ∧
      run readStep (opened file off) ops ≠ .error .bmap := by
  constructor
  · refine run_ne_error fun pre op u _ hu hstep => ?_
    obtain ⟨e', he⟩ := (run_readInv file off pre u hu).error hstep
    cases he
  · refine run_ne_error fun pre op u _ hu hstep => ?_
    obtain ⟨e', he⟩ := (run_readInv file off pre u hu).error hstep
    cases he

/-! ## No buffers -/

theorem idestart_ne (b : Ptr) (c : State Block) : idestart b c ≠ .error .noBuffers := by
  unfold idestart
  dsimp only
  split
  · nofun
  · split <;> nofun

theorem iderw_ne (h : Task) (b : Ptr) (c : State Block) : iderw h b c ≠ .error .noBuffers := by
  unfold iderw
  split
  · nofun
  · split
    · nofun
    · dsimp only
      split
      · exact idestart_ne b _
      · nofun

theorem advance_ne (h : Task) (k : Nat) (b : Ptr) (c : State Block) (pos : Pos) :
    advance h k b c pos ≠ .error .noBuffers := by
  cases pos with
  | acquire =>
    simp only [advance]
    split <;> simp
  | test =>
    simp only [advance]
    split
    · simp
    · intro he
      cases hio : iderw h b c with
      | ok d =>
        rw [hio] at he
        cases he
      | error e =>
        rw [hio] at he
        cases he
        exact iderw_ne h b c hio
  | io =>
    simp only [advance]
    split <;> simp
  | held => simp [advance]
  | modified => simp [advance]
  | release => simp [advance]

theorem ideintr_ne (c : State Block) : ideintr c ≠ .error .noBuffers := by
  unfold ideintr
  split
  · nofun
  · dsimp only
    split
    · nofun
    · exact idestart_ne _ _

/-- Only `bread` runs out of buffers. -/
theorem step_noBuffers {op : Op Block} (hstep : step c op = .error .noBuffers)
    (hop : ∀ h, op ≠ .bwrite h) :
    ∃ h k, op = .bread h k ∧ bget Fs.ROOTDEV k c = .error .noBuffers := by
  cases op with
  | bread h k =>
    simp only [step] at hstep
    split at hstep
    · cases hget : bget Fs.ROOTDEV k c with
      | ok r =>
        rw [hget] at hstep
        cases hstep
      | error e =>
        rw [hget] at hstep
        cases hstep
        exact ⟨h, k, rfl, hget⟩
    · cases hstep
  | next h =>
    simp only [step] at hstep
    split at hstep
    · cases hstep
    · exact absurd hstep (advance_ne _ _ _ _ _)
  | modify h d =>
    simp only [step] at hstep
    split at hstep <;> cases hstep
  | log_write h =>
    simp only [step] at hstep
    split at hstep <;> cases hstep
  | bwrite h => exact absurd rfl (hop h)
  | brelse h =>
    simp only [step, brelse] at hstep
    split at hstep
    · split at hstep <;> cases hstep
    · cases hstep
  | ideintr => exact absurd hstep (ideintr_ne c)

theorem Shape.exists_task (hs : Shape c) (hb : (c.buf b).refcnt ≠ 0) :
    ∃ g, (c.pc g).ptr = some b := by
  by_contra hno
  have hempty : {g | (c.pc g).ptr = some b} = ∅ := by
    ext g
    simpa using fun hg => hno ⟨g, hg⟩
  have hrefs := hs.refs b
  rw [hempty, Set.encard_empty] at hrefs
  exact hb (by exact_mod_cast hrefs.symm)

/-- If `bget` finds no buffer, each buffer is used by a process of its own. -/
theorem ReadInv.users_of_noBuffers (hI : ReadInv s)
    (hget : bget Fs.ROOTDEV k s.cache = .error .noBuffers) : NBUF ≤ s.users.card := by
  have hs := hI.calm.inv.shape
  have hused : ∀ b, (s.cache.buf b).refcnt ≠ 0 := by
    intro b
    rcases hs.bget_cases k with ⟨c, -, hc⟩ | ⟨-, ⟨c, -, hc⟩ | ⟨hno, -⟩⟩
    · rw [hc] at hget
      cases hget
    · rw [hc] at hget
      cases hget
    · have := hno b
      simpa [State.unused, hI.calm.clean b] using this
  have huser : ∀ b, ∃ p : Pid, (s.cache.pc p).ptr = some b := by
    intro b
    obtain ⟨g, hg⟩ := hs.exists_task (hused b)
    have hlt : g < NPROC := by
      by_contra hge
      rw [hI.calm.tasks g (Nat.not_lt.1 hge)] at hg
      cases hg
    exact ⟨⟨g, hlt⟩, hg⟩
  choose user huser using huser
  have hcard : (Finset.univ : Finset Ptr).card ≤ s.users.card := by
    apply Finset.card_le_card_of_injOn user
    · intro b _
      simp only [Readers.users, Finset.coe_filter, Finset.mem_univ, true_and, Set.mem_ofPred_eq]
      intro hout
      have := huser b
      rw [hout] at this
      cases this
    · intro b _ b' _ he
      have := huser b
      rw [he, huser b'] at this
      exact (Option.some.inj this).symm
  simpa using hcard

/-- In every run in which `bread` is only called while fewer than `NBUF` processes are between `bread`
and `brelse`, there is a buffer for every call. -/
theorem readers_buffers (file : Pid → File disk) (off : Pid → Nat) (ops : List ReadOp)
    (hops : Meets readStep (opened file off) BuffersLeft ops) :
    run readStep (opened file off) ops ≠ .error (.stop .noBuffers) := by
  refine run_ne_error fun pre op u hpre hu hstep => ?_
  have hI := run_readInv file off pre u hu
  have hleft := hops pre op hpre u hu
  cases op with
  | read p n =>
    simp only [readStep] at hstep
    split at hstep <;> cases hstep
  | ideintr =>
    obtain ⟨e', he, herr⟩ := lift_error hstep
    cases he
    exact ideintr_ne _ herr
  | next p =>
    simp only [readStep, readNext] at hstep
    split at hstep
    · rename_i hpc
      cases hreq : request (u.file p) (u.pos p) with
      | error e =>
        obtain ⟨r, hr, -⟩ := request_ok (hI.inside p)
        rw [hreq] at hr
        cases hr
      | ok r =>
        rw [hreq] at hstep
        cases r with
        | none =>
          simp only [finish] at hstep
          split at hstep <;> cases hstep
        | some r =>
          obtain ⟨e', he, herr⟩ := lift_error hstep
          cases he
          obtain ⟨h, k, -, hget⟩ := step_noBuffers herr nofun
          have hlt := hleft (by simp only [Readers.callsBread, hpc, hreq])
          exact absurd (hI.users_of_noBuffers hget) (Nat.not_le.2 hlt)
    · split at hstep
      · obtain ⟨e', he, herr⟩ := lift_error hstep
        cases he
        obtain ⟨h, k, hop, -⟩ := step_noBuffers herr nofun
        cases hop
      · rename_i e hcons
        cases hstep
        rename_i k b hpc _
        have hin := hI.inside p
        rw [hpc] at hin
        obtain ⟨pos', hpos', -⟩ := consume_ok hin (hI.calm.data hpc)
        rw [hpos'] at hcons
        cases hcons
    · obtain ⟨e', he, herr⟩ := lift_error hstep
      cases he
      obtain ⟨h, k, hop, -⟩ := step_noBuffers herr nofun
      cases hop

/-- A file of one block. -/
def oneBlock (disk : Nat × Nat → Block) (k : Nat) (hk : k ≠ 0) : File disk where
  readable := true
  addrs := fun _ => k
  size := Fs.BSIZE
  size_le := by decide
  direct := fun _ _ _ => hk
  indirect := fun _ => hk
  entries := fun j _ hlt => by
    exfalso
    revert hlt
    unfold Fs.NDIRECT Fs.BSIZE
    omega

/-- Every process has a file of one block, each another one. -/
def smallFiles (disk : Nat × Nat → Block) (p : Pid) : File disk :=
  oneBlock disk (100 + p) (by omega)

/-- Two processes have read a byte each, one after the other. -/
def twoReads : List ReadOp :=
  [⟨0, by decide⟩, ⟨1, by decide⟩].flatMap fun p =>
    [.read p 1, .next p, .next p, .next p, .ideintr, .next p, .next p, .next p, .next p]

theorem readers_buffers_two :
    (∃ s, run readStep (opened (smallFiles fun _ _ => 7) fun _ => 0) twoReads = .ok s ∧
      s.ret ⟨1, by decide⟩ = some [7]) ∧
    run readStep (opened (smallFiles fun _ _ => 7) fun _ => 0) twoReads ≠ .error (.stop .noBuffers) :=
  ⟨by decide +kernel, readers_buffers _ _ twoReads (meets_of_meetsB (by decide +kernel))⟩

/-- 31 processes call `read` and go through `bget`; the last one finds no buffer. -/
theorem readers_panic :
    run readStep (opened (smallFiles fun _ _ => 0) fun _ => 0)
      (((List.finRange NPROC).take 31).flatMap fun p => [.read p 1, .next p]) =
        .error (.stop .noBuffers) := by
  decide +kernel

end Laboratorio.Xv6.Bio
