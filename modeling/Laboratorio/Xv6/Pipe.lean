import Laboratorio.Lib.Ring
import Laboratorio.Lib.Runs

/-!
# The pipes of `xv6/pipe.c`

Any number of processes call `pipewrite` and `piperead` on one pipe.  A process that has started a
call has a program counter, which stands before its next step; the steps between `acquire` and
`release` (or `sleep`) are made while it holds `p->lock`.  `sleep` gives the lock back and puts the
process to sleep in one step, `wakeup` and `kill` make it compete for the lock again.

The counters `nread` and `nwrite` are unsigned 32-bit words and wrap.  `State.stored` lists the
bytes that writes have put into the ring, `State.returned` the bytes that finished reads have
returned, both in lock order.

* `Inv` — the two lists and the ring are in step with the wrapping counters.
-/

namespace Laboratorio.Xv6.Pipes

open Laboratorio.Lib Function

def PIPESIZE : Nat := 512

/-- `struct pipe` without its lock. -/
structure Pipe where
  data : Nat → UInt8
  nread : UInt32
  nwrite : UInt32
  readopen : Bool
  writeopen : Bool

/-- `p->nwrite == p->nread + PIPESIZE` -/
def Pipe.full (p : Pipe) : Prop := p.nwrite = p.nread + UInt32.ofNat PIPESIZE

/-- `p->nread == p->nwrite` -/
def Pipe.empty (p : Pipe) : Prop := p.nread = p.nwrite

instance (p : Pipe) : Decidable p.full := inferInstanceAs (Decidable (_ = _))

instance (p : Pipe) : Decidable p.empty := inferInstanceAs (Decidable (_ = _))

/-- `p->data[p->nwrite++ % PIPESIZE] = b` -/
def Pipe.store (p : Pipe) (b : UInt8) : Pipe :=
  { p with
    data := update p.data (p.nwrite.toNat % PIPESIZE) b
    nwrite := p.nwrite + 1 }

/-- `p->data[p->nread++ % PIPESIZE]` -/
def Pipe.fetch (p : Pipe) : UInt8 × Pipe :=
  (p.data (p.nread.toNat % PIPESIZE), { p with nread := p.nread + 1 })

/-- The addresses that processes sleep on: `&p->nread` and `&p->nwrite`. -/
inductive Chan where
  | nread
  | nwrite
  deriving DecidableEq, Repr

/-- Where a process stands in `pipewrite(p, addr, n)`. -/
inductive WriteAt where
  /-- Before `acquire`, at the start of the call or at the end of `sleep`. -/
  | acquire
  /-- At the tests of the two loops. -/
  | loop
  /-- In the body of the inner loop. -/
  | full
  | asleep
  /-- After the loop. -/
  | wake

/-- Where a process stands in `piperead(p, addr, n)`; `got` is what it has copied to `addr`. -/
inductive ReadAt where
  | acquire
  | test
  | empty
  | asleep
  | copy (got : List UInt8)
  | wake (got : List UInt8)

inductive Pc where
  /-- In none of the two functions. -/
  | out
  | write (addr : Nat → UInt8) (n : Int) (i : Nat) (pos : WriteAt)
  | read (n : Int) (pos : ReadAt)

abbrev Pid := Nat

structure State where
  pipe : Pipe
  lock : Option Pid
  pc : Pid → Pc
  killed : Pid → Bool
  /-- The value that the last call of a process has returned. -/
  ret : Pid → Option Int
  stored : List UInt8
  returned : List UInt8

/-- Why a step is not possible. -/
inductive Stop where
  /-- The lock is held by another process. -/
  | blocked
  | asleep
  /-- The process is inside a call already, or in none. -/
  | busy
  | idle
  /-- Both ends are closed: the page of the pipe is given to `kfree`. -/
  | freed
  deriving DecidableEq, Repr

/-- `pipealloc`: the page comes from `kalloc` with whatever it held before. -/
def pipealloc (page : Nat → UInt8) : State where
  pipe := ⟨page, 0, 0, true, true⟩
  lock := none
  pc := fun _ => .out
  killed := fun _ => false
  ret := fun _ => none
  stored := []
  returned := []

def State.goto (s : State) (p : Pid) (pc : Pc) : State :=
  { s with pc := update s.pc p pc }

/-- Release the lock and return `r`. -/
def State.leave (s : State) (p : Pid) (r : Int) : State :=
  { s.goto p .out with lock := none, ret := update s.ret p (some r) }

/-- What `wakeup(chan)` does to one process. -/
def Pc.woken (chan : Chan) : Pc → Pc
  | .write addr n i .asleep => .write addr n i (if chan = .nwrite then .acquire else .asleep)
  | .read n .asleep => .read n (if chan = .nread then .acquire else .asleep)
  | pc => pc

def wakeup (chan : Chan) (s : State) : State := { s with pc := fun p => (s.pc p).woken chan }

/-- `acquire(&p->lock)`, then go on at `pc`. -/
def acquire (p : Pid) (pc : Pc) (s : State) : Except Stop State :=
  if s.lock = none then .ok { s.goto p pc with lock := some p } else .error .blocked

/-- The next step of a process inside `pipewrite(p, addr, n)`. -/
def pipewrite (p : Pid) (addr : Nat → UInt8) (n : Int) (i : Nat) (s : State) :
    WriteAt → Except Stop State
  | .acquire => acquire p (.write addr n i .loop) s
  | .loop =>
    if (i : Int) < n then
      if s.pipe.full then .ok (s.goto p (.write addr n i .full))
      else .ok { s.goto p (.write addr n (i + 1) .loop) with
        pipe := s.pipe.store (addr i), stored := s.stored ++ [addr i] }
    else .ok (s.goto p (.write addr n i .wake))
  | .full =>
    if s.pipe.readopen = false ∨ s.killed p = true then .ok (s.leave p (-1))
    else .ok { (wakeup .nread s).goto p (.write addr n i .asleep) with lock := none }
  | .asleep => .error .asleep
  | .wake => .ok ((wakeup .nread s).leave p n)

/-- The next step of a process inside `piperead(p, addr, n)`. -/
def piperead (p : Pid) (n : Int) (s : State) : ReadAt → Except Stop State
  | .acquire => acquire p (.read n .test) s
  | .test =>
    if s.pipe.empty ∧ s.pipe.writeopen = true then .ok (s.goto p (.read n .empty))
    else .ok (s.goto p (.read n (.copy [])))
  | .empty =>
    if s.killed p = true then .ok (s.leave p (-1))
    else .ok { s.goto p (.read n .asleep) with lock := none }
  | .asleep => .error .asleep
  | .copy got =>
    if (got.length : Int) < n ∧ ¬ s.pipe.empty then
      .ok { s.goto p (.read n (.copy (got ++ [s.pipe.fetch.1]))) with pipe := s.pipe.fetch.2 }
    else .ok (s.goto p (.read n (.wake got)))
  | .wake got =>
    .ok { (wakeup .nwrite s).leave p got.length with returned := s.returned ++ got }

/-- `pipeclose`, for which the lock has to be free. -/
def pipeclose (writable : Bool) (s : State) : Except Stop State :=
  if s.lock ≠ none then .error .blocked
  else
    let s :=
      if writable then { wakeup .nread s with pipe := { s.pipe with writeopen := false } }
      else { wakeup .nwrite s with pipe := { s.pipe with readopen := false } }
    if s.pipe.readopen = false ∧ s.pipe.writeopen = false then .error .freed else .ok s

/-- `kill` of a process: it leaves `sleep` whatever it sleeps on. -/
def kill (p : Pid) (s : State) : State :=
  { s.goto p (((s.pc p).woken .nread).woken .nwrite) with
    killed := update s.killed p true }

inductive Op where
  /-- A process calls one of the two functions. -/
  | pipewrite (p : Pid) (addr : Nat → UInt8) (n : Int)
  | piperead (p : Pid) (n : Int)
  /-- The next step of a process that is inside a call. -/
  | next (p : Pid)
  | pipeclose (writable : Bool)
  | kill (p : Pid)

def step (s : State) : Op → Except Stop State
  | .pipewrite p addr n =>
    match s.pc p with
    | .out => .ok (s.goto p (.write addr n 0 .acquire))
    | _ => .error .busy
  | .piperead p n =>
    match s.pc p with
    | .out => .ok (s.goto p (.read n .acquire))
    | _ => .error .busy
  | .next p =>
    match s.pc p with
    | .out => .error .idle
    | .write addr n i pos => pipewrite p addr n i s pos
    | .read n pos => piperead p n s pos
  | .pipeclose writable => pipeclose writable s
  | .kill p => .ok (kill p s)

/-! ## Wrapping counters -/

theorem pipesize_dvd : PIPESIZE ∣ 2 ^ 32 := by decide

theorem full_iff {p : Pipe} {r w : Nat} (hr : p.nread.toNat = r % 2 ^ 32)
    (hw : p.nwrite.toNat = w % 2 ^ 32) (h1 : r ≤ w) (h2 : w ≤ r + PIPESIZE) :
    p.full ↔ w = r + PIPESIZE := by
  rw [Pipe.full, ← UInt32.toNat_inj, count_add _ hr, hw]
  unfold PIPESIZE at h2 ⊢
  omega

theorem empty_iff {p : Pipe} {r w : Nat} (hr : p.nread.toNat = r % 2 ^ 32)
    (hw : p.nwrite.toNat = w % 2 ^ 32) (h1 : r ≤ w) (h2 : w ≤ r + PIPESIZE) :
    p.empty ↔ w = r := by
  unfold PIPESIZE at h2
  rw [Pipe.empty, counts_eq_iff hr hw h1 (by omega)]
  exact eq_comm

/-! ## Who holds the lock -/

/-- The process is between `acquire` and `release`. -/
def Pc.holds : Pc → Bool
  | .write _ _ _ .loop | .write _ _ _ .full | .write _ _ _ .wake => true
  | .read _ .test | .read _ .empty | .read _ (.copy _) | .read _ (.wake _) => true
  | _ => false

/-- What a reader has copied and not yet returned. -/
def Pc.got : Pc → List UInt8
  | .read _ (.copy got) | .read _ (.wake got) => got
  | _ => []

@[simp] theorem holds_woken (chan : Chan) (pc : Pc) : (pc.woken chan).holds = pc.holds := by
  unfold Pc.woken
  split
  · split <;> rfl
  · split <;> rfl
  · rfl

@[simp] theorem got_woken (chan : Chan) (pc : Pc) : (pc.woken chan).got = pc.got := by
  unfold Pc.woken
  split
  · rfl
  · split <;> rfl
  · rfl

/-- A process that is inside the locked part holds the lock. -/
def LockOk (lock : Option Pid) (pc : Pid → Pc) : Prop := ∀ p, (pc p).holds = true → lock = some p

section LockOk

variable {lock : Option Pid} {pc : Pid → Pc} {p : Pid} {x : Pc}

theorem LockOk.woken (h : LockOk lock pc) (chan : Chan) :
    LockOk lock fun p => (pc p).woken chan :=
  fun p hp => h p (by simpa using hp)

theorem LockOk.same (h : LockOk lock pc) (hx : x.holds = (pc p).holds) :
    LockOk lock (update pc p x) := by
  intro q hq
  rcases eq_or_ne q p with rfl | hne
  · rw [update_self, hx] at hq
    exact h q hq
  · rw [update_of_ne hne] at hq
    exact h q hq

theorem LockOk.enter (h : LockOk none pc) : LockOk (some p) (update pc p x) := by
  intro q hq
  rcases eq_or_ne q p with rfl | hne
  · rfl
  · rw [update_of_ne hne] at hq
    cases h q hq

theorem LockOk.leave (h : LockOk (some p) pc) (hx : x.holds = false) :
    LockOk none (update pc p x) := by
  intro q hq
  rcases eq_or_ne q p with rfl | hne
  · rw [update_self, hx] at hq
    cases hq
  · rw [update_of_ne hne] at hq
    exact absurd (Option.some.inj (h q hq)).symm hne

end LockOk

/-! ## The books of the pipe -/

/-- The counters count the bytes `out` copied from the ring and the bytes `stored` in it, modulo
`2 ^ 32`; the bytes in between are in their cells. -/
structure Books (q : Pipe) (out stored : List UInt8) : Prop where
  nread : q.nread.toNat = out.length % 2 ^ 32
  nwrite : q.nwrite.toNat = stored.length % 2 ^ 32
  copied : out <+: stored
  room : stored.length ≤ out.length + PIPESIZE
  cells : Holds (fun k => stored.getD k 0) PIPESIZE q.data out.length stored.length

section Books

variable {q : Pipe} {out stored : List UInt8}

theorem Books.unread_lt (h : Books q out stored) : stored.length - out.length < 2 ^ 32 := by
  have hroom := h.room
  unfold PIPESIZE at hroom
  omega

theorem Books.full_iff (h : Books q out stored) :
    q.full ↔ stored.length = out.length + PIPESIZE :=
  Pipes.full_iff h.nread h.nwrite h.copied.length_le h.room

theorem Books.empty_iff (h : Books q out stored) : q.empty ↔ stored.length = out.length :=
  Pipes.empty_iff h.nread h.nwrite h.copied.length_le h.room

theorem Books.store (h : Books q out stored) (hfull : ¬ q.full) (b : UInt8) :
    Books (q.store b) out (stored ++ [b]) := by
  have hroom : stored.length < out.length + PIPESIZE := by
    have := h.room
    have := mt h.full_iff.2 hfull
    omega
  refine ⟨h.nread, ?_, h.copied.trans (List.prefix_append _ _), ?_, ?_⟩
  · rw [List.length_append]
    exact count_succ h.nwrite
  · rw [List.length_append]
    exact hroom
  · have hcells : Holds (fun k => (stored ++ [b]).getD k 0) PIPESIZE q.data out.length
        stored.length := by
      refine h.cells.congr fun k _ hk => ?_
      simp [List.getElem?_append_left hk]
    have hlast : (stored ++ [b]).getD stored.length 0 = b := by simp
    rw [List.length_append]
    unfold Pipe.store
    simp only [count_mod pipesize_dvd h.nwrite]
    have := hcells.write hroom
    rwa [hlast] at this

/-- The byte that a reader copies is the oldest one that has not been copied. -/
theorem Books.fetch (h : Books q out stored) (hempty : ¬ q.empty) :
    Books q.fetch.2 (out ++ [q.fetch.1]) stored := by
  obtain ⟨rest, rfl⟩ := h.copied
  cases rest with
  | nil => exact absurd (h.empty_iff.2 (by simp)) hempty
  | cons b rest =>
    have hbyte : q.fetch.1 = b := by
      have := h.cells out.length (Nat.le_refl _) (by simp)
      unfold Pipe.fetch
      simp only [count_mod pipesize_dvd h.nread, this]
      simp
    have hroom := h.room
    have hcells := h.cells.drop
    have hlen : (out ++ [q.fetch.1]).length = out.length + 1 := by simp
    refine ⟨?_, h.nwrite, ?_, ?_, ?_⟩
    · rw [hlen]
      exact count_succ h.nread
    · rw [hbyte]
      exact ⟨rest, by simp⟩
    · rw [hlen]
      omega
    · rw [hlen]
      exact hcells

end Books

/-! ## Whole runs -/

/-- What the process that holds the lock has copied and not yet returned. -/
def State.inFlight (s : State) : List UInt8 :=
  match s.lock with
  | some p => (s.pc p).got
  | none => []

/-- The contents of the ring, oldest byte first. -/
def Pipe.contents (q : Pipe) : List UInt8 :=
  (List.range (q.nwrite - q.nread).toNat).map fun k => q.data ((q.nread.toNat + k) % PIPESIZE)

structure Inv (s : State) : Prop where
  lock : LockOk s.lock s.pc
  books : Books s.pipe (s.returned ++ s.inFlight) s.stored

variable {s t : State} {p : Pid}

/-- The invariant does not mention what calls return, who is killed and which ends are open. -/
theorem Inv.of_eq (h : Inv s) (hlock : t.lock = s.lock) (hpc : t.pc = s.pc)
    (hnread : t.pipe.nread = s.pipe.nread) (hnwrite : t.pipe.nwrite = s.pipe.nwrite)
    (hdata : t.pipe.data = s.pipe.data) (hstored : t.stored = s.stored)
    (hreturned : t.returned = s.returned) : Inv t := by
  obtain ⟨h1, h2, h3, h4, h5⟩ := h.books
  have hflight : t.inFlight = s.inFlight := by simp only [State.inFlight, hlock, hpc]
  refine ⟨hlock ▸ hpc ▸ h.lock, ?_⟩
  rw [hflight, hstored, hreturned]
  exact ⟨hnread ▸ h1, hnwrite ▸ h2, h3, h4, hdata ▸ h5⟩

theorem inFlight_goto {x : Pc} (hx : x.got = (s.pc p).got) : (s.goto p x).inFlight = s.inFlight := by
  unfold State.inFlight State.goto
  cases s.lock with
  | none => rfl
  | some q =>
    rcases eq_or_ne q p with rfl | hne
    · simp only [update_self, hx]
    · simp only [update_of_ne hne]

theorem Inv.wakeup (h : Inv s) (chan : Chan) : Inv (wakeup chan s) := by
  refine ⟨h.lock.woken chan, ?_⟩
  have hflight : (Pipes.wakeup chan s).inFlight = s.inFlight := by
    unfold State.inFlight Pipes.wakeup
    cases s.lock <;> simp
  rw [hflight]
  exact h.books

theorem Inv.goto {x : Pc} (h : Inv s) (hx : x.holds = (s.pc p).holds)
    (hgot : x.got = (s.pc p).got) : Inv (s.goto p x) := by
  refine ⟨h.lock.same hx, ?_⟩
  rw [inFlight_goto hgot]
  exact h.books

theorem Inv.acquire {x : Pc} (h : Inv s) (hx : x.got = []) (ht : acquire p x s = .ok t) :
    Inv t := by
  unfold Pipes.acquire at ht
  split at ht
  · rename_i hfree
    cases ht
    have hlock := h.lock
    rw [hfree] at hlock
    refine ⟨hlock.enter, ?_⟩
    have hbooks := h.books
    simpa [State.inFlight, State.goto, hfree, hx] using hbooks
  · cases ht

/-- The holder of the lock gives it back; what it has copied is returned. -/
theorem Inv.unlock {x : Pc} (h : Inv s) (hme : s.lock = some p) (hx : x.holds = false) :
    Inv { s.goto p x with lock := none, returned := s.returned ++ (s.pc p).got } := by
  refine ⟨(hme ▸ h.lock).leave hx, ?_⟩
  have hbooks := h.books
  simpa [State.inFlight, State.goto, hme] using hbooks

theorem Inv.unlock_nothing {x : Pc} (h : Inv s) (hme : s.lock = some p)
    (hgot : (s.pc p).got = []) (hx : x.holds = false) :
    Inv { s.goto p x with lock := none } := by
  have := h.unlock hme hx
  rw [hgot, List.append_nil] at this
  exact this

theorem Inv.pipewrite {addr : Nat → UInt8} {n : Int} {i : Nat} {pos : WriteAt} (h : Inv s)
    (hpc : s.pc p = .write addr n i pos) (ht : pipewrite p addr n i s pos = .ok t) : Inv t := by
  have hholds := h.lock p
  have hgot : (s.pc p).got = [] := by rw [hpc]; rfl
  rw [hpc] at hholds
  cases pos with
  | acquire => exact h.acquire rfl ht
  | asleep => cases ht
  | loop =>
    simp only [Pipes.pipewrite] at ht
    split at ht
    · split at ht
      · cases ht
        exact h.goto (by rw [hpc]; rfl) (by rw [hpc]; rfl)
      · rename_i hfull
        cases ht
        refine ⟨h.lock.same (by rw [hpc]; rfl), ?_⟩
        have hflight : (s.goto p (.write addr n (i + 1) .loop)).inFlight = s.inFlight :=
          inFlight_goto (by rw [hpc]; rfl)
        exact hflight ▸ h.books.store hfull (addr i)
    · cases ht
      exact h.goto (by rw [hpc]; rfl) (by rw [hpc]; rfl)
  | full =>
    simp only [Pipes.pipewrite] at ht
    split at ht
    · cases ht
      exact (h.unlock_nothing (x := .out) (hholds rfl) hgot rfl).of_eq rfl rfl rfl rfl rfl rfl rfl
    · cases ht
      exact (h.wakeup .nread).unlock_nothing (hholds rfl) (by simpa [Pipes.wakeup] using hgot) rfl
  | wake =>
    cases ht
    exact ((h.wakeup .nread).unlock_nothing (x := .out) (hholds rfl)
      (by simpa [Pipes.wakeup] using hgot) rfl).of_eq rfl rfl rfl rfl rfl rfl rfl

theorem Inv.piperead {n : Int} {pos : ReadAt} (h : Inv s) (hpc : s.pc p = .read n pos)
    (ht : piperead p n s pos = .ok t) : Inv t := by
  have hholds := h.lock p
  rw [hpc] at hholds
  cases pos with
  | acquire => exact h.acquire rfl ht
  | asleep => cases ht
  | test =>
    simp only [Pipes.piperead] at ht
    split at ht
    · cases ht
      exact h.goto (by rw [hpc]; rfl) (by rw [hpc]; rfl)
    · cases ht
      exact h.goto (by rw [hpc]; rfl) (by rw [hpc]; rfl)
  | empty =>
    have hgot : (s.pc p).got = [] := by rw [hpc]; rfl
    simp only [Pipes.piperead] at ht
    split at ht
    · cases ht
      exact (h.unlock_nothing (x := .out) (hholds rfl) hgot rfl).of_eq rfl rfl rfl rfl rfl rfl rfl
    · cases ht
      exact h.unlock_nothing (hholds rfl) hgot rfl
  | copy got =>
    simp only [Pipes.piperead] at ht
    split at ht
    · rename_i hmore
      cases ht
      refine ⟨h.lock.same (by rw [hpc]; rfl), ?_⟩
      have hbooks := h.books.fetch hmore.2
      simpa [State.inFlight, State.goto, hholds rfl, hpc, Pc.got] using hbooks
    · cases ht
      exact h.goto (by rw [hpc]; rfl) (by rw [hpc]; rfl)
  | wake got =>
    cases ht
    have hgot : ((Pipes.wakeup .nwrite s).pc p).got = got := by
      show ((s.pc p).woken .nwrite).got = got
      rw [got_woken, hpc]
      rfl
    have := (h.wakeup .nwrite).unlock (x := .out) (hholds rfl) rfl
    rw [hgot] at this
    exact this.of_eq rfl rfl rfl rfl rfl rfl rfl

theorem Inv.pipeclose {writable : Bool} (h : Inv s) (ht : pipeclose writable s = .ok t) :
    Inv t := by
  unfold Pipes.pipeclose at ht
  split at ht
  · cases ht
  · cases writable with
    | true =>
      simp only [if_true] at ht
      split at ht
      · cases ht
      · cases ht
        exact (h.wakeup .nread).of_eq rfl rfl rfl rfl rfl rfl rfl
    | false =>
      simp only [Bool.false_eq_true, if_false] at ht
      split at ht
      · cases ht
      · cases ht
        exact (h.wakeup .nwrite).of_eq rfl rfl rfl rfl rfl rfl rfl

theorem Inv.step {op : Op} (h : Inv s) (ht : step s op = .ok t) : Inv t := by
  cases op with
  | pipewrite p addr n =>
    simp only [Pipes.step] at ht
    split at ht
    · rename_i hpc
      cases ht
      exact h.goto (by rw [hpc]; rfl) (by rw [hpc]; rfl)
    · cases ht
  | piperead p n =>
    simp only [Pipes.step] at ht
    split at ht
    · rename_i hpc
      cases ht
      exact h.goto (by rw [hpc]; rfl) (by rw [hpc]; rfl)
    · cases ht
  | next p =>
    simp only [Pipes.step] at ht
    split at ht
    · cases ht
    · rename_i hpc
      exact h.pipewrite hpc ht
    · rename_i hpc
      exact h.piperead hpc ht
  | pipeclose writable => exact h.pipeclose ht
  | kill p =>
    cases ht
    exact (h.goto (p := p) (x := ((s.pc p).woken .nread).woken .nwrite) (by simp)
      (by simp)).of_eq rfl rfl rfl rfl rfl rfl rfl

theorem Inv.pipealloc (page : Nat → UInt8) : Inv (pipealloc page) := by
  refine ⟨nofun, rfl, rfl, List.prefix_refl _, Nat.zero_le _, ?_⟩
  exact fun k _ hk => absurd hk (Nat.not_lt_zero k)

theorem run_inv {page : Nat → UInt8} {ops : List Op}
    (h : run step (pipealloc page) ops = .ok s) : Inv s :=
  run_invariant (P := fun _ s => Inv s) (.pipealloc page)
    (fun _ _ _ _ _ hu ht => hu.step ht) ops s h

/-- What has been stored and not copied is in the ring, in order. -/
theorem Books.contents {q : Pipe} {out stored : List UInt8} (h : Books q out stored) :
    out ++ q.contents = stored := by
  obtain ⟨rest, rfl⟩ := h.copied
  have hlen : (q.nwrite - q.nread).toNat = rest.length := by
    rw [toNat_sub_of_counts h.nread h.nwrite h.copied.length_le h.unread_lt]
    simp
  congr 1
  apply List.ext_getElem
  · simp [Pipe.contents, hlen]
  · intro k hk hk'
    have hcell := h.cells (out.length + k) (Nat.le_add_right _ _) (by simpa using hk')
    have hmod : (q.nread.toNat + k) % PIPESIZE = (out.length + k) % PIPESIZE := by
      rw [Nat.add_mod, count_mod pipesize_dvd h.nread, ← Nat.add_mod]
    simp only [Pipe.contents, List.getElem_map, List.getElem_range, hmod, hcell]
    simp [hk']

/-- **A pipe is a byte stream.**  For any number of writers and readers, any interleaving of their
steps and any number of bytes, at most `PIPESIZE` bytes are unread, and the bytes stored by writes
are those returned by finished reads, followed by those the reader that holds the lock has copied,
followed by the contents of the ring. -/
theorem pipe_stream (page : Nat → UInt8) (ops : List Op) (s : State)
    (h : run step (pipealloc page) ops = .ok s) :
    (s.pipe.nwrite - s.pipe.nread).toNat ≤ PIPESIZE ∧
    s.returned ++ s.inFlight ++ s.pipe.contents = s.stored ∧
    s.returned <+: s.stored := by
  have hbooks := (run_inv h).books
  refine ⟨?_, hbooks.contents, ?_⟩
  · rw [toNat_sub_of_counts hbooks.nread hbooks.nwrite hbooks.copied.length_le hbooks.unread_lt]
    have := hbooks.room
    omega
  · exact (List.prefix_append _ _).trans hbooks.copied

/-- A reader sleeps on the empty pipe, a writer stores two bytes and wakes it, the reader takes
one. -/
theorem pipe_stream_two_bytes :
    ∃ s, run step (pipealloc fun _ => 7)
        ([.piperead 1 1, .pipewrite 2 (fun k => UInt8.ofNat (k + 1)) 2] ++
          List.replicate 3 (.next 1) ++ List.replicate 5 (.next 2) ++
          List.replicate 5 (.next 1)) = .ok s ∧
      s.returned = [1] ∧ s.stored = [1, 2] ∧
      s.returned ++ s.inFlight ++ s.pipe.contents = s.stored := by
  obtain ⟨s, hs, hreturned, hstored⟩ : ∃ s, run step (pipealloc fun _ => 7)
      ([.piperead 1 1, .pipewrite 2 (fun k => UInt8.ofNat (k + 1)) 2] ++
        List.replicate 3 (.next 1) ++ List.replicate 5 (.next 2) ++
        List.replicate 5 (.next 1)) = .ok s ∧
      s.returned = [1] ∧ s.stored = [1, 2] := by decide +kernel
  exact ⟨s, hs, hreturned, hstored, (pipe_stream _ _ s hs).2.1⟩

end Laboratorio.Xv6.Pipes
