import Laboratorio.Xv6.Fs.Dir
import Laboratorio.Xv6.Proc
import Laboratorio.Xv6.Vm

/-!
# System calls: `xv6/file.c`, `sysfile.c`, `pipe.c`, `exec.c`, `proc.c` and `main.c`

One system call after another, each to its end, by any process that is not a zombie.  The calls work
on the pages of `Xv6/Vm.lean` and the file system of `Xv6/Fs/`, which `mem` and `fs` lift.

What a call fetches from the memory of its process is an argument here, `none` where the fetch fails.
A pipe is the page it lives in; of its fields only those that decide when it is freed are kept, the
bytes in it are those of `Xv6/Pipe.lean`.  A `wait` that has to sleep ends later, so it is not a
call that is complete: `Stop.sleeps`.

The functions that search a table are irreducible, so that no search is unfolded by accident.
-/

namespace Laboratorio.Xv6.Kernel

open Laboratorio.Lib Bytes Function
open Vm (Page Mem Geometry PGSIZE PGROUNDUP)
open Fs (Ino Path Superblock)

def MAXARG : Nat := 32

/-- `NOFILE = 16`. -/
abbrev Fd := Fin 16

scoped instance neZero_16 : NeZero 16 := ⟨by decide⟩

/-- `NFILE = 100`: a `struct file *`. -/
abbrev FileIx := Fin 100

inductive FdType where
  | FD_NONE
  | FD_PIPE
  | FD_INODE
  deriving DecidableEq, Repr

structure File where
  type : FdType
  ref : Nat
  readable : Bool
  writable : Bool
  pipe : Page
  ip : Ino
  off : Nat

structure Pipe where
  readopen : Bool
  writeopen : Bool
  deriving DecidableEq, Repr

structure Proc where
  state : ProcState
  pid : Int
  parent : Option Slot
  pgdir : Page
  kstack : Page
  sz : Nat
  ofile : Fd → Option FileIx
  cwd : Option Ino
  /-- `tf->eip`, `tf->esp`. -/
  eip : Nat
  esp : Nat
  name : List UInt8

inductive Stop where
  | vm (e : Vm.Stop)
  | fs (e : Fs.Panic)
  | filedup
  | fileclose
  | fileread
  | filewrite
  | initExiting
  /-- `myproc()->cwd` is 0. -/
  | nullCwd
  /-- A page is missing while the kernel boots. -/
  | boot
  | sleeps
  /-- There is no such process to make a call. -/
  | noProcess
  deriving DecidableEq, Repr

structure State where
  mem : Mem
  fs : Fs.State
  proc : Slot → Proc
  nextpid : Int
  initproc : Slot
  file : FileIx → File
  /-- The pipe in a page. -/
  pipe : Page → Pipe
  kpgdir : Page
  /-- The stacks of the other processors. -/
  bootstacks : List Page

abbrev K := StateT State (Except Stop)

variable {α : Type}

def mem (x : Vm.M α) : K α := zoom State.mem (fun m s => { s with mem := m }) Stop.vm x

def fs (x : Fs.F α) : K α := zoom State.fs (fun f s => { s with fs := f }) Stop.fs x

def modProc (i : Slot) (f : Proc → Proc) : K Unit :=
  modify fun s => { s with proc := update s.proc i (f (s.proc i)) }

def modFile (f : FileIx) (h : File → File) : K Unit :=
  modify fun s => { s with file := update s.file f (h (s.file f)) }

def setPipe (p : Page) (q : Pipe) : K Unit :=
  modify fun s => { s with pipe := update s.pipe p q }

/-- `myproc()->cwd`. -/
def getCwd (i : Slot) : K Ino := do
  let s ← get
  match (s.proc i).cwd with
  | some ip => pure ip
  | none => throw .nullCwd

variable (g : Geometry) (sb : Superblock)

/-! ## Open files -/

@[irreducible] def filealloc : K (Option FileIx) := do
  let s ← get
  match Fin.find? fun f => decide ((s.file f).ref = 0) with
  | none => pure none
  | some f => do
    modFile f fun h => { h with ref := 1 }
    pure (some f)

def filedup (f : FileIx) : K Unit := do
  let s ← get
  if (s.file f).ref < 1 then throw .filedup
  else modFile f fun h => { h with ref := h.ref + 1 }

def pipeclose (p : Page) (writable : Bool) : K Unit := do
  let s ← get
  let q : Pipe := if writable then { s.pipe p with writeopen := false }
    else { s.pipe p with readopen := false }
  setPipe p q
  if q.readopen = false ∧ q.writeopen = false then mem (Vm.kfree g p) else pure ()

def fileclose (f : FileIx) : K Unit := do
  let s ← get
  let ff := s.file f
  if ff.ref < 1 then throw .fileclose
  else if ff.ref - 1 > 0 then modFile f fun h => { h with ref := h.ref - 1 }
  else do
    modFile f fun h => { h with ref := 0, type := .FD_NONE }
    match ff.type with
    | .FD_NONE => pure ()
    | .FD_PIPE => pipeclose g ff.pipe ff.writable
    | .FD_INODE => do
      fs Fs.begin_op
      fs (Fs.iput ff.ip)
      fs Fs.end_op

/-- The descriptor, or `none` for -1. -/
@[irreducible] def fdalloc (i : Slot) (f : FileIx) : K (Option Fd) := do
  let s ← get
  match Fin.find? fun fd => ((s.proc i).ofile fd).isNone with
  | none => pure none
  | some fd => do
    modProc i fun p => { p with ofile := update p.ofile fd (some f) }
    pure (some fd)

def argfd (i : Slot) (fd : Int) : K (Option (Fd × FileIx)) := do
  let s ← get
  match indice 16 fd with
  | none => pure none
  | some fd =>
    match (s.proc i).ofile fd with
    | none => pure none
    | some f => pure (some (fd, f))

def sys_dup (i : Slot) (fd : Int) : K Int := do
  match ← argfd i fd with
  | none => pure (-1)
  | some (_, f) =>
    match ← fdalloc i f with
    | none => pure (-1)
    | some fd => do
      filedup f
      pure fd

def sys_close (i : Slot) (fd : Int) : K Int := do
  match ← argfd i fd with
  | none => pure (-1)
  | some (fd, f) => do
    modProc i fun p => { p with ofile := update p.ofile fd none }
    fileclose g f
    pure 0

/-! ## Pipes -/

/-- The two files, or `none` for -1. -/
def pipealloc : K (Option (FileIx × FileIx)) := do
  match ← filealloc with
  | none => pure none
  | some f0 =>
    match ← filealloc with
    | none => do
      fileclose g f0
      pure none
    | some f1 =>
      match ← mem Vm.kalloc with
      | none => do
        fileclose g f0
        fileclose g f1
        pure none
      | some p => do
        setPipe p ⟨true, true⟩
        modFile f0 fun h => { h with type := .FD_PIPE, readable := true, writable := false, pipe := p }
        modFile f1 fun h => { h with type := .FD_PIPE, readable := false, writable := true, pipe := p }
        pure (some (f0, f1))

/-- `user` says whether the array for the descriptors is in the memory of the process. -/
def sys_pipe (i : Slot) (user : Bool) : K Int := do
  if user then
    match ← pipealloc g with
    | none => pure (-1)
    | some (rf, wf) =>
      match ← fdalloc i rf with
      | none => do
        fileclose g rf
        fileclose g wf
        pure (-1)
      | some fd0 =>
        match ← fdalloc i wf with
        | none => do
          modProc i fun p => { p with ofile := update p.ofile fd0 none }
          fileclose g rf
          fileclose g wf
          pure (-1)
        | some _ => pure 0
  else pure (-1)

/-! ## Files by name -/

def O_RDONLY : Nat := 0x000

def O_WRONLY : Nat := 0x001

def O_RDWR : Nat := 0x002

def O_CREATE : Nat := 0x200

/-- The first half of `sys_open`: the inode, locked. -/
def openInode (cwd : Ino) (path : Path) (omode : Nat) : Fs.F (Option Ino) :=
  if omode &&& O_CREATE ≠ 0 then Fs.create sb cwd path .T_FILE 0 0
  else do
    match ← Fs.namei sb cwd path with
    | none => pure none
    | some ip => do
      Fs.ilock ip
      let s ← get
      if (s.inode ip).copy.type = .T_DIR ∧ omode ≠ O_RDONLY then do
        Fs.iunlockput ip
        pure none
      else pure (some ip)

/-- `sys_open` when there is no free file or descriptor. -/
def openBad (ip : Ino) : K Int := do
  fs (Fs.iunlockput ip)
  fs Fs.end_op
  pure (-1)

def sys_open (i : Slot) (path : Option Path) (omode : Nat) : K Int := do
  match path with
  | none => pure (-1)
  | some path => do
    let cwd ← getCwd i
    fs Fs.begin_op
    match ← fs (openInode sb cwd path omode) with
    | none => do
      fs Fs.end_op
      pure (-1)
    | some ip =>
      match ← filealloc with
      | none => openBad ip
      | some f =>
        match ← fdalloc i f with
        | none => do
          fileclose g f
          openBad ip
        | some fd => do
          fs (Fs.iunlock ip)
          fs Fs.end_op
          modFile f fun h => { h with
            type := .FD_INODE
            ip := ip
            off := 0
            readable := decide (omode &&& O_WRONLY = 0)
            writable := decide (omode &&& O_WRONLY ≠ 0 ∨ omode &&& O_RDWR ≠ 0) }
          pure fd

def made (r : Option Ino) : K Int := do
  match r with
  | none => do
    fs Fs.end_op
    pure (-1)
  | some ip => do
    fs (Fs.iunlockput ip)
    fs Fs.end_op
    pure 0

/-- `sys_mkdir` and `sys_mknod`, which differ in what they ask `create` for. -/
def make (i : Slot) (path : Option Path) (type : Fs.FType) (major minor : Int) : K Int := do
  fs Fs.begin_op
  match path with
  | none => made none
  | some path => do
    let cwd ← getCwd i
    let r ← fs (Fs.create sb cwd path type major minor)
    made r

def sys_mkdir (i : Slot) (path : Option Path) : K Int := make sb i path .T_DIR 0 0

/-- The device numbers are passed on as `short`s. -/
def sys_mknod (i : Slot) (path : Option Path) (major minor : Int) : K Int :=
  make sb i path .T_DEV (major.bmod (2 ^ 16)) (minor.bmod (2 ^ 16))

def sys_chdir (i : Slot) (path : Option Path) : K Int := do
  fs Fs.begin_op
  match path with
  | none => do
    fs Fs.end_op
    pure (-1)
  | some path => do
    let cwd ← getCwd i
    match ← fs (Fs.namei sb cwd path) with
    | none => do
      fs Fs.end_op
      pure (-1)
    | some ip => do
      fs (Fs.ilock ip)
      let s ← get
      if (s.fs.inode ip).copy.type ≠ .T_DIR then do
        fs (Fs.iunlockput ip)
        fs Fs.end_op
        pure (-1)
      else do
        fs (Fs.iunlock ip)
        fs (Fs.iput cwd)
        fs Fs.end_op
        modProc i fun p => { p with cwd := some ip }
        pure 0

def sys_link (i : Slot) (paths : Option (Path × Path)) : K Int := do
  match paths with
  | none => pure (-1)
  | some (old, new) => do
    let cwd ← getCwd i
    let ok ← fs (Fs.link sb cwd old new)
    pure (if ok then 0 else -1)

def sys_unlink (i : Slot) (path : Option Path) : K Int := do
  match path with
  | none => pure (-1)
  | some path => do
    let cwd ← getCwd i
    let ok ← fs (Fs.unlink sb cwd path)
    pure (if ok then 0 else -1)

/-! ## Reading and writing -/

/-- `fileread` of an inode. -/
def readFile (f : FileIx) (n : Nat) : K Int := do
  let s ← get
  let ff := s.file f
  fs (Fs.ilock ff.ip)
  match ← fs (Fs.readi sb ff.ip ff.off n) with
  | none => do
    fs (Fs.iunlock ff.ip)
    pure (-1)
  | some bytes => do
    modFile f fun h => { h with off := (h.off + bytes.length) % 2 ^ 32 }
    fs (Fs.iunlock ff.ip)
    pure bytes.length

/-- What happens to the bytes of a pipe is in `Xv6/Pipe.lean`; here the call changes nothing. -/
def fileread (f : FileIx) (n : Nat) : K Int := do
  let s ← get
  if (s.file f).readable then
    match (s.file f).type with
    | .FD_PIPE => pure 0
    | .FD_INODE => readFile sb f n
    | .FD_NONE => throw .fileread
  else pure (-1)

/-- `max` in `filewrite`. -/
def chunk : Nat := (10 - 1 - 1 - 2) / 2 * 512

/-- One turn of the loop of `filewrite`: whether all of `src` was written, or `none` for -1. -/
def writeChunk (f : FileIx) (src : List UInt8) : K (Option Nat) := do
  let s ← get
  let ff := s.file f
  fs Fs.begin_op
  fs (Fs.ilock ff.ip)
  match ← fs (Fs.writei sb ff.ip src ff.off) with
  | none => do
    fs (Fs.iunlock ff.ip)
    fs Fs.end_op
    pure none
  | some r => do
    modFile f fun h => { h with off := (h.off + r) % 2 ^ 32 }
    fs (Fs.iunlock ff.ip)
    fs Fs.end_op
    pure (some r)

/-- The loop of `filewrite`; every turn writes a byte of `src` at least. -/
def writeFile (f : FileIx) : (turns : Nat) → List UInt8 → K Bool
  | 0, _ => pure true
  | turns + 1, src =>
    if src = [] then pure true
    else do
      match ← writeChunk sb f (src.take chunk) with
      | none => pure false
      | some r =>
        if r = (src.take chunk).length then writeFile f turns (src.drop chunk)
        else throw (.fs .shortFilewrite)

def filewrite (f : FileIx) (src : List UInt8) : K Int := do
  let s ← get
  if (s.file f).writable then
    match (s.file f).type with
    | .FD_PIPE => pure src.length
    | .FD_INODE => do
      let ok ← writeFile sb f src.length src
      pure (if ok then src.length else -1)
    | .FD_NONE => throw .filewrite
  else pure (-1)

def sys_read (i : Slot) (fd : Int) (n : Option Nat) : K Int := do
  match ← argfd i fd with
  | none => pure (-1)
  | some (_, f) =>
    match n with
    | none => pure (-1)
    | some n => fileread sb f n

def sys_write (i : Slot) (fd : Int) (src : Option (List UInt8)) : K Int := do
  match ← argfd i fd with
  | none => pure (-1)
  | some (_, f) =>
    match src with
    | none => pure (-1)
    | some src => filewrite sb f src

/-! ## Processes -/

@[irreducible] def allocproc : K (Option Slot) := do
  let s ← get
  match Fin.find? fun i => decide ((s.proc i).state = .UNUSED) with
  | none => pure none
  | some i => do
    modProc i fun p => { p with state := .EMBRYO, pid := s.nextpid }
    modify fun s => { s with nextpid := wrap32 (s.nextpid + 1) }
    match ← mem Vm.kalloc with
    | none => do
      modProc i fun p => { p with kstack := 0, state := .UNUSED }
      pure none
    | some k => do
      modProc i fun p => { p with kstack := k }
      pure (some i)

/-- `sizeof(p->name)`. -/
def NAMELEN : Nat := 16

/-- `safestrcpy(p->name, s, sizeof(p->name))`, without the zero at the end. -/
def safestrcpy (s : List UInt8) : List UInt8 := (s.takeWhile (· ≠ 0)).take (NAMELEN - 1)

/-- The loop of `fork` over the open files. -/
def dupLoop (i np : Slot) : List Fd → K Unit
  | [] => pure ()
  | fd :: fds => do
    let s ← get
    match (s.proc i).ofile fd with
    | none => dupLoop i np fds
    | some f => do
      filedup f
      modProc np fun p => { p with ofile := update p.ofile fd (some f) }
      dupLoop i np fds

def fork (i : Slot) : K Int := do
  let cwd ← getCwd i
  match ← allocproc with
  | none => pure (-1)
  | some np => do
    let s ← get
    match ← mem (Vm.copyuvm g (s.proc i).pgdir (s.proc i).sz) with
    | none => do
      mem (Vm.kfree g (s.proc np).kstack)
      modProc np fun p => { p with pgdir := 0, kstack := 0, state := .UNUSED }
      pure (-1)
    | some d => do
      modProc np fun p => { p with
        pgdir := d, sz := (s.proc i).sz, parent := some i, eip := (s.proc i).eip
        esp := (s.proc i).esp }
      dupLoop i np (List.finRange 16)
      let ip ← fs (Fs.idup cwd)
      modProc np fun p => { p with
        cwd := some ip, name := safestrcpy (s.proc i).name, state := .RUNNABLE }
      pure (s.proc np).pid

/-- The loop of `exit` over the open files. -/
def closeLoop (i : Slot) : List Fd → K Unit
  | [] => pure ()
  | fd :: fds => do
    let s ← get
    match (s.proc i).ofile fd with
    | none => closeLoop i fds
    | some f => do
      fileclose g f
      modProc i fun p => { p with ofile := update p.ofile fd none }
      closeLoop i fds

def exit (i : Slot) : K Unit := do
  let s ← get
  if i = s.initproc then throw .initExiting
  else do
    closeLoop g i (List.finRange 16)
    let cwd ← getCwd i
    fs Fs.begin_op
    fs (Fs.iput cwd)
    fs Fs.end_op
    modProc i fun p => { p with cwd := none }
    modify fun s => { s with proc := fun j =>
      if (s.proc j).parent = some i then { s.proc j with parent := some s.initproc } else s.proc j }
    modProc i fun p => { p with state := .ZOMBIE }

@[irreducible] def wait (i : Slot) : K Int := do
  let s ← get
  match Fin.find? fun j => decide ((s.proc j).parent = some i ∧ (s.proc j).state = .ZOMBIE) with
  | some j => do
    mem (Vm.kfree g (s.proc j).kstack)
    mem (Vm.freevm g (s.proc j).pgdir)
    modProc j fun p => { p with kstack := 0, pid := 0, parent := none, name := [], state := .UNUSED }
    pure (s.proc j).pid
  | none =>
    match Fin.find? fun j => decide ((s.proc j).parent = some i) with
    | none => pure (-1)
    | some _ => throw .sleeps

/-- False if it returns -1. -/
def growproc (i : Slot) (n : Int) : K Bool := do
  let s ← get
  let p := s.proc i
  if n = 0 then pure true
  else do
    let newsz := ((p.sz + n) % 2 ^ 32).toNat
    let sz ← mem (if 0 < n then Vm.allocuvm g p.pgdir p.sz newsz else Vm.deallocuvm g p.pgdir p.sz newsz)
    if sz = 0 then pure false
    else do
      modProc i fun p => { p with sz := sz }
      pure true

def sys_sbrk (i : Slot) (n : Int) : K Int := do
  let s ← get
  let ok ← growproc g i n
  pure (if ok then (s.proc i).sz else -1)

def NPDENTRIES : Nat := 1024

def NPTENTRIES : Nat := 1024

/-- The two loops over the page tables that the directory has. -/
def sys_pgcnt (i : Slot) : K Int := do
  let s ← get
  let pgdir := (s.proc i).pgdir
  pure ((List.range NPDENTRIES).foldl (fun cnt k =>
    let pde := s.mem.page pgdir k
    if pde.P then
      (List.range NPTENTRIES).foldl (fun cnt j =>
        if (s.mem.page pde.ppn j).P ∧ (s.mem.page pde.ppn j).U then cnt + 1 else cnt) cnt
    else cnt) 0)

/-! ## `exec` -/

/-- The field of `n` bytes at `off` of a C structure. -/
def field (bytes : List UInt8) (off n : Nat) : Nat := ofBytes ((bytes.drop off).take n)

def ELF_MAGIC : Nat := 0x464C457F

def ELF_PROG_LOAD : Nat := 1

/-- `sizeof(struct elfhdr)`. -/
def ELFHDR : Nat := 52

/-- `sizeof(struct proghdr)`. -/
def PROGHDR : Nat := 32

/-- The loop of `loaduvm`, with at most `n` turns to go; false if it returns -1. -/
def loadPages (pgdir : Page) (ip : Ino) (addr offset sz : Nat) : (n i : Nat) → K Bool
  | 0, _ => pure true
  | n + 1, i =>
    if i < sz then do
      match ← mem (Vm.walkpgdir pgdir (addr + i) false) with
      | none => throw (.vm .loaduvm)
      | some (t, j) => do
        let s ← get
        let pa := (s.mem.page t j).ppn
        let m := if sz - i < PGSIZE then sz - i else PGSIZE
        match ← fs (Fs.readi sb ip ((offset + i) % 2 ^ 32) m) with
        | none => pure false
        | some bytes => do
          mem (Vm.memmove pa 0 bytes)
          if bytes.length = m then loadPages pgdir ip addr offset sz n (i + PGSIZE) else pure false
    else pure true

def loaduvm (pgdir : Page) (ip : Ino) (addr offset sz : Nat) : K Bool :=
  if addr % PGSIZE ≠ 0 then throw (.vm .loaduvmAligned)
  else loadPages sb pgdir ip addr offset sz (sz / PGSIZE + 1) 0

/-- The loop over the program headers, with `n` to go: the size, or `none` for `goto bad`. -/
def loadLoop (pgdir : Page) (ip : Ino) : (n off sz : Nat) → K (Option Nat)
  | 0, _, sz => pure (some sz)
  | n + 1, off, sz => do
    match ← fs (Fs.readi sb ip off PROGHDR) with
    | none => pure none
    | some ph => do
      let type := field ph 0 4
      let offset := field ph 4 4
      let vaddr := field ph 8 4
      let filesz := field ph 16 4
      let memsz := field ph 20 4
      if ph.length ≠ PROGHDR then pure none
      else if type ≠ ELF_PROG_LOAD then loadLoop pgdir ip n ((off + PROGHDR) % 2 ^ 32) sz
      else if memsz < filesz then pure none
      else if (vaddr + memsz) % 2 ^ 32 < vaddr then pure none
      else do
        let sz ← mem (Vm.allocuvm g pgdir sz ((vaddr + memsz) % 2 ^ 32))
        if sz = 0 then pure none
        else if vaddr % PGSIZE ≠ 0 then pure none
        else if ← loaduvm sb pgdir ip vaddr offset filesz then
          loadLoop pgdir ip n ((off + PROGHDR) % 2 ^ 32) sz
        else pure none

/-- `copyout(pgdir, sp, buf, buf.length)`. -/
def push (pgdir : Page) (sp : Nat) (buf : List UInt8) : K Bool :=
  mem (Vm.copyout pgdir (buf.length / PGSIZE + 2) sp buf)

/-- `(sp - len) & ~3`. -/
def alignDown (sp len : Nat) : Nat := (sp + 2 ^ 32 - len % 2 ^ 32) % 2 ^ 32 / 4 * 4

/-- The loop over the argument strings, with the addresses of the strings so far: all of them and
`sp`, or `none` for `goto bad`. -/
def pushArgs (pgdir : Page) : List (List UInt8) → (ustack : List Nat) → (sp : Nat) →
    K (Option (List Nat × Nat))
  | [], ustack, sp => pure (some (ustack, sp))
  | arg :: args, ustack, sp =>
    if ustack.length ≥ MAXARG then pure none
    else do
      let sp := alignDown sp (arg.length + 1)
      if ← push pgdir sp (arg ++ [0]) then pushArgs pgdir args (ustack ++ [sp]) sp else pure none

/-- The bytes of `ustack`: the fake return address, `argc`, `argv`, and the vector itself. -/
def ustackBytes (ustack : List Nat) (sp : Nat) : List UInt8 :=
  let argc := ustack.length
  ([0xffffffff, argc, (sp + 2 ^ 32 - (argc + 1) * 4) % 2 ^ 32] ++ ustack ++ [0]).flatMap (toBytes 4)

/-- The strings and `ustack` on the stack of a program of size `sz`: the new `sp`, or `none` for
`goto bad`. -/
def pushStack (pgdir : Page) (argv : List (List UInt8)) (sz : Nat) : K (Option Nat) := do
  match ← pushArgs pgdir argv [] sz with
  | none => pure none
  | some (ustack, sp) => do
    let sp' := (sp + 2 ^ 32 - (3 + ustack.length + 1) * 4) % 2 ^ 32
    if ← push pgdir sp' (ustackBytes ustack sp) then pure (some sp') else pure none

/-- What follows the last slash. -/
def lastPart (path : Path) : Path := (path.reverse.takeWhile (· ≠ 47)).reverse

/-- `if(pgdir) freevm(pgdir);` -/
def freeDir : Option Page → K Unit
  | none => pure ()
  | some pgdir => mem (Vm.freevm g pgdir)

/-- The label `bad` of `exec`. -/
def execBad (pgdir : Option Page) (ip : Option Ino) : K Int := do
  freeDir g pgdir
  match ip with
  | none => pure (-1)
  | some ip => do
    fs (Fs.iunlockput ip)
    fs Fs.end_op
    pure (-1)

/-- `exec` from the two stack pages on, with the entry point of the program. -/
def execStack (i : Slot) (path : Path) (argv : List (List UInt8)) (entry : Nat) (pgdir : Page)
    (sz : Nat) : K Int := do
  let sz ← mem (Vm.allocuvm g pgdir (PGROUNDUP sz) ((PGROUNDUP sz + 2 * PGSIZE) % 2 ^ 32))
  if sz = 0 then execBad g (some pgdir) none
  else do
    mem (Vm.clearpteu pgdir (sz - 2 * PGSIZE))
    match ← pushStack pgdir argv sz with
    | none => execBad g (some pgdir) none
    | some sp => do
      let s ← get
      modProc i fun p => { p with
        name := safestrcpy (lastPart path), pgdir := pgdir, sz := sz, eip := entry, esp := sp }
      mem (Vm.freevm g (s.proc i).pgdir)
      pure 0

def exec (i : Slot) (path : Path) (argv : List (List UInt8)) : K Int := do
  let cwd ← getCwd i
  fs Fs.begin_op
  match ← fs (Fs.namei sb cwd path) with
  | none => do
    fs Fs.end_op
    pure (-1)
  | some ip => do
    fs (Fs.ilock ip)
    match ← fs (Fs.readi sb ip 0 ELFHDR) with
    | none => execBad g none (some ip)
    | some elf =>
      if elf.length ≠ ELFHDR ∨ field elf 0 4 ≠ ELF_MAGIC then execBad g none (some ip)
      else
        match ← mem (Vm.setupkvm g) with
        | none => execBad g none (some ip)
        | some pgdir =>
          match ← loadLoop g sb pgdir ip (field elf 44 2) (field elf 28 4) 0 with
          | none => execBad g (some pgdir) (some ip)
          | some sz => do
            fs (Fs.iunlockput ip)
            fs Fs.end_op
            execStack g i path argv (field elf 24 4) pgdir sz

def sys_exec (i : Slot) (args : Option (Path × List (List UInt8))) : K Int := do
  match args with
  | none => pure (-1)
  | some (path, argv) => if argv.length ≥ MAXARG then pure (-1) else exec g sb i path argv

/-! ## Runs -/

inductive Call where
  | fork
  | exit
  | wait
  | sbrk (n : Int)
  | exec (args : Option (Path × List (List UInt8)))
  | pipe (user : Bool)
  | dup (fd : Int)
  | close (fd : Int)
  | read (fd : Int) (n : Option Nat)
  | write (fd : Int) (src : Option (List UInt8))
  | opens (path : Option Path) (omode : Nat)
  | mkdir (path : Option Path)
  | mknod (path : Option Path) (major minor : Int)
  | chdir (path : Option Path)
  | link (paths : Option (Path × Path))
  | unlink (path : Option Path)

/-- The call `c` of process `i`, and what it returns. -/
def syscall (i : Slot) : Call → K Int
  | .fork => fork g i
  | .exit => do
    exit g i
    pure 0
  | .wait => wait g i
  | .sbrk n => sys_sbrk g i n
  | .exec args => sys_exec g sb i args
  | .pipe user => sys_pipe g i user
  | .dup fd => sys_dup i fd
  | .close fd => sys_close g i fd
  | .read fd n => sys_read sb i fd n
  | .write fd src => sys_write sb i fd src
  | .opens path omode => sys_open g sb i path omode
  | .mkdir path => sys_mkdir sb i path
  | .mknod path major minor => sys_mknod sb i path major minor
  | .chdir path => sys_chdir sb i path
  | .link paths => sys_link sb i paths
  | .unlink path => sys_unlink sb i path

/-- A call by a process that exists and has not exited. -/
def call (c : Slot × Call) : K Int := do
  let s ← get
  if (s.proc c.1).state = .RUNNABLE then syscall g sb c.1 c.2 else throw .noProcess

/-- `freerange`, for the pages from `p` on. -/
def freerange : (n : Nat) → Page → Vm.M Unit
  | 0, _ => pure ()
  | n + 1, p => do
    Vm.kfree g p
    freerange n (p + 1)

/-- The stacks of `n` other processors. -/
def startothers : (n : Nat) → K Unit
  | 0 => pure ()
  | n + 1 => do
    match ← mem Vm.kalloc with
    | none => throw .boot
    | some stack => do
      modify fun s => { s with bootstacks := stack :: s.bootstacks }
      startothers n

def kvmalloc : K Unit := do
  match ← mem (Vm.setupkvm g) with
  | none => throw .boot
  | some d => modify fun s => { s with kpgdir := d }

/-- `inituvm` checks neither of its two allocations.  The bytes of `initcode` are left out. -/
def inituvm (pgdir : Page) : K Unit := do
  match ← mem Vm.kalloc with
  | none => throw .boot
  | some p => do
    mem (Vm.zero p)
    if ← mem (Vm.mappages pgdir 0 PGSIZE p true true 0) then pure () else throw .boot

def userinit : K Unit := do
  match ← allocproc with
  | none => throw .boot
  | some i => do
    modify fun s => { s with initproc := i }
    match ← mem (Vm.setupkvm g) with
    | none => throw .boot
    | some pgdir => do
      modProc i fun p => { p with pgdir := pgdir }
      inituvm pgdir
      let ip ← fs (Fs.iget Fs.ROOTDEV Fs.ROOTINO)
      modProc i fun p => { p with
        sz := PGSIZE, esp := PGSIZE, eip := 0, name := "initcode".toList.map fun c => .ofNat c.toNat
        cwd := some ip
        state := .RUNNABLE }

/-- `main` on a machine with `ncpu` processors. -/
def main (ncpu : Nat) : K Unit := do
  mem (freerange g (g.low - g.first) g.first)
  kvmalloc g
  startothers (ncpu - 1)
  mem (freerange g (g.top - g.low) g.low)
  userinit g

/-- The kernel's data before `main`, with any file system on the disk and any pattern of failures
of `kalloc`.  Nothing is in the inode cache. -/
def start (disk : Fs.State) (deny : List Bool) : State where
  mem := ⟨[], fun _ _ => .zero, fun _ _ => 0, deny⟩
  fs := { disk with
    inode := fun _ => ⟨0, 0, 0, false, false, .zero⟩
    begun := 0
    ended := 0
    ops := [] }
  proc := fun _ => ⟨.UNUSED, 0, none, 0, 0, 0, fun _ => none, none, 0, 0, []⟩
  nextpid := 1
  initproc := 0
  file := fun _ => ⟨.FD_NONE, 0, false, false, 0, 0, 0⟩
  pipe := fun _ => ⟨false, false⟩
  kpgdir := 0
  bootstacks := []

/-- The calls of a run, one after the other. -/
def calls : List (Slot × Call) → K Unit
  | [] => pure ()
  | c :: cs => do
    let _ ← call g sb c
    calls cs

end Laboratorio.Xv6.Kernel
