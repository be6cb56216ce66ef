import Laboratorio.Xv6.Fs.Inode

/-!
# Directories, paths and the calls that change them

The upper half of `xv6/fs.c`, and those parts of `xv6/sysfile.c` that do not look at file
descriptors.  A path or a name is the bytes of a C string without its terminator; behind the end of a
list of bytes there are zeros.  `cwd` is `myproc()->cwd`.
-/

namespace Laboratorio.Xv6.Fs

open Laboratorio.Lib Bytes

def DIRSIZ : Nat := 14

/-- `sizeof(struct dirent)`. -/
def DIRENT : Nat := 16

abbrev Name := List UInt8

abbrev Path := List UInt8

def slash : UInt8 := 47

def dot : Name := [46]

def dotdot : Name := [46, 46]

/-- The string in a `char` array: what is in front of the first NUL. -/
def cstring (bytes : List UInt8) : List UInt8 := bytes.takeWhile (· ≠ 0)

/-- `de.inum` of the bytes of an entry. -/
def direntInum (bytes : List UInt8) : Nat := ofBytes (bytes.take 2)

/-- `de.name` of the bytes of an entry. -/
def direntName (bytes : List UInt8) : Name := cstring (bytes.drop 2)

/-- `strncmp(p, q, n)`. -/
def strncmp : (p q : List UInt8) → (n : Nat) → Int
  | _, _, 0 => 0
  | p, q, n + 1 =>
    if p.headD 0 ≠ 0 ∧ p.headD 0 = q.headD 0 then strncmp p.tail q.tail n
    else (p.headD 0).toNat - (q.headD 0).toNat

/-- What `strncpy(s, t, n)` leaves in the `n` bytes of `s`. -/
def strncpy : (t : List UInt8) → (n : Nat) → List UInt8
  | _, 0 => []
  | t, n + 1 => if t.headD 0 = 0 then List.replicate (n + 1) 0 else t.headD 0 :: strncpy t.tail n

@[simp] theorem length_strncpy (t : List UInt8) (n : Nat) : (strncpy t n).length = n := by
  induction n generalizing t with
  | zero => rfl
  | succ n ih =>
    unfold strncpy
    split
    · exact List.length_replicate
    · simp [ih]

def namecmp (s t : Name) : Int := strncmp s t DIRSIZ

/-- The bytes of the entry that `dirlink` writes. -/
def dirent (name : Name) (inum : Nat) : List UInt8 := toBytes 2 inum ++ strncpy name DIRSIZ

@[simp] theorem length_dirent (name : Name) (inum : Nat) : (dirent name inum).length = DIRENT := by
  rw [dirent, List.length_append, length_toBytes, length_strncpy]
  rfl

/-- The disk that `mkfs` makes when it is given no files, before the kernel has used it. -/
def State.mkfs : State where
  dinode := Function.update (fun _ => Dinode.zero) ROOTINO
    ⟨.T_DIR, 0, 0, 1, BSIZE, Function.update (fun _ => 0) 0 Superblock.mkfs.nmeta⟩
  bit := fun b => decide (b ≤ Superblock.mkfs.nmeta)
  data := Function.update (fun _ _ => 0) Superblock.mkfs.nmeta
    (splice (fun _ => 0) 0 (dirent dot ROOTINO ++ dirent dotdot ROOTINO))
  inode := fun _ => ⟨0, 0, 0, false, false, .zero⟩
  begun := 0
  ended := 0
  ops := []
  input := []

variable (sb : Superblock)

/-- The entry at `off`, in a loop that panics with `e` if it cannot be read. -/
def readDirent (e : Panic) (dp : Ino) (off : Nat) : F (List UInt8) := do
  match ← readi sb dp off DIRENT with
  | some bytes => if bytes.length = DIRENT then pure bytes else throw e
  | none => throw e

/-- The loop of `dirlookup`, with at most `n` turns to go: the offset and the number found. -/
def lookupLoop (dp : Ino) (name : Name) (size : Nat) : (n off : Nat) → F (Option (Nat × Nat))
  | 0, _ => pure none
  | n + 1, off =>
    if off < size then do
      let de ← readDirent sb .dirlookupRead dp off
      if direntInum de = 0 then lookupLoop dp name size n (off + DIRENT)
      else if namecmp name (de.drop 2) = 0 then pure (some (off, direntInum de))
      else lookupLoop dp name size n (off + DIRENT)
    else pure none

/-- The inode, and the offset of its entry. -/
def dirlookup (dp : Ino) (name : Name) : F (Option (Ino × Nat)) := do
  let s ← get
  let c := (s.inode dp).copy
  if c.type = .T_DIR then do
    match ← lookupLoop sb dp name c.size (c.size / DIRENT + 1) 0 with
    | none => pure none
    | some (off, inum) => do
      let ip ← iget (s.inode dp).dev inum
      pure (some (ip, off))
  else throw .dirlookupNotDir

/-- The loop of `dirlink`: the offset of the first empty entry, or of the end. -/
def emptyLoop (dp : Ino) (size : Nat) : (n off : Nat) → F Nat
  | 0, off => pure off
  | n + 1, off =>
    if off < size then do
      let de ← readDirent sb .dirlinkRead dp off
      if direntInum de = 0 then pure off else emptyLoop dp size n (off + DIRENT)
    else pure off

/-- False if it returns -1. -/
def dirlink (dp : Ino) (name : Name) (inum : Nat) : F Bool := do
  match ← dirlookup sb dp name with
  | some (ip, _) => do
    iput ip
    pure false
  | none => do
    let s ← get
    let size := (s.inode dp).copy.size
    let off ← emptyLoop sb dp size (size / DIRENT + 1) 0
    match ← writei sb dp (dirent name inum) off with
    | some n => if n = DIRENT then pure true else throw .dirlink
    | none => throw .dirlink

/-- The next element of a path, cut to `DIRSIZ` bytes, and the path behind it. -/
def skipelem (path : Path) : Option (Name × Path) :=
  match path.dropWhile (· = slash) with
  | [] => none
  | c :: rest =>
    some (((c :: rest).takeWhile (· ≠ slash)).take DIRSIZ,
      ((c :: rest).dropWhile (· ≠ slash)).dropWhile (· = slash))

/-- The loop of `namex`; every turn takes a byte off the path at least. -/
def namexLoop (nameiparent : Bool) : (n : Nat) → Path → Name → Ino → F (Option (Ino × Name))
  | 0, _, name, ip => pure (some (ip, name))
  | n + 1, path, name, ip =>
    match skipelem path with
    | none =>
      if nameiparent then do
        iput ip
        pure none
      else pure (some (ip, name))
    | some (name, path) => do
      ilock ip
      let s ← get
      if (s.inode ip).copy.type ≠ .T_DIR then do
        iunlockput ip
        pure none
      else if nameiparent ∧ path = [] then do
        iunlock ip
        pure (some (ip, name))
      else
        match ← dirlookup sb ip name with
        | none => do
          iunlockput ip
          pure none
        | some (next, _) => do
          iunlockput ip
          namexLoop nameiparent n path name next

def namex (cwd : Ino) (path : Path) (nameiparent : Bool) : F (Option (Ino × Name)) := do
  if path.head? = some slash then do
    let ip ← iget ROOTDEV ROOTINO
    namexLoop sb nameiparent (path.length + 1) path [] ip
  else do
    let ip ← idup cwd
    namexLoop sb nameiparent (path.length + 1) path [] ip

def namei (cwd : Ino) (path : Path) : F (Option Ino) := do
  match ← namex sb cwd path false with
  | none => pure none
  | some (ip, _) => pure (some ip)

def nameiparent (cwd : Ino) (path : Path) : F (Option (Ino × Name)) := namex sb cwd path true

/-! ## `link`, `unlink` and `create` -/

/-- `ip->nlink += d; iupdate(ip)`, where `nlink` is a `short`. -/
def addLink (ip : Ino) (d : Int) : F Unit := do
  modCopy ip fun c => { c with nlink := (c.nlink + d).bmod (2 ^ 16) }
  iupdate ip

/-- The label `bad` of `sys_link`. -/
def unlinkBack (ip : Ino) : F Bool := do
  ilock ip
  addLink ip (-1)
  iunlockput ip
  end_op
  pure false

/-- `sys_link` after its arguments; false if it returns -1. -/
def link (cwd : Ino) (old new : Path) : F Bool := do
  begin_op
  match ← namei sb cwd old with
  | none => do
    end_op
    pure false
  | some ip => do
    ilock ip
    let s ← get
    if (s.inode ip).copy.type = .T_DIR then do
      iunlockput ip
      end_op
      pure false
    else do
      addLink ip 1
      iunlock ip
      match ← nameiparent sb cwd new with
      | none => unlinkBack ip
      | some (dp, name) => do
        ilock dp
        let s ← get
        if (s.inode dp).dev ≠ (s.inode ip).dev then do
          iunlockput dp
          unlinkBack ip
        else if ← dirlink sb dp name (s.inode ip).inum then do
          iunlockput dp
          iput ip
          end_op
          pure true
        else do
          iunlockput dp
          unlinkBack ip

/-- The loop of `isdirempty`, with at most `n` turns to go. -/
def isdiremptyLoop (dp : Ino) (size : Nat) : (n off : Nat) → F Bool
  | 0, _ => pure true
  | n + 1, off =>
    if off < size then do
      let de ← readDirent sb .isdirempty dp off
      if direntInum de = 0 then isdiremptyLoop dp size n (off + DIRENT) else pure false
    else pure true

def isdirempty (dp : Ino) : F Bool := do
  let s ← get
  let size := (s.inode dp).copy.size
  isdiremptyLoop sb dp size (size / DIRENT + 1) (2 * DIRENT)

/-- `ip->type == T_DIR && !isdirempty(ip)`. -/
def isdirfull (ip : Ino) : F Bool := do
  let s ← get
  if (s.inode ip).copy.type = .T_DIR then do
    let empty ← isdirempty sb ip
    pure !empty
  else pure false

/-- The label `bad` of `sys_unlink`. -/
def unlinkBad (dp : Ino) : F Bool := do
  iunlockput dp
  end_op
  pure false

/-- What `sys_unlink` does to the parent of a directory. -/
def unlinkParent (dp ip : Ino) : F Unit := do
  let s ← get
  if (s.inode ip).copy.type = .T_DIR then addLink dp (-1) else pure ()

/-- `sys_unlink` from the removal of the entry at `off` on. -/
def unlinkEntry (dp ip : Ino) (off : Nat) : F Bool := do
  match ← writei sb dp (List.replicate DIRENT 0) off with
  | none => throw .unlinkWritei
  | some n =>
    if n = DIRENT then do
      unlinkParent dp ip
      iunlockput dp
      addLink ip (-1)
      iunlockput ip
      end_op
      pure true
    else throw .unlinkWritei

/-- `sys_unlink` once it has locked the directory. -/
def unlinkLocked (dp : Ino) (name : Name) : F Bool := do
  if namecmp name dot = 0 ∨ namecmp name dotdot = 0 then unlinkBad dp
  else
    match ← dirlookup sb dp name with
    | none => unlinkBad dp
    | some (ip, off) => do
      ilock ip
      let s ← get
      if (s.inode ip).copy.nlink < 1 then throw .unlinkNlink
      else if ← isdirfull sb ip then do
        iunlockput ip
        unlinkBad dp
      else unlinkEntry sb dp ip off

/-- `sys_unlink` after its argument; false if it returns -1. -/
def unlink (cwd : Ino) (path : Path) : F Bool := do
  begin_op
  match ← nameiparent sb cwd path with
  | none => do
    end_op
    pure false
  | some (dp, name) => do
    ilock dp
    unlinkLocked sb dp name

/-- The entries `.` and `..` of a new directory. -/
def createDots (dp ip : Ino) : F Unit := do
  let s ← get
  if ← dirlink sb ip dot (s.inode ip).inum then
    if ← dirlink sb ip dotdot (s.inode dp).inum then pure () else throw .createDots
  else throw .createDots

/-- What `create` does for a directory only. -/
def createDir (dp ip : Ino) (type : FType) : F Unit :=
  if type = .T_DIR then do
    addLink dp 1
    createDots sb dp ip
  else pure ()

/-- `create` from the call of `ialloc` on.  `ialloc` panics where it could return 0. -/
def createNew (dp : Ino) (name : Name) (type : FType) (major minor : Int) : F Ino := do
  let s ← get
  let ip ← ialloc sb (s.inode dp).dev type
  ilock ip
  modCopy ip fun c => { c with major := major, minor := minor, nlink := 1 }
  iupdate ip
  createDir sb dp ip type
  let s ← get
  if ← dirlink sb dp name (s.inode ip).inum then do
    iunlockput dp
    pure ip
  else throw .createDirlink

/-- The inode is returned locked. -/
def create (cwd : Ino) (path : Path) (type : FType) (major minor : Int) : F (Option Ino) := do
  match ← nameiparent sb cwd path with
  | none => pure none
  | some (dp, name) => do
    ilock dp
    match ← dirlookup sb dp name with
    | some (ip, _) => do
      iunlockput dp
      ilock ip
      let s ← get
      if type = .T_FILE ∧ (s.inode ip).copy.type = .T_FILE then pure (some ip)
      else do
        iunlockput ip
        pure none
    | none => do
      let ip ← createNew sb dp name type major minor
      pure (some ip)

end Laboratorio.Xv6.Fs
