import Laboratorio.Xv6.Fs.Rules
import Laboratorio.Xv6.Kernel

/-!
# Rules for system calls, from rules for the file system

`CallRules` is what an invariant of the file system has to say about the functions that the system
calls use.  `Bal R X Y` puts it together with the tables of files and processes: `X` are the
references to inodes, and `Y` says for every file how many references to it, the function that runs
holds itself, and `R` is the invariant for the locks and operations it has open.  Every system call
keeps `Bal`, whatever the invariant of the file system is.
-/

namespace Laboratorio.Xv6.Kernel

open Laboratorio.Lib TwoLevel Function Multiset
open Vm (Page Mem Geometry)
open Fs (Ino Path Superblock Panic)

/-- The rules for an invariant `J b L n E s`, where `b` is true as long as the call has put no
reference back: names are looked up only while it is. -/
structure CallRules (sb : Superblock) (D : Panic → Prop)
    (J : Bool → Multiset Ino → Nat → Multiset Ino → Fs.State → Prop) : Prop where
  other : ∀ e, e ≠ .freeingFreeBlock → e ≠ .ilockNoType → D e
  release : ∀ {b L n E s}, J b L n E s → J false L n E s
  begin_op : ∀ {b L n E s}, J b L n E s → wp D Fs.begin_op (fun _ s' => J b L (n + 1) E s') s
  end_op : ∀ {b L n E s}, J b L (n + 1) E s → wp D Fs.end_op (fun _ s' => J b L n E s') s
  root : ∀ {b L n E s}, J b L n E s →
    wp D (Fs.iget Fs.ROOTDEV Fs.ROOTINO) (fun ip s' => J b L n (ip ::ₘ E) s') s
  idup : ∀ {b L n E s ip}, ip ∈ E → J b L n E s →
    wp D (Fs.idup ip) (fun r s' => r = ip ∧ J b L n (ip ::ₘ E) s') s
  iput : ∀ {b L n E s ip}, J b L n (ip ::ₘ E) s →
    wp D (Fs.iput ip) (fun _ s' => J false L n E s') s
  ilock : ∀ {b L n E s ip}, ip ∈ E → J b L n E s →
    wp D (Fs.ilock ip) (fun _ s' => J b (ip ::ₘ L) n E s') s
  iunlock : ∀ {b L n E s ip}, J b (ip ::ₘ L) n E s →
    wp D (Fs.iunlock ip) (fun _ s' => J b L n E s') s
  readi : ∀ {b L n E s ip} off k, ip ∈ L → J b L n E s →
    wp D (Fs.readi sb ip off k) (fun _ s' => J b L n E s') s
  namei : ∀ {L n E s cwd} path, cwd ∈ E → J true L n E s →
    wp D (Fs.namei sb cwd path) (fun r s' => J true L n (target r + E) s') s
  create : ∀ {L n E s cwd type} path major minor, type ≠ .free → cwd ∈ E → J true L n E s →
    wp D (Fs.create sb cwd path type major minor)
      (fun r s' => J false (target r + L) n (target r + E) s') s
  link : ∀ {L n E s cwd} old new, cwd ∈ E → J true L n E s →
    wp D (Fs.link sb cwd old new) (fun _ s' => J false L n E s') s
  unlink : ∀ {L n E s cwd} path, cwd ∈ E → J true L n E s →
    wp D (Fs.unlink sb cwd path) (fun _ s' => J false L n E s') s

/-- The rule that `write` needs besides. -/
def WriteRule (sb : Superblock) (D : Panic → Prop)
    (J : Bool → Multiset Ino → Nat → Multiset Ino → Fs.State → Prop) : Prop :=
  ∀ b L n E s ip src off, ip ∈ L → J b L n E s →
    wp D (Fs.writei sb ip src off) (fun _ s' => J b L n E s') s

theorem CallRules.of_rules {sb : Superblock} {D : Panic → Prop}
    {J : Multiset Ino → Nat → Multiset Ino → Fs.State → Prop} (R : Fs.Rules sb D J) :
    CallRules sb D fun _ => J where
  other := R.other
  release h := h
  begin_op := R.begin_op
  end_op := R.end_op
  root := R.root
  idup := R.idup
  iput := R.iput
  ilock := R.ilock
  iunlock := R.iunlock
  readi := R.readi
  namei path := R.namei path
  create path major minor := R.create path major minor
  link old new := R.link old new
  unlink path := R.unlink path

/-- A run may stop in any way but by a panic of the file system outside `D`. -/
def Stops (D : Panic → Prop) : Stop → Prop
  | .fs e => D e
  | _ => True

/-- The number of descriptors of all processes that point to `f`. -/
@[irreducible] def descriptors (proc : Slot → Proc) (f : FileIx) : Nat :=
  (Finset.univ.filter fun x : Slot × Fd => (proc x.1).ofile x.2 = some f).card

/-- The reference that an open file has to an inode. -/
def File.inodeRef (f : File) : Multiset Ino :=
  if 0 < f.ref ∧ f.type = .FD_INODE then {f.ip} else 0

/-- The references from open files and current directories. -/
def inodeRefs (file : FileIx → File) (proc : Slot → Proc) : Multiset Ino :=
  ∑ f, (file f).inodeRef + ∑ i, target (proc i).cwd

/-- One reference to `f`. -/
def one (f : FileIx) : FileIx → Int := fun f' => if f = f' then 1 else 0

/-- A process that does not exist any more, or not yet. -/
def Proc.Idle (p : Proc) : Prop := (∀ fd, p.ofile fd = none) ∧ p.cwd = none

structure Bal (R : Multiset Ino → Fs.State → Prop) (X : Multiset Ino) (Y : FileIx → Int) (s : State) :
    Prop where
  fs : R (X + inodeRefs s.file s.proc) s.fs
  file : ∀ f, ((s.file f).ref : Int) = descriptors s.proc f + Y f
  closed : ∀ f, (s.file f).ref = 0 → (s.file f).type = .FD_NONE
  idle : ∀ i, (s.proc i).state = .UNUSED ∨ (s.proc i).state = .ZOMBIE → (s.proc i).Idle

variable {α : Type} {g : Geometry} {sb : Superblock} {R : Multiset Ino → Fs.State → Prop}
  {X : Multiset Ino} {Y : FileIx → Int} {s s1 : State} {i : Slot} {f : FileIx}

theorem Bal.mono (h : Bal R X Y s) {Q : Multiset Ino → Fs.State → Prop} (hQ : ∀ {E F}, R E F → Q E F) :
    Bal Q X Y s := ⟨hQ h.fs, h.file, h.closed, h.idle⟩

/-! ## Changes to the tables -/

section Tables

variable {F : FileIx → File} {P Q : Slot → Proc}

theorem inodeRefs_file (f : FileIx) (x : File) :
    inodeRefs (update F f x) P + (F f).inodeRef = inodeRefs F P + x.inodeRef := by
  have hsum := sum_replace (g := fun f' => (F f').inodeRef)
    (k := fun f' => (update F f x f').inodeRef) (x := (F f).inodeRef)
    (y := x.inodeRef) (Finset.mem_univ f) (fun f' _ hf' => ?_) ?_
  · unfold inodeRefs
    rw [add_right_comm, hsum, add_right_comm]
  · rw [update_of_ne hf']
  · rw [update_self, add_comm]

theorem inodeRefs_proc (i : Slot) (p : Proc) :
    inodeRefs F (update P i p) + target (P i).cwd = inodeRefs F P + target p.cwd := by
  have hsum := sum_replace (g := fun j => target (P j).cwd)
    (k := fun j => target (update P i p j).cwd) (x := target (P i).cwd)
    (y := target p.cwd) (Finset.mem_univ i) (fun j _ hj => ?_) ?_
  · unfold inodeRefs
    rw [add_assoc, hsum, add_assoc]
  · rw [update_of_ne hj]
  · rw [update_self, add_comm]

theorem inodeRefs_congr (h : ∀ j, (Q j).cwd = (P j).cwd) : inodeRefs F Q = inodeRefs F P := by
  simp only [inodeRefs, h]

theorem descriptors_congr (h : ∀ j, (Q j).ofile = (P j).ofile) :
    descriptors Q f = descriptors P f := by
  unfold descriptors
  simp only [h]

theorem descriptors_update {p : Proc} (fd : Fd) (o : Option FileIx)
    (hp : p.ofile = update (P i).ofile fd o) (f : FileIx) :
    descriptors (update P i p) f + (if (P i).ofile fd = some f then 1 else 0) =
      descriptors P f + (if o = some f then 1 else 0) := by
  have hsum := sum_replace (M := Nat) (i := (i, fd))
    (g := fun x : Slot × Fd => if (P x.1).ofile x.2 = some f then 1 else 0)
    (k := fun x : Slot × Fd => if (update P i p x.1).ofile x.2 = some f then 1 else 0)
    (x := if (P i).ofile fd = some f then 1 else 0) (y := if o = some f then 1 else 0)
    (Finset.mem_univ _) (fun x _ hx => ?_) ?_
  · unfold descriptors
    rw [Finset.card_filter, Finset.card_filter]
    exact hsum
  · by_cases hi : x.1 = i
    · have hfd : x.2 ≠ fd := fun hfd => hx (Prod.ext hi hfd)
      rw [hi, update_self, hp, update_of_ne hfd]
    · rw [update_of_ne hi]
  · dsimp only
    rw [update_self, hp, update_self, add_comm]

theorem mem_inodeRefs {ip : Ino} (h : (P i).cwd = some ip) : ip ∈ inodeRefs F P := by
  refine mem_add.2 (.inr (mem_sum.2 ⟨i, Finset.mem_univ i, ?_⟩))
  simp [h]

end Tables

theorem Bal.congr (h : Bal R X Y s) (hfs : s1.fs = s.fs) (hproc : s1.proc = s.proc)
    (hfile : s1.file = s.file) : Bal R X Y s1 := by
  obtain ⟨hR, hfiles, hclosed, hidle⟩ := h
  rw [← hfs, ← hproc, ← hfile] at hR
  rw [← hproc, ← hfile] at hfiles
  rw [← hfile] at hclosed
  rw [← hproc] at hidle
  exact ⟨hR, hfiles, hclosed, hidle⟩

/-- A process changes, but not its descriptors; the file system may have changed its current
directory before. -/
theorem Bal.set_cwd (h : Bal R X Y s) {p : Proc} {Z : Multiset Ino} {F : Fs.State}
    {Q : Multiset Ino → Fs.State → Prop}
    (hfs : Q (Z + inodeRefs s.file (update s.proc i p)) F)
    (hofile : p.ofile = (s.proc i).ofile) (hidle : p.state = .UNUSED ∨ p.state = .ZOMBIE → p.Idle) :
    Bal Q Z Y { s with fs := F, proc := update s.proc i p } := by
  refine ⟨hfs, fun f => ?_, h.closed, fun j => ?_⟩
  · have hd : descriptors (update s.proc i p) f = descriptors s.proc f := by
      refine descriptors_congr fun j => ?_
      by_cases hj : j = i
      · rw [hj, update_self, hofile]
      · rw [update_of_ne hj]
    dsimp only
    rw [hd]
    exact h.file f
  · by_cases hj : j = i
    · subst hj
      simpa using hidle
    · simpa [hj] using h.idle j

theorem Bal.set_proc (h : Bal R X Y s) {p : Proc} (hofile : p.ofile = (s.proc i).ofile)
    (hcwd : p.cwd = (s.proc i).cwd) (hidle : p.state = .UNUSED ∨ p.state = .ZOMBIE → p.Idle) :
    Bal R X Y { s with proc := update s.proc i p } := by
  refine h.set_cwd ?_ hofile hidle
  have hrefs := inodeRefs_proc (F := s.file) (P := s.proc) i p
  rw [hcwd] at hrefs
  rw [add_right_cancel hrefs]
  exact h.fs

theorem Bal.set_procs (h : Bal R X Y s) {P : Slot → Proc}
    (hP : ∀ j, (P j).ofile = (s.proc j).ofile ∧ (P j).cwd = (s.proc j).cwd ∧
      (P j).state = (s.proc j).state) : Bal R X Y { s with proc := P } := by
  refine ⟨?_, fun f => ?_, h.closed, fun j hj => ?_⟩
  · dsimp only
    rw [inodeRefs_congr fun j => (hP j).2.1]
    exact h.fs
  · dsimp only
    rw [descriptors_congr fun j => (hP j).1]
    exact h.file f
  · dsimp only at hj ⊢
    rw [(hP j).2.2] at hj
    rw [Proc.Idle, (hP j).1, (hP j).2.1]
    exact h.idle j hj

def Proc.Alive (p : Proc) : Prop := ¬ (p.state = .UNUSED ∨ p.state = .ZOMBIE)

theorem Bal.set_ofile (h : Bal R X Y s) (fd : Fd) (o : Option FileIx) {Z : FileIx → Int}
    (hi : (s.proc i).Alive)
    (hZ : ∀ f, Z f + (if o = some f then 1 else 0) =
      Y f + (if (s.proc i).ofile fd = some f then 1 else 0)) :
    Bal R X Z { s with proc := update s.proc i { s.proc i with
      ofile := update (s.proc i).ofile fd o } } := by
  refine ⟨?_, fun f => ?_, h.closed, fun j => ?_⟩
  · dsimp only
    rw [add_right_cancel (inodeRefs_proc i { s.proc i with
      ofile := update (s.proc i).ofile fd o })]
    exact h.fs
  · have hd := descriptors_update (P := s.proc) (i := i) (p := { s.proc i with
      ofile := update (s.proc i).ofile fd o }) fd o rfl f
    have hf := h.file f
    have hZf := hZ f
    dsimp only
    split at hd <;> split at hd <;> simp_all <;> omega
  · by_cases hj : j = i
    · subst hj
      simp only [update_self]
      exact fun hj => absurd hj hi
    · simpa [hj] using h.idle j

theorem Bal.set_file (h : Bal R X Y s) {x : File} {W : Multiset Ino} {Z : FileIx → Int}
    (hW : W + x.inodeRef = X + (s.file f).inodeRef)
    (href : (x.ref : Int) = descriptors s.proc f + Z f)
    (hZ : ∀ f' ≠ f, Z f' = Y f') (hclosed : x.ref = 0 → x.type = .FD_NONE) :
    Bal R W Z { s with file := update s.file f x } := by
  refine ⟨?_, fun f' => ?_, fun f' => ?_, h.idle⟩
  · have hrefs := inodeRefs_file (F := s.file) (P := s.proc) f x
    have hsum : W + inodeRefs (update s.file f x) s.proc = X + inodeRefs s.file s.proc := by
      refine add_right_cancel (b := x.inodeRef + (s.file f).inodeRef) ?_
      calc W + inodeRefs (update s.file f x) s.proc + (x.inodeRef + (s.file f).inodeRef)
          = (W + x.inodeRef) + (inodeRefs (update s.file f x) s.proc +
            (s.file f).inodeRef) := by abel
        _ = X + inodeRefs s.file s.proc + (x.inodeRef + (s.file f).inodeRef) := by
          rw [hW, hrefs]
          abel
    dsimp only
    rw [hsum]
    exact h.fs
  · dsimp only
    by_cases hf' : f' = f
    · subst hf'
      simpa using href
    · have := h.file f'
      rw [← hZ f' hf'] at this
      simpa [hf'] using this
  · by_cases hf' : f' = f
    · subst hf'
      simpa using hclosed
    · simpa [hf'] using h.closed f'

/-! ## Lifted programs -/

/-- The invariant after a step that leaves the two tables alone. -/
structure Steps (R : Multiset Ino → Fs.State → Prop) (X : Multiset Ino) (Y : FileIx → Int)
    (s s' : State) : Prop where
  bal : Bal R X Y s'
  proc : s'.proc = s.proc
  file : s'.file = s.file

theorem Bal.refl (h : Bal R X Y s) : Steps R X Y s s := ⟨h, rfl, rfl⟩

theorem Steps.trans {s s1 s2 : State} {Q : Multiset Ino → Fs.State → Prop} {W : Multiset Ino}
    {Z : FileIx → Int} (h : Steps R X Y s s1) (h' : Steps Q W Z s1 s2) : Steps Q W Z s s2 :=
  ⟨h'.bal, h'.proc.trans h.proc, h'.file.trans h.file⟩

variable {D : Panic → Prop} {J : Bool → Multiset Ino → Nat → Multiset Ino → Fs.State → Prop}
  {b : Bool} {L : Multiset Ino} {n : Nat} {ip cwd : Ino}

theorem mem_bal (x : Vm.M α) (h : Bal R X Y s) :
    wp (Stops D) (mem x) (fun _ s' => Steps R X Y s s') s :=
  wp_zoom.2 (wp_mono wp_true fun _ _ _ => ⟨h.congr rfl rfl rfl, rfl, rfl⟩)

theorem fs_bal {x : Fs.F α} {W : α → Multiset Ino} {Q : α → Multiset Ino → Fs.State → Prop}
    (h : Bal R X Y s)
    (hx : ∀ E, inodeRefs s.file s.proc = E → R (X + E) s.fs →
      wp D x (fun a F => Q a (W a + E) F) s.fs) :
    wp (Stops D) (fs x) (fun a s' => Steps (Q a) (W a) Y s s') s :=
  wp_zoom.2 (wp_mono (hx _ rfl h.fs) fun _ _ hF => ⟨⟨hF, h.file, h.closed, h.idle⟩, rfl, rfl⟩)

variable (C : CallRules sb D J)

include C

theorem begin_op_bal (h : Bal (J b L n) X Y s) :
    wp (Stops D) (fs Fs.begin_op) (fun _ s' => Steps (J b L (n + 1)) X Y s s') s :=
  fs_bal h fun _ _ hE => C.begin_op hE

theorem end_op_bal (h : Bal (J b L (n + 1)) X Y s) :
    wp (Stops D) (fs Fs.end_op) (fun _ s' => Steps (J b L n) X Y s s') s :=
  fs_bal h fun _ _ hE => C.end_op hE

theorem iput_bal (h : Bal (J b L n) (ip ::ₘ X) Y s) :
    wp (Stops D) (fs (Fs.iput ip)) (fun _ s' => Steps (J false L n) X Y s s') s :=
  fs_bal h fun _ _ hE => C.iput (cons_add _ _ _ ▸ hE)

theorem ilock_bal (h : Bal (J b L n) X Y s)
    (hip : ip ∈ X + inodeRefs s.file s.proc) :
    wp (Stops D) (fs (Fs.ilock ip)) (fun _ s' => Steps (J b (ip ::ₘ L) n) X Y s s') s :=
  fs_bal h fun _ hrefs hE => C.ilock (hrefs ▸ hip) hE

theorem ilock_own_bal (h : Bal (J b L n) (ip ::ₘ X) Y s) :
    wp (Stops D) (fs (Fs.ilock ip)) (fun _ s' => Steps (J b (ip ::ₘ L) n) (ip ::ₘ X) Y s s') s :=
  ilock_bal C h (mem_add.2 (.inl (mem_cons_self ip X)))

theorem iunlock_bal (h : Bal (J b (ip ::ₘ L) n) X Y s) :
    wp (Stops D) (fs (Fs.iunlock ip)) (fun _ s' => Steps (J b L n) X Y s s') s :=
  fs_bal h fun _ _ hE => C.iunlock hE

theorem iunlockput_bal (h : Bal (J b (ip ::ₘ L) n) (ip ::ₘ X) Y s) :
    wp (Stops D) (fs (Fs.iunlockput ip)) (fun _ s' => Steps (J false L n) X Y s s') s := by
  refine fs_bal h fun E _ hE => ?_
  unfold Fs.iunlockput
  exact wp_seq (C.iunlock hE) fun _ _ h1 => C.iput (cons_add _ _ _ ▸ h1)

theorem readi_bal (off k : Nat) (h : Bal (J b L n) X Y s) (hip : ip ∈ L) :
    wp (Stops D) (fs (Fs.readi sb ip off k)) (fun _ s' => Steps (J b L n) X Y s s') s :=
  fs_bal h fun _ _ hE => C.readi off k hip hE

omit C in
theorem mem_refs {E : Multiset Ino} (hcwd : (s.proc i).cwd = some cwd)
    (hE : inodeRefs s.file s.proc = E) : cwd ∈ X + E :=
  mem_add.2 (.inr (hE ▸ mem_inodeRefs hcwd))

/-- The reference that a name has led to is the caller's. -/
theorem namei_bal (path : Path) (h : Bal (J true L n) X Y s)
    (hcwd : (s.proc i).cwd = some cwd) :
    wp (Stops D) (fs (Fs.namei sb cwd path)) (fun r s' => match r with
      | none => Steps (J true L n) X Y s s'
      | some ip => Steps (J true L n) (ip ::ₘ X) Y s s') s := by
  refine wp_mono (fs_bal (W := fun r => target r + X) (Q := fun _ => J true L n) h
    fun E hrefs hE => wp_mono (C.namei path (mem_refs hcwd hrefs) hE) fun r F hF => ?_) ?_
  · rwa [add_assoc]
  · rintro (_ | ip) s1 h1
    · simpa using h1
    · exact h1

theorem create_bal (path : Path) {type : Fs.FType} (major minor : Int)
    (htype : type ≠ .free) (h : Bal (J true L n) X Y s) (hcwd : (s.proc i).cwd = some cwd) :
    wp (Stops D) (fs (Fs.create sb cwd path type major minor))
      (fun r s' => Steps (J false (target r + L) n) (target r + X) Y s s') s := by
  refine fs_bal h fun E hrefs hE => ?_
  refine wp_mono (C.create path major minor htype (mem_refs hcwd hrefs) hE) fun r F hF => ?_
  rwa [add_assoc]

omit C in
theorem getCwd_bal (i : Slot) :
    wp (Stops D) (getCwd i) (fun ip s' => s' = s ∧ (s.proc i).cwd = some ip) s := by
  unfold getCwd
  simp only [wp_bind, wp_get]
  split
  · exact ⟨rfl, by assumption⟩
  · trivial

/-! ## Open files -/

/-- A file that `filealloc` has found. -/
structure NewFile (f : FileIx) (s s' : State) : Prop where
  proc : s'.proc = s.proc
  old : (s.file f).ref = 0
  ref : 0 < (s'.file f).ref
  type : (s'.file f).type = .FD_NONE
  other : ∀ f' ≠ f, s'.file f' = s.file f'

omit C in
theorem filealloc_bal (h : Bal R X Y s) :
    wp (Stops D) filealloc (fun r s' => match r with
      | none => Steps R X Y s s'
      | some f => Bal R X (Y + one f) s' ∧ NewFile f s s') s := by
  unfold filealloc
  simp only [wp_bind, wp_get]
  cases hf : Fin.find? fun f => decide ((s.file f).ref = 0) with
  | none => exact h.refl
  | some f =>
    have href : (s.file f).ref = 0 := by simpa using Fin.eq_true_of_find?_eq_some hf
    have htype := h.closed f href
    have hcount := h.file f
    simp only [modFile, wp_bind, wp_modify, wp_pure]
    refine ⟨h.set_file ?_ ?_ (fun f' hf' => ?_) fun hx => ?_, rfl, href, ?_, ?_, fun f' hf' => ?_⟩
    · simp [File.inodeRef, href, htype]
    · rw [href] at hcount
      simp [one]
      omega
    · simp [one, hf'.symm]
    · simp at hx
    · simp
    · simpa using htype
    · simp [hf']

omit C in
theorem filedup_bal (f : FileIx) (h : Bal R X Y s) :
    wp (Stops D) (filedup f) (fun _ s' => Bal R X (Y + one f) s' ∧ s'.proc = s.proc) s := by
  unfold filedup
  simp only [wp_bind, wp_get]
  split
  · trivial
  · rename_i href
    have hcount := h.file f
    refine ⟨h.set_file ?_ ?_ (fun f' hf' => ?_) fun hx => ?_, rfl⟩
    · have hpos : 0 < (s.file f).ref := by omega
      simp [File.inodeRef, hpos]
    · simp [one]
      omega
    · simp [one, hf'.symm]
    · simp at hx

omit C in
theorem pipeclose_bal (p : Page) (writable : Bool) (h : Bal R X Y s) :
    wp (Stops D) (pipeclose g p writable) (fun _ s' => Steps R X Y s s') s := by
  unfold pipeclose setPipe
  simp only [wp_bind, wp_get, wp_modify]
  have h1 : ∀ q, Steps R X Y s { s with pipe := q } := fun q => ⟨h.congr rfl rfl rfl, rfl, rfl⟩
  refine wp_ite.2 ⟨fun _ => ?_, fun _ => h1 _⟩
  exact wp_mono (mem_bal _ (h1 _).bal) fun _ _ h2 => (h1 _).trans h2

theorem fileclose_bal (f : FileIx) (h : Bal (J b L n) X Y s) :
    wp (Stops D) (fileclose g f) (fun _ s' => Bal (J false L n) X (Y - one f) s' ∧
      s'.proc = s.proc) s := by
  unfold fileclose
  simp only [wp_bind, wp_get]
  have hcount := h.file f
  split
  · trivial
  rename_i href
  split
  · refine ⟨(h.mono C.release).set_file ?_ ?_ (fun f' hf' => ?_) fun hx => ?_, rfl⟩
    · have hpos : 0 < (s.file f).ref := by omega
      have hpos' : 0 < (s.file f).ref - 1 := by omega
      simp [File.inodeRef, hpos, hpos']
    · simp [one]
      omega
    · simp [one, hf'.symm]
    · simp at hx
      omega
  · simp only [modFile, wp_bind, wp_modify]
    have h1 : Bal (J b L n) ((s.file f).inodeRef + X) (Y - one f) { s with
        file := update s.file f { s.file f with ref := 0, type := .FD_NONE } } := by
      refine h.set_file ?_ ?_ (fun f' hf' => ?_) fun _ => rfl
      · simp [File.inodeRef, add_comm]
      · simp [one]
        omega
      · simp [one, hf'.symm]
    have hpos : 0 < (s.file f).ref := by omega
    unfold File.inodeRef at h1
    split
    · rename_i htype
      simp only [htype, reduceCtorEq, and_false, if_false, zero_add] at h1
      exact ⟨h1.mono C.release, rfl⟩
    · rename_i htype
      simp only [htype, reduceCtorEq, and_false, if_false, zero_add] at h1
      exact wp_mono (pipeclose_bal _ _ h1) fun _ _ h2 =>
        ⟨h2.bal.mono C.release, h2.proc⟩
    · rename_i htype
      simp only [htype, hpos, and_true, if_true, singleton_add] at h1
      refine wp_seq (begin_op_bal C h1) fun _ s2 h2 => ?_
      refine wp_seq (iput_bal C h2.bal) fun _ s3 h3 => ?_
      refine wp_mono (end_op_bal C h3.bal) fun _ s4 h4 => ?_
      exact ⟨h4.bal, ((h2.trans h3).trans h4).proc⟩

omit C in
theorem fdalloc_bal (h : Bal R X Y s) (hi : (s.proc i).Alive) (f : FileIx) :
    wp (Stops D) (fdalloc i f) (fun r s' => match r with
      | none => Steps R X Y s s'
      | some fd => Bal R X (Y - one f) s' ∧ (s'.proc i).ofile fd = some f ∧
        (s'.proc i).Alive ∧ s'.file = s.file) s := by
  unfold fdalloc
  simp only [wp_bind, wp_get]
  cases hf : Fin.find? fun fd => ((s.proc i).ofile fd).isNone with
  | none => exact h.refl
  | some fd =>
    have hnone : (s.proc i).ofile fd = none := by simpa using Fin.eq_true_of_find?_eq_some hf
    simp only [modProc, wp_bind, wp_modify, wp_pure, update_self]
    refine ⟨h.set_ofile fd (some f) hi fun f' => ?_, trivial, hi, trivial⟩
    simp [hnone, one]

omit C in
theorem argfd_bal (i : Slot) (fd : Int) :
    wp (Stops D) (argfd i fd) (fun r s' => s' = s ∧ match r with
      | none => True
      | some (fd, f) => (s.proc i).ofile fd = some f) s := by
  unfold argfd
  simp only [wp_bind, wp_get]
  split
  · exact ⟨rfl, trivial⟩
  split
  · exact ⟨rfl, trivial⟩
  · exact ⟨rfl, by assumption⟩

omit C in
theorem sys_dup_bal (fd : Int) (h : Bal R X Y s) (hi : (s.proc i).Alive) :
    wp (Stops D) (sys_dup i fd) (fun _ s' => Bal R X Y s') s := by
  unfold sys_dup
  refine wp_seq (argfd_bal i fd) ?_
  rintro (_ | ⟨fd, f⟩) s1 ⟨rfl, -⟩
  · exact h
  refine wp_seq (fdalloc_bal h hi f) ?_
  rintro (_ | fd') s2 h2
  · exact h2.bal
  refine wp_seq (filedup_bal f h2.1) ?_
  rintro - s3 ⟨h3, -⟩
  rwa [sub_add_cancel] at h3

theorem sys_close_bal (fd : Int) (h : Bal (J b L n) X Y s)
    (hi : (s.proc i).Alive) :
    wp (Stops D) (sys_close g i fd) (fun _ s' => Bal (J false L n) X Y s') s := by
  unfold sys_close
  refine wp_seq (argfd_bal i fd) ?_
  rintro (_ | ⟨fd, f⟩) s1 ⟨rfl, hfd⟩
  · exact h.mono C.release
  simp only [modProc, wp_bind, wp_modify]
  have h1 : Bal (J b L n) X (Y + one f) { s1 with proc := update s1.proc i { s1.proc i with
      ofile := update (s1.proc i).ofile fd none } } :=
    h.set_ofile fd none hi fun f' => by simp [one, hfd]
  refine wp_mono (fileclose_bal C f h1) ?_
  rintro - s2 ⟨h2, -⟩
  rwa [add_sub_cancel_right] at h2

/-! ## Pipes -/

theorem fileclose_two_bal (f0 f1 : FileIx) (r : α)
    (h : Bal (J b L n) X (Y + one f0 + one f1) s) :
    wp (Stops D) (do fileclose g f0; fileclose g f1; pure r) (fun r' s' => r' = r ∧
      s'.proc = s.proc ∧ Bal (J false L n) X Y s') s := by
  refine wp_seq (fileclose_bal C f0 h) ?_
  rintro - s1 ⟨h1, hp1⟩
  refine wp_seq (fileclose_bal C f1 h1) ?_
  rintro - s2 ⟨h2, hp2⟩
  rw [add_right_comm, add_sub_cancel_right, add_sub_cancel_right] at h2
  exact ⟨rfl, hp2.trans hp1, h2⟩

omit C in
/-- A file that has no type yet becomes an end of a pipe. -/
theorem pipeEnd_bal {k : File → File} (hk : ∀ x, (k x).ref = x.ref ∧ (k x).type = .FD_PIPE)
    (h : Bal R X Y s) (href : 0 < (s.file f).ref) (htype : (s.file f).type = .FD_NONE) :
    wp (Stops D) (modFile f k) (fun _ s' => Bal R X Y s' ∧ s'.proc = s.proc ∧
      ∀ f' ≠ f, s'.file f' = s.file f') s := by
  refine ⟨h.set_file ?_ ?_ (fun _ _ => rfl) fun h0 => ?_, rfl, fun f' hf' => ?_⟩
  · simp [File.inodeRef, hk, htype]
  · rw [(hk _).1]
    exact h.file f
  · rw [(hk _).1] at h0
    exact absurd h0 href.ne'
  · exact update_of_ne hf' ..

theorem pipealloc_bal (h : Bal (J b L n) X Y s) :
    wp (Stops D) (pipealloc g) (fun r s' => s'.proc = s.proc ∧ match r with
      | none => Bal (J false L n) X Y s'
      | some (f0, f1) => Bal (J b L n) X (Y + one f0 + one f1) s') s := by
  unfold pipealloc
  refine wp_seq (filealloc_bal h) ?_
  rintro (_ | f0) s1 h1
  · exact ⟨h1.proc, h1.bal.mono C.release⟩
  obtain ⟨h1, hf0⟩ := h1
  refine wp_seq (filealloc_bal h1) ?_
  rintro (_ | f1) s2 h2
  · refine wp_seq (fileclose_bal C f0 h2.bal) ?_
    rintro - s3 ⟨h3, hp3⟩
    rw [add_sub_cancel_right] at h3
    exact ⟨hp3.trans (h2.proc.trans hf0.proc), h3⟩
  obtain ⟨h2, hf1⟩ := h2
  have hproc := hf1.proc.trans hf0.proc
  refine wp_seq (mem_bal Vm.kalloc h2) ?_
  rintro (_ | p) s3 h3
  · refine wp_mono (fileclose_two_bal C f0 f1 none h3.bal) ?_
    rintro r s4 ⟨rfl, hp4, h4⟩
    exact ⟨hp4.trans (h3.proc.trans hproc), h4⟩
  · have hne : f0 ≠ f1 := by
      rintro rfl
      exact hf0.ref.ne' hf1.old
    have h0 : s3.file f0 = s1.file f0 := (congrFun h3.file f0).trans (hf1.other f0 hne)
    have h4 : Bal (J b L n) X (Y + one f0 + one f1) { s3 with pipe := update s3.pipe p ⟨true, true⟩ } :=
      h3.bal.congr rfl rfl rfl
    simp only [setPipe, wp_bind, wp_modify]
    refine wp_mono (pipeEnd_bal (f := f0) (fun _ => ⟨rfl, rfl⟩) h4 (h0 ▸ hf0.ref) (h0 ▸ hf0.type)) ?_
    rintro - s5 ⟨h5, hp5, hother⟩
    have h1 : s5.file f1 = s2.file f1 := (hother f1 hne.symm).trans (congrFun h3.file f1)
    refine wp_mono (pipeEnd_bal (f := f1) (fun _ => ⟨rfl, rfl⟩) h5 (h1 ▸ hf1.ref) (h1 ▸ hf1.type)) ?_
    rintro - s6 ⟨h6, hp6, -⟩
    exact ⟨hp6.trans (hp5.trans (h3.proc.trans hproc)), h6⟩

theorem sys_pipe_bal (user : Bool) (h : Bal (J b L n) X Y s)
    (hi : (s.proc i).Alive) :
    wp (Stops D) (sys_pipe g i user) (fun _ s' => Bal (J false L n) X Y s') s := by
  unfold sys_pipe
  refine wp_ite.2 ⟨fun _ => ?_, fun _ => h.mono C.release⟩
  refine wp_seq (pipealloc_bal C h) ?_
  rintro (_ | ⟨rf, wf⟩) s1 ⟨hp1, h1⟩
  · exact h1
  refine wp_seq (fdalloc_bal h1 (hp1 ▸ hi) rf) ?_
  rintro (_ | fd0) s2 h2
  · exact wp_mono (fileclose_two_bal C rf wf (-1) h2.bal) fun _ _ h3 => h3.2.2
  obtain ⟨h2, hfd, hi2, -⟩ := h2
  refine wp_seq (fdalloc_bal h2 hi2 wf) ?_
  rintro (_ | fd1) s3 h3
  · obtain ⟨h3, hp3, -⟩ := h3
    rw [← hp3] at hfd hi2
    have h4 := h3.set_ofile fd0 none (Z := Y + one rf + one wf) hi2 fun f => by
      simp [hfd, one]
    rw [wp_bind, modProc, wp_modify]
    exact wp_mono (fileclose_two_bal C rf wf (-1) h4) fun _ _ h5 => h5.2.2
  · have hY : Y + one rf + one wf - one rf - one wf = Y := by abel
    exact hY ▸ h3.1.mono C.release

/-! ## Files by name -/

theorem openInode_bal (path : Path) (omode : Nat) (h : Bal (J true L n) X Y s)
    (hcwd : (s.proc i).cwd = some cwd) :
    wp (Stops D) (fs (openInode sb cwd path omode))
      (fun r s' => Steps (J false (target r + L) n) (target r + X) Y s s') s := by
  refine fs_bal h fun E hrefs hE => ?_
  have hmem : cwd ∈ X + E := mem_refs hcwd hrefs
  unfold openInode
  refine wp_ite.2 ⟨fun _ => ?_, fun _ => ?_⟩
  · refine wp_mono (C.create path 0 0 (by simp) hmem hE) fun r F hF => ?_
    rwa [add_assoc]
  refine wp_seq (C.namei path hmem hE) ?_
  rintro (_ | ip) F hF
  · simpa using C.release hF
  simp only [target_some, singleton_add, wp_bind] at hF ⊢
  refine wp_mono (C.ilock (mem_cons_self ip _) hF) fun _ F1 hF1 => ?_
  rw [wp_get]
  refine wp_ite.2 ⟨fun _ => ?_, fun _ => by simpa using C.release hF1⟩
  unfold Fs.iunlockput
  simp only [wp_bind]
  refine wp_mono (C.iunlock hF1) fun _ F2 hF2 => ?_
  refine wp_mono (C.iput hF2) fun _ F3 hF3 => ?_
  simpa using hF3

/-- The last steps of many calls. -/
theorem iunlockput_end_bal (r : Int)
    (h : Bal (J b (ip ::ₘ L) (n + 1)) (ip ::ₘ X) Y s) :
    wp (Stops D) (do fs (Fs.iunlockput ip); fs Fs.end_op; pure r)
      (fun _ s' => Bal (J false L n) X Y s') s := by
  refine wp_seq (iunlockput_bal C h) fun _ s1 h1 => ?_
  exact wp_seq (end_op_bal C h1.bal) fun _ _ h2 => h2.bal

theorem sys_open_bal (path : Option Path) (omode : Nat)
    (h : Bal (J true L n) X Y s) (hi : (s.proc i).Alive) :
    wp (Stops D) (sys_open g sb i path omode) (fun _ s' => Bal (J false L n) X Y s') s := by
  unfold sys_open
  rcases path with _ | path
  · exact h.mono C.release
  refine wp_seq (getCwd_bal i) ?_
  rintro cwd s1 ⟨rfl, hcwd⟩
  refine wp_seq (begin_op_bal C h) fun _ s2 h2 => ?_
  refine wp_seq (openInode_bal C path omode h2.bal (h2.proc ▸ hcwd)) ?_
  rintro (_ | ip) s3 h3
  · simp only [target_none, zero_add, wp_bind] at h3 ⊢
    exact wp_mono (end_op_bal C h3.bal) fun _ _ h4 => h4.bal
  simp only [target_some, singleton_add, wp_bind] at h3 ⊢
  have hi3 : (s3.proc i).Alive := (h2.trans h3).proc ▸ hi
  refine wp_mono (filealloc_bal h3.bal) ?_
  rintro (_ | f) s4 h4
  · exact iunlockput_end_bal C (-1) h4.bal
  obtain ⟨h4, hf⟩ := h4
  refine wp_seq (fdalloc_bal h4 (hf.proc ▸ hi3) f) ?_
  rintro (_ | fd) s5 h5
  · refine wp_seq (fileclose_bal C f h5.bal) ?_
    rintro - s6 ⟨h6, -⟩
    rw [add_sub_cancel_right] at h6
    exact iunlockput_end_bal C (-1) h6
  obtain ⟨h5, -, -, hfile⟩ := h5
  rw [add_sub_cancel_right] at h5
  refine wp_seq (iunlock_bal C h5) fun _ s6 h6 => ?_
  refine wp_seq (end_op_bal C h6.bal) fun _ s7 h7 => ?_
  have hf7 : s7.file f = s4.file f := by rw [h7.file, h6.file, hfile]
  have href : 0 < (s7.file f).ref := hf7 ▸ hf.ref
  have htype : (s7.file f).type = .FD_NONE := hf7 ▸ hf.type
  refine h7.bal.set_file ?_ (h7.bal.file f) (fun _ _ => rfl) fun h0 => absurd h0 href.ne'
  rw [add_comm]
  simp [File.inodeRef, href, htype]

theorem made_bal (r : Option Ino)
    (h : Bal (J b (target r + L) (n + 1)) (target r + X) Y s) :
    wp (Stops D) (made r) (fun _ s' => Bal (J false L n) X Y s') s := by
  unfold made
  rcases r with _ | ip
  · simp only [target_none, zero_add, wp_bind] at h ⊢
    exact wp_mono (end_op_bal C h) fun _ _ h1 => h1.bal.mono C.release
  · exact iunlockput_end_bal C 0 h

theorem make_bal (path : Option Path) {type : Fs.FType} (htype : type ≠ .free) (major minor : Int)
    (h : Bal (J true L n) X Y s) :
    wp (Stops D) (make sb i path type major minor) (fun _ s' => Bal (J false L n) X Y s') s := by
  unfold make
  refine wp_seq (begin_op_bal C h) fun _ s1 h1 => ?_
  rcases path with _ | path
  · exact made_bal C none (by simpa using h1.bal)
  · refine wp_seq (getCwd_bal i) ?_
    rintro cwd s2 ⟨rfl, hcwd⟩
    exact wp_seq (create_bal C path major minor htype h1.bal hcwd) fun r _ h3 => made_bal C r h3.bal

omit C in
theorem inodeRefs_cwd (hcwd : (s.proc i).cwd = some cwd) :
    ∃ E, inodeRefs s.file s.proc = cwd ::ₘ E ∧
      ∀ p, inodeRefs s.file (update s.proc i p) = target p.cwd + E := by
  obtain ⟨E, hE⟩ := exists_cons_of_mem (mem_inodeRefs (F := s.file) hcwd)
  refine ⟨E, hE, fun p => ?_⟩
  have hrefs := inodeRefs_proc (F := s.file) (P := s.proc) i p
  rw [hcwd, target_some, hE, ← singleton_add] at hrefs
  refine add_right_cancel (b := {cwd}) (hrefs.trans ?_)
  abel

theorem sys_chdir_bal (path : Option Path) (h : Bal (J true L n) X Y s)
    (hi : (s.proc i).Alive) :
    wp (Stops D) (sys_chdir sb i path) (fun _ s' => Bal (J false L n) X Y s') s := by
  unfold sys_chdir
  refine wp_seq (begin_op_bal C h) fun _ s1 h1 => ?_
  rcases path with _ | path
  · exact wp_seq (end_op_bal C h1.bal) fun _ _ h2 => h2.bal.mono C.release
  refine wp_seq (getCwd_bal i) ?_
  rintro cwd s2 ⟨rfl, hcwd⟩
  refine wp_seq (namei_bal C path h1.bal hcwd) ?_
  rintro (_ | ip) s3 h3
  · exact wp_seq (end_op_bal C h3.bal) fun _ _ h4 => h4.bal.mono C.release
  refine wp_seq (ilock_own_bal C h3.bal) fun _ s4 h4 => ?_
  rw [wp_bind, wp_get]
  refine wp_ite.2 ⟨fun _ => iunlockput_end_bal C (-1) h4.bal, fun _ => ?_⟩
  simp only [wp_bind]
  refine wp_mono (iunlock_bal C h4.bal) fun _ s5 h5 => ?_
  have hproc := (((h1.trans h3).trans h4).trans h5).proc
  have hcwd5 : (s5.proc i).cwd = some cwd := (h3.trans h4 |>.trans h5).proc ▸ hcwd
  obtain ⟨E, hE, hupdate⟩ := inodeRefs_cwd hcwd5
  -- The reference to the old directory goes before the field changes.
  have hrefs := h5.bal.fs
  have hcons : ip ::ₘ X + inodeRefs s5.file s5.proc = cwd ::ₘ (X + (target (some ip) + E)) := by
    rw [hE, target_some, ← singleton_add, ← singleton_add, ← singleton_add]
    abel
  rw [hcons] at hrefs
  refine wp_zoom.2 (wp_mono (C.iput hrefs) fun _ F1 hF1 => ?_)
  refine wp_zoom.2 (wp_mono (C.end_op hF1) fun _ F2 hF2 => ?_)
  refine h5.bal.set_cwd ?_ rfl fun hp => absurd hp (hproc ▸ hi)
  rwa [hupdate]

omit C in
/-- A function of the file system that is a whole operation. -/
theorem whole_bal {x : Ino → Fs.F Bool} (h : Bal (J true L n) X Y s)
    (hx : ∀ {cwd E F}, cwd ∈ E → J true L n E F → wp D (x cwd) (fun _ F' => J false L n E F') F) :
    wp (Stops D) (do
      let cwd ← getCwd i
      let ok ← fs (x cwd)
      pure (if ok then (0 : Int) else -1)) (fun _ s' => Bal (J false L n) X Y s') s := by
  simp only [wp_bind]
  refine wp_mono (getCwd_bal i) ?_
  rintro cwd s1 ⟨rfl, hcwd⟩
  exact wp_mono (fs_bal (W := fun _ => X) (Q := fun _ => J false L n) h
    fun _ hrefs hE => hx (mem_refs hcwd hrefs) hE) fun _ _ h2 => h2.bal

theorem sys_link_bal (paths : Option (Path × Path)) (h : Bal (J true L n) X Y s) :
    wp (Stops D) (sys_link sb i paths) (fun _ s' => Bal (J false L n) X Y s') s := by
  rcases paths with _ | ⟨old, new⟩
  · exact h.mono C.release
  · exact whole_bal h (C.link old new)

theorem sys_unlink_bal (path : Option Path) (h : Bal (J true L n) X Y s) :
    wp (Stops D) (sys_unlink sb i path) (fun _ s' => Bal (J false L n) X Y s') s := by
  rcases path with _ | path
  · exact h.mono C.release
  · exact whole_bal h (C.unlink path)

/-! ## Reading and writing -/

omit C in
theorem setOff_bal (f : FileIx) (r : Nat) (h : Bal R X Y s) :
    wp (Stops D) (modFile f fun x => { x with off := (x.off + r) % 2 ^ 32 })
      (fun _ s' => Bal R X Y s' ∧ (s'.file f).inodeRef = (s.file f).inodeRef ∧
        (s'.file f).ip = (s.file f).ip) s := by
  refine ⟨h.set_file rfl (h.file f) (fun _ _ => rfl) (h.closed f), ?_, ?_⟩
  · simp only [update_self]
    rfl
  · simp only [update_self]

omit C in
theorem mem_file (hip : ip ∈ (s.file f).inodeRef) : ip ∈ X + inodeRefs s.file s.proc := by
  refine mem_add.2 (.inr (mem_add.2 (.inl ?_)))
  exact mem_sum.2 ⟨f, Finset.mem_univ f, hip⟩

theorem fileread_bal (f : FileIx) (m : Nat) (h : Bal (J b L n) X Y s)
    (hf : 0 < (s.file f).ref) :
    wp (Stops D) (fileread sb f m) (fun _ s' => Bal (J b L n) X Y s') s := by
  unfold fileread
  simp only [wp_bind, wp_get]
  refine wp_ite.2 ⟨fun _ => ?_, fun _ => h⟩
  split
  · exact h
  · rename_i htype
    have hip : (s.file f).ip ∈ (s.file f).inodeRef := by simp [File.inodeRef, hf, htype]
    unfold readFile
    simp only [wp_bind, wp_get]
    refine wp_mono (ilock_bal C h (mem_file hip)) fun _ s1 h1 => ?_
    refine wp_mono (readi_bal C _ _ h1.bal (mem_cons_self _ L)) ?_
    rintro (_ | bytes) s2 h2
    · exact wp_seq (iunlock_bal C h2.bal) fun _ _ h3 => h3.bal
    · refine wp_seq (setOff_bal f _ h2.bal) fun _ s3 h3 => ?_
      exact wp_seq (iunlock_bal C h3.1) fun _ _ h4 => h4.bal
  · trivial

omit C in
theorem writei_bal (W : WriteRule sb D J) (src : List UInt8) (off : Nat) (h : Bal (J b L n) X Y s)
    (hip : ip ∈ L) :
    wp (Stops D) (fs (Fs.writei sb ip src off)) (fun _ s' => Steps (J b L n) X Y s s') s :=
  fs_bal h fun _ _ hE => W _ _ _ _ _ _ src off hip hE

theorem writeChunk_bal (W : WriteRule sb D J) (f : FileIx) (src : List UInt8)
    (h : Bal (J b L n) X Y s) (hip : (s.file f).ip ∈ (s.file f).inodeRef) :
    wp (Stops D) (writeChunk sb f src) (fun _ s' => Bal (J b L n) X Y s' ∧
      (s'.file f).ip ∈ (s'.file f).inodeRef) s := by
  unfold writeChunk
  simp only [wp_bind, wp_get]
  refine wp_mono (begin_op_bal C h) fun _ s1 h1 => ?_
  have hip1 : (s.file f).ip ∈ X + inodeRefs s1.file s1.proc := by
    rw [h1.file, h1.proc]
    exact mem_file hip
  refine wp_mono (ilock_bal C h1.bal hip1) fun _ s2 h2 => ?_
  refine wp_mono (writei_bal W _ _ h2.bal (mem_cons_self _ L)) ?_
  rintro (_ | r) s3 h3
  · refine wp_seq (iunlock_bal C h3.bal) fun _ s4 h4 => ?_
    refine wp_seq (end_op_bal C h4.bal) fun _ _ h5 => ⟨h5.bal, ?_⟩
    rwa [((((h1.trans h2).trans h3).trans h4).trans h5).file]
  · refine wp_seq (setOff_bal f _ h3.bal) fun _ s4 h4 => ?_
    refine wp_seq (iunlock_bal C h4.1) fun _ s5 h5 => ?_
    refine wp_seq (end_op_bal C h5.bal) fun _ _ h6 => ⟨h6.bal, ?_⟩
    rw [(h5.trans h6).file, h4.2.1, h4.2.2, ((h1.trans h2).trans h3).file]
    exact hip

theorem writeFile_bal (W : WriteRule sb D J) (f : FileIx) (turns : Nat) :
    ∀ {src : List UInt8} {s : State}, Bal (J b L n) X Y s →
    (s.file f).ip ∈ (s.file f).inodeRef →
    wp (Stops D) (writeFile sb f turns src) (fun _ s' => Bal (J b L n) X Y s') s := by
  induction turns with
  | zero => exact fun h _ => h
  | succ turns ih =>
    intro src s h hip
    unfold writeFile
    refine wp_ite.2 ⟨fun _ => h, fun _ => ?_⟩
    refine wp_seq (writeChunk_bal C W f _ h hip) ?_
    rintro (_ | r) s1 ⟨h1, hip1⟩
    · exact h1
    · exact wp_ite.2 ⟨fun _ => ih h1 hip1, fun _ => C.other _ (by simp) (by simp)⟩

theorem filewrite_bal (W : WriteRule sb D J) (f : FileIx) (src : List UInt8)
    (h : Bal (J b L n) X Y s) (hf : 0 < (s.file f).ref) :
    wp (Stops D) (filewrite sb f src) (fun _ s' => Bal (J b L n) X Y s') s := by
  unfold filewrite
  simp only [wp_bind, wp_get]
  refine wp_ite.2 ⟨fun _ => ?_, fun _ => h⟩
  split
  · exact h
  · rename_i htype
    have hip : (s.file f).ip ∈ (s.file f).inodeRef := by simp [File.inodeRef, hf, htype]
    exact wp_seq (writeFile_bal C W f _ h hip) fun _ _ h1 => h1
  · trivial

omit C in
theorem Bal.ref_pos (h : Bal R X 0 s) {fd : Fd} (hfd : (s.proc i).ofile fd = some f) :
    0 < (s.file f).ref := by
  have hcount : ((s.file f).ref : Int) = descriptors s.proc f + 0 := h.file f
  have hd := descriptors_update (P := s.proc) (i := i) (p := { s.proc i with
    ofile := update (s.proc i).ofile fd none }) fd none rfl f
  rw [if_pos hfd, if_neg (by simp)] at hd
  omega

theorem sys_read_bal (fd : Int) (m : Option Nat) (h : Bal (J b L n) X 0 s) :
    wp (Stops D) (sys_read sb i fd m) (fun _ s' => Bal (J b L n) X 0 s') s := by
  unfold sys_read
  refine wp_seq (argfd_bal i fd) ?_
  rintro (_ | ⟨fd, f⟩) s1 ⟨rfl, hfd⟩
  · exact h
  rcases m with _ | m
  · exact h
  · exact fileread_bal C f m h (h.ref_pos hfd)

theorem sys_write_bal (W : WriteRule sb D J) (fd : Int)
    (src : Option (List UInt8)) (h : Bal (J b L n) X 0 s) :
    wp (Stops D) (sys_write sb i fd src) (fun _ s' => Bal (J b L n) X 0 s') s := by
  unfold sys_write
  refine wp_seq (argfd_bal i fd) ?_
  rintro (_ | ⟨fd, f⟩) s1 ⟨rfl, hfd⟩
  · exact h
  rcases src with _ | src
  · exact h
  · exact filewrite_bal C W f src h (h.ref_pos hfd)

/-! ## Processes -/

/-- A new process, with no files and no directory. -/
structure Born (np : Slot) (s s' : State) : Prop where
  unused : (s.proc np).state = .UNUSED
  state : (s'.proc np).state = .EMBRYO
  idle : (s'.proc np).Idle
  other : ∀ j ≠ np, s'.proc j = s.proc j

omit C in
theorem allocproc_bal (h : Bal R X Y s) :
    wp (Stops D) allocproc (fun r s' => Bal R X Y s' ∧ match r with
      | none => True
      | some np => Born np s s') s := by
  unfold allocproc
  simp only [wp_bind, wp_get]
  cases hf : Fin.find? fun i => decide ((s.proc i).state = .UNUSED) with
  | none => exact ⟨h, trivial⟩
  | some np =>
    have hunused : (s.proc np).state = .UNUSED := by simpa using Fin.eq_true_of_find?_eq_some hf
    have hidle := h.idle np (.inl hunused)
    simp only [modProc, wp_bind, wp_modify]
    have h1 : ∀ k, Bal R X Y { s with
        proc := update s.proc np { s.proc np with state := .EMBRYO, pid := s.nextpid }
        nextpid := k } := by
      intro k
      refine (h.set_proc (i := np) (p := { s.proc np with state := .EMBRYO, pid := s.nextpid })
        rfl rfl fun _ => hidle).congr rfl rfl rfl
    refine wp_mono (mem_bal Vm.kalloc (h1 _)) ?_
    rintro (_ | k) s2 h2
    · simp only [wp_bind, wp_modify, wp_pure, and_true]
      refine h2.bal.set_proc rfl rfl fun _ => ?_
      simp only [h2.proc, update_self]
      exact hidle
    · simp only [wp_bind, wp_modify, wp_pure]
      refine ⟨h2.bal.set_proc rfl rfl fun _ => ?_, hunused, ?_, ?_, fun j hj => ?_⟩
      · simp only [h2.proc, update_self]
        exact hidle
      · simp only [h2.proc, update_self]
      · simp only [h2.proc, update_self]
        exact hidle
      · simp only [h2.proc, update_of_ne hj]

omit C in
/-- The child has nothing yet in the slots that are still to come. -/
theorem dupLoop_bal {np : Slot} (fds : List Fd) (hfds : fds.Nodup) : ∀ {s : State}, Bal R X Y s →
    (s.proc np).Alive → (∀ fd ∈ fds, (s.proc np).ofile fd = none) →
    wp (Stops D) (dupLoop i np fds) (fun _ s' => Bal R X Y s' ∧
      ∀ j, (s'.proc j).cwd = (s.proc j).cwd ∧ (s'.proc j).state = (s.proc j).state) s := by
  induction fds with
  | nil => exact fun h _ _ => ⟨h, fun _ => ⟨rfl, rfl⟩⟩
  | cons fd fds ih =>
    intro s h hnp hnone
    obtain ⟨hfd, hfds⟩ := List.nodup_cons.1 hfds
    unfold dupLoop
    simp only [wp_bind, wp_get]
    split
    · exact ih hfds h hnp fun fd' hfd' => hnone fd' (List.mem_cons_of_mem fd hfd')
    · rename_i f _
      refine wp_seq (filedup_bal f h) ?_
      rintro - s1 ⟨h1, hp1⟩
      rw [← hp1] at hnp hnone
      simp only [modProc]
      have h2 := h1.set_ofile fd (some f) (Z := Y) hnp fun f' => by
        simp [hnone fd List.mem_cons_self, one]
      refine wp_mono (ih hfds h2 ?_ fun fd' hfd' => ?_) ?_
      · simp only [update_self]
        exact hnp
      · have hne : fd' ≠ fd := by
          rintro rfl
          exact hfd hfd'
        simpa [hne] using hnone fd' (List.mem_cons_of_mem fd hfd')
      · rintro - s3 ⟨h3, hsame⟩
        refine ⟨h3, fun j => ?_⟩
        rw [(hsame j).1, (hsame j).2, ← hp1]
        by_cases hj : j = np
        · subst hj
          simp
        · simp [hj]

theorem fork_bal (h : Bal (J b L n) X Y s) (hi : (s.proc i).Alive) :
    wp (Stops D) (fork g i) (fun _ s' => Bal (J b L n) X Y s') s := by
  unfold fork
  refine wp_seq (getCwd_bal i) ?_
  rintro cwd s1 ⟨rfl, hcwd⟩
  refine wp_seq (allocproc_bal h) ?_
  rintro (_ | np) s2 ⟨h2, hnp⟩
  · exact h2
  have hne : i ≠ np := by
    rintro rfl
    exact hi (.inl hnp.unused)
  simp only [wp_bind, wp_get]
  refine wp_mono (mem_bal _ h2) ?_
  rintro (_ | d) s3 h3
  · refine wp_seq (mem_bal _ h3.bal) fun _ s4 h4 => ?_
    refine h4.bal.set_proc rfl rfl fun _ => ?_
    rw [h4.proc, h3.proc]
    exact hnp.idle
  · have halive : (s3.proc np).Alive := by
      rw [Proc.Alive, h3.proc, hnp.state]
      simp
    have hidle : (s3.proc np).Idle := h3.proc ▸ hnp.idle
    have hcwd3 : (s3.proc i).cwd = some cwd := by
      rw [h3.proc, hnp.other i hne]
      exact hcwd
    simp only [modProc, wp_bind, wp_modify]
    have h4 := h3.bal.set_proc (i := np)
      (p := { s3.proc np with
        pgdir := d, sz := (s2.proc i).sz, parent := some i, eip := (s2.proc i).eip
        esp := (s2.proc i).esp })
      rfl rfl fun hp => absurd hp halive
    refine wp_mono (dupLoop_bal (List.finRange 16) (List.nodup_finRange 16) h4 ?_ fun fd _ => ?_) ?_
    · simp only [update_self]
      exact halive
    · simpa using hidle.1 fd
    · rintro - s5 ⟨h5, hsame⟩
      have hnone : (s5.proc np).cwd = none := by
        rw [(hsame np).1]
        simpa using hidle.2
      have hcwd5 : (s5.proc i).cwd = some cwd := by
        rw [(hsame i).1]
        simpa [hne] using hcwd3
      refine wp_zoom.2 (wp_mono (C.idup (mem_refs hcwd5 rfl) h5.fs) ?_)
      rintro ip F ⟨rfl, hF⟩
      refine h5.set_cwd ?_ rfl fun hp => by simp at hp
      have hrefs := inodeRefs_proc (F := s5.file) (P := s5.proc) np
        { s5.proc np with cwd := some ip, name := safestrcpy (s2.proc i).name, state := .RUNNABLE }
      rw [hnone, target_none, add_zero, target_some] at hrefs
      rw [hrefs, ← add_assoc, add_comm, singleton_add]
      exact hF

theorem closeLoop_bal (fds : List Fd) : ∀ {b : Bool} {s : State},
    Bal (J b L n) X Y s → (s.proc i).Alive →
    wp (Stops D) (closeLoop g i fds) (fun _ s' => Bal (J false L n) X Y s' ∧ (s'.proc i).Alive ∧
      ∀ fd, fd ∈ fds ∨ (s.proc i).ofile fd = none → (s'.proc i).ofile fd = none) s := by
  induction fds with
  | nil => exact fun h hi => ⟨h.mono C.release, hi, fun fd hfd => by simpa using hfd⟩
  | cons fd fds ih =>
    intro b s h hi
    unfold closeLoop
    simp only [wp_bind, wp_get]
    split
    · rename_i hnone
      refine wp_mono (ih h hi) ?_
      rintro - s1 ⟨h1, hi1, hfds⟩
      refine ⟨h1, hi1, fun fd' hfd' => hfds fd' ?_⟩
      obtain hfd' | hfd' := hfd'
      · obtain rfl | hfd' := List.mem_cons.1 hfd'
        · exact .inr hnone
        · exact .inl hfd'
      · exact .inr hfd'
    · rename_i f hsome
      refine wp_seq (fileclose_bal C f h) ?_
      rintro - s1 ⟨h1, hp1⟩
      rw [← hp1] at hi hsome
      simp only [modProc]
      have h2 := h1.set_ofile fd none (Z := Y) hi fun f' => by simp [hsome, one]
      have hi2 : (update s1.proc i { s1.proc i with
          ofile := update (s1.proc i).ofile fd none } i).Alive := by
        rw [update_self]
        exact hi
      refine wp_mono (ih h2 hi2) ?_
      rintro - s3 ⟨h3, hi3, hfds⟩
      refine ⟨h3, hi3, fun fd' hfd' => hfds fd' ?_⟩
      simp only [update_self]
      by_cases hne : fd' = fd
      · exact .inr (by simp [hne])
      · rw [← hp1] at hfd'
        simpa [hne] using hfd'

theorem exit_bal (h : Bal (J b L n) X Y s) (hi : (s.proc i).Alive) :
    wp (Stops D) (exit g i) (fun _ s' => Bal (J false L n) X Y s') s := by
  unfold exit
  simp only [wp_bind, wp_get]
  refine wp_ite.2 ⟨fun _ => trivial, fun _ => ?_⟩
  refine wp_seq (closeLoop_bal C (List.finRange 16) h hi) ?_
  rintro - s1 ⟨h1, hi1, hfds⟩
  have hnone : ∀ fd, (s1.proc i).ofile fd = none := fun fd => hfds fd (.inl (List.mem_finRange fd))
  refine wp_seq (getCwd_bal i) ?_
  rintro cwd s2 ⟨rfl, hcwd⟩
  obtain ⟨E, hE, hupdate⟩ := inodeRefs_cwd hcwd
  have hrefs := h1.fs
  rw [hE, add_cons] at hrefs
  simp only [modProc, wp_bind]
  refine wp_zoom.2 (wp_mono (C.begin_op hrefs) fun _ F1 hF1 => ?_)
  refine wp_zoom.2 (wp_mono (C.iput hF1) fun _ F2 hF2 => ?_)
  refine wp_zoom.2 (wp_mono (C.end_op hF2) fun _ F3 hF3 => ?_)
  simp only [wp_modify]
  have h4 : Bal (J false L n) X Y { s2 with fs := F3, proc := update s2.proc i { s2.proc i with
      cwd := none } } := by
    refine h1.set_cwd ?_ rfl fun hp => absurd hp hi1
    rwa [hupdate, target_none, zero_add]
  have h5 := h4.set_procs (P := fun j =>
    if (update s2.proc i { s2.proc i with cwd := none } j).parent = some i then
      { update s2.proc i { s2.proc i with cwd := none } j with parent := some s2.initproc }
    else update s2.proc i { s2.proc i with cwd := none } j) fun j => by
      split <;> exact ⟨rfl, rfl, rfl⟩
  refine h5.set_proc rfl rfl fun _ => ?_
  refine ⟨fun fd => ?_, ?_⟩
  · simp only [update_self]
    split <;> exact hnone fd
  · simp only [update_self]
    split <;> rfl

omit C in
theorem wait_bal (h : Bal R X Y s) :
    wp (Stops D) (wait g i) (fun _ s' => Bal R X Y s') s := by
  unfold wait
  simp only [wp_bind, wp_get]
  cases hf : Fin.find? fun j => decide ((s.proc j).parent = some i ∧ (s.proc j).state = .ZOMBIE) with
  | some j =>
    have hj := Fin.eq_true_of_find?_eq_some hf
    simp only [decide_eq_true_eq] at hj
    refine wp_seq (mem_bal _ h) fun _ s1 h1 => ?_
    refine wp_seq (mem_bal _ h1.bal) fun _ s2 h2 => ?_
    refine h2.bal.set_proc rfl rfl fun _ => ?_
    rw [h2.proc, h1.proc]
    exact h.idle j (.inr hj.2)
  | none =>
    dsimp only
    split
    · exact h
    · trivial

omit C in
theorem sys_sbrk_bal (k : Int) (h : Bal R X Y s) (hi : (s.proc i).Alive) :
    wp (Stops D) (sys_sbrk g i k) (fun _ s' => Bal R X Y s') s := by
  unfold sys_sbrk growproc
  simp only [wp_bind, wp_get]
  refine wp_ite.2 ⟨fun _ => h, fun _ => ?_⟩
  refine wp_seq (mem_bal _ h) fun sz s1 h1 => ?_
  refine wp_ite.2 ⟨fun _ => h1.bal, fun _ => ?_⟩
  simp only [modProc, wp_bind, wp_modify]
  exact h1.bal.set_proc rfl rfl fun hp => absurd hp (h1.proc ▸ hi)

/-! ## `exec` -/

theorem loadPages_bal (pgdir : Page) (hip : ip ∈ L)
    (addr offset sz turns : Nat) : ∀ {k : Nat} {s : State}, Bal (J b L n) X Y s →
    wp (Stops D) (loadPages sb pgdir ip addr offset sz turns k)
      (fun _ s' => Steps (J b L n) X Y s s') s := by
  induction turns with
  | zero => exact fun h => h.refl
  | succ turns ih =>
    intro k s h
    unfold loadPages
    refine wp_ite.2 ⟨fun _ => ?_, fun _ => h.refl⟩
    refine wp_seq (mem_bal _ h) ?_
    rintro (_ | pte) s1 h1
    · trivial
    simp only [wp_bind, wp_get]
    refine wp_mono (readi_bal C _ _ h1.bal hip) ?_
    rintro (_ | bytes) s2 h2
    · exact h1.trans h2
    · refine wp_seq (mem_bal _ h2.bal) fun _ s3 h3 => ?_
      have hread := (h1.trans h2).trans h3
      refine wp_ite.2 ⟨fun _ => ?_, fun _ => hread⟩
      exact wp_mono (ih h3.bal) fun _ _ h4 => hread.trans h4

theorem loaduvm_bal (pgdir : Page) (hip : ip ∈ L) (addr offset sz : Nat)
    (h : Bal (J b L n) X Y s) :
    wp (Stops D) (loaduvm sb pgdir ip addr offset sz) (fun _ s' => Steps (J b L n) X Y s s') s := by
  unfold loaduvm
  exact wp_ite.2 ⟨fun _ => trivial, fun _ => loadPages_bal C pgdir hip addr offset sz _ h⟩

theorem loadLoop_bal (pgdir : Page) (hip : ip ∈ L) (turns : Nat) :
    ∀ {off sz : Nat} {s : State}, Bal (J b L n) X Y s →
    wp (Stops D) (loadLoop g sb pgdir ip turns off sz) (fun _ s' => Steps (J b L n) X Y s s')
      s := by
  induction turns with
  | zero => exact fun h => h.refl
  | succ turns ih =>
    intro off sz s h
    unfold loadLoop
    refine wp_seq (readi_bal C _ _ h hip) ?_
    rintro (_ | ph) s1 h1
    · exact h1
    have hnext : ∀ {off sz : Nat} {s2 : State}, Steps (J b L n) X Y s s2 →
        wp (Stops D) (loadLoop g sb pgdir ip turns off sz)
          (fun _ s' => Steps (J b L n) X Y s s') s2 :=
      fun h2 => wp_mono (ih h2.bal) fun _ _ h3 => h2.trans h3
    refine wp_ite.2 ⟨fun _ => h1, fun _ => wp_ite.2 ⟨fun _ => hnext h1, fun _ => ?_⟩⟩
    refine wp_ite.2 ⟨fun _ => h1, fun _ => wp_ite.2 ⟨fun _ => h1, fun _ => ?_⟩⟩
    refine wp_seq (mem_bal _ h1.bal) fun sz' s2 h2 => ?_
    have h2' := h1.trans h2
    refine wp_ite.2 ⟨fun _ => h2', fun _ => wp_ite.2 ⟨fun _ => h2', fun _ => ?_⟩⟩
    refine wp_seq (loaduvm_bal C pgdir hip _ _ _ h2.bal) fun ok s3 h3 => ?_
    exact wp_ite.2 ⟨fun _ => hnext (h2'.trans h3), fun _ => h2'.trans h3⟩

omit C in
theorem pushArgs_bal (pgdir : Page) (args : List (List UInt8)) :
    ∀ {ustack : List Nat} {sp : Nat} {s : State}, Bal R X Y s →
    wp (Stops D) (pushArgs pgdir args ustack sp) (fun _ s' => Steps R X Y s s') s := by
  induction args with
  | nil => exact fun h => h.refl
  | cons arg args ih =>
    intro ustack sp s h
    unfold pushArgs push
    refine wp_ite.2 ⟨fun _ => h.refl, fun _ => ?_⟩
    refine wp_seq (mem_bal _ h) fun ok s1 h1 => ?_
    refine wp_ite.2 ⟨fun _ => ?_, fun _ => h1⟩
    exact wp_mono (ih h1.bal) fun _ _ h2 => h1.trans h2

omit C in
theorem pushStack_bal (pgdir : Page) (argv : List (List UInt8)) (sz : Nat) (h : Bal R X Y s) :
    wp (Stops D) (pushStack pgdir argv sz) (fun _ s' => Steps R X Y s s') s := by
  unfold pushStack
  refine wp_seq (pushArgs_bal pgdir argv h) ?_
  rintro (_ | ⟨ustack, sp⟩) s1 h1
  · exact h1
  simp only [push, wp_bind]
  refine wp_mono (mem_bal _ h1.bal) fun ok s2 h2 => ?_
  exact wp_ite.2 ⟨fun _ => h1.trans h2, fun _ => h1.trans h2⟩

omit C in
theorem freeDir_bal (pgdir : Option Page) (h : Bal R X Y s) :
    wp (Stops D) (freeDir g pgdir) (fun _ s' => Steps R X Y s s') s := by
  unfold freeDir
  split
  · exact h.refl
  · exact mem_bal _ h

theorem execBad_bal (pgdir : Option Page)
    (h : Bal (J b (ip ::ₘ L) (n + 1)) (ip ::ₘ X) Y s) :
    wp (Stops D) (execBad g pgdir (some ip)) (fun _ s' => Bal (J false L n) X Y s') s := by
  unfold execBad
  exact wp_seq (freeDir_bal pgdir h) fun _ _ h1 => iunlockput_end_bal C (-1) h1.bal

omit C in
theorem execStack_bal (path : Path) (argv : List (List UInt8)) (entry : Nat) (pgdir : Page) (sz : Nat)
    (h : Bal R X Y s) (hi : (s.proc i).Alive) :
    wp (Stops D) (execStack g i path argv entry pgdir sz) (fun _ s' => Bal R X Y s') s := by
  have hbad : ∀ s', Bal R X Y s' →
      wp (Stops D) (execBad g (some pgdir) none) (fun _ s' => Bal R X Y s') s' := by
    intro s' h'
    unfold execBad
    exact wp_seq (freeDir_bal _ h') fun _ _ h'' => h''.bal
  unfold execStack
  refine wp_seq (mem_bal _ h) fun sz1 s1 h1 => ?_
  refine wp_ite.2 ⟨fun _ => hbad s1 h1.bal, fun _ => ?_⟩
  refine wp_seq (mem_bal _ h1.bal) fun _ s2 h2 => ?_
  refine wp_seq (pushStack_bal pgdir argv sz1 h2.bal) ?_
  rintro (_ | sp) s3 h3
  · exact hbad s3 h3.bal
  have hi3 : (s3.proc i).Alive := ((h1.trans h2).trans h3).proc ▸ hi
  simp only [modProc, wp_bind, wp_get, wp_modify]
  have h4 := h3.bal.set_proc (i := i) (p := { s3.proc i with
    name := safestrcpy (lastPart path), pgdir := pgdir, sz := sz1, eip := entry, esp := sp }) rfl rfl
    fun hp => absurd hp hi3
  exact wp_mono (mem_bal _ h4) fun _ _ h5 => h5.bal

theorem exec_bal (path : Path) (argv : List (List UInt8))
    (h : Bal (J true L n) X Y s) (hi : (s.proc i).Alive) :
    wp (Stops D) (exec g sb i path argv) (fun _ s' => Bal (J false L n) X Y s') s := by
  unfold exec
  refine wp_seq (getCwd_bal i) ?_
  rintro cwd s1 ⟨rfl, hcwd⟩
  refine wp_seq (begin_op_bal C h) fun _ s2 h2 => ?_
  refine wp_seq (namei_bal C path h2.bal (h2.proc ▸ hcwd)) ?_
  rintro (_ | ip) s3 h3
  · exact wp_seq (end_op_bal C h3.bal) fun _ _ h4 => h4.bal.mono C.release
  have hlock : ip ∈ ip ::ₘ L := mem_cons_self ip L
  refine wp_seq (ilock_own_bal C h3.bal) fun _ s4 h4 => ?_
  refine wp_seq (readi_bal C _ _ h4.bal hlock) ?_
  rintro (_ | elf) s5 h5
  · exact execBad_bal C none h5.bal
  refine wp_ite.2 ⟨fun _ => execBad_bal C none h5.bal, fun _ => ?_⟩
  refine wp_seq (mem_bal _ h5.bal) ?_
  rintro (_ | pgdir) s6 h6
  · exact execBad_bal C none h6.bal
  refine wp_seq (loadLoop_bal C pgdir hlock _ h6.bal) ?_
  rintro (_ | sz) s7 h7
  · exact execBad_bal C (some pgdir) h7.bal
  have hload := ((((h2.trans h3).trans h4).trans h5).trans h6).trans h7
  refine wp_seq (iunlockput_bal C h7.bal) fun _ s8 h8 => ?_
  refine wp_seq (end_op_bal C h8.bal) fun _ s9 h9 => ?_
  exact execStack_bal path argv _ pgdir sz h9.bal (((hload.trans h8).trans h9).proc ▸ hi)

theorem sys_exec_bal (args : Option (Path × List (List UInt8)))
    (h : Bal (J true L n) X Y s) (hi : (s.proc i).Alive) :
    wp (Stops D) (sys_exec g sb i args) (fun _ s' => Bal (J false L n) X Y s') s := by
  unfold sys_exec
  rcases args with _ | ⟨path, argv⟩
  · exact h.mono C.release
  · exact wp_ite.2 ⟨fun _ => h.mono C.release, fun _ => exec_bal C path argv h hi⟩

/-! ## Runs -/

def Call.isWrite : Call → Bool
  | .write _ _ => true
  | _ => false

theorem syscall_bal (c : Call) (W : c.isWrite = true → WriteRule sb D J)
    (h : Bal (J true L n) X 0 s) (hi : (s.proc i).Alive) :
    wp (Stops D) (syscall g sb i c) (fun _ s' => Bal (J false L n) X 0 s') s := by
  have hrel : ∀ {x : K Int}, wp (Stops D) x (fun _ s' => Bal (J true L n) X 0 s') s →
      wp (Stops D) x (fun _ s' => Bal (J false L n) X 0 s') s :=
    fun hx => wp_mono hx fun _ _ h1 => h1.mono C.release
  cases c with
  | fork => exact hrel (fork_bal C h hi)
  | exit =>
    unfold syscall
    exact wp_seq (exit_bal C h hi) fun _ _ h1 => h1
  | wait => exact hrel (wait_bal h)
  | sbrk k => exact hrel (sys_sbrk_bal k h hi)
  | exec args => exact sys_exec_bal C args h hi
  | pipe user => exact sys_pipe_bal C user h hi
  | dup fd => exact hrel (sys_dup_bal fd h hi)
  | close fd => exact sys_close_bal C fd h hi
  | read fd k => exact hrel (sys_read_bal C fd k h)
  | write fd src => exact hrel (sys_write_bal C (W rfl) fd src h)
  | opens path omode => exact sys_open_bal C path omode h hi
  | mkdir path => exact make_bal C path (by decide) 0 0 h
  | mknod path major minor => exact make_bal C path (by decide) _ _ h
  | chdir path => exact sys_chdir_bal C path h hi
  | link paths => exact sys_link_bal C paths h
  | unlink path => exact sys_unlink_bal C path h

theorem call_bal (c : Slot × Call) (W : c.2.isWrite = true → WriteRule sb D J)
    (h : Bal (J true L n) X 0 s) :
    wp (Stops D) (call g sb c) (fun _ s' => Bal (J false L n) X 0 s') s := by
  unfold call
  simp only [wp_bind, wp_get]
  refine wp_ite.2 ⟨fun hrun => syscall_bal C c.2 W h ?_, fun _ => trivial⟩
  rw [Proc.Alive, hrun]
  simp

omit C in
/-- Calls one after the other, for an invariant that does not know where a call begins. -/
theorem calls_bal {J : Multiset Ino → Nat → Multiset Ino → Fs.State → Prop}
    (C : CallRules sb D fun _ => J) (W : WriteRule sb D fun _ => J) (cs : List (Slot × Call)) :
    ∀ {s : State}, Bal (J L n) X 0 s →
    wp (Stops D) (calls g sb cs) (fun _ s' => Bal (J L n) X 0 s') s := by
  induction cs with
  | nil => exact fun h => h
  | cons c cs ih =>
    intro s h
    unfold calls
    exact wp_seq (call_bal C c (fun _ => W) h) fun _ _ h1 => ih h1

omit C in
theorem startothers_bal (k : Nat) : ∀ {s : State}, Bal R X Y s →
    wp (Stops D) (startothers k) (fun _ s' => Bal R X Y s') s := by
  induction k with
  | zero => exact fun h => h
  | succ k ih =>
    intro s h
    unfold startothers
    refine wp_seq (mem_bal _ h) ?_
    rintro (_ | p) s1 h1
    · trivial
    · exact ih (h1.bal.congr rfl rfl rfl)

omit C in
theorem inituvm_bal (pgdir : Page) (h : Bal R X Y s) :
    wp (Stops D) (inituvm pgdir) (fun _ s' => Steps R X Y s s') s := by
  unfold inituvm
  refine wp_seq (mem_bal _ h) ?_
  rintro (_ | p) s1 h1
  · trivial
  refine wp_seq (mem_bal _ h1.bal) fun _ s2 h2 => ?_
  refine wp_seq (mem_bal _ h2.bal) fun ok s3 h3 => ?_
  exact wp_ite.2 ⟨fun _ => (h1.trans h2).trans h3, fun _ => trivial⟩

theorem userinit_bal (h : Bal (J b L n) X Y s) :
    wp (Stops D) (userinit g) (fun _ s' => Bal (J b L n) X Y s') s := by
  unfold userinit
  refine wp_seq (allocproc_bal h) ?_
  rintro (_ | np) s1 ⟨h1, hnp⟩
  · trivial
  have h2 : Bal (J b L n) X Y { s1 with initproc := np } := h1.congr rfl rfl rfl
  simp only [wp_bind, wp_modify]
  refine wp_mono (mem_bal _ h2) ?_
  rintro (_ | pgdir) s3 h3
  · trivial
  have hidle : (s3.proc np).Idle := h3.proc ▸ hnp.idle
  simp only [modProc, wp_bind, wp_modify]
  have h4 := h3.bal.set_proc (i := np) (p := { s3.proc np with pgdir := pgdir }) rfl rfl
    fun _ => hidle
  refine wp_mono (inituvm_bal pgdir h4) fun _ s5 h5 => ?_
  have hnone : (s5.proc np).cwd = none := by
    rw [h5.proc]
    simpa using hidle.2
  refine wp_zoom.2 (wp_mono (C.root h5.bal.fs) fun ip F hF => ?_)
  refine h5.bal.set_cwd ?_ rfl fun hp => by simp at hp
  have hrefs := inodeRefs_proc (F := s5.file) (P := s5.proc) np
    { s5.proc np with
      sz := Vm.PGSIZE, esp := Vm.PGSIZE, eip := 0, name := "initcode".toList.map fun c => .ofNat c.toNat
      cwd := some ip
      state := .RUNNABLE }
  rw [hnone, target_none, add_zero, target_some] at hrefs
  rw [hrefs, ← add_assoc, add_comm, singleton_add]
  exact hF

omit C in
theorem start_bal (disk : Fs.State) (deny : List Bool) (h : R 0 (start disk deny).fs) :
    Bal R 0 0 (start disk deny) := by
  have hrefs : inodeRefs (start disk deny).file (start disk deny).proc = 0 := by
    simp [start, inodeRefs, File.inodeRef]
  refine ⟨?_, fun f => ?_, fun _ _ => rfl, fun _ _ => ⟨fun _ => rfl, rfl⟩⟩
  · rw [hrefs, add_zero]
    exact h
  · have hnone : descriptors (start disk deny).proc f = 0 := by
      unfold descriptors
      rw [Finset.card_eq_zero, Finset.filter_eq_empty_iff]
      intro x _
      simp [start]
    rw [hnone]
    rfl

theorem main_bal (ncpu : Nat) (h : Bal (J b L n) X Y s) :
    wp (Stops D) (main g ncpu) (fun _ s' => Bal (J b L n) X Y s') s := by
  unfold main kvmalloc
  simp only [wp_bind]
  refine wp_mono (mem_bal _ h) fun _ s1 h1 => ?_
  refine wp_mono (mem_bal _ h1.bal) ?_
  rintro (_ | d) s2 h2
  · trivial
  have h3 : Bal (J b L n) X Y { s2 with kpgdir := d } := h2.bal.congr rfl rfl rfl
  rw [wp_modify]
  refine wp_mono (startothers_bal _ h3) fun _ s4 h4 => ?_
  refine wp_mono (mem_bal _ h4) fun _ s5 h5 => ?_
  exact userinit_bal C h5.bal

end Laboratorio.Xv6.Kernel
