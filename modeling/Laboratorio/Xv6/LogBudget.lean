import Laboratorio.Xv6.Exact
import Laboratorio.Xv6.Fs.Budget
import Laboratorio.Xv6.Log

/-!
# Every operation fits its reservation in the log

`begin_op` reserves `MAXOPBLOCKS` blocks of the log for an operation.  From a well-formed state, and
with a bit map of one block, the operations of every system call that changes the file system stay
within them.  What they give to `log_write` is counted in `Xv6/Fs/Budget.lean`; the most is for a new
directory: the bit map, two inodes, and three entries with their indirect blocks.  `run_ready` says that
the calls reach well-formed states only.
-/

namespace Laboratorio.Xv6.Kernel

open Laboratorio.Lib TwoLevel
open Vm (Page Geometry)
open scoped Fs
open Fs (Ino Path Superblock Good Held Covered Pinned Paid BPB LogBlock)

/-- References balance, the file system is well-formed, and every inode without links is in use. -/
def FsReady (sb : Superblock) (s : State) : Prop :=
  Bal (fun E F => Held sb 0 0 E F ∧ Covered E F) 0 0 s

/-- The operations between two states, each with few enough distinct blocks. -/
def FitsLog (s s' : State) : Prop :=
  ∃ new, s'.fs.ops = new ++ s.fs.ops ∧ ∀ op ∈ new, (op.toFinset.card : Int) ≤ Log.MAXOPBLOCKS

variable {α : Type} {g : Geometry} {sb : Superblock} {s s1 s2 : State} {i : Slot} {f : FileIx}
  {E : Multiset Ino} {ip cwd : Ino} {o : List (List LogBlock)} {M : List Ino} {k n : Nat}
  {L : Multiset Ino}

theorem FitsLog.same (h : s1.fs.ops = s.fs.ops) : FitsLog s s1 := ⟨[], h, nofun⟩

theorem FitsLog.trans (h : FitsLog s s1) (h' : FitsLog s1 s2) : FitsLog s s2 := by
  obtain ⟨new, hnew, hcard⟩ := h
  obtain ⟨new', hnew', hcard'⟩ := h'
  refine ⟨new' ++ new, ?_, fun op hop => ?_⟩
  · rw [hnew', hnew, List.append_assoc]
  · exact (List.mem_append.1 hop).elim (hcard' op) (hcard op)

theorem FitsLog.of_paid (hsize : sb.size ≤ BPB) (hk : k ≤ 9) (h : Paid sb s.fs.ops M k L n E s1.fs) :
    FitsLog s s1 := by
  obtain ⟨l, hl, hcard⟩ := h.card_le hsize
  refine ⟨[l], hl, fun op hop => ?_⟩
  rw [List.mem_singleton.1 hop]
  unfold Log.MAXOPBLOCKS
  omega

/-! ## Programs on the file system inside the kernel -/

theorem fs_inside {x : Fs.F α} {Q : α → Fs.State → Prop} (h : wp (fun _ => True) x Q s.fs) :
    wp (fun _ => True) (fs x) (fun a s' => Q a s'.fs ∧ s'.proc = s.proc ∧ s'.file = s.file) s :=
  wp_zoom.2 (wp_mono h fun _ _ hQ => ⟨hQ, rfl, rfl⟩)

theorem filealloc_fs (s : State) :
    wp (fun _ => True) filealloc (fun r s' => s'.fs = s.fs ∧ s'.proc = s.proc ∧
      ∀ f, r = some f → (s.file f).ref = 0 ∧ (s'.file f).type = (s.file f).type) s := by
  unfold filealloc
  simp only [wp_bind, wp_get]
  cases hf : Fin.find? fun f => decide ((s.file f).ref = 0) with
  | none => exact ⟨rfl, rfl, by simp⟩
  | some f =>
    have href : (s.file f).ref = 0 := by simpa using Fin.eq_true_of_find?_eq_some hf
    simp only [modFile, wp_bind, wp_modify, wp_pure]
    refine ⟨trivial, trivial, ?_⟩
    rintro _ ⟨⟩
    exact ⟨href, by rw [Function.update_self]⟩

theorem fdalloc_fs (i : Slot) (f : FileIx) (s : State) :
    wp (fun _ => True) (fdalloc i f) (fun _ s' => s'.fs = s.fs ∧ s'.file = s.file) s := by
  unfold fdalloc
  simp only [wp_bind, wp_get]
  cases Fin.find? fun fd => ((s.proc i).ofile fd).isNone with
  | none => exact ⟨rfl, rfl⟩
  | some fd => exact ⟨rfl, rfl⟩

/-- A file that has no type is closed without an operation. -/
theorem fileclose_fs (htype : (s.file f).type = .FD_NONE) :
    wp (fun _ => True) (fileclose g f) (fun _ s' => s'.fs = s.fs) s := by
  unfold fileclose
  simp only [wp_bind, wp_get]
  refine wp_ite.2 ⟨fun _ => trivial, fun _ => wp_ite.2 ⟨fun _ => rfl, fun _ => ?_⟩⟩
  simp only [wp_bind, htype]
  exact rfl

theorem getCwd_same (i : Slot) (s : State) :
    wp (fun _ => True) (getCwd i) (fun ip s' => s' = s ∧ (s.proc i).cwd = some ip) s :=
  wp_weaken (getCwd_bal (D := fun _ => True) i) (fun _ _ h => h) fun _ _ => trivial

/-- An operation begins, in a state where nothing but the file system has been touched. -/
theorem begin_op_fits (h : FsReady sb s) :
    wp (fun _ => True) (fs Fs.begin_op) (fun _ s' =>
      (Paid sb s.fs.ops [] 0 0 1 (inodeRefs s.file s.proc) s'.fs ∧ Covered (inodeRefs s.file s.proc) s'.fs) ∧
      s'.proc = s.proc ∧ s'.file = s.file) s := by
  obtain ⟨hheld, hcov⟩ := h.fs
  rw [zero_add] at hheld hcov
  exact fs_inside (Fs.begin_op_paid hheld hcov)

theorem openInode_paid (path : Path) (omode : Nat) {F : Fs.State} (hcwd : cwd ∈ E) (hcov : Covered E F)
    (h : Paid sb o [] 0 0 n E F) :
    wp (fun _ => True) (openInode sb cwd path omode)
      (fun r F' => Paid sb o r.toList 8 (target r) n (target r + E) F') F := by
  unfold openInode
  refine wp_ite.2 ⟨fun _ => ?_, fun _ => ?_⟩
  · have htype : Fs.FType.T_FILE ≠ .free := by decide
    have hcreate := h.create htype hcov hcwd path 0 0
    simpa only [add_zero] using hcreate
  refine wp_seq (h.namei hcov hcwd path) ?_
  rintro (_ | ip) F1 ⟨h1, -⟩
  · exact h1.forget (fun _ hi => hi) (Nat.zero_le 8)
  simp only [target_some, Multiset.singleton_add, wp_bind] at h1 ⊢
  have hip := Multiset.mem_cons_self ip E
  refine wp_mono ((h1.charge hip).ilock hip) fun _ F2 h2 => ?_
  rw [wp_get]
  refine wp_ite.2 ⟨fun _ => ?_, fun _ => h2.forget (fun _ hi => hi) (by omega)⟩
  refine wp_seq (h2.iunlockput [] List.mem_cons_self (by simp)) fun _ F3 h3 => ?_
  simpa using h3.forget (fun _ hi => hi) (by omega)

/-! ## The calls -/

section

variable (hsize : sb.size ≤ BPB)

include hsize

theorem iunlockput_end_fits (hk : k ≤ 9) (r : Int)
    (h : Paid sb s.fs.ops [ip] k {ip} 1 (ip ::ₘ E) s1.fs) :
    wp (fun _ => True) (do fs (Fs.iunlockput ip); fs Fs.end_op; pure r) (fun _ s' => FitsLog s s') s1 := by
  refine wp_seq (fs_inside (h.iunlockput (L := 0) [] List.mem_cons_self nofun)) ?_
  rintro _ s2 ⟨h2, -, -⟩
  refine wp_seq (fs_inside h2.end_op) ?_
  rintro _ s3 ⟨h3, -, -⟩
  exact .of_paid hsize hk h3

theorem end_fits (hk : k ≤ 9) (r : α)
    (h : Paid sb s.fs.ops M k L 1 E s1.fs) :
    wp (fun _ => True) (do fs Fs.end_op; pure r) (fun _ s' => FitsLog s s') s1 := by
  refine wp_seq (fs_inside h.end_op) ?_
  rintro _ s2 ⟨h2, -, -⟩
  exact .of_paid hsize hk h2

theorem sys_open_fits (h : FsReady sb s) (path : Option Path) (omode : Nat) :
    wp (fun _ => True) (sys_open g sb i path omode) (fun _ s' => FitsLog s s') s := by
  unfold sys_open
  cases path with
  | none => exact .same rfl
  | some path =>
    refine wp_seq (getCwd_same i s) ?_
    rintro cwd s ⟨rfl, hcwd⟩
    refine wp_seq (begin_op_fits h) ?_
    rintro _ s2 ⟨⟨h2, hcov2⟩, hproc2, hfile2⟩
    refine wp_seq (fs_inside (openInode_paid path omode (mem_inodeRefs hcwd) hcov2 h2)) ?_
    rintro (_ | ip) s3 ⟨h3, -, hfile3⟩
    · exact end_fits hsize (by omega) _ h3
    simp only [target_some, Multiset.singleton_add, Option.toList_some, wp_bind] at h3 ⊢
    refine wp_mono (filealloc_fs s3) ?_
    rintro (_ | f) s4 ⟨hfs4, -, hnew⟩
    · exact iunlockput_end_fits hsize (by omega) _ (hfs4 ▸ h3)
    refine wp_seq (fdalloc_fs i f s4) ?_
    rintro (_ | fd) s5 ⟨hfs5, hfile5⟩
    · -- the new file has no type yet, so closing it is no operation
      have htype : (s5.file f).type = .FD_NONE := by
        obtain ⟨href, htype⟩ := hnew f rfl
        rw [hfile3, hfile2] at href htype
        rw [hfile5, htype]
        exact h.closed f href
      refine wp_seq (fileclose_fs htype) ?_
      intro _ s6 hfs6
      exact iunlockput_end_fits hsize (by omega) _ (hfs6 ▸ hfs5 ▸ hfs4 ▸ h3)
    · simp only [wp_bind]
      have h5 : Paid sb s.fs.ops [ip] 8 {ip} 1 (ip ::ₘ inodeRefs s.file s.proc) s5.fs :=
        hfs5 ▸ hfs4 ▸ h3
      refine wp_mono (fs_inside (h5.iunlock (L := 0))) ?_
      rintro _ s6 ⟨h6, -, -⟩
      refine wp_mono (fs_inside h6.end_op) ?_
      rintro _ s7 ⟨h7, -, -⟩
      exact .of_paid (k := 8) hsize (by omega) h7

theorem make_fits (h : FsReady sb s) (path : Option Path) {type : Fs.FType} (htype : type ≠ .free)
    (major minor : Int) :
    wp (fun _ => True) (make sb i path type major minor) (fun _ s' => FitsLog s s') s := by
  unfold make
  refine wp_seq (begin_op_fits h) ?_
  rintro _ s1 ⟨⟨h1, hcov1⟩, hproc1, -⟩
  cases path with
  | none => exact end_fits hsize (by omega) _ h1
  | some path =>
    refine wp_seq (getCwd_same i s1) ?_
    rintro cwd _ ⟨rfl, hcwd⟩
    rw [hproc1] at hcwd
    refine wp_seq (fs_inside (h1.create htype hcov1 (mem_inodeRefs hcwd) path major minor)) ?_
    rintro (_ | ip) s2 ⟨h2, -, -⟩
    · exact end_fits hsize (by omega) _ h2
    · simp only [target_some, Multiset.singleton_add, Option.toList_some, add_zero] at h2
      exact iunlockput_end_fits hsize (by omega) _ h2

theorem sys_chdir_fits (h : FsReady sb s) (path : Option Path) :
    wp (fun _ => True) (sys_chdir sb i path) (fun _ s' => FitsLog s s') s := by
  unfold sys_chdir
  refine wp_seq (begin_op_fits h) ?_
  rintro _ s1 ⟨⟨h1, hcov1⟩, hproc1, -⟩
  cases path with
  | none => exact end_fits hsize (by omega) _ h1
  | some path =>
    refine wp_seq (getCwd_same i s1) ?_
    rintro cwd _ ⟨rfl, hcwd⟩
    rw [hproc1] at hcwd
    have hmem := mem_inodeRefs (F := s.file) hcwd
    refine wp_seq (fs_inside (h1.namei hcov1 hmem path)) ?_
    rintro (_ | ip) s2 ⟨⟨h2, -⟩, -, -⟩
    · exact end_fits hsize (by omega) _ h2
    simp only [target_some, Multiset.singleton_add, wp_bind] at h2 ⊢
    have hip := Multiset.mem_cons_self ip (inodeRefs s.file s.proc)
    refine wp_mono (fs_inside ((h2.charge hip).ilock hip)) ?_
    rintro _ s3 ⟨h3, -, -⟩
    rw [wp_get]
    refine wp_ite.2 ⟨fun _ => ?_, fun _ => ?_⟩
    · exact iunlockput_end_fits hsize (by omega) _ h3
    refine wp_seq (fs_inside (h3.iunlock (L := 0))) ?_
    rintro _ s4 ⟨h4, -, -⟩
    obtain ⟨E, hE⟩ := Multiset.exists_cons_of_mem (Multiset.mem_cons_of_mem (b := ip) hmem)
    rw [hE] at h4
    refine wp_seq (fs_inside ((h4.charge (Multiset.mem_cons_self cwd E)).iput []
      List.mem_cons_self (by simp))) ?_
    rintro _ s5 ⟨h5, -, -⟩
    refine wp_seq (fs_inside h5.end_op) ?_
    rintro _ s6 ⟨h6, -, -⟩
    exact .of_paid (k := 2) hsize (by omega) h6

/-- A function of the file system that is a whole operation. -/
theorem whole_fits {x : Ino → Fs.F Bool} (h : FsReady sb s)
    (hx : ∀ {cwd E F}, cwd ∈ E → Held sb 0 0 E F → Covered E F →
      wp (fun _ => True) (x cwd) (fun _ F' => Paid sb F.ops [] 4 0 0 E F') F) :
    wp (fun _ => True) (do
      let cwd ← getCwd i
      let ok ← fs (x cwd)
      pure (if ok then (0 : Int) else -1)) (fun _ s' => FitsLog s s') s := by
  obtain ⟨hheld, hcov⟩ := h.fs
  rw [zero_add] at hheld hcov
  refine wp_seq (getCwd_same i s) ?_
  rintro cwd _ ⟨rfl, hcwd⟩
  refine wp_seq (fs_inside (hx (mem_inodeRefs hcwd) hheld hcov)) ?_
  rintro _ s2 ⟨h2, -, -⟩
  exact .of_paid hsize (by omega) h2

theorem sys_link_fits (h : FsReady sb s) (paths : Option (Path × Path)) :
    wp (fun _ => True) (sys_link sb i paths) (fun _ s' => FitsLog s s') s := by
  cases paths with
  | none => exact .same rfl
  | some paths => exact whole_fits hsize h (Fs.link_paid paths.1 paths.2)

theorem sys_unlink_fits (h : FsReady sb s) (path : Option Path) :
    wp (fun _ => True) (sys_unlink sb i path) (fun _ s' => FitsLog s s') s := by
  cases path with
  | none => exact .same rfl
  | some path => exact whole_fits hsize h (Fs.unlink_paid path)

/-! ## Closing files -/

theorem put_fits (hops : s1.fs.ops = s.fs.ops) (hip : ip ∈ E)
    (h : Held sb 0 0 E s1.fs) :
    wp (fun _ => True) (do fs Fs.begin_op; fs (Fs.iput ip); fs Fs.end_op) (fun _ s' => FitsLog s s') s1 := by
  obtain ⟨E, rfl⟩ := Multiset.exists_cons_of_mem hip
  refine wp_seq (fs_inside (Fs.begin_op_held h)) ?_
  rintro _ s2 ⟨⟨h2, -, -, hops2⟩, -, -⟩
  have hpaid := (Paid.start h2 hops2).charge hip
  refine wp_seq (fs_inside (hpaid.iput [] List.mem_cons_self nofun)) ?_
  rintro _ s3 ⟨h3, -, -⟩
  refine wp_mono (fs_inside h3.end_op) ?_
  rintro _ s4 ⟨h4, -, -⟩
  rw [hops] at h4
  exact .of_paid hsize (by omega) h4

omit hsize in
theorem pipeclose_fs (p : Page) (writable : Bool) (s : State) :
    wp (fun _ => True) (pipeclose g p writable) (fun _ s' => s'.fs = s.fs) s := by
  unfold pipeclose setPipe
  simp only [wp_bind, wp_get, wp_modify]
  refine wp_ite.2 ⟨fun _ => ?_, fun _ => rfl⟩
  exact wp_zoom.2 (wp_mono wp_true fun _ _ _ => rfl)

variable {X : Multiset Ino} {Y : FileIx → Int}

theorem fileclose_fits (h : Bal (Held sb 0 0) X Y s) :
    wp (fun _ => True) (fileclose g f) (fun _ s' => FitsLog s s') s := by
  unfold fileclose
  simp only [wp_bind, wp_get]
  refine wp_ite.2 ⟨fun _ => trivial, fun href => wp_ite.2 ⟨fun _ => .same rfl, fun _ => ?_⟩⟩
  simp only [modFile, wp_bind, wp_modify]
  cases htype : (s.file f).type with
  | FD_NONE => exact .same rfl
  | FD_PIPE => exact wp_mono (pipeclose_fs _ _ _) fun _ _ hfs => .same (congrArg Fs.State.ops hfs)
  | FD_INODE =>
    have hip : (s.file f).ip ∈ (s.file f).inodeRef := by
      rw [File.inodeRef, if_pos ⟨by omega, htype⟩]
      exact Multiset.mem_singleton_self _
    exact put_fits hsize rfl (mem_file hip) h.fs

theorem sys_close_fits (h : Bal (Held sb 0 0) X Y s) (hi : (s.proc i).Alive)
    (fd : Int) : wp (fun _ => True) (sys_close g i fd) (fun _ s' => FitsLog s s') s := by
  unfold sys_close
  refine wp_seq (wp_weaken (argfd_bal (D := fun _ => True) i fd) (fun _ _ h => h) fun _ _ => trivial) ?_
  rintro (_ | ⟨fd, f⟩) s ⟨rfl, hfd⟩
  · exact .same rfl
  simp only [modProc, wp_bind, wp_modify]
  have h1 : Bal (Held sb 0 0) X (Y + one f) { s with proc := Function.update s.proc i { s.proc i with
      ofile := Function.update (s.proc i).ofile fd none } } :=
    h.set_ofile fd none hi fun f' => by simp [one, hfd]
  exact wp_mono (fileclose_fits hsize h1) fun _ _ hfits => (FitsLog.same rfl).trans hfits

theorem closeLoop_fits (fds : List Fd) : ∀ {s : State},
    Bal (Held sb 0 0) X Y s → (s.proc i).Alive →
    wp (Stops (· ≠ .freeingFreeBlock)) (closeLoop g i fds)
      (fun _ s' => Bal (Held sb 0 0) X Y s' ∧ FitsLog s s') s := by
  induction fds with
  | nil => exact fun h _ => ⟨h, .same rfl⟩
  | cons fd fds ih =>
    intro s h hi
    unfold closeLoop
    simp only [wp_bind, wp_get]
    split
    · exact ih h hi
    · rename_i f hsome
      refine wp_seq (wp_also (fileclose_bal (b := true) heldRules f h) (fileclose_fits hsize h)) ?_
      rintro _ s1 ⟨⟨h1, hproc⟩, hfits⟩
      rw [← hproc] at hi hsome
      simp only [modProc]
      have h2 := h1.set_ofile fd none (Z := Y) hi fun f' => by simp [hsome, one]
      refine wp_mono (ih h2 ?_) ?_
      · simp only [Function.update_self]
        exact hi
      · rintro _ s3 ⟨h3, hfits'⟩
        exact ⟨h3, hfits.trans ((FitsLog.same rfl).trans hfits')⟩

theorem exit_fits (h : Bal (Held sb 0 0) X Y s) (hi : (s.proc i).Alive) :
    wp (fun _ => True) (exit g i) (fun _ s' => FitsLog s s') s := by
  unfold exit
  simp only [wp_bind, wp_get]
  refine wp_ite.2 ⟨fun _ => trivial, fun _ => ?_⟩
  simp only [wp_bind]
  refine wp_weaken (closeLoop_fits hsize (List.finRange 16) h hi) ?_ fun _ _ => trivial
  rintro _ s1 ⟨h1, hfits⟩
  refine wp_mono (getCwd_same i s1) ?_
  rintro cwd s1 ⟨rfl, hcwd⟩
  have hput := put_fits (s := s1) hsize rfl (mem_refs (X := X) hcwd rfl) h1.fs
  simp only [wp_bind] at hput
  refine wp_mono hput fun _ s2 h2 => wp_mono h2 fun _ s3 h3 => wp_mono h3 fun _ s4 h4 => ?_
  simp only [modProc, wp_modify]
  exact hfits.trans (h4.trans (.same rfl))

/-! ## One chunk of a write -/

omit hsize in
theorem card_span_chunk (off : Nat) {src : List UInt8} (h : src.length ≤ chunk) :
    (Fs.span off src.length).card ≤ 5 := by
  refine Fs.card_span_le (c := 3) ?_
  have hB : Fs.BSIZE = 512 := rfl
  have hchunk : chunk = 1536 := rfl
  rw [hchunk] at h
  rw [hB]
  omega

theorem writeChunk_fits (h : FsReady sb s) (href : 0 < (s.file f).ref)
    (htype : (s.file f).type = .FD_INODE) {src : List UInt8} (hsrc : src.length ≤ chunk) :
    wp (fun _ => True) (writeChunk sb f src) (fun _ s' => FitsLog s s') s := by
  have hip : (s.file f).ip ∈ (s.file f).inodeRef := by simp [File.inodeRef, href, htype]
  have hmem := mem_file (X := 0) hip
  rw [zero_add] at hmem
  unfold writeChunk
  simp only [wp_bind, wp_get]
  refine wp_mono (begin_op_fits h) ?_
  rintro _ s1 ⟨⟨h1, -⟩, -, -⟩
  refine wp_mono (fs_inside ((h1.charge hmem).ilock hmem)) ?_
  rintro _ s2 ⟨h2, -, -⟩
  refine wp_mono (fs_inside (h2.writei List.mem_cons_self (Multiset.mem_cons_self _ 0)
    (card_span_chunk _ hsrc))) ?_
  rintro (_ | r) s3 ⟨h3, -, -⟩
  · refine wp_seq (fs_inside (h3.iunlock (L := 0))) ?_
    rintro _ s4 ⟨h4, -, -⟩
    exact end_fits hsize (by omega) none h4
  · rw [wp_bind, modFile, wp_modify, wp_bind]
    refine wp_mono (fs_inside (s := { s3 with file := _ }) (h3.iunlock (L := 0))) ?_
    rintro _ s4 ⟨h4, -, -⟩
    exact end_fits hsize (by omega) (some r) h4

end

/-- The calls whose operations the log has to take. -/
def Call.isLogged : Call → Bool
  | .opens _ _ | .link _ | .unlink _ | .mkdir _ | .mknod _ _ _ | .chdir _ | .close _ | .exit => true
  | _ => false

theorem call_fits (hsize : sb.size ≤ BPB) (h : FsReady sb s) (c : Slot × Call)
    (hc : c.2.isLogged = true) : wp (fun _ => True) (call g sb c) (fun _ s' => FitsLog s s') s := by
  unfold call
  simp only [wp_bind, wp_get]
  refine wp_ite.2 ⟨fun hrun => ?_, fun _ => trivial⟩
  have hi : (s.proc c.1).Alive := by
    rw [Proc.Alive, hrun]
    simp
  have hheld : Bal (Held sb 0 0) 0 0 s := h.mono fun h => h.1
  obtain ⟨i, c⟩ := c
  cases c with
  | opens path omode => exact sys_open_fits hsize h path omode
  | link paths => exact sys_link_fits hsize h paths
  | unlink path => exact sys_unlink_fits hsize h path
  | mkdir path => exact make_fits hsize h path (by decide) 0 0
  | mknod path major minor => exact make_fits hsize h path (by decide) _ _
  | chdir path => exact sys_chdir_fits hsize h path
  | close fd => exact sys_close_fits hsize hheld hi fd
  | exit =>
    unfold syscall
    exact wp_seq (exit_fits hsize hheld hi) fun _ _ hfits => hfits
  | fork | wait | sbrk _ | exec _ | pipe _ | dup _ | read _ _ | write _ _ => cases hc

/-- With a bit map of one block, every operation of these calls, and that of every chunk of a write,
gives at most `MAXOPBLOCKS` distinct blocks to `log_write`. -/
theorem operations_fit_log (hsize : sb.size ≤ BPB) (h : FsReady sb s) :
    (∀ c : Slot × Call, c.2.isLogged = true → ∀ r s', call g sb c s = .ok (r, s') → FitsLog s s') ∧
    (∀ f src, 0 < (s.file f).ref → (s.file f).type = .FD_INODE → src.length ≤ chunk →
      ∀ r s', writeChunk sb f src s = .ok (r, s') → FitsLog s s') :=
  ⟨fun c hc _ _ hrun => (call_fits hsize h c hc).of_ok hrun,
    fun _ _ href htype hsrc _ _ hrun => (writeChunk_fits hsize h href htype hsrc).of_ok hrun⟩

/-! ## The states that calls reach -/

/-- From a well-formed disk without inodes that have lost their links, every run of system calls ends in
a state whose operations fit the log. -/
theorem run_ready (g : Geometry) (sb : Superblock) (ncpu : Nat) (disk : Fs.State) (deny : List Bool)
    (cs : List (Slot × Call)) (h : Good sb (start disk deny).fs)
    (hlinks : ∀ x, (disk.dinode x).type ≠ .free → (disk.dinode x).nlink ≠ 0) :
    wp (fun _ => True) (do main g ncpu; calls g sb cs) (fun _ s => FsReady sb s) (start disk deny) := by
  have C : CallRules sb (· ≠ .freeingFreeBlock) fun _ L n E F => Held sb L n E F ∧ Pinned E F :=
    .of_rules Pinned.rules
  have hstart : Held sb 0 0 0 (start disk deny).fs ∧ Pinned 0 (start disk deny).fs :=
    ⟨⟨refs_start disk deny, h, Multiset.nodup_zero, nofun⟩, fun x htype hnlink => absurd hnlink (hlinks x htype)⟩
  have hrun : wp (Stops (· ≠ .freeingFreeBlock)) (do main g ncpu; calls g sb cs)
      (fun _ s => Bal (fun E F => Held sb 0 0 E F ∧ Pinned E F) 0 0 s) (start disk deny) := by
    refine wp_seq (main_bal (b := true) C ncpu (start_bal disk deny hstart)) fun _ s₁ h₁ => ?_
    exact calls_bal C (fun _ _ _ _ _ _ src off hip h₂ => Pinned.rules.writei src off hip h₂) cs h₁
  refine wp_weaken hrun (fun _ _ h₁ => ?_) fun _ _ => trivial
  exact h₁.mono fun h₂ => ⟨h₂.1, h₂.2.covered⟩

/-- `mkdir("a")`, and then `mkdir("a/b")`. -/
theorem operations_fit_log_mkdir : Superblock.mkfs.size ≤ BPB ∧
    ∃ s, (do main .small 1; calls .small .mkfs [(0, .mkdir (some [97]))]) (start .mkfs []) = .ok ((), s) ∧
      FsReady .mkfs s ∧ ∃ r s', call .small .mkfs (0, .mkdir (some [97, 47, 98])) s = .ok (r, s') ∧
        FitsLog s s' := by
  have hsize : Superblock.mkfs.size ≤ BPB := by decide
  have hlinks : ∀ x, (Fs.State.mkfs.dinode x).type ≠ .free → (Fs.State.mkfs.dinode x).nlink ≠ 0 := by
    intro x htype
    by_cases hx : x = Fs.ROOTINO
    · rw [hx]
      decide
    · refine absurd ?_ htype
      show (Function.update (fun _ => Fs.Dinode.zero) Fs.ROOTINO _ x).type = .free
      rw [Function.update_of_ne hx]
      rfl
  obtain ⟨s, hrun, p, hcall, -⟩ : ∃ s, (do main .small 1; calls .small .mkfs [(0, .mkdir (some [97]))])
      (start .mkfs []) = .ok ((), s) ∧
        ∃ p, call .small .mkfs (0, .mkdir (some [97, 47, 98])) s = .ok p ∧ True := by
    decide +kernel
  have hready : FsReady .mkfs s := (run_ready .small .mkfs 1 .mkfs [] _ Good.mkfs hlinks).of_ok hrun
  exact ⟨hsize, s, hrun, hready, p.1, p.2, hcall, (operations_fit_log hsize hready).1 _ rfl p.1 p.2 hcall⟩

end Laboratorio.Xv6.Kernel
