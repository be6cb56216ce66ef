import Laboratorio.Xv6.Break

/-!
# Every page has one owner

`owners s` lists the owners of pages that a reader of the kernel's data finds: the free list, the
boot pages, the processes and the pipes.  `Owned` is the invariant of the system calls, by which
this list is a permutation of the pages given to `kfree` at boot.

* `Files` is the part of the invariant about open files; it holds for any pages `H` and directories
  `D` that others own, and `fileclose` and `pipealloc` keep it.
* `Calm` says which processes a call has left alone, with all their memory.
-/

namespace Laboratorio.Xv6.Kernel

open Laboratorio.Lib TwoLevel Function Multiset
open Vm (Page Mem Geometry Account Kept Image space KERNBASE PGSIZE PGROUNDUP addDir guardBelow)
open Fs (Ino Path Superblock)

/-- The pipe that an open file is an end of; the flag says whether it is the end written to. -/
def File.pipeEnd (f : File) : Option (Page × Bool) :=
  if 0 < f.ref ∧ f.type = .FD_PIPE then some (f.pipe, f.writable) else none

/-- The pages of the open pipes. -/
def pipePages (file : FileIx → File) : Finset Page :=
  (Finset.univ.filter fun f => (file f).pipeEnd.isSome).image fun f => (file f).pipe

/-- What a process owns. -/
def Proc.pages (page : Page → Nat → Vm.Pte) (p : Proc) : Multiset Page :=
  if p.state = .UNUSED then 0 else {p.kstack} + space page p.pgdir

/-- All owners of pages, each page as often as it is owned. -/
def owners (s : State) : Multiset Page :=
  s.mem.free + (space s.mem.page s.kpgdir + s.bootstacks) +
    ∑ i, (s.proc i).pages s.mem.page + (pipePages s.file).val

/-- Any stop but the panic of `kfree`. -/
def NoKfree : Stop → Prop
  | .vm e => e ≠ .kfree
  | _ => True

variable {α : Type} {g : Geometry} {sb : Superblock} {D H : Multiset Page} {s s1 s2 : State}

/-! ## Pipes -/

/-- Whether an end of a pipe is open. -/
def Pipe.isOpen (q : Pipe) (w : Bool) : Bool := if w then q.writeopen else q.readopen

/-- The flags of a pipe are those of the files that are its ends. -/
structure PipesOk (file : FileIx → File) (pipe : Page → Pipe) : Prop where
  closed : ∀ f, (file f).ref = 0 → (file f).type = .FD_NONE
  isOpen : ∀ f p w, (file f).pipeEnd = some (p, w) → (pipe p).isOpen w = true
  unique : ∀ f f' x, (file f).pipeEnd = some x → (file f').pipeEnd = some x → f = f'
  other : ∀ f p w, (file f).pipeEnd = some (p, w) → (pipe p).isOpen (!w) = true →
    ∃ f', (file f').pipeEnd = some (p, !w)

theorem File.pipeEnd_none {f : File} (h : f.type = .FD_NONE) : f.pipeEnd = none := by
  simp [File.pipeEnd, h]

theorem File.pipeEnd_some {f : File} {p : Page} {w : Bool} :
    f.pipeEnd = some (p, w) ↔ 0 < f.ref ∧ f.type = .FD_PIPE ∧ f.pipe = p ∧ f.writable = w := by
  unfold File.pipeEnd
  split
  · rename_i h
    simp [h.1, h.2]
  · rename_i h
    simp only [reduceCtorEq, false_iff]
    exact fun h' => h ⟨h'.1, h'.2.1⟩

theorem mem_pipePages {file : FileIx → File} {p : Page} :
    p ∈ pipePages file ↔ ∃ f w, (file f).pipeEnd = some (p, w) := by
  simp only [pipePages, Finset.mem_image, Finset.mem_filter, Finset.mem_univ, true_and,
    Option.isSome_iff_exists, Prod.exists]
  constructor
  · rintro ⟨f, ⟨p', w, hf⟩, rfl⟩
    obtain ⟨-, -, rfl, -⟩ := File.pipeEnd_some.1 hf
    exact ⟨f, w, hf⟩
  · rintro ⟨f, w, hf⟩
    exact ⟨f, ⟨p, w, hf⟩, (File.pipeEnd_some.1 hf).2.2.1⟩

/-- The files and pipes, where others own the directories `D` and the pages `H`. -/
def Files (g : Geometry) (D H : Multiset Page) (s : State) : Prop :=
  PipesOk s.file s.pipe ∧ Account g D (H + (pipePages s.file).val) s.mem

/-- A file that is the end of the same pipe as before, or of none as before. -/
protected theorem PipesOk.update {file : FileIx → File} {pipe : Page → Pipe} (h : PipesOk file pipe)
    {f : FileIx} {x : File} (hx : x.pipeEnd = (file f).pipeEnd)
    (hclosed : x.ref = 0 → x.type = .FD_NONE) :
    PipesOk (update file f x) pipe ∧ pipePages (update file f x) = pipePages file := by
  have hend : ∀ f', (update file f x f').pipeEnd = (file f').pipeEnd := by
    intro f'
    by_cases he : f' = f
    · subst he
      rw [update_self, hx]
    · rw [update_of_ne he]
  refine ⟨⟨fun f' => ?_, ?_, ?_, ?_⟩, ?_⟩
  · by_cases he : f' = f
    · subst he
      rw [update_self]
      exact hclosed
    · rw [update_of_ne he]
      exact h.closed f'
  · simpa only [hend] using h.isOpen
  · simpa only [hend] using h.unique
  · simpa only [hend] using h.other
  · ext p
    simp only [mem_pipePages, hend]

protected theorem Files.update (h : Files g D H s) {f : FileIx} {x : File} (hx : x.pipeEnd = (s.file f).pipeEnd)
    (hclosed : x.ref = 0 → x.type = .FD_NONE) :
    Files g D H { s with file := update s.file f x } := by
  obtain ⟨hok, hpages⟩ := h.1.update hx hclosed
  refine ⟨hok, ?_⟩
  rw [hpages]
  exact h.2

/-- What decides which pages a process owns, and its size. -/
def Proc.core (p : Proc) : ProcState × Page × Page × Nat := (p.state, p.pgdir, p.kstack, p.sz)

/-- What a call about files leaves alone. -/
structure Rest (D H : Multiset Page) (s s' : State) : Prop where
  core : ∀ i, (s'.proc i).core = (s.proc i).core
  kpgdir : s'.kpgdir = s.kpgdir
  bootstacks : s'.bootstacks = s.bootstacks
  mem : Kept D H s.mem s'.mem

theorem Rest.refl : Rest D H s s := ⟨fun _ => rfl, rfl, rfl, .refl⟩

theorem Rest.trans (h1 : Rest D H s s1) (h2 : Rest D H s1 s2) : Rest D H s s2 :=
  ⟨fun i => (h2.core i).trans (h1.core i), h2.kpgdir.trans h1.kpgdir,
    h2.bootstacks.trans h1.bootstacks, h1.mem.trans h2.mem⟩

/-- A program about files: whoever owns the other pages still does so afterwards. -/
def Keeps (g : Geometry) (x : K α) : Prop :=
  ∀ ⦃D H s⦄, Files g D H s → wp NoKfree x (fun _ s' => Files g D H s' ∧ Rest D H s s') s

/-- The file system owns no pages. -/
theorem fs_wp {x : Fs.F α} {Q : α → State → Prop} (h : ∀ a f, Q a { s with fs := f }) :
    wp NoKfree (fs x) Q s :=
  wp_fs (fun _ => trivial) h

/-- The last file of an end of a pipe is closed; the other end is open. -/
theorem PipesOk.shut {file : FileIx → File} {pipe : Page → Pipe} (h : PipesOk file pipe) {f : FileIx}
    {p : Page} {w : Bool} (hf : (file f).pipeEnd = some (p, w)) {x : File} (hx : x.pipeEnd = none)
    (hclosed : x.type = .FD_NONE) {q : Pipe} (hw : q.isOpen w = false)
    (hother : q.isOpen (!w) = (pipe p).isOpen (!w)) :
    PipesOk (update file f x) (update pipe p q) := by
  have hend : ∀ f' y, (update file f x f').pipeEnd = some y →
      f' ≠ f ∧ (file f').pipeEnd = some y := by
    intro f' y hy
    by_cases he : f' = f
    · subst he
      rw [update_self, hx] at hy
      cases hy
    · rw [update_of_ne he] at hy
      exact ⟨he, hy⟩
  -- the only other file of this pipe is its other end
  have hside : ∀ f' w', f' ≠ f → (file f').pipeEnd = some (p, w') → w' = !w := by
    intro f' w' hne hf'
    by_contra hw'
    have : w' = w := by
      cases w <;> cases w' <;> simp_all
    subst this
    exact hne (h.unique f' f _ hf' hf)
  refine ⟨fun f' => ?_, fun f' p' w' hf' => ?_, fun f1 f2 y h1 h2 => ?_, fun f' p' w' hf' ho => ?_⟩
  · by_cases he : f' = f
    · subst he
      rw [update_self]
      exact fun _ => hclosed
    · rw [update_of_ne he]
      exact h.closed f'
  · obtain ⟨hne, hend'⟩ := hend f' _ hf'
    by_cases hp : p' = p
    · subst hp
      rw [update_self, hside f' w' hne hend', hother, ← hside f' w' hne hend']
      exact h.isOpen f' p' w' hend'
    · rw [update_of_ne hp]
      exact h.isOpen f' p' w' hend'
  · exact h.unique f1 f2 y (hend f1 y h1).2 (hend f2 y h2).2
  · obtain ⟨hne, hend'⟩ := hend f' _ hf'
    by_cases hp : p' = p
    · subst hp
      rw [update_self, hside f' w' hne hend', Bool.not_not, hw] at ho
      cases ho
    · rw [update_of_ne hp] at ho
      obtain ⟨f'', hf''⟩ := h.other f' p' w' hend' ho
      refine ⟨f'', ?_⟩
      rw [update_of_ne]
      · exact hf''
      · rintro rfl
        rw [hf] at hf''
        simp_all

/-- The pages of the open pipes, when an end of `p` is closed. -/
theorem pipePages_shut {file : FileIx → File} {pipe : Page → Pipe} (h : PipesOk file pipe) {f : FileIx}
    {p : Page} {w : Bool} (hf : (file f).pipeEnd = some (p, w)) {x : File} (hx : x.pipeEnd = none) :
    (pipePages file).val = (if (pipe p).isOpen (!w) then 0 else {p}) +
      (pipePages (update file f x)).val := by
  have hmem : ∀ p', p' ∈ pipePages (update file f x) ↔
      ∃ f' w', f' ≠ f ∧ (file f').pipeEnd = some (p', w') := by
    intro p'
    rw [mem_pipePages]
    refine exists_congr fun f' => exists_congr fun w' => ?_
    by_cases he : f' = f
    · subst he
      simp [hx]
    · simp [he]
  split
  · rename_i ho
    obtain ⟨f', hf'⟩ := h.other f p w hf ho
    have hne : f' ≠ f := by
      rintro rfl
      rw [hf] at hf'
      simp at hf'
    have hsame : pipePages file = pipePages (update file f x) := by
      ext p'
      rw [hmem, mem_pipePages]
      constructor
      · rintro ⟨f'', w', hf''⟩
        by_cases he : f'' = f
        · subst he
          rw [hf] at hf''
          cases hf''
          exact ⟨f', _, hne, hf'⟩
        · exact ⟨f'', w', he, hf''⟩
      · rintro ⟨f'', w', -, hf''⟩
        exact ⟨f'', w', hf''⟩
    rw [zero_add, hsame]
  · rename_i ho
    have hnot : p ∉ pipePages (update file f x) := by
      rw [hmem]
      rintro ⟨f', w', hne, hf'⟩
      by_cases hw : w' = w
      · subst hw
        exact hne (h.unique f' f _ hf' hf)
      · have hw' : w' = !w := by cases w <;> cases w' <;> simp_all
        rw [hw'] at hf'
        exact ho (h.isOpen f' p _ hf')
    have hcons : pipePages file = Finset.cons p (pipePages (update file f x)) hnot := by
      ext p'
      rw [Finset.mem_cons, hmem, mem_pipePages]
      constructor
      · rintro ⟨f', w', hf'⟩
        by_cases he : f' = f
        · subst he
          rw [hf] at hf'
          cases hf'
          exact .inl rfl
        · exact .inr ⟨f', w', he, hf'⟩
      · rintro (rfl | ⟨f', w', -, hf'⟩)
        · exact ⟨f, w, hf⟩
        · exact ⟨f', w', hf'⟩
    rw [hcons, Finset.cons_val, singleton_add]

/-- `pipeclose` of an end whose file is already closed in the file table. -/
theorem pipeclose_wp {file : FileIx → File} {f : FileIx} {x : File} {p : Page} {w : Bool}
    (hok : PipesOk file s.pipe) (haccount : Account g D (H + (pipePages file).val) s.mem)
    (hf : (file f).pipeEnd = some (p, w)) (hs : s.file = update file f x)
    (hx : x.type = .FD_NONE) :
    wp NoKfree (pipeclose g p w) (fun _ s' => Files g D H s' ∧ Rest D H s s') s := by
  unfold pipeclose
  simp only [wp_bind, wp_get, setPipe, wp_modify]
  generalize hq : (if w = true then { s.pipe p with writeopen := false }
    else { s.pipe p with readopen := false } : Pipe) = q
  have hshut : q.isOpen w = false ∧ q.isOpen (!w) = (s.pipe p).isOpen (!w) ∧
      (q.readopen = false ∧ q.writeopen = false ↔ (s.pipe p).isOpen (!w) = false) := by
    subst hq
    cases w <;> simp [Pipe.isOpen]
  obtain ⟨hw, hother, hboth⟩ := hshut
  have hgone := File.pipeEnd_none hx
  have hok' := hok.shut hf hgone hx hw hother
  rw [← hs] at hok'
  rw [pipePages_shut hok hf hgone, ← hs] at haccount
  split
  · rename_i hclosed
    rw [hboth.1 hclosed, add_left_comm] at haccount
    refine wp_mem (wp_mono (Vm.kfree_wp haccount) ?_)
    rintro - m ⟨hm, -, hkept⟩
    exact ⟨⟨hok', hm⟩, ⟨fun _ => rfl, rfl, rfl,
      hkept.mono (Multiset.Subset.refl _) (subset_of_le (le_add_right _ _))⟩⟩
  · rename_i hopen
    rw [hboth, Bool.not_eq_false] at hopen
    rw [hopen, if_pos rfl, zero_add] at haccount
    exact ⟨⟨hok', haccount⟩, ⟨fun _ => rfl, rfl, rfl, .refl⟩⟩

theorem fileclose_keeps (f : FileIx) : Keeps g (fileclose g f) := by
  intro D H s h
  unfold fileclose
  simp only [wp_bind, wp_get]
  split
  · trivial
  · rename_i hpos
    split
    · rename_i hlast
      simp only [modFile, wp_modify]
      refine ⟨h.update ?_ ?_, ⟨fun _ => rfl, rfl, rfl, .refl⟩⟩
      · have h1 : 0 < (s.file f).ref := by omega
        have h2 : 0 < (s.file f).ref - 1 := by omega
        simp [File.pipeEnd, h1, h2]
      · intro h0
        dsimp only at h0
        omega
    · simp only [modFile, wp_bind, wp_modify]
      cases htype : (s.file f).type with
      | FD_NONE =>
        refine ⟨h.update ?_ fun _ => rfl, ⟨fun _ => rfl, rfl, rfl, .refl⟩⟩
        rw [File.pipeEnd_none htype, File.pipeEnd_none rfl]
      | FD_INODE =>
        have h' : Files g D H { s with
            file := update s.file f { s.file f with ref := 0, type := .FD_NONE } } := by
          refine h.update ?_ fun _ => rfl
          rw [File.pipeEnd_none rfl]
          simp [File.pipeEnd, htype]
        simp only [wp_bind]
        exact fs_wp fun _ _ => fs_wp fun _ _ => fs_wp fun _ _ => ⟨h', ⟨fun _ => rfl, rfl, rfl, .refl⟩⟩
      | FD_PIPE =>
        have hend : (s.file f).pipeEnd = some ((s.file f).pipe, (s.file f).writable) :=
          File.pipeEnd_some.2 ⟨by omega, htype, rfl, rfl⟩
        refine wp_mono (pipeclose_wp (x := { s.file f with ref := 0, type := .FD_NONE }) h.1 h.2 hend
          rfl rfl) ?_
        rintro - s' ⟨h', hrest⟩
        exact ⟨h', hrest.core, hrest.kpgdir, hrest.bootstacks, hrest.mem⟩

/-! ## Programs about files -/

section Keeps

variable {β : Type} {x : K α} {y : α → K β}

theorem Keeps.bind (hx : Keeps g x) (hy : ∀ a, Keeps g (y a)) : Keeps g (x >>= y) := by
  intro D H s h
  refine wp_seq (hx h) ?_
  rintro a s1 ⟨h1, hrest1⟩
  refine wp_mono (hy a h1) ?_
  rintro b s2 ⟨h2, hrest2⟩
  exact ⟨h2, hrest1.trans hrest2⟩

theorem Keeps.pure (a : α) : Keeps g (pure a : K α) := fun _ _ _ h => ⟨h, .refl⟩

theorem Keeps.get : Keeps g (get : K State) := fun _ _ _ h => ⟨h, .refl⟩

theorem Keeps.throw {e : Stop} (he : NoKfree e) : Keeps g (throw e : K α) := fun _ _ _ _ => he

theorem Keeps.fs (x : Fs.F α) : Keeps g (fs x) := fun _ _ _ h =>
  fs_wp fun _ _ => ⟨h, fun _ => rfl, rfl, rfl, .refl⟩

theorem Keeps.modProc (i : Slot) {f : Proc → Proc} (hf : ∀ p, (f p).core = p.core) :
    Keeps g (modProc i f) := by
  intro D H s h
  refine ⟨h, fun j => ?_, rfl, rfl, .refl⟩
  by_cases hj : j = i
  · subst hj
    simp [hf]
  · simp [hj]

/-- `f->off` is the business of readers and writers alone. -/
theorem Keeps.modOff (f : FileIx) (off : File → Nat) :
    Keeps g (modFile f fun h => { h with off := off h }) := by
  intro D H s h
  refine ⟨h.update rfl ?_, fun _ => rfl, rfl, rfl, .refl⟩
  exact h.1.closed f

theorem getCwd_keeps (i : Slot) : Keeps g (getCwd i) := by
  unfold getCwd
  refine .bind .get fun s => ?_
  split
  · exact .pure _
  · exact .throw trivial

theorem filedup_keeps (f : FileIx) : Keeps g (filedup f) := by
  intro D H s h
  unfold filedup
  simp only [wp_bind, wp_get]
  split
  · trivial
  · simp only [modFile, wp_modify]
    refine ⟨h.update ?_ ?_, fun _ => rfl, rfl, rfl, .refl⟩
    · have : 0 < (s.file f).ref := by omega
      simp [File.pipeEnd, this]
    · simp

theorem fdalloc_keeps (i : Slot) (f : FileIx) : Keeps g (fdalloc i f) := by
  unfold fdalloc
  refine .bind .get fun s => ?_
  split
  · exact .pure _
  · exact .bind (.modProc _ fun _ => rfl) fun _ => .pure _

theorem argfd_keeps (i : Slot) (fd : Int) : Keeps g (argfd i fd) := by
  unfold argfd
  refine .bind .get fun s => ?_
  split
  · exact .pure _
  · split
    · exact .pure _
    · exact .pure _

theorem sys_dup_keeps (i : Slot) (fd : Int) : Keeps g (sys_dup i fd) := by
  unfold sys_dup
  refine .bind (argfd_keeps i fd) fun r => ?_
  split
  · exact .pure _
  · refine .bind (fdalloc_keeps _ _) fun r => ?_
    split
    · exact .pure _
    · exact .bind (filedup_keeps _) fun _ => .pure _

theorem sys_close_keeps (i : Slot) (fd : Int) : Keeps g (sys_close g i fd) := by
  unfold sys_close
  refine .bind (argfd_keeps i fd) fun r => ?_
  split
  · exact .pure _
  · exact .bind (.modProc _ fun _ => rfl) fun _ => .bind (fileclose_keeps _) fun _ => .pure _

end Keeps

/-! ## `pipe` and `open` -/

/-- A file that `filealloc` has just returned. -/
def Fresh (s : State) (f : FileIx) : Prop := (s.file f).ref = 1 ∧ (s.file f).type = .FD_NONE

theorem filealloc_wp (h : Files g D H s) :
    wp NoKfree filealloc (fun r s' => Files g D H s' ∧ Rest D H s s' ∧ ∀ f, r = some f →
      Fresh s' f ∧ (s.file f).ref = 0 ∧ ∀ f' ≠ f, s'.file f' = s.file f') s := by
  unfold filealloc
  simp only [wp_bind, wp_get]
  cases hf : Fin.find? fun f => decide ((s.file f).ref = 0) with
  | none => exact ⟨h, .refl, by simp⟩
  | some f =>
    have h0 : (s.file f).ref = 0 := by
      simpa using Fin.eq_true_of_find?_eq_some hf
    have hnone := h.1.closed f h0
    simp only [modFile, wp_bind, wp_modify, wp_pure]
    refine ⟨h.update ?_ (by simp), ⟨fun _ => rfl, rfl, rfl, .refl⟩, ?_⟩
    · rw [File.pipeEnd_none hnone]
      exact File.pipeEnd_none hnone
    · rintro f' ⟨⟩
      refine ⟨?_, h0, fun f' hf' => update_of_ne hf' _ _⟩
      simp [Fresh, hnone]

/-- Two files become the ends of a new pipe. -/
theorem PipesOk.create {file : FileIx → File} {pipe : Page → Pipe} (h : PipesOk file pipe)
    {f0 f1 : FileIx} {x y : File} {p : Page} (hne : f1 ≠ f0) (h0 : (file f0).pipeEnd = none)
    (h1 : (file f1).pipeEnd = none) (hx : x.pipeEnd = some (p, false))
    (hy : y.pipeEnd = some (p, true)) (hp : p ∉ pipePages file) :
    PipesOk (update (update file f0 x) f1 y)
        (update pipe p ⟨true, true⟩) ∧
      (pipePages (update (update file f0 x) f1 y)).val =
        p ::ₘ (pipePages file).val := by
  generalize hfile : update (update file f0 x) f1 y = file'
  have hself1 : file' f1 = y := by rw [← hfile, update_self]
  have hself0 : file' f0 = x := by
    rw [← hfile, update_of_ne hne.symm, update_self]
  have hother : ∀ f, f ≠ f0 → f ≠ f1 → file' f = file f := by
    intro f hf0 hf1
    rw [← hfile, update_of_ne hf1, update_of_ne hf0]
  have hcases : ∀ f q w, (file' f).pipeEnd = some (q, w) →
      (f = f0 ∧ q = p ∧ w = false) ∨ (f = f1 ∧ q = p ∧ w = true) ∨
      (q ≠ p ∧ (file f).pipeEnd = some (q, w)) := by
    intro f q w hf
    by_cases hf0 : f = f0
    · subst hf0
      rw [hself0, hx] at hf
      simp_all
    · by_cases hf1 : f = f1
      · subst hf1
        rw [hself1, hy] at hf
        simp_all
      · rw [hother f hf0 hf1] at hf
        refine .inr (.inr ⟨?_, hf⟩)
        rintro rfl
        exact hp (mem_pipePages.2 ⟨f, w, hf⟩)
  have hold : ∀ f y, (file f).pipeEnd = some y → (file' f).pipeEnd = some y := by
    intro f y hf
    rw [hother f]
    · exact hf
    · rintro rfl
      simp_all
    · rintro rfl
      simp_all
  refine ⟨⟨fun f hf => ?_, fun f q w hf => ?_, fun f f' y hf hf' => ?_, fun f q w hf ho => ?_⟩, ?_⟩
  · by_cases hf0 : f = f0
    · rw [hf0, hself0] at hf
      exact absurd hf (File.pipeEnd_some.1 hx).1.ne'
    · by_cases hf1 : f = f1
      · rw [hf1, hself1] at hf
        exact absurd hf (File.pipeEnd_some.1 hy).1.ne'
      · rw [hother f hf0 hf1] at hf ⊢
        exact h.closed f hf
  · obtain ⟨-, rfl, rfl⟩ | ⟨-, rfl, rfl⟩ | ⟨hq, hf⟩ := hcases f q w hf
    · simp [Pipe.isOpen]
    · simp [Pipe.isOpen]
    · rw [update_of_ne hq]
      exact h.isOpen f q w hf
  · obtain ⟨q, w⟩ := y
    obtain ⟨rfl, rfl, rfl⟩ | ⟨rfl, rfl, rfl⟩ | ⟨hq, hf⟩ := hcases f q w hf
    · obtain ⟨rfl, -, -⟩ | ⟨-, -, hw⟩ | ⟨hq, -⟩ := hcases f' _ _ hf'
      · rfl
      · cases hw
      · exact absurd rfl hq
    · obtain ⟨-, -, hw⟩ | ⟨rfl, -, -⟩ | ⟨hq, -⟩ := hcases f' _ _ hf'
      · cases hw
      · rfl
      · exact absurd rfl hq
    · obtain ⟨-, hq', -⟩ | ⟨-, hq', -⟩ | ⟨-, hf'⟩ := hcases f' _ _ hf'
      · exact absurd hq' hq
      · exact absurd hq' hq
      · exact h.unique f f' _ hf hf'
  · obtain ⟨rfl, rfl, rfl⟩ | ⟨rfl, rfl, rfl⟩ | ⟨hq, hf⟩ := hcases f q w hf
    · exact ⟨f1, by rw [hself1, hy]; rfl⟩
    · exact ⟨f0, by rw [hself0, hx]; rfl⟩
    · rw [update_of_ne hq] at ho
      obtain ⟨f', hf'⟩ := h.other f q w hf ho
      exact ⟨f', hold f' _ hf'⟩
  · have hcons : pipePages file' = Finset.cons p (pipePages file) hp := by
      ext q
      rw [Finset.mem_cons, mem_pipePages, mem_pipePages]
      constructor
      · rintro ⟨f, w, hf⟩
        obtain ⟨-, rfl, -⟩ | ⟨-, rfl, -⟩ | ⟨-, hf⟩ := hcases f q w hf
        · exact .inl rfl
        · exact .inl rfl
        · exact .inr ⟨f, w, hf⟩
      · rintro (rfl | ⟨f, w, hf⟩)
        · exact ⟨f0, false, by rw [hself0, hx]⟩
        · exact ⟨f, w, hold f _ hf⟩
    rw [hcons, Finset.cons_val]

theorem pipealloc_keeps : Keeps g (pipealloc g) := by
  intro D H s h
  unfold pipealloc
  refine wp_seq (filealloc_wp h) ?_
  rintro (_ | f0) s1 ⟨h1, hrest1, hf0⟩
  · exact ⟨h1, hrest1⟩
  · obtain ⟨hfresh, -, -⟩ := hf0 f0 rfl
    refine wp_seq (filealloc_wp h1) ?_
    rintro (_ | f1) s2 ⟨h2, hrest2, hf1⟩
    · refine wp_seq (fileclose_keeps f0 h2) ?_
      rintro - s3 ⟨h3, hrest3⟩
      exact ⟨h3, (hrest1.trans hrest2).trans hrest3⟩
    · obtain ⟨hfresh1, href1, hother⟩ := hf1 f1 rfl
      have hne : f1 ≠ f0 := by
        rintro rfl
        rw [hfresh.1] at href1
        cases href1
      have hfresh0 : Fresh s2 f0 := by
        unfold Fresh
        rw [hother f0 hne.symm]
        exact hfresh
      simp only [wp_bind]
      refine wp_mem (wp_mono (Vm.kalloc_wp h2.2) ?_)
      rintro (_ | p) m ⟨hm, hpage, hbytes⟩
      · have h3 : Files g D H { s2 with mem := m } := ⟨h2.1, by simpa using hm⟩
        refine wp_seq (fileclose_keeps f0 h3) ?_
        rintro - s4 ⟨h4, hrest4⟩
        refine wp_seq (fileclose_keeps f1 h4) ?_
        rintro - s5 ⟨h5, hrest5⟩
        have hmem : Rest D H s2 { s2 with mem := m } := ⟨fun _ => rfl, rfl, rfl, .of_eq hpage hbytes⟩
        exact ⟨h5, (hrest1.trans hrest2).trans (hmem.trans (hrest4.trans hrest5))⟩
      · rw [target_some] at hm
        have hp : p ∉ pipePages s2.file := by
          intro hp
          have hn := (nodup_add.1 hm.nodup).2.1
          exact disjoint_left.1 (nodup_add.1 hn).2.2 (mem_singleton_self p)
            (mem_add.2 (.inr hp))
        simp only [setPipe, modFile, wp_bind, wp_modify, wp_pure]
        have hcreate := h2.1.create hne (File.pipeEnd_none hfresh0.2) (File.pipeEnd_none hfresh1.2)
          (x := { s2.file f0 with
            type := .FD_PIPE, readable := true, writable := false, pipe := p })
          (y := { update s2.file f0 { s2.file f0 with
              type := .FD_PIPE, readable := true, writable := false, pipe := p } f1 with
            type := .FD_PIPE, readable := false, writable := true, pipe := p })
          (by simp [File.pipeEnd, hfresh0.1]) (by simp [File.pipeEnd, hne, hfresh1.1]) hp
        refine ⟨⟨hcreate.1, ?_⟩, hrest1.trans ⟨hrest2.core, hrest2.kpgdir, hrest2.bootstacks,
          hrest2.mem.trans (.of_eq hpage hbytes)⟩⟩
        have hpages := hcreate.2
        unfold Account at hm ⊢
        rw [← hm]
        dsimp only at hpages ⊢
        rw [hpages, ← singleton_add]
        abel

theorem fdalloc_file (i : Slot) (f : FileIx) :
    wp NoKfree (fdalloc i f) (fun _ s' => s'.file = s.file) s := by
  unfold fdalloc
  simp only [wp_bind, wp_get]
  split
  · exact rfl
  · exact rfl

theorem sys_pipe_keeps (i : Slot) (user : Bool) : Keeps g (sys_pipe g i user) := by
  unfold sys_pipe
  split
  · refine .bind pipealloc_keeps fun r => ?_
    split
    · exact .pure _
    · refine .bind (fdalloc_keeps _ _) fun r => ?_
      split
      · exact .bind (fileclose_keeps _) fun _ => .bind (fileclose_keeps _) fun _ => .pure _
      · refine .bind (fdalloc_keeps _ _) fun r => ?_
        split
        · exact .bind (.modProc _ fun _ => rfl) fun _ => .bind (fileclose_keeps _) fun _ =>
            .bind (fileclose_keeps _) fun _ => .pure _
        · exact .pure _
  · exact .pure _

theorem openBad_keeps (ip : Ino) : Keeps g (openBad ip) :=
  .bind (.fs _) fun _ => .bind (.fs _) fun _ => .pure _

theorem sys_open_keeps (i : Slot) (path : Option Path) (omode : Nat) :
    Keeps g (sys_open g sb i path omode) := by
  unfold sys_open
  split
  · exact .pure _
  · refine .bind (getCwd_keeps i) fun cwd => .bind (.fs _) fun _ => .bind (.fs _) fun r => ?_
    split
    · exact .bind (.fs _) fun _ => .pure _
    · intro D H s h
      refine wp_seq (filealloc_wp h) ?_
      rintro (_ | f) s1 ⟨h1, hrest1, hf⟩
      · refine wp_mono (openBad_keeps _ h1) ?_
        rintro - s2 ⟨h2, hrest2⟩
        exact ⟨h2, hrest1.trans hrest2⟩
      · obtain ⟨hfresh, -, -⟩ := hf f rfl
        refine wp_seq (wp_and (fdalloc_keeps i f h1) (fdalloc_file i f)) ?_
        rintro (_ | fd) s2 ⟨⟨h2, hrest2⟩, hfile⟩
        · refine wp_seq (fileclose_keeps f h2) ?_
          rintro - s3 ⟨h3, hrest3⟩
          refine wp_mono (openBad_keeps _ h3) ?_
          rintro - s4 ⟨h4, hrest4⟩
          exact ⟨h4, (hrest1.trans hrest2).trans (hrest3.trans hrest4)⟩
        · simp only [wp_bind]
          have hopen := h2.update (f := f) (x := { s2.file f with
            type := .FD_INODE
            ip := ‹Ino›
            off := 0
            readable := decide (omode &&& O_WRONLY = 0)
            writable := decide (omode &&& O_WRONLY ≠ 0 ∨ omode &&& O_RDWR ≠ 0) }) ?_ ?_
          · refine fs_wp fun _ _ => fs_wp fun _ _ => ?_
            simp only [modFile, wp_modify, wp_pure]
            exact ⟨hopen, (hrest1.trans hrest2).core, (hrest1.trans hrest2).kpgdir,
              (hrest1.trans hrest2).bootstacks, (hrest1.trans hrest2).mem⟩
          · rw [hfile, File.pipeEnd_none hfresh.2]
            simp [File.pipeEnd]
          · rw [hfile]
            intro h0
            exact absurd (hfresh.1.symm.trans h0) one_ne_zero

/-! ## The other calls about files -/

theorem made_keeps (r : Option Ino) : Keeps g (made r) := by
  unfold made
  split
  · exact .bind (.fs _) fun _ => .pure _
  · exact .bind (.fs _) fun _ => .bind (.fs _) fun _ => .pure _

theorem make_keeps (i : Slot) (path : Option Path) (type : Fs.FType) (major minor : Int) :
    Keeps g (make sb i path type major minor) := by
  unfold make
  refine .bind (.fs _) fun _ => ?_
  split
  · exact made_keeps _
  · exact .bind (getCwd_keeps i) fun _ => .bind (.fs _) fun _ => made_keeps _

theorem sys_chdir_keeps (i : Slot) (path : Option Path) : Keeps g (sys_chdir sb i path) := by
  unfold sys_chdir
  refine .bind (.fs _) fun _ => ?_
  split
  · exact .bind (.fs _) fun _ => .pure _
  · refine .bind (getCwd_keeps i) fun _ => .bind (.fs _) fun _ => ?_
    split
    · exact .bind (.fs _) fun _ => .pure _
    · refine .bind (.fs _) fun _ => .bind .get fun _ => ?_
      split
      · exact .bind (.fs _) fun _ => .bind (.fs _) fun _ => .pure _
      · exact .bind (.fs _) fun _ => .bind (.fs _) fun _ => .bind (.fs _) fun _ =>
          .bind (.modProc _ fun _ => rfl) fun _ => .pure _

theorem sys_link_keeps (i : Slot) (paths : Option (Path × Path)) : Keeps g (sys_link sb i paths) := by
  unfold sys_link
  split
  · exact .pure _
  · exact .bind (getCwd_keeps i) fun _ => .bind (.fs _) fun _ => .pure _

theorem sys_unlink_keeps (i : Slot) (path : Option Path) : Keeps g (sys_unlink sb i path) := by
  unfold sys_unlink
  split
  · exact .pure _
  · exact .bind (getCwd_keeps i) fun _ => .bind (.fs _) fun _ => .pure _

theorem sys_read_keeps (i : Slot) (fd : Int) (n : Option Nat) : Keeps g (sys_read sb i fd n) := by
  unfold sys_read
  refine .bind (argfd_keeps i fd) fun _ => ?_
  split
  · exact .pure _
  · split
    · exact .pure _
    · unfold fileread
      refine .bind .get fun _ => ?_
      split
      · split
        · exact .pure _
        · unfold readFile
          refine .bind .get fun _ => .bind (.fs _) fun _ => .bind (.fs _) fun _ => ?_
          split
          · exact .bind (.fs _) fun _ => .pure _
          · exact .bind (.modOff _ _) fun _ => .bind (.fs _) fun _ => .pure _
        · exact .throw trivial
      · exact .pure _

theorem writeFile_keeps (f : FileIx) (turns : Nat) (src : List UInt8) :
    Keeps g (writeFile sb f turns src) := by
  induction turns generalizing src with
  | zero => exact .pure _
  | succ turns ih =>
    unfold writeFile
    split
    · exact .pure _
    · refine .bind ?_ fun _ => ?_
      · unfold writeChunk
        refine .bind .get fun _ => .bind (.fs _) fun _ => .bind (.fs _) fun _ => .bind (.fs _) fun _ => ?_
        split
        · exact .bind (.fs _) fun _ => .bind (.fs _) fun _ => .pure _
        · exact .bind (.modOff _ _) fun _ => .bind (.fs _) fun _ => .bind (.fs _) fun _ => .pure _
      · split
        · exact .pure _
        · split
          · exact ih _
          · exact .throw trivial

theorem sys_write_keeps (i : Slot) (fd : Int) (src : Option (List UInt8)) :
    Keeps g (sys_write sb i fd src) := by
  unfold sys_write
  refine .bind (argfd_keeps i fd) fun _ => ?_
  split
  · exact .pure _
  · split
    · exact .pure _
    · unfold filewrite
      refine .bind .get fun _ => ?_
      split
      · split
        · exact .pure _
        · exact .bind (writeFile_keeps _ _ _) fun _ => .pure _
        · exact .throw trivial
      · exact .pure _

theorem closeLoop_keeps (i : Slot) (fds : List Fd) : Keeps g (closeLoop g i fds) := by
  induction fds with
  | nil => exact .pure _
  | cons fd fds ih =>
    unfold closeLoop
    refine .bind .get fun _ => ?_
    split
    · exact ih
    · exact .bind (fileclose_keeps _) fun _ => .bind (.modProc _ fun _ => rfl) fun _ => ih

theorem dupLoop_keeps (i np : Slot) (fds : List Fd) : Keeps g (dupLoop i np fds) := by
  induction fds with
  | nil => exact .pure _
  | cons fd fds ih =>
    unfold dupLoop
    refine .bind .get fun _ => ?_
    split
    · exact ih
    · exact .bind (filedup_keeps _) fun _ => .bind (.modProc _ fun _ => rfl) fun _ => ih

/-! ## Processes -/

def Proc.dir (p : Proc) : Multiset Page := if p.state = .UNUSED then 0 else {p.pgdir}

def Proc.stack (p : Proc) : Multiset Page := if p.state = .UNUSED then 0 else {p.kstack}

def dirs (s : State) : Multiset Page := s.kpgdir ::ₘ ∑ i, (s.proc i).dir

def kstacks (s : State) : Multiset Page := s.bootstacks + ∑ i, (s.proc i).stack

/-- **The invariant of the system calls.** -/
structure Owned (g : Geometry) (s : State) : Prop where
  files : Files g (dirs s) (kstacks s) s
  size : ∀ i, (s.proc i).sz < KERNBASE

/-- What the invariant says about the owners that a reader of the kernel's data finds. -/
theorem Owned.owners (h : Owned g s) : owners s = g.pages := by
  have hspace : ∀ ds : Slot → Multiset Page, ((∑ i, ds i).map (space s.mem.page)).sum =
      ∑ i, ((ds i).map (space s.mem.page)).sum := fun ds =>
    map_sum ((sumAddMonoidHom (M := Multiset Page)).comp
      (mapAddMonoidHom (space s.mem.page))) ds _
  have hproc : ∀ i, (s.proc i).pages s.mem.page =
      (s.proc i).stack + ((s.proc i).dir.map (space s.mem.page)).sum := by
    intro i
    unfold Proc.pages Proc.stack Proc.dir
    split <;> simp
  have haccount := h.files.2
  unfold Account dirs kstacks at haccount
  unfold Kernel.owners
  rw [← haccount, map_cons, sum_cons, hspace, Finset.sum_congr rfl fun i _ => hproc i,
    Finset.sum_add_distrib]
  abel

theorem Rest.dirs (h : Rest D H s s1) : dirs s1 = dirs s := by
  have hdir : ∀ i, (s1.proc i).dir = (s.proc i).dir := by
    intro i
    have hcore := h.core i
    simp only [Proc.core, Prod.mk.injEq] at hcore
    simp only [Proc.dir, hcore.1, hcore.2.1]
  unfold Kernel.dirs
  rw [h.kpgdir, Finset.sum_congr rfl fun i _ => hdir i]

theorem Rest.kstacks (h : Rest D H s s1) : kstacks s1 = kstacks s := by
  have hstack : ∀ i, (s1.proc i).stack = (s.proc i).stack := by
    intro i
    have hcore := h.core i
    simp only [Proc.core, Prod.mk.injEq] at hcore
    simp only [Proc.stack, hcore.1, hcore.2.2.1]
  unfold Kernel.kstacks
  rw [h.bootstacks, Finset.sum_congr rfl fun i _ => hstack i]

theorem Owned.of_rest (h : Owned g s) (hfiles : Files g (Kernel.dirs s) (Kernel.kstacks s) s1)
    (hrest : Rest D H s s1) : Owned g s1 := by
  refine ⟨?_, fun i => ?_⟩
  · rw [hrest.dirs, hrest.kstacks]
    exact hfiles
  · have hcore := hrest.core i
    simp only [Proc.core, Prod.mk.injEq] at hcore
    rw [hcore.2.2.2]
    exact h.size i

/-- A call that leaves the processes outside `A` as they are, with all their memory, or ends them. -/
structure Calm (A : Slot → Prop) (s s' : State) : Prop where
  core : ∀ j, ¬ A j → (s'.proc j).core = (s.proc j).core ∨ (s'.proc j).state = .UNUSED
  tree : ∀ j, ¬ A j → (s.proc j).state ≠ .UNUSED → (s'.proc j).state ≠ .UNUSED →
    ∀ p ∈ space s.mem.page (s.proc j).pgdir, Vm.Agree s.mem s'.mem p

theorem Keeps.owned {x : K α} (hx : Keeps g x) (h : Owned g s) :
    wp NoKfree x (fun _ s' => Owned g s' ∧ Calm (fun _ => False) s s') s := by
  refine wp_mono (hx h.files) fun _ s' h' => ⟨h.of_rest h'.1 h'.2, fun j _ => .inl (h'.2.core j), ?_⟩
  intro j _ hj _
  refine h'.2.mem.tree _ ?_
  exact mem_cons_of_mem (mem_sum.2 ⟨j, Finset.mem_univ j, by simp [Proc.dir, hj]⟩)

/-- Only process `i` may have changed. -/
structure But (i : Slot) (s s' : State) : Prop where
  core : ∀ j ≠ i, (s'.proc j).core = (s.proc j).core
  kpgdir : s'.kpgdir = s.kpgdir
  bootstacks : s'.bootstacks = s.bootstacks

theorem Rest.but (h : Rest D H s s1) (i : Slot) : But i s s1 :=
  ⟨fun j _ => h.core j, h.kpgdir, h.bootstacks⟩

theorem But.trans {i : Slot} (h1 : But i s s1) (h2 : But i s1 s2) : But i s s2 :=
  ⟨fun j hj => (h2.core j hj).trans (h1.core j hj), h2.kpgdir.trans h1.kpgdir,
    h2.bootstacks.trans h1.bootstacks⟩

theorem But.dirs {i : Slot} (h : But i s s1) {x y : Multiset Page}
    (hi : (s1.proc i).dir + x = (s.proc i).dir + y) : dirs s1 + x = dirs s + y := by
  have hsum := sum_replace (g := fun j => (s.proc j).dir) (k := fun j => (s1.proc j).dir)
    (Finset.mem_univ i) (fun j _ hj => ?_) hi
  · unfold Kernel.dirs
    rw [h.kpgdir, cons_add, cons_add, hsum]
  · have hcore := h.core j hj
    simp only [Proc.core, Prod.mk.injEq] at hcore
    simp only [Proc.dir, hcore.1, hcore.2.1]

theorem But.kstacks {i : Slot} (h : But i s s1) {x y : Multiset Page}
    (hi : (s1.proc i).stack + x = (s.proc i).stack + y) : kstacks s1 + x = kstacks s + y := by
  have hsum := sum_replace (g := fun j => (s.proc j).stack) (k := fun j => (s1.proc j).stack)
    (Finset.mem_univ i) (fun j _ hj => ?_) hi
  · unfold Kernel.kstacks
    rw [h.bootstacks, add_assoc, add_assoc, hsum]
  · have hcore := h.core j hj
    simp only [Proc.core, Prod.mk.injEq] at hcore
    simp only [Proc.stack, hcore.1, hcore.2.2.1]

theorem But.size {i : Slot} (h : But i s s1) (hs : ∀ j, (s.proc j).sz < KERNBASE)
    (hi : (s1.proc i).sz < KERNBASE) (j : Slot) : (s1.proc j).sz < KERNBASE := by
  by_cases hj : j = i
  · rw [hj]
    exact hi
  · have hcore := h.core j hj
    simp only [Proc.core, Prod.mk.injEq] at hcore
    rw [hcore.2.2.2]
    exact hs j

theorem Proc.dir_of_ne {p : Proc} (h : p.state ≠ .UNUSED) : p.dir = {p.pgdir} := if_neg h

theorem Proc.stack_of_ne {p : Proc} (h : p.state ≠ .UNUSED) : p.stack = {p.kstack} := if_neg h

theorem Proc.dir_unused {p : Proc} (h : p.state = .UNUSED) : p.dir = 0 := if_pos h

theorem Proc.stack_unused {p : Proc} (h : p.state = .UNUSED) : p.stack = 0 := if_pos h

theorem mem_dirs {j : Slot} (h : (s.proc j).state ≠ .UNUSED) : (s.proc j).pgdir ∈ dirs s := by
  refine mem_cons_of_mem (mem_sum.2 ⟨j, Finset.mem_univ j, ?_⟩)
  rw [Proc.dir_of_ne h]
  exact mem_singleton_self _

theorem exists_dirs {i : Slot} (h : (s.proc i).state ≠ .UNUSED) : ∃ D, dirs s = (s.proc i).pgdir ::ₘ D ∧
    ∀ j ≠ i, (s.proc j).state ≠ .UNUSED → (s.proc j).pgdir ∈ D := by
  refine ⟨s.kpgdir ::ₘ ∑ j ∈ Finset.univ.erase i, (s.proc j).dir, ?_, fun j hj hlive => ?_⟩
  · unfold dirs
    rw [← Finset.add_sum_erase _ _ (Finset.mem_univ i), Proc.dir_of_ne h, singleton_add,
      cons_swap]
  · refine mem_cons_of_mem (mem_sum.2 ⟨j, ?_, ?_⟩)
    · exact Finset.mem_erase.2 ⟨hj, Finset.mem_univ j⟩
    · rw [Proc.dir_of_ne hlive]
      exact mem_singleton_self _

theorem exists_kstacks {i : Slot} (h : (s.proc i).state ≠ .UNUSED) :
    ∃ H, kstacks s = {(s.proc i).kstack} + H := by
  have hmem : (s.proc i).kstack ∈ kstacks s := by
    refine mem_add.2 (.inr (mem_sum.2 ⟨i, Finset.mem_univ i, ?_⟩))
    rw [Proc.stack_of_ne h]
    exact mem_singleton_self _
  obtain ⟨H, hH⟩ := exists_cons_of_mem hmem
  exact ⟨H, by rw [hH, singleton_add]⟩

theorem Owned.of_but {i : Slot} (h : Owned g s) (hbut : But i s s1) (hfiles : Files g D H s1)
    {a b c d : Multiset Page}
    (hdir : (s1.proc i).dir + a = (s.proc i).dir + b) (hD : D + a = dirs s + b)
    (hstack : (s1.proc i).stack + c = (s.proc i).stack + d) (hH : H + c = kstacks s + d)
    (hsz : (s1.proc i).sz < KERNBASE) : Owned g s1 := by
  refine ⟨?_, hbut.size h.size hsz⟩
  have hdirs : Kernel.dirs s1 = D := add_right_cancel ((hbut.dirs hdir).trans hD.symm)
  have hstacks : Kernel.kstacks s1 = H := add_right_cancel ((hbut.kstacks hstack).trans hH.symm)
  rw [hdirs, hstacks]
  exact hfiles

/-- A new process, with nothing but its stack. -/
structure Embryo (g : Geometry) (s : State) (np : Slot) (s' : State) : Prop where
  unused : (s.proc np).state = .UNUSED
  state : (s'.proc np).state = .EMBRYO
  files : Files g (dirs s) ({(s'.proc np).kstack} + kstacks s) s'
  but : But np s s'
  size : (s'.proc np).sz = (s.proc np).sz
  mem : s'.mem.page = s.mem.page ∧ s'.mem.bytes = s.mem.bytes

/-- Nobody has been disturbed, when only slot `np`, which is not in use, and memory have changed. -/
theorem But.calm {np : Slot} (h : But np s s1) (hnp : (s1.proc np).state = .UNUSED)
    (hmem : Kept (Kernel.dirs s) H s.mem s1.mem) : Calm (fun _ => False) s s1 := by
  refine ⟨fun j _ => ?_, fun j _ hj _ => hmem.tree _ (mem_dirs hj)⟩
  by_cases hj : j = np
  · subst hj
    exact .inr hnp
  · exact .inl (h.core j hj)

theorem allocproc_wp (h : Owned g s) :
    wp NoKfree allocproc (fun r s' => match r with
      | none => Owned g s' ∧ Calm (fun _ => False) s s'
      | some np => Embryo g s np s') s := by
  unfold allocproc
  simp only [wp_bind, wp_get]
  cases hf : Fin.find? fun i => decide ((s.proc i).state = .UNUSED) with
  | none => exact ⟨h, fun _ _ => .inl rfl, fun _ _ _ _ _ _ => ⟨rfl, rfl⟩⟩
  | some np =>
    have hunused : (s.proc np).state = .UNUSED := by
      simpa using Fin.eq_true_of_find?_eq_some hf
    simp only [modProc, wp_bind, wp_modify]
    refine wp_mem (wp_mono (Vm.kalloc_wp h.files.2) ?_)
    rintro (_ | k) m ⟨hm, hpage, hbytes⟩
    · simp only [wp_bind, wp_modify, wp_pure, update_self, update_idem]
      rw [target_none, zero_add] at hm
      have hbut : But np s { s with
          mem := m
          proc := update s.proc np { s.proc np with
            state := .UNUSED, pid := s.nextpid, kstack := 0 }
          nextpid := wrap32 (s.nextpid + 1) } := by
        refine ⟨fun j hj => ?_, rfl, rfl⟩
        dsimp only
        rw [update_of_ne hj]
      refine ⟨h.of_but (i := np) (a := 0) (b := 0) (c := 0) (d := 0) hbut ⟨h.files.1, hm⟩ ?_ rfl ?_
        rfl ?_, hbut.calm (H := 0) (by simp) (.of_eq hpage hbytes)⟩
      · rw [Proc.dir_unused hunused, Proc.dir_unused (by simp)]
      · rw [Proc.stack_unused hunused, Proc.stack_unused (by simp)]
      · simpa using h.size np
    · simp only [wp_bind, wp_modify, wp_pure, update_self, update_idem]
      rw [target_some, ← add_assoc] at hm
      refine ⟨hunused, by simp, ⟨h.files.1, ?_⟩, ⟨fun j hj => ?_, rfl, rfl⟩, by simp, hpage, hbytes⟩
      · simpa using hm
      · dsimp only
        rw [update_of_ne hj]

/-- What a child gets from its parent. -/
structure Child (g : Geometry) (i np : Slot) (s s' : State) : Prop where
  unused : (s.proc np).state = .UNUSED
  size : (s'.proc np).sz = (s.proc i).sz
  copied : Vm.Copied g (Vm.user s.mem (s.proc i).pgdir) (s.proc i).sz s'.mem (s'.proc np).pgdir
  calm : Calm (· = np) s s'

theorem fork_wp {i : Slot} (h : Owned g s) (hi : (s.proc i).state ≠ .UNUSED) :
    wp NoKfree (fork g i) (fun _ s' => Owned g s' ∧
      (Calm (fun _ => False) s s' ∨ ∃ np, Child g i np s s')) s := by
  unfold fork getCwd
  simp only [wp_bind, wp_get]
  split
  · simp only [wp_pure]
    refine wp_mono (allocproc_wp h) ?_
    rintro (_ | np) s1 h1
    · exact ⟨h1.1, .inl h1.2⟩
    · have hne : i ≠ np := by
        rintro rfl
        exact hi h1.unused
      have hparent := h1.but.core i hne
      simp only [Proc.core, Prod.mk.injEq] at hparent
      have hsz : ∀ j, (s1.proc j).sz < KERNBASE :=
        h1.but.size h.size (h1.size.trans_lt (h.size np))
      have hpgdir : (s1.proc i).pgdir ∈ dirs s := by
        rw [hparent.2.1]
        exact mem_dirs hi
      have hmem : Kept (dirs s) 0 s.mem s1.mem := .of_eq h1.mem.1 h1.mem.2
      simp only [wp_bind, wp_get]
      refine wp_mem (wp_mono (Vm.copyuvm_wp (hsz i).le hpgdir (fun _ => ⟨by simp [NoKfree], by simp [NoKfree]⟩)
        (fun _ => by simp [NoKfree]) h1.files.2) ?_)
      rintro (_ | d) m ⟨hm, hkept, hcopied⟩
      · simp only [wp_bind]
        rw [Vm.addDir_none, add_assoc] at hm
        refine wp_mem (wp_mono (Vm.kfree_wp hm) ?_)
        rintro - m' ⟨hm', -, hkept'⟩
        simp only [modProc, wp_modify, wp_pure]
        have hbut : But np s { s1 with
            mem := m'
            proc := update s1.proc np { s1.proc np with
              pgdir := 0, kstack := 0, state := .UNUSED } } :=
          h1.but.trans ⟨fun j hj => congrArg _ (update_of_ne hj _ _), rfl, rfl⟩
        refine ⟨h.of_but (i := np) (a := 0) (b := 0) (c := 0) (d := 0) hbut ⟨h1.files.1, hm'⟩ ?_ rfl ?_ rfl
          ?_, .inl (hbut.calm (H := 0) (by simp) ?_)⟩
        · rw [Proc.dir_unused h1.unused, Proc.dir_unused (by simp)]
        · rw [Proc.stack_unused h1.unused, Proc.stack_unused (by simp)]
        · simpa using hsz np
        · exact hmem.trans ((hkept.mono (Multiset.Subset.refl _) (zero_subset _)).trans
            (hkept'.mono (Multiset.Subset.refl _) (zero_subset _)))
      · simp only [wp_bind, modProc, wp_modify]
        rw [Vm.addDir_some] at hm
        have hfiles : Files g (d ::ₘ dirs s) ({(s1.proc np).kstack} + kstacks s) { s1 with
            mem := m
            proc := update s1.proc np { s1.proc np with
              pgdir := d, sz := (s1.proc i).sz, parent := some i, eip := (s1.proc i).eip
              esp := (s1.proc i).esp } } := ⟨h1.files.1, hm⟩
        refine wp_mono (dupLoop_keeps i np _ hfiles) ?_
        rintro - s3 ⟨h3, hrest3⟩
        refine fs_wp fun ip f => ?_
        have hcore := hrest3.core np
        simp only [Proc.core, update_self, Prod.mk.injEq] at hcore
        have hbut : But np s1 s3 := by
          refine ⟨fun j hj => ?_, hrest3.kpgdir, hrest3.bootstacks⟩
          have hj' := hrest3.core j
          dsimp only at hj'
          rwa [update_of_ne hj] at hj'
        have hkept' : Kept (dirs s) 0 s.mem s3.mem :=
          hmem.trans ((hkept.mono (Multiset.Subset.refl _) (zero_subset _)).trans
            (hrest3.mem.mono (subset_cons _ _) (zero_subset _)))
        refine ⟨h.of_but (i := np) (a := 0) (b := {d}) (c := 0) (d := {(s1.proc np).kstack})
          ((h1.but.trans hbut).trans ⟨fun j hj => ?_, rfl, rfl⟩) (D := d ::ₘ dirs s)
          (H := {(s1.proc np).kstack} + kstacks s) h3 ?_ ?_ ?_ ?_ ?_, .inr ⟨np, h1.unused, ?_, ?_, ?_, ?_⟩⟩
        · exact congrArg _ (update_of_ne hj _ _)
        · rw [Proc.dir_unused h1.unused, Proc.dir_of_ne (by simp)]
          simp [hcore.2.1]
        · rw [← singleton_add]
          abel
        · rw [Proc.stack_unused h1.unused, Proc.stack_of_ne (by simp)]
          simp [hcore.2.2.1]
        · abel
        · simp only [update_self, hcore.2.2.2]
          exact hsz i
        · simp only [update_self, hcore.2.2.2, hparent.2.2.2]
        · -- the child's memory is the parent's at the time of the call
          have hchild := (hcopied d rfl).kept hrest3.mem (mem_cons_self _ _)
          have huser : Vm.user s1.mem (s1.proc i).pgdir = Vm.user s.mem (s.proc i).pgdir := by
            funext va
            rw [hparent.2.1]
            unfold Vm.user
            rw [h1.mem.1, h1.mem.2]
          simpa only [update_self, hcore.2.1, hparent.2.2.2, huser] using hchild
        · intro j hj
          refine .inl ?_
          dsimp only
          rw [update_of_ne hj]
          exact (h1.but.trans hbut).core j hj
        · exact fun j _ hlive _ => hkept'.tree _ (mem_dirs hlive)
  · trivial

theorem exit_wp {i : Slot} (h : Owned g s) (hi : (s.proc i).state = .RUNNABLE) :
    wp NoKfree (exit g i) (fun _ s' => Owned g s' ∧ Calm (· = i) s s' ∧
      (s'.proc i).state = .ZOMBIE) s := by
  unfold exit
  simp only [wp_bind, wp_get]
  split
  · trivial
  · simp only [wp_bind]
    refine wp_mono (closeLoop_keeps i _ h.files) ?_
    rintro - s1 ⟨h1, hrest1⟩
    refine wp_mono (getCwd_keeps i h1) ?_
    rintro cwd s2 ⟨h2, hrest2⟩
    have hrest := hrest1.trans hrest2
    have hcore := hrest.core i
    simp only [Proc.core, Prod.mk.injEq, hi] at hcore
    refine fs_wp fun _ _ => fs_wp fun _ _ => fs_wp fun _ _ => ?_
    simp only [modProc, wp_modify]
    have hlive : (s.proc i).state ≠ .UNUSED := by
      rw [hi]
      decide
    -- giving its children to `initproc` changes no process otherwise
    have hparent : ∀ (c : Prop) [Decidable c] (p : Proc) (x : Option Slot),
        (if c then { p with parent := x } else p).core = p.core := by
      intro c _ p x
      split <;> rfl
    refine ⟨h.of_but (i := i) (a := 0) (b := 0) (c := 0) (d := 0)
      ((hrest.but i).trans ⟨fun j hj => ?_, rfl, rfl⟩) h2 ?_ rfl ?_ rfl ?_, ⟨fun j hj => .inl ?_, ?_⟩, ?_⟩
    · simp only [update_of_ne hj]
      exact hparent _ _ _
    · simp only [update_self]
      rw [Proc.dir_of_ne hlive, Proc.dir_of_ne (by simp)]
      split <;> simp [hcore.2.1]
    · simp only [update_self]
      rw [Proc.stack_of_ne hlive, Proc.stack_of_ne (by simp)]
      split <;> simp [hcore.2.2.1]
    · simp only [update_self]
      split <;> simpa [hcore.2.2.2] using h.size i
    · simp only [update_of_ne hj]
      refine (hparent _ _ _).trans ?_
      rw [← hrest.core j]
    · exact fun j _ hj _ => hrest.mem.tree _ (mem_dirs hj)
    · simp

theorem wait_wp {i : Slot} (h : Owned g s) :
    wp NoKfree (wait g i) (fun _ s' => Owned g s' ∧ Calm (fun _ => False) s s') s := by
  unfold wait
  simp only [wp_bind, wp_get]
  split
  · rename_i j hj
    have hzombie : (s.proc j).state ≠ .UNUSED := by
      have := Fin.eq_true_of_find?_eq_some hj
      simp only [decide_eq_true_eq] at this
      rw [this.2]
      decide
    obtain ⟨D, hD, hothers⟩ := exists_dirs hzombie
    obtain ⟨H, hH⟩ := exists_kstacks hzombie
    have haccount := h.files.2
    rw [hD, hH, add_assoc] at haccount
    simp only [wp_bind]
    refine wp_mem (wp_mono (Vm.kfree_wp haccount) ?_)
    rintro - m ⟨hm, -, hkept⟩
    refine wp_mem (wp_mono (Vm.freevm_wp hm) ?_)
    rintro - m' ⟨hm', hkept'⟩
    simp only [modProc, wp_modify, wp_pure]
    have hmem := (hkept.mono (subset_cons _ _) (Multiset.Subset.refl _)).trans hkept'
    refine ⟨h.of_but (i := j) (D := D) (H := H) (a := {(s.proc j).pgdir}) (b := 0)
      (c := {(s.proc j).kstack}) (d := 0) ⟨fun j' hj' => ?_, rfl, rfl⟩ ⟨h.files.1, hm'⟩ ?_ ?_ ?_ ?_ ?_,
      fun j' _ => ?_, fun j' _ hlive hlive' => ?_⟩
    · dsimp only
      rw [update_of_ne hj']
    · rw [Proc.dir_of_ne hzombie, Proc.dir_unused (by simp), add_comm]
    · rw [hD, ← singleton_add, add_zero, add_comm]
    · rw [Proc.stack_of_ne hzombie, Proc.stack_unused (by simp), add_comm]
    · rw [hH, add_zero, add_comm]
    · simpa using h.size j
    · by_cases hjj : j' = j
      · exact .inr (by simp [hjj])
      · exact .inl (by simp [hjj])
    · refine hmem.tree _ (hothers j' ?_ hlive)
      rintro rfl
      simp at hlive'
  · split
    · exact ⟨h, fun _ _ => .inl rfl, fun _ _ _ _ _ _ => ⟨rfl, rfl⟩⟩
    · trivial

/-- Process `i` alone has changed, or its memory. -/
theorem But.calm_self {i : Slot} (h : But i s s1)
    (hmem : ∀ j ≠ i, (s.proc j).state ≠ .UNUSED → ∀ p ∈ space s.mem.page (s.proc j).pgdir,
      Vm.Agree s.mem s1.mem p) : Calm (· = i) s s1 :=
  ⟨fun j hj => .inl (h.core j hj), fun j hj hlive _ => hmem j hj hlive⟩

theorem sys_sbrk_wp {i : Slot} {n : Int} (h : Owned g s) (hi : (s.proc i).state ≠ .UNUSED) :
    wp NoKfree (sys_sbrk g i n) (fun r s' => Owned g s' ∧ Calm (· = i) s s' ∧
      (r ≠ -1 → ∀ guard, Image g s.mem.page (s.proc i).pgdir (s.proc i).sz guard →
        Image g s'.mem.page (s'.proc i).pgdir (s'.proc i).sz (guardBelow (s'.proc i).sz guard))) s := by
  obtain ⟨D, hD, hothers⟩ := exists_dirs hi
  have haccount := h.files.2
  rw [hD] at haccount
  unfold sys_sbrk
  simp only [wp_bind, wp_get]
  refine wp_mono (growproc_wp (h.size i).le (fun _ => by simp [NoKfree]) haccount) ?_
  rintro ok s' (⟨-, -, rfl⟩ | ⟨-, r, m, hm, hresized, rfl, rfl⟩)
  · refine ⟨h, ⟨fun _ _ => .inl rfl, fun _ _ _ _ _ _ => ⟨rfl, rfl⟩⟩, fun _ guard himg => ?_⟩
    rwa [Vm.guardBelow_of_le himg le_rfl]
  · rw [← hD] at hm
    have hbut : But i s (after s i r m) := by
      unfold after
      split
      · exact ⟨fun _ _ => rfl, rfl, rfl⟩
      · exact ⟨fun j hj => congrArg _ (update_of_ne hj _ _), rfl, rfl⟩
    have hself : (((after s i r m).proc i).state, ((after s i r m).proc i).pgdir,
        ((after s i r m).proc i).kstack) = ((s.proc i).state, (s.proc i).pgdir, (s.proc i).kstack) := by
      unfold after
      split <;> simp
    simp only [Prod.mk.injEq] at hself
    have hmem : (after s i r m).mem = m ∧ (after s i r m).file = s.file ∧ (after s i r m).pipe = s.pipe := by
      unfold after
      split <;> exact ⟨rfl, rfl, rfl⟩
    refine ⟨h.of_but (i := i) (D := dirs s) (H := kstacks s) (a := 0) (b := 0) (c := 0) (d := 0) hbut ⟨?_, ?_⟩
      ?_ rfl ?_ rfl ?_, hbut.calm_self fun j hj hlive => ?_, fun hr guard himg => ?_⟩
    · rw [hmem.2.1, hmem.2.2]
      exact h.files.1
    · rw [hmem.1, hmem.2.1]
      exact hm
    · unfold Proc.dir
      rw [hself.1, hself.2.1]
    · unfold Proc.stack
      rw [hself.1, hself.2.2]
    · unfold after
      split
      · exact h.size i
      · simpa using hresized.lt (h.size i)
    · rw [hmem.1]
      exact hresized.kept.tree _ (hothers j hj hlive)
    · by_cases h0 : r = 0
      · exact absurd (by simp [h0]) hr
      · rw [hmem.1, hself.2.1]
        have hsz : ((after s i r m).proc i).sz = r := by
          simp [after, h0]
        rw [hsz]
        exact hresized.image h0 himg

/-- What is left of a failed `exec`. -/
theorem Owned.of_reach (h : Owned g s)
    (h' : Reach g (dirs s) (dirs s) (kstacks s + (pipePages s.file).val) s s1) :
    Owned g s1 ∧ Calm (fun _ => False) s s1 := by
  have hrest : Rest (dirs s) (kstacks s + (pipePages s.file).val) s s1 := by
    rw [h'.only]
    exact ⟨fun _ => rfl, rfl, rfl, h'.kept⟩
  refine ⟨h.of_rest ⟨?_, ?_⟩ hrest, fun j _ => .inl (hrest.core j), fun j _ hj _ =>
    hrest.mem.tree _ (mem_dirs hj)⟩
  · rw [h'.only]
    exact h.files.1
  · have hfile : s1.file = s.file := by rw [h'.only]
    rw [hfile]
    exact h'.account

theorem Owned.exec_wp {i : Slot} {path : Path} {argv : List (List UInt8)} (h : Owned g s)
    (hi : (s.proc i).state ≠ .UNUSED) :
    wp NoKfree (exec g sb i path argv) (fun r s' => Owned g s' ∧
      (r = -1 ∧ Calm (fun _ => False) s s' ∨ r = 0 ∧ Calm (· = i) s s' ∧
        Stacked g s'.mem.page (s'.proc i).pgdir (s'.proc i).sz)) s := by
  obtain ⟨D, hD, hothers⟩ := exists_dirs hi
  have haccount := h.files.2
  rw [hD] at haccount
  refine wp_mono (Kernel.exec_wp (fun _ => trivial) trivial (fun _ => by simp [NoKfree])
    (.of_null (by simp [NoKfree])) haccount) ?_
  rintro r s' (⟨rfl, hreach⟩ | ⟨rfl, hnew⟩)
  · rw [← hD] at hreach
    obtain ⟨howned, hcalm⟩ := h.of_reach hreach
    exact ⟨howned, .inl ⟨rfl, hcalm⟩⟩
  · have hbut : But i s s' := by
      refine ⟨fun j hj => ?_, by rw [hnew.only], by rw [hnew.only]⟩
      rw [hnew.proc, update_of_ne hj]
    have hfile : s'.file = s.file ∧ s'.pipe = s.pipe := by
      rw [hnew.only]
      exact ⟨rfl, rfl⟩
    have hstate : (s'.proc i).state = (s.proc i).state ∧ (s'.proc i).kstack = (s.proc i).kstack := by
      rw [hnew.proc, update_self]
      exact ⟨rfl, rfl⟩
    have hi' : (s'.proc i).state ≠ .UNUSED := by
      rw [hstate.1]
      exact hi
    refine ⟨h.of_but (i := i) (D := (s'.proc i).pgdir ::ₘ D) (H := kstacks s) (a := {(s.proc i).pgdir})
      (b := {(s'.proc i).pgdir}) (c := 0) (d := 0) hbut ⟨?_, ?_⟩ ?_ ?_ ?_ rfl hnew.size,
      .inr ⟨rfl, hbut.calm_self fun j hj hlive => hnew.kept.tree _ (hothers j hj hlive), hnew.stacked⟩⟩
    · rw [hfile.1, hfile.2]
      exact h.files.1
    · rw [hfile.1]
      exact hnew.account
    · rw [Proc.dir_of_ne hi, Proc.dir_of_ne hi', add_comm]
    · rw [hD, ← singleton_add, ← singleton_add]
      abel
    · rw [Proc.stack_of_ne hi, Proc.stack_of_ne hi', hstate.2]

theorem sys_exec_wp {i : Slot} {args : Option (Path × List (List UInt8))} (h : Owned g s)
    (hi : (s.proc i).state ≠ .UNUSED) :
    wp NoKfree (sys_exec g sb i args) (fun r s' => Owned g s' ∧
      (r = -1 ∧ Calm (fun _ => False) s s' ∨ r = 0 ∧ Calm (· = i) s s' ∧
        Stacked g s'.mem.page (s'.proc i).pgdir (s'.proc i).sz)) s := by
  have hfail : Owned g s ∧ ((-1 : Int) = -1 ∧ Calm (fun _ => False) s s ∨ (-1 : Int) = 0 ∧ Calm (· = i) s s ∧
      Stacked g s.mem.page (s.proc i).pgdir (s.proc i).sz) :=
    ⟨h, .inl ⟨rfl, fun _ _ => .inl rfl, fun _ _ _ _ _ _ => ⟨rfl, rfl⟩⟩⟩
  unfold sys_exec
  split
  · exact hfail
  · split
    · exact hfail
    · exact h.exec_wp hi

/-- What the call `c` of process `i`, with the result `r`, does to the memories of the processes. -/
def Effect (g : Geometry) (i : Slot) (s : State) (c : Call) (r : Int) (s' : State) : Prop :=
  match c with
  | .fork => Calm (fun _ => False) s s' ∨ ∃ np, Child g i np s s'
  | .exit => Calm (· = i) s s' ∧ (s'.proc i).state = .ZOMBIE
  | .sbrk _ => Calm (· = i) s s' ∧
      (r ≠ -1 → ∀ guard, Image g s.mem.page (s.proc i).pgdir (s.proc i).sz guard →
        Image g s'.mem.page (s'.proc i).pgdir (s'.proc i).sz (guardBelow (s'.proc i).sz guard))
  | .exec _ => r = -1 ∧ Calm (fun _ => False) s s' ∨ r = 0 ∧ Calm (· = i) s s' ∧
      Stacked g s'.mem.page (s'.proc i).pgdir (s'.proc i).sz
  | _ => Calm (fun _ => False) s s'

theorem syscall_wp (c : Call) {i : Slot} (h : Owned g s) (hi : (s.proc i).state = .RUNNABLE) :
    wp NoKfree (syscall g sb i c) (fun r s' => Owned g s' ∧ Effect g i s c r s') s := by
  have hlive : (s.proc i).state ≠ .UNUSED := by
    rw [hi]
    decide
  cases c with
  | fork => exact fork_wp h hlive
  | exit =>
    unfold syscall
    exact wp_seq (exit_wp h hi) fun _ _ h' => h'
  | wait => exact wait_wp h
  | sbrk n => exact sys_sbrk_wp h hlive
  | exec args => exact sys_exec_wp h hlive
  | pipe user => exact (sys_pipe_keeps i user).owned h
  | dup fd => exact (sys_dup_keeps i fd).owned h
  | close fd => exact (sys_close_keeps i fd).owned h
  | read fd n => exact (sys_read_keeps i fd n).owned h
  | write fd src => exact (sys_write_keeps i fd src).owned h
  | opens path omode => exact (sys_open_keeps i path omode).owned h
  | mkdir path => exact (make_keeps i path _ _ _).owned h
  | mknod path major minor => exact (make_keeps i path _ _ _).owned h
  | chdir path => exact (sys_chdir_keeps i path).owned h
  | link paths => exact (sys_link_keeps i paths).owned h
  | unlink path => exact (sys_unlink_keeps i path).owned h

theorem calls_wp (cs : List (Slot × Call)) : ∀ {s : State}, Owned g s →
    wp NoKfree (calls g sb cs) (fun _ s' => Owned g s') s := by
  induction cs with
  | nil => exact fun h => h
  | cons c cs ih =>
    intro s h
    unfold calls call
    simp only [wp_bind, wp_get]
    split
    · rename_i hi
      exact wp_mono (syscall_wp c.2 h hi) fun _ _ h' => ih h'.1
    · trivial

/-! ## Boot -/

theorem Ico_val_succ (a n : ℕ) :
    (Finset.Ico a (a + (n + 1))).val = {a} + (Finset.Ico (a + 1) (a + 1 + n)).val := by
  have hcons : Finset.Ico a (a + (n + 1)) = Finset.cons a (Finset.Ico (a + 1) (a + 1 + n)) (by simp) := by
    ext b
    simp only [Finset.mem_cons, Finset.mem_Ico]
    omega
  rw [hcons, Finset.cons_val, singleton_add]

theorem freerange_wp (n : Nat) : ∀ {p : Page} {m : Mem},
    Account g D ((Finset.Ico p (p + n)).val + H) m →
    wp (· ≠ .kfree) (freerange g n p) (fun _ m' => Account g D H m') m := by
  induction n with
  | zero =>
    intro p m h
    simpa [freerange] using h
  | succ n ih =>
    intro p m h
    rw [Ico_val_succ, add_assoc] at h
    unfold freerange
    refine wp_seq (Vm.kfree_wp h) ?_
    rintro - m' ⟨h', -, -⟩
    exact ih h'

theorem startothers_wp (n : Nat) : ∀ {s : State}, Account g D (H + s.bootstacks) s.mem →
    wp NoKfree (startothers n) (fun _ s' => ∃ m l, s' = { s with mem := m, bootstacks := l } ∧
      Account g D (H + l) m) s := by
  induction n with
  | zero => exact fun h => ⟨_, _, rfl, h⟩
  | succ n ih =>
    intro s h
    unfold startothers
    rw [wp_bind]
    refine wp_mem (wp_mono (Vm.kalloc_wp h) ?_)
    rintro (_ | stack) m ⟨hm, -, -⟩
    · trivial
    · rw [target_some, add_left_comm, singleton_add, cons_coe] at hm
      simp only [wp_bind, wp_modify]
      refine wp_mono (ih hm) ?_
      rintro - s' ⟨m', l, rfl, hm'⟩
      exact ⟨m', l, rfl, hm'⟩

/-- The first process has one page. -/
structure Booted (g : Geometry) (s : State) : Prop where
  owned : Owned g s
  state : (s.proc s.initproc).state = .RUNNABLE
  size : (s.proc s.initproc).sz = PGSIZE
  image : Image g s.mem.page (s.proc s.initproc).pgdir PGSIZE none

/-- `userinit`, on a machine whose pages are accounted for. -/
theorem userinit_wp (h : Owned g s) : wp NoKfree (userinit g) (fun _ s' => Booted g s') s := by
  unfold userinit
  refine wp_seq (allocproc_wp h) ?_
  rintro (_ | np) s1 h1
  · trivial
  · simp only [wp_bind, wp_modify]
    refine wp_mem (wp_mono (Vm.setupkvm_wp (fun _ => by simp [NoKfree]) h1.files.2) ?_)
    rintro (_ | pgdir) m ⟨hm, -, hblank⟩
    · trivial
    · rw [Vm.addDir_some] at hm
      have hself : pgdir ∈ pgdir ::ₘ dirs s := mem_cons_self _ _
      have himg := (hblank pgdir rfl).image
      simp only [modProc, wp_bind, wp_modify]
      unfold inituvm
      rw [wp_bind]
      refine wp_mem (wp_mono (Vm.kalloc_wp hm) ?_)
      rintro (_ | p) m2 ⟨hm2, hpage2, hbytes2⟩
      · trivial
      · rw [target_some] at hm2
        simp only [wp_bind]
        refine wp_mem (wp_mono (Vm.zero_wp hm2) ?_)
        rintro - m3 ⟨hm3, -, -, hkept3⟩
        have himg3 := himg.kept ((Kept.of_eq hpage2 hbytes2).trans hkept3) hself
        refine wp_mem (wp_mono (Vm.mappages_user_wp (a := 0) rfl (by decide) (fun _ => by simp [NoKfree])
          hm3) ?_)
        rintro (_ | _) m4 ⟨hm4, hedit⟩
        · trivial
        · refine fs_wp fun ip f => ?_
          simp only [if_true, update_self, update_idem] at hm4 hedit ⊢
          refine ⟨?_, by simp, by simp, by simpa using himg3.first hedit⟩
          refine h.of_but (i := np) (D := pgdir ::ₘ dirs s) (H := {(s1.proc np).kstack} + kstacks s)
            (a := 0) (b := {pgdir}) (c := 0) (d := {(s1.proc np).kstack})
            (h1.but.trans ⟨fun j hj => ?_, rfl, rfl⟩) ⟨h1.files.1, hm4⟩ ?_ ?_ ?_ ?_ ?_
          · dsimp only
            rw [update_of_ne hj]
          · rw [Proc.dir_unused h1.unused, Proc.dir_of_ne (by simp)]
            simp
          · rw [← singleton_add]
            abel
          · rw [Proc.stack_unused h1.unused, Proc.stack_of_ne (by simp)]
            simp
          · abel
          · simp only [update_self]
            decide

theorem main_wp (disk : Fs.State) (deny : List Bool) (ncpu : Nat) :
    wp NoKfree (main g ncpu) (fun _ s' => Booted g s') (start disk deny) := by
  have h0 : Account g 0 ((Finset.Ico g.first (g.first + (g.low - g.first))).val +
      ((Finset.Ico g.low g.top).val + (0 : Multiset Page))) (start disk deny).mem := by
    have hpages : g.pages = (Finset.Ico g.first (g.first + (g.low - g.first))).val +
        (Finset.Ico g.low g.top).val := by
      have hlow : g.first + (g.low - g.first) = g.low := Nat.add_sub_cancel' g.first_le
      have hdisj : Disjoint (Finset.Ico g.first g.low) (Finset.Ico g.low g.top) :=
        Finset.Ico_disjoint_Ico_consecutive _ _ _
      have hunion := Finset.disjUnion_val _ _ hdisj
      rw [hlow]
      refine Eq.trans ?_ hunion
      rw [Finset.disjUnion_eq_union, Finset.Ico_union_Ico_eq_Ico g.first_le g.low_le]
      rfl
    unfold Account
    rw [hpages]
    simp [start]
  have hno : pipePages (start disk deny).file = ∅ := by
    ext p
    simp [mem_pipePages, start, File.pipeEnd]
  unfold main
  rw [wp_bind]
  refine wp_mem (wp_mono (freerange_wp _ h0) ?_)
  rintro - m1 h1
  unfold kvmalloc
  simp only [wp_bind]
  refine wp_mem (wp_mono (Vm.setupkvm_wp (fun _ => by simp [NoKfree]) h1) ?_)
  rintro (_ | d) m2 ⟨h2, -, -⟩
  · trivial
  · rw [Vm.addDir_some] at h2
    simp only [wp_modify]
    refine wp_mono (startothers_wp (H := (Finset.Ico g.low g.top).val) _ h2) ?_
    rintro - s3 ⟨m3, l, rfl, h3⟩
    have htop : g.low + (g.top - g.low) = g.top := Nat.add_sub_cancel' g.low_le
    rw [← htop] at h3
    refine wp_mem (wp_mono (freerange_wp _ h3) ?_)
    rintro - m4 h4
    refine userinit_wp ⟨⟨⟨fun f _ => rfl, ?_, ?_, ?_⟩, ?_⟩, fun i => Nat.two_pow_pos 31⟩
    · intro f p w hf
      simp [start, File.pipeEnd] at hf
    · intro f f' x hf
      simp [start, File.pipeEnd] at hf
    · intro f p w hf
      simp [start, File.pipeEnd] at hf
    · dsimp only
      rw [hno]
      simpa [dirs, kstacks, start, Proc.dir, Proc.stack] using h4

theorem run_owned (g : Geometry) (sb : Superblock) (ncpu : Nat) (disk : Fs.State) (deny : List Bool)
    (cs : List (Slot × Call)) :
    wp NoKfree (do main g ncpu; calls g sb cs) (fun _ s => Owned g s) (start disk deny) :=
  wp_seq (main_wp disk deny ncpu) fun _ _ h => calls_wp cs h.owned

/-- **Physical page ownership.**  Whatever is on the disk, whenever `kalloc` fails and whatever calls
the processes make: between calls, every page that was handed to `kfree` at boot is owned exactly
once, by the free list, by the boot pages, by one process or by one pipe; and no page is freed that
`kfree` does not know. -/
theorem pages_owned_once (g : Geometry) (sb : Superblock) (ncpu : Nat) (disk : Fs.State)
    (deny : List Bool) (cs : List (Slot × Call)) :
    wp (· ≠ .vm .kfree) (do main g ncpu; calls g sb cs)
      (fun _ s => owners s = (Finset.Ico g.first g.top).val) (start disk deny) := by
  refine wp_weaken (run_owned g sb ncpu disk deny cs) (fun _ _ h => h.owners) ?_
  rintro (e | e) he <;> simp_all [NoKfree]

/-- Five of eleven pages are in use after boot, and again when a child has come and gone. -/
example : (match (do main .small 1; calls .small .mkfs [(0, .fork), (1, .exit), (0, .wait)])
      (start .mkfs []) with
    | .ok (_, s) => s.mem.free.length == 6
    | .error _ => false) = true := by
  decide +kernel

end Laboratorio.Xv6.Kernel
