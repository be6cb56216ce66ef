import Laboratorio.Xv6.Args

/-!
# `exec`

While `exec` reads the file and builds a new directory, nothing else changes: `Building` says so, and
that the directory is the image of a program.  What the file says about its segments is arbitrary; the
checks of the loop and `allocuvm` are enough to keep the image exact, so that `mappages` never finds
an entry in its way, `loaduvm` finds all its pages, and `clearpteu` finds the guard page.
-/

namespace Laboratorio.Xv6.Kernel

open Laboratorio.Lib TwoLevel
open Vm (Page Mem Geometry PGSIZE PGROUNDUP KERNBASE Image Account Kept addDir Apart)
open Fs (Ino Path Superblock)

variable {α : Type} {g : Geometry} {sb : Superblock} {D H : Multiset Page} {s s1 : State}
  {pgdir : Page} {ip : Ino} {sz : Nat} {guard : Option Nat} {E : Stop → Prop}
  {argv : List (List UInt8)}

theorem wp_fs {x : Fs.F α} {Q : α → State → Prop} (hE : ∀ e, E (.fs e))
    (h : ∀ a f, Q a { s with fs := f }) : wp E (fs x) Q s := by
  refine wp_zoom.2 (wp_weaken (wp_true (x := x) (s := s.fs)) (fun a f _ => h a f) fun e _ => hE e)

/-! ## A directory under construction -/

/-- From `s` on, only memory and the file system have changed, and the pages are accounted for. -/
structure Reach (g : Geometry) (D' D H : Multiset Page) (s s' : State) : Prop where
  only : s' = { s with mem := s'.mem, fs := s'.fs }
  account : Account g D' H s'.mem
  kept : Kept D H s.mem s'.mem

structure Building (g : Geometry) (D H : Multiset Page) (s : State) (pgdir : Page) (sz : Nat)
    (guard : Option Nat) (s' : State) : Prop where
  reach : Reach g (pgdir ::ₘ D) D H s s'
  image : Image g s'.mem.page pgdir sz guard

theorem Reach.start (h : Account g D H s.mem) : Reach g D D H s s := ⟨rfl, h, .refl⟩

theorem Reach.set_fs {D' : Multiset Page} (h : Reach g D' D H s s1) (f : Fs.State) :
    Reach g D' D H s { s1 with fs := f } :=
  ⟨by rw [h.only], h.account, h.kept⟩

theorem Reach.set_mem {D' D'' : Multiset Page} (h : Reach g D' D H s s1) {m : Mem}
    (hm : Account g D'' H m) (hkept : Kept D H s1.mem m) : Reach g D'' D H s { s1 with mem := m } :=
  ⟨by rw [h.only], hm, h.kept.trans hkept⟩

theorem Building.set_fs (h : Building g D H s pgdir sz guard s1) (f : Fs.State) :
    Building g D H s pgdir sz guard { s1 with fs := f } :=
  ⟨h.reach.set_fs f, h.image⟩

theorem Building.wrote (h : Building g D H s pgdir sz guard s1) {m : Mem}
    (hw : Vm.Wrote pgdir s1.mem m) : Building g D H s pgdir sz guard { s1 with mem := m } := by
  have haccount := h.reach.account.congr hw.free hw.page
  refine ⟨h.reach.set_mem haccount (hw.kept h.image.kern h.reach.account), ?_⟩
  dsimp only
  rw [hw.page]
  exact h.image

theorem Building.allocuvm {newsz : Nat} (h : Building g D H s pgdir sz guard s1) :
    wp E (mem (Vm.allocuvm g pgdir sz newsz)) (fun r s' =>
      (newsz < KERNBASE ∧ r = max sz newsz ∧ Building g D H s pgdir r guard s') ∨
        (r = 0 ∧ Building g D H s pgdir sz guard s')) s1 := by
  refine wp_mem (wp_mono (Vm.allocuvm_wp ?_ h.reach.account) ?_)
  · rintro ⟨va, hva, hlo, hsome⟩
    rw [h.image.exact.absent hlo hva] at hsome
    cases hsome
  · rintro r m ⟨hm, ⟨hnew, rfl, hgrown⟩ | ⟨rfl, hi, hcut⟩⟩
    · exact .inl ⟨hnew, rfl, h.reach.set_mem hm hgrown.edited.kept, h.image.grow hnew hgrown⟩
    · exact .inr ⟨rfl, h.reach.set_mem hm hcut.kept, h.image.undo hcut⟩

theorem Building.clearpteu {uva : Nat} (h : Building g D H s pgdir sz none s1)
    (huva : uva < PGROUNDUP sz) (haligned : uva % PGSIZE = 0) :
    wp E (mem (Vm.clearpteu pgdir uva)) (fun _ s' =>
      Building g D H s pgdir sz (some (uva / PGSIZE)) s') s1 := by
  have hk : uva < KERNBASE := huva.trans_le (Vm.PGROUNDUP_le_KERNBASE h.image.size)
  refine wp_mem (wp_mono (Vm.clearpteu_wp hk (fun hnone => ?_) h.reach.account) ?_)
  · have hsome := h.image.exact.present huva hk
    rw [hnone] at hsome
    cases hsome
  · rintro - m ⟨hm, hedit⟩
    exact ⟨h.reach.set_mem hm hedit.kept, h.image.clear huva haligned hedit⟩

/-! ## The segments -/

theorem field_lt (bytes : List UInt8) (off : Nat) : field bytes off 4 < 2 ^ 32 := by
  have hlen : ((bytes.drop off).take 4).length ≤ 4 := by simp
  calc field bytes off 4 < 256 ^ ((bytes.drop off).take 4).length := Bytes.ofBytes_lt _
    _ ≤ 256 ^ 4 := Nat.pow_le_pow_right (by decide) hlen
    _ = 2 ^ 32 := by norm_num

theorem loadPages_wp {addr offset filesz : Nat} (hfs : ∀ e, E (.fs e)) (n : Nat) :
    ∀ {i : Nat} {s1 : State}, Building g D H s pgdir sz guard s1 → addr + filesz ≤ sz →
    wp E (loadPages sb pgdir ip addr offset filesz n i)
      (fun _ s' => Building g D H s pgdir sz guard s') s1 := by
  induction n with
  | zero => exact fun h _ => h
  | succ n ih =>
    intro i s1 h hend
    unfold loadPages
    split
    · rename_i hlt
      have hin : addr + i < PGROUNDUP sz := by
        have := Vm.le_PGROUNDUP sz
        omega
      have hk : addr + i < KERNBASE := hin.trans_le (Vm.PGROUNDUP_le_KERNBASE h.image.size)
      obtain ⟨e, he⟩ := Option.isSome_iff_exists.1 ((h.image.exact _ hk).2 hin)
      obtain ⟨t, ht, rfl, -⟩ := Vm.exists_table he
      rw [wp_bind]
      refine wp_mem ?_
      rw [Vm.walkpgdir_false_wp, Vm.lookup, ht]
      simp only [Option.map_some, wp_bind, wp_get]
      refine wp_fs hfs fun r f => ?_
      cases r with
      | none => exact h.set_fs f
      | some bytes =>
        simp only [wp_bind]
        refine wp_mem ?_
        -- the page belongs to the program, so what is read goes nowhere else
        have hkept : Kept D H s1.mem { s1.mem with
            bytes := Function.update s1.mem.bytes (s1.mem.page t (Vm.PTX (addr + i))).ppn
              (Bytes.splice (s1.mem.bytes (s1.mem.page t (Vm.PTX (addr + i))).ppn) 0 bytes) } :=
          h.reach.account.kept_of_tree (Vm.ppn_mem_space hk he) fun q hq =>
            ⟨rfl, Function.update_of_ne hq _ _⟩
        have h' : Building g D H s pgdir sz guard { s1 with
            fs := f
            mem := { s1.mem with
              bytes := Function.update s1.mem.bytes (s1.mem.page t (Vm.PTX (addr + i))).ppn
                (Bytes.splice (s1.mem.bytes (s1.mem.page t (Vm.PTX (addr + i))).ppn) 0 bytes) } } :=
          ⟨(h.reach.set_fs f).set_mem (h.reach.account.congr rfl rfl) hkept, h.image⟩
        exact wp_ite.2 ⟨fun _ => ih h' hend, fun _ => h'⟩
    · exact h

/-- Whatever the program headers say, the image stays exact. -/
theorem loadLoop_wp (hfs : ∀ e, E (.fs e)) (n : Nat) : ∀ {off sz : Nat} {s1 : State},
    Building g D H s pgdir sz guard s1 →
    wp E (loadLoop g sb pgdir ip n off sz) (fun r s' =>
      ∃ sz', Building g D H s pgdir sz' guard s' ∧ ∀ sz, r = some sz → sz = sz') s1 := by
  induction n with
  | zero =>
    intro off sz s1 h
    refine ⟨sz, h, ?_⟩
    rintro sz' ⟨⟩
    rfl
  | succ n ih =>
    intro off sz s1 h
    unfold loadLoop
    rw [wp_bind]
    refine wp_fs hfs fun r f => ?_
    have h2 := h.set_fs f
    cases r with
    | none => exact ⟨sz, h2, nofun⟩
    | some ph =>
      dsimp only
      split
      · exact ⟨sz, h2, nofun⟩
      split
      · exact ih h2
      split
      · exact ⟨sz, h2, nofun⟩
      rename_i hmemsz
      split
      · exact ⟨sz, h2, nofun⟩
      rename_i hwrap
      refine wp_seq h2.allocuvm ?_
      rintro r s3 hr
      have h3 : ∃ sz', Building g D H s pgdir sz' guard s3 := by
        rcases hr with ⟨-, -, h3⟩ | ⟨-, h3⟩
        · exact ⟨_, h3⟩
        · exact ⟨_, h3⟩
      obtain ⟨sz', hsz'⟩ := h3
      split
      · exact ⟨sz', hsz', nofun⟩
      rename_i hpos
      split
      · exact ⟨sz', hsz', nofun⟩
      rename_i haligned
      obtain ⟨hnew, hmax, h3⟩ : (field ph 8 4 + field ph 20 4) % 2 ^ 32 < KERNBASE ∧
          r = max sz ((field ph 8 4 + field ph 20 4) % 2 ^ 32) ∧
            Building g D H s pgdir r guard s3 := by
        rcases hr with hr | ⟨hr, -⟩
        · exact hr
        · exact absurd hr hpos
      unfold loaduvm
      rw [if_neg haligned]
      refine wp_seq (loadPages_wp hfs _ h3 ?_) ?_
      · -- `vaddr + memsz` has not wrapped around, and is at least `vaddr + filesz`
        have hvaddr := field_lt ph 8
        have hmem := field_lt ph 20
        omega
      · rintro (_ | _) s4 h4
        · exact ⟨r, h4, nofun⟩
        · exact ih h4

/-! ## The end of `exec` -/

/-- The label `bad` gives back the new directory. -/
theorem execBad_wp {r : Option Page} {ip : Option Ino} (hfs : ∀ e, E (.fs e))
    (h : Reach g (addDir r D) D H s s1) :
    wp E (execBad g r ip) (fun n s' => n = -1 ∧ Reach g D D H s s') s1 := by
  have hfree : wp E (freeDir g r) (fun _ s' => Reach g D D H s s') s1 := by
    cases r with
    | none =>
      rw [Vm.addDir_none] at h
      exact h
    | some pgdir =>
      rw [Vm.addDir_some] at h
      refine wp_mem (wp_mono (Vm.freevm_wp h.account) ?_)
      rintro - m ⟨hm, hkept⟩
      exact h.set_mem hm hkept
  unfold execBad
  refine wp_seq hfree ?_
  rintro - s2 h2
  split
  · exact ⟨rfl, h2⟩
  · rw [wp_bind]
    refine wp_fs hfs fun _ f => ?_
    rw [wp_bind]
    exact wp_fs hfs fun _ f' => ⟨rfl, (h2.set_fs f).set_fs f'⟩

/-- The process `i` has a new program: `D` are the directories of the others. -/
structure Replaced (g : Geometry) (D H : Multiset Page) (i : Slot) (s s' : State) : Prop where
  only : s' = { s with mem := s'.mem, fs := s'.fs, proc := s'.proc }
  proc : s'.proc = Function.update s.proc i { s.proc i with
    name := (s'.proc i).name, pgdir := (s'.proc i).pgdir, sz := (s'.proc i).sz
    eip := (s'.proc i).eip, esp := (s'.proc i).esp }
  account : Account g ((s'.proc i).pgdir ::ₘ D) H s'.mem
  kept : Kept D H s.mem s'.mem
  stacked : Stacked g s'.mem.page (s'.proc i).pgdir (s'.proc i).sz
  size : (s'.proc i).sz < KERNBASE

theorem Building.roundup (h : Building g D H s pgdir sz none s1) :
    Building g D H s pgdir (PGROUNDUP sz) none s1 := by
  have hround : PGROUNDUP (PGROUNDUP sz) = PGROUNDUP sz := by
    unfold PGROUNDUP PGSIZE
    omega
  refine ⟨h.reach, h.image.kern, Vm.PGROUNDUP_le_KERNBASE h.image.size, fun va hva => ?_,
    h.image.access, nofun⟩
  rw [hround]
  exact h.image.exact va hva

theorem Building.stacked {sz' : Nat} (h : Building g D H s pgdir sz' (some (sz / PGSIZE)) s1)
    (hsz : sz % PGSIZE = 0) (hsz' : sz' = sz + 2 * PGSIZE) : Stacked g s1.mem.page pgdir sz' := by
  have hguard : sz' / PGSIZE - 2 = sz / PGSIZE := by
    unfold PGSIZE at *
    omega
  refine ⟨?_, ?_, ?_⟩
  · rw [hguard]
    exact h.image
  · unfold PGSIZE at *
    omega
  · omega

theorem Building.pushed {s2 : State} (h : Building g D H s pgdir sz guard s1) (hp : Pushed pgdir s1 s2) :
    Building g D H s pgdir sz guard s2 := by
  obtain ⟨m, rfl, hw⟩ := hp
  exact h.wrote hw

/-- The copying of these arguments goes as `Copying` says, and leaves `P` of the memory, the directory,
the size and `sp`.  `P` is about the user half of the directory. -/
structure Leaves (E : Stop → Prop) (g : Geometry) (argv : List (List UInt8))
    (P : Mem → Page → Nat → Nat → Prop) : Prop where
  copies : ∀ d sz s, Stacked g s.mem.page d sz → (Vm.space s.mem.page d).Nodup →
    wp E (pushStack d argv sz) (fun r s' => Pushed d s s' ∧ ∀ sp, r = some sp → P s'.mem d sz sp) s
  user : ∀ {m m' d sz sp}, (∀ va < KERNBASE, Vm.user m' d va = Vm.user m d va) → P m d sz sp →
    P m' d sz sp

theorem Copying.leaves (h : Copying E g argv) : Leaves E g argv fun _ _ _ _ => True :=
  ⟨fun d sz s hs _ => wp_mono (h d sz s hs) fun _ _ hp => ⟨hp, fun _ _ => trivial⟩,
    fun _ _ => trivial⟩

theorem execStack_leaves {P : Mem → Page → Nat → Nat → Prop} {i : Slot} {path : Path} {entry : Nat}
    (hfs : ∀ e, E (.fs e)) (hcopy : Leaves E g argv P)
    (h : Building g ((s.proc i).pgdir ::ₘ D) H s pgdir sz none s1) :
    wp E (execStack g i path argv entry pgdir sz) (fun r s' =>
      r = -1 ∧ Reach g ((s.proc i).pgdir ::ₘ D) ((s.proc i).pgdir ::ₘ D) H s s' ∨
        r = 0 ∧ Replaced g D H i s s' ∧
          P s'.mem (s'.proc i).pgdir (s'.proc i).sz (s'.proc i).esp) s1 := by
  have hbad : ∀ s' sz guard, Building g ((s.proc i).pgdir ::ₘ D) H s pgdir sz guard s' →
      wp E (execBad g (some pgdir) none) (fun r s' =>
        r = -1 ∧ Reach g ((s.proc i).pgdir ::ₘ D) ((s.proc i).pgdir ::ₘ D) H s s' ∨
          r = 0 ∧ Replaced g D H i s s' ∧
            P s'.mem (s'.proc i).pgdir (s'.proc i).sz (s'.proc i).esp) s' := by
    intro s' sz guard h'
    have hreach := h'.reach
    rw [← Vm.addDir_some] at hreach
    exact wp_mono (execBad_wp hfs hreach) fun _ _ h'' => .inl h''
  have hmod := Vm.PGROUNDUP_mod sz
  have hle := Vm.PGROUNDUP_le_KERNBASE h.image.size
  have hnowrap : (PGROUNDUP sz + 2 * PGSIZE) % 2 ^ 32 = PGROUNDUP sz + 2 * PGSIZE := by
    refine Nat.mod_eq_of_lt ?_
    unfold KERNBASE at hle
    unfold PGSIZE
    omega
  unfold execStack
  rw [hnowrap]
  refine wp_seq h.roundup.allocuvm ?_
  rintro sz' s2 hr
  split
  · rcases hr with ⟨-, -, h2⟩ | ⟨-, h2⟩
    · exact hbad s2 _ _ h2
    · exact hbad s2 _ _ h2
  · rename_i hpos
    obtain ⟨hlt, hmax, h2⟩ := hr.resolve_right fun hr => hpos hr.1
    have hsz' : sz' = PGROUNDUP sz + 2 * PGSIZE := hmax.trans (max_eq_right (by omega))
    have huva : sz' - 2 * PGSIZE = PGROUNDUP sz := by omega
    rw [huva]
    refine wp_seq (h2.clearpteu ?_ hmod) ?_
    · have := Vm.le_PGROUNDUP sz'
      unfold PGSIZE at *
      omega
    rintro - s3 h3
    have hnodup : (Vm.space s3.mem.page pgdir).Nodup :=
      h3.reach.account.nodup_space (Multiset.mem_cons_self _ _)
    refine wp_seq (hcopy.copies _ _ _ (h3.stacked hmod hsz') hnodup) ?_
    rintro (_ | sp) s4 ⟨hpush, hleft⟩
    · exact hbad s4 _ _ (h3.pushed hpush)
    · have h4 := h3.pushed hpush
      have hstacked := h4.stacked hmod hsz'
      obtain ⟨honly, haccount, hkept⟩ := h4.reach
      rw [Multiset.cons_swap] at haccount
      have hproc : s4.proc = s.proc := by rw [honly]
      simp only [wp_bind, wp_get, modProc, wp_modify, hproc]
      refine wp_mem (wp_mono (Vm.freevm_wp haccount) ?_)
      rintro - m ⟨hm, hkept'⟩
      refine .inr ⟨rfl, ⟨?_, ?_, ?_, ?_, ?_, ?_⟩, ?_⟩
      · rw [honly]
      · simp
      · simpa using hm
      · exact (hkept.mono (Multiset.subset_cons _ _) (Multiset.Subset.refl _)).trans
          (hkept'.mono (Multiset.subset_cons _ _) (Multiset.Subset.refl _))
      · have himage := hstacked.image.kept hkept' (Multiset.mem_cons_self _ _)
        simpa using (⟨himage, hstacked.aligned, hstacked.big⟩ : Stacked g m.page pgdir sz')
      · simpa using hsz'.trans_lt hlt
      · have hsame : ∀ va < KERNBASE, Vm.user m pgdir va = Vm.user s4.mem pgdir va := fun va hva =>
          hkept'.user (Multiset.mem_cons_self _ _) hva
        simpa using hcopy.user hsame (hleft sp rfl)

/-- Either `exec` fails and has changed nothing but the contents of the file system, or the process has
a new program with its stack, and the arguments have left `P`. -/
theorem exec_leaves {P : Mem → Page → Nat → Nat → Prop} {i : Slot} {path : Path}
    (hfs : ∀ e, E (.fs e)) (hcwd : E .nullCwd) (hremap : ¬ Apart g.kmap → E (.vm .remap))
    (hcopy : Leaves E g argv P) (h : Account g ((s.proc i).pgdir ::ₘ D) H s.mem) :
    wp E (exec g sb i path argv) (fun r s' =>
      r = -1 ∧ Reach g ((s.proc i).pgdir ::ₘ D) ((s.proc i).pgdir ::ₘ D) H s s' ∨
        r = 0 ∧ Replaced g D H i s s' ∧
          P s'.mem (s'.proc i).pgdir (s'.proc i).sz (s'.proc i).esp) s := by
  have hbad : ∀ {r ip s'}, Reach g (addDir r ((s.proc i).pgdir ::ₘ D)) ((s.proc i).pgdir ::ₘ D) H s s' →
      wp E (execBad g r ip) (fun r s' =>
        r = -1 ∧ Reach g ((s.proc i).pgdir ::ₘ D) ((s.proc i).pgdir ::ₘ D) H s s' ∨
          r = 0 ∧ Replaced g D H i s s' ∧
            P s'.mem (s'.proc i).pgdir (s'.proc i).sz (s'.proc i).esp) s' :=
    fun h' => wp_mono (execBad_wp hfs h') fun _ _ h'' => .inl h''
  have h0 := Reach.start h
  unfold exec
  rw [wp_bind]
  unfold getCwd
  simp only [wp_bind, wp_get]
  split
  · rw [wp_pure]
    refine wp_fs hfs fun _ f1 => wp_fs hfs fun r f2 => ?_
    have h2 := (h0.set_fs f1).set_fs f2
    cases r with
    | none =>
      rw [wp_bind]
      exact wp_fs hfs fun _ f3 => .inl ⟨rfl, h2.set_fs f3⟩
    | some ip =>
      rw [wp_bind]
      refine wp_fs hfs fun _ f3 => ?_
      rw [wp_bind]
      refine wp_fs hfs fun r f4 => ?_
      have h4 := (h2.set_fs f3).set_fs f4
      cases r with
      | none => exact hbad (by simpa using h4)
      | some elf =>
        dsimp only
        split
        · exact hbad (by simpa using h4)
        · rw [wp_bind]
          refine wp_mem (wp_mono (Vm.setupkvm_wp hremap h4.account) ?_)
          rintro (_ | pgdir) m ⟨hm, hkept, hblank⟩
          · exact hbad (h4.set_mem hm hkept)
          · rw [Vm.addDir_some] at hm
            refine wp_seq (loadLoop_wp hfs _
              ⟨h4.set_mem hm hkept, (hblank pgdir rfl).image⟩) ?_
            rintro (_ | sz) s6 ⟨sz', h6, hsz⟩
            · exact hbad (by simpa using h6.reach)
            · rw [← hsz sz rfl] at h6
              rw [wp_bind]
              refine wp_fs hfs fun _ f7 => ?_
              rw [wp_bind]
              exact wp_fs hfs fun _ f8 =>
                execStack_leaves hfs hcopy ((h6.set_fs f7).set_fs f8)
  · exact hcwd

/-- **`exec`.**  Either it fails and has changed nothing but the contents of the file system, or the
process has a new program with its stack. -/
theorem exec_wp {i : Slot} {path : Path} (hfs : ∀ e, E (.fs e)) (hcwd : E .nullCwd)
    (hremap : ¬ Apart g.kmap → E (.vm .remap)) (hcopy : Copying E g argv)
    (h : Account g ((s.proc i).pgdir ::ₘ D) H s.mem) :
    wp E (exec g sb i path argv) (fun r s' =>
      r = -1 ∧ Reach g ((s.proc i).pgdir ::ₘ D) ((s.proc i).pgdir ::ₘ D) H s s' ∨
        r = 0 ∧ Replaced g D H i s s') s := by
  refine wp_mono (exec_leaves hfs hcwd hremap hcopy.leaves h) ?_
  rintro r s' (hfail | ⟨hr, hreplaced, -⟩)
  · exact .inl hfail
  · exact .inr ⟨hr, hreplaced⟩

end Laboratorio.Xv6.Kernel
