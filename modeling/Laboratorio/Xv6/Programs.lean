import Laboratorio.Xv6.Ownership

/-!
# Programs and their pages

`pgcnt_exact` is about runs.  `Watch` holds what is known of each process; `watch` follows it through
a call, and `Sound` is the invariant: a process under watch has the `Image` that the watch says.
-/

namespace Laboratorio.Xv6.Kernel

open Laboratorio.Lib TwoLevel Finset
open Vm (Page Mem Geometry Account Kept Image Apart KERNBASE PGSIZE PGROUNDUP PDX PTX pte guardBelow)
open scoped Fs
open Fs (Path Superblock)

variable {g : Geometry} {sb : Superblock} {s s' : State} {i : Slot}

/-! ## A failed `exec` -/

/-- The kernel's regions have no page in common when `data` is the start of a page, which the linker
sees to. -/
theorem apart_xv6 {data kend : Nat} {hdata : KERNBASE + Vm.EXTMEM < data} {hend : data ≤ kend}
    {hlow : kend ≤ KERNBASE + 4 * 1024 * 1024} (hpage : data % PGSIZE = 0) :
    Apart (Geometry.xv6 data kend hdata hend hlow).kmap := by
  simp only [Geometry.xv6, Apart, List.pairwise_cons, List.mem_cons, List.not_mem_nil, or_false,
    forall_eq_or_imp, forall_eq, false_imp_iff, implies_true, List.Pairwise.nil, and_true, Vm.Kmap.Covers,
    Vm.Kmap.size]
  unfold Vm.PGROUNDDOWN PGROUNDUP PGSIZE KERNBASE Vm.EXTMEM Vm.PHYSTOP Vm.DEVSPACE at *
  refine ⟨⟨?_, ?_, ?_⟩, ⟨?_, ?_⟩, ?_⟩ <;> intro va hva hva' <;> omega

/-- **`exec` survives any file.**  Whatever the file system has under `path`, whenever `kalloc` fails,
and for all arguments that fit in the stack page: the memory of the kernel gives no reason for a panic,
and a failure leaves all processes as they were and the same pages free. -/
theorem exec_survives (g : Geometry) (hapart : Apart g.kmap) (sb : Superblock) (s : State) (i : Slot)
    (D H : Multiset Page) (h : Account g ((s.proc i).pgdir ::ₘ D) H s.mem) (path : Path)
    (argv : List (List UInt8)) (hfits : Fits argv) :
    wp (fun e => ∀ v, e ≠ .vm v) (exec g sb i path argv) (fun r s' => r = -1 →
      s'.proc = s.proc ∧ (s'.mem.free : Multiset Page) = s.mem.free) s := by
  refine wp_mono (exec_wp nofun nofun (fun hno => absurd hapart hno) (.of_fits hfits) h) ?_
  rintro r s' (⟨-, hreach⟩ | ⟨rfl, -⟩)
  · intro _
    refine ⟨?_, h.free_eq hreach.account hreach.kept⟩
    rw [hreach.only]
  · nofun

/-- A disk with a file `/a` that begins as a program does. -/
def elfDisk : Fs.State :=
  { Fs.State.mkfs with
    dinode := Function.update Fs.State.mkfs.dinode 2
      ⟨.T_FILE, 0, 0, 1, ELFHDR, Function.update (fun _ => 0) 0 200⟩
    data := Function.update (Function.update Fs.State.mkfs.data Superblock.mkfs.nmeta
      (Bytes.splice (Fs.State.mkfs.data Superblock.mkfs.nmeta) 32 (Fs.dirent [97] 2)))
      200 (Bytes.splice (fun _ => 0) 0 (Bytes.toBytes 4 ELF_MAGIC)) }

/-- A process on a machine with one free page. -/
def onePage : State :=
  let s := start elfDisk []
  { s with
    mem := ⟨[278], fun _ _ => .zero, fun _ _ => 0, []⟩
    proc := fun i => { s.proc i with state := .RUNNABLE, pgdir := 57343, cwd := some 0 } }

theorem onePage_account :
    Account machine ((onePage.proc 0).pgdir ::ₘ 0) (machine.pages - ({278} + {57343})) onePage.mem := by
  have hle : ({278} + {57343} : Multiset Page) ≤ machine.pages := by
    rw [Multiset.le_iff_subset (by decide)]
    intro p hp
    simp only [Multiset.singleton_add, Multiset.mem_cons, Multiset.mem_singleton] at hp
    show p ∈ Finset.Ico machine.first machine.top
    rw [Finset.mem_Ico]
    rcases hp with rfl | rfl <;> decide
  refine Vm.Account.adopt ?_ fun _ => rfl
  show ({278} : Multiset Page) + 0 + ({57343} + _) = _
  rw [add_zero, ← add_assoc]
  exact add_tsub_cancel_of_le hle

/-- `setupkvm` gets a page for the directory and none for the first table. -/
theorem exec_survives_one_page : ∃ s', exec machine .mkfs 0 [47, 97] [[97]] onePage = .ok (-1, s') ∧
    s'.proc = onePage.proc ∧ (s'.mem.free : Multiset Page) = onePage.mem.free := by
  obtain ⟨s', hexec, -⟩ : ∃ s', exec machine .mkfs 0 [47, 97] [[97]] onePage = .ok (-1, s') ∧ True := by
    decide +kernel
  have hwp := exec_survives machine (apart_xv6 (by decide)) .mkfs onePage 0 0 _ onePage_account [47, 97]
    [[97]] (show _ ≤ PGSIZE by decide)
  exact ⟨s', hexec, hwp.of_ok hexec rfl⟩
/-! ## Counting pages -/

section Count

variable {page : Page → Nat → Vm.Pte} {d : Page} {sz : Nat} {guard : Option Nat}

theorem foldl_count (n : Nat) (p : Nat → Prop) [DecidablePred p] (cnt : Int) :
    (List.range n).foldl (fun cnt j => if p j then cnt + 1 else cnt) cnt =
      cnt + ((Finset.range n).filter p).card := by
  induction n with
  | zero => simp
  | succ n ih =>
    rw [List.range_succ, List.foldl_append, ih, range_add_one, filter_insert]
    simp only [List.foldl_cons, List.foldl_nil]
    split
    · rw [card_insert_of_notMem (by simp)]
      push_cast
      omega
    · rfl

/-- The loop over the directories, when the loop over a table counts the numbers from `b * k` on. -/
theorem foldl_tables (a b : Nat) (p : Nat → Prop) [DecidablePred p] (f : Int → Nat → Int)
    (hf : ∀ cnt k, k < a → f cnt k = cnt + ((Finset.range b).filter fun j => p (b * k + j)).card) :
    (List.range a).foldl f 0 = ((Finset.range (b * a)).filter p).card := by
  induction a with
  | zero => simp
  | succ a ih =>
    rw [List.range_succ, List.foldl_append, ih fun cnt k hk => hf cnt k (by omega)]
    simp only [List.foldl_cons, List.foldl_nil]
    rw [hf _ a (by omega), Nat.mul_succ, card_filter, card_filter, card_filter,
      sum_range_add]
    push_cast
    rfl

/-- The pages that the user may access, by their numbers. -/
def accessible (page : Page → Nat → Vm.Pte) (d : Page) (v : Nat) : Bool :=
  (pte page d (v * PGSIZE)).any (·.U)

theorem accessible_eq {k j : Nat} (hk : k < 1024) (hj : j < 1024) :
    accessible page d (1024 * k + j) = true ↔
      (page d k).P = true ∧ (page (page d k).ppn j).P = true ∧ (page (page d k).ppn j).U = true := by
  have hPDX : PDX ((1024 * k + j) * PGSIZE) = k := by
    unfold PDX PGSIZE
    omega
  have hPTX : PTX ((1024 * k + j) * PGSIZE) = j := by
    unfold PTX PGSIZE
    omega
  unfold accessible pte
  rw [hPDX, hPTX, Vm.view, Vm.Pte.points]
  by_cases hP : (page d k).P
  · by_cases hP' : (page (page d k).ppn j).P <;> simp [hP, hP']
  · simp [hP]

theorem sys_pgcnt_eq : sys_pgcnt i s =
    .ok (((Finset.range (1024 * 1024)).filter fun v => accessible s.mem.page (s.proc i).pgdir v).card, s) := by
  have hfold := foldl_tables 1024 1024 (fun v => accessible s.mem.page (s.proc i).pgdir v = true)
    (fun cnt k => if (s.mem.page (s.proc i).pgdir k).P then
      (List.range 1024).foldl (fun cnt j =>
        if (s.mem.page (s.mem.page (s.proc i).pgdir k).ppn j).P ∧
          (s.mem.page (s.mem.page (s.proc i).pgdir k).ppn j).U then cnt + 1 else cnt) cnt
      else cnt) fun cnt k hk => ?_
  · exact congrArg (fun n => Except.ok (n, s)) hfold
  · have hentry : (Finset.range 1024).filter (fun j => accessible s.mem.page (s.proc i).pgdir (1024 * k + j) = true) =
        (Finset.range 1024).filter fun j => (s.mem.page (s.proc i).pgdir k).P = true ∧
          (s.mem.page (s.mem.page (s.proc i).pgdir k).ppn j).P = true ∧
          (s.mem.page (s.mem.page (s.proc i).pgdir k).ppn j).U = true :=
      filter_congr fun j hj => accessible_eq hk (mem_range.1 hj)
    rw [hentry]
    by_cases hP : (s.mem.page (s.proc i).pgdir k).P
    · simp only [hP, if_true, true_and]
      exact foldl_count _ _ _
    · simp [hP]

/-- The accessible pages of an image are those below its size but the guard. -/
theorem accessible_image (h : Image g page d sz guard) {v : Nat} (hv : v < 1024 * 1024) :
    accessible page d v = true ↔ v < PGROUNDUP sz / PGSIZE ∧ guard ≠ some v := by
  have hsize := Vm.PGROUNDUP_le_KERNBASE h.size
  have hround := Vm.PGROUNDUP_mod sz
  have hlt : v * PGSIZE < PGROUNDUP sz ↔ v < PGROUNDUP sz / PGSIZE := by
    unfold PGSIZE at *
    omega
  unfold accessible
  rcases Nat.lt_or_ge (v * PGSIZE) KERNBASE with huser | hkernel
  · rw [← hlt, ← h.exact _ huser]
    cases he : pte page d (v * PGSIZE) with
    | none => simp
    | some e =>
      have haccess := h.access _ huser e he
      rw [Nat.mul_div_cancel v (by decide)] at haccess
      simp [haccess]
  · have hno : ¬ v < PGROUNDUP sz / PGSIZE := by
      rw [← hlt]
      omega
    cases he : pte page d (v * PGSIZE) with
    | none => simp [hno]
    | some e =>
      have hentry := (h.kern.entry _ hkernel (by unfold PGSIZE; omega) e he).1
      simp [hentry, hno]

/-- The pages below the size of a process, less the one below its stack. -/
def userPages (sz : Nat) (guard : Option Nat) : Int :=
  PGROUNDUP sz / PGSIZE - if guard.isSome then 1 else 0

theorem sys_pgcnt_image (h : Image g s.mem.page (s.proc i).pgdir (s.proc i).sz guard) :
    sys_pgcnt i s = .ok (userPages (s.proc i).sz guard, s) := by
  have hsize := Vm.PGROUNDUP_le_KERNBASE h.size
  have hset : ((Finset.range (1024 * 1024)).filter fun v => accessible s.mem.page (s.proc i).pgdir v) =
      (Finset.range (PGROUNDUP (s.proc i).sz / PGSIZE)).filter fun v => guard ≠ some v := by
    ext v
    simp only [mem_filter, mem_range]
    constructor
    · rintro ⟨hv, hacc⟩
      exact (accessible_image h hv).1 hacc
    · intro hv
      have hlt : v < 1024 * 1024 := by
        unfold PGSIZE KERNBASE at *
        omega
      exact ⟨hlt, (accessible_image h hlt).2 hv⟩
  rw [sys_pgcnt_eq, hset, userPages]
  cases guard with
  | none => simp
  | some v =>
    have hbelow := h.below v rfl
    have hmem : v ∈ Finset.range (PGROUNDUP (s.proc i).sz / PGSIZE) := by
      rw [mem_range]
      have := Vm.PGROUNDUP_mod (s.proc i).sz
      unfold PGSIZE at *
      omega
    have herase : ((Finset.range (PGROUNDUP (s.proc i).sz / PGSIZE)).filter fun v' => some v ≠ some v') =
        (Finset.range (PGROUNDUP (s.proc i).sz / PGSIZE)).erase v := by
      ext v'
      simp only [mem_filter, mem_erase, ne_eq, Option.some.injEq]
      rw [and_comm, eq_comm]
    have hpos := mem_range.1 hmem
    rw [herase, card_erase_of_mem hmem, card_range]
    simp only [Option.isSome_some, if_true]
    rw [Nat.cast_sub (by omega)]
    rfl

end Count

/-! ## Watching the processes -/

/-- For a process that has completed an `exec`: the number of its guard page, if its size has always
been above it since. -/
abbrev Watch := Slot → Option (Option Nat)

/-- The watch after the call `c` from `s` to `s'`, with the result `r`. -/
def watch (s s' : State) (c : Slot × Call) (r : Int) (w : Watch) : Watch :=
  match c.2 with
  | .exec _ => if r = 0 then Function.update w c.1 (some (some ((s'.proc c.1).sz / PGSIZE - 2))) else w
  | .sbrk _ => Function.update w c.1
      (if r = -1 then none else (w c.1).map (guardBelow (s'.proc c.1).sz))
  | .fork => fun j =>
    if (s.proc j).state = .UNUSED ∧ (s'.proc j).state ≠ .UNUSED then w c.1 else w j
  | _ => w

/-- The calls of a run, under watch. -/
def watched (g : Geometry) (sb : Superblock) : List (Slot × Call) → Watch → K Watch
  | [], w => pure w
  | c :: cs, w => do
    let s ← get
    let r ← call g sb c
    let s' ← get
    watched g sb cs (watch s s' c r w)

def Sound (g : Geometry) (w : Watch) (s : State) : Prop :=
  ∀ i guard, w i = some guard → (s.proc i).state = .RUNNABLE →
    Image g s.mem.page (s.proc i).pgdir (s.proc i).sz guard

theorem Calm.image {A : Slot → Prop} (h : Calm A s s') (hi : ¬ A i) (hlive : (s'.proc i).state = .RUNNABLE)
    {guard : Option Nat} (himg : (s.proc i).state = .RUNNABLE →
      Image g s.mem.page (s.proc i).pgdir (s.proc i).sz guard) :
    Image g s'.mem.page (s'.proc i).pgdir (s'.proc i).sz guard := by
  have hne : (s'.proc i).state ≠ .UNUSED := by
    rw [hlive]
    decide
  obtain hcore | hunused := h.core i hi
  · simp only [Proc.core, Prod.mk.injEq] at hcore
    rw [hcore.2.1, hcore.2.2.2]
    have hstate : (s.proc i).state = .RUNNABLE := hcore.1.symm.trans hlive
    have hkept : Kept {(s.proc i).pgdir} 0 s.mem s'.mem := by
      refine ⟨fun d hd => ?_, by simp⟩
      rw [Multiset.mem_singleton.1 hd]
      exact h.tree i hi (by rw [hstate]; decide) hne
    exact (himg hstate).kept hkept (Multiset.mem_singleton_self _)
  · exact absurd hunused hne

theorem Sound.calm {w : Watch} (h : Sound g w s) (hcalm : Calm (fun _ => False) s s') : Sound g w s' :=
  fun i guard hw hlive => hcalm.image id hlive (h i guard hw)

/-- A process under watch other than `i`, whose watch becomes `x`. -/
protected theorem Sound.update {w : Watch} {x : Option (Option Nat)} (h : Sound g w s) (hcalm : Calm (· = i) s s')
    (hx : ∀ guard, x = some guard → (s'.proc i).state = .RUNNABLE →
      Image g s'.mem.page (s'.proc i).pgdir (s'.proc i).sz guard) :
    Sound g (Function.update w i x) s' := by
  intro j guard hw hlive
  by_cases hj : j = i
  · subst hj
    rw [Function.update_self] at hw
    exact hx guard hw hlive
  · rw [Function.update_of_ne hj] at hw
    exact hcalm.image hj hlive (h j guard hw)

theorem Sound.fork {w : Watch} {np : Slot} (h : Sound g w s) (hi : (s.proc i).state = .RUNNABLE)
    (hchild : Child g i np s s') :
    Sound g (fun j => if (s.proc j).state = .UNUSED ∧ (s'.proc j).state ≠ .UNUSED then w i else w j) s' := by
  intro j guard hw hlive
  dsimp only at hw
  by_cases hj : j = np
  · subst hj
    rw [if_pos ⟨hchild.unused, by rw [hlive]; decide⟩] at hw
    rw [hchild.size]
    exact hchild.copied.image (h i guard hw hi)
  · refine hchild.calm.image hj hlive fun hstate => h j guard ?_ hstate
    rw [if_neg] at hw
    · exact hw
    · rintro ⟨hunused, -⟩
      rw [hunused] at hstate
      cases hstate

theorem Sound.step {w : Watch} {c : Slot × Call} {r : Int} (h : Sound g w s)
    (hi : (s.proc c.1).state = .RUNNABLE) (heffect : Effect g c.1 s c.2 r s') :
    Sound g (watch s s' c r w) s' := by
  obtain ⟨i, c⟩ := c
  cases c with
  | fork =>
    obtain hcalm | ⟨np, hchild⟩ := heffect
    · intro j guard hw hlive
      refine hcalm.image id hlive fun hstate => h j guard ?_ hstate
      simp only [watch] at hw
      rw [if_neg] at hw
      · exact hw
      · rintro ⟨hunused, -⟩
        rw [hunused] at hstate
        cases hstate
    · exact h.fork hi hchild
  | exit =>
    obtain ⟨hcalm, hzombie⟩ := heffect
    intro j guard hw hlive
    by_cases hj : j = i
    · subst hj
      rw [hzombie] at hlive
      cases hlive
    · exact hcalm.image hj hlive (h j guard hw)
  | sbrk n =>
    obtain ⟨hcalm, himg⟩ := heffect
    refine h.update hcalm fun guard hguard hlive => ?_
    split at hguard
    · cases hguard
    · rename_i hr
      obtain ⟨guard0, hw, rfl⟩ := Option.map_eq_some_iff.1 hguard
      exact himg hr guard0 (h i guard0 hw hi)
  | exec args =>
    obtain ⟨rfl, hcalm⟩ | ⟨rfl, hcalm, hstacked⟩ := heffect
    · exact h.calm hcalm
    · refine h.update hcalm fun guard hguard _ => ?_
      cases hguard
      exact hstacked.image
  | _ => exact h.calm heffect

theorem watched_wp (cs : List (Slot × Call)) : ∀ {w : Watch} {s : State}, Owned g s → Sound g w s →
    wp NoKfree (watched g sb cs w) (fun w' s' => Sound g w' s') s := by
  induction cs with
  | nil => exact fun _ h => h
  | cons c cs ih =>
    intro w s howned h
    unfold watched call
    simp only [wp_bind, wp_get]
    split
    · rename_i hi
      refine wp_mono (syscall_wp c.2 howned hi) ?_
      rintro r s' ⟨howned', heffect⟩
      exact ih howned' (h.step hi heffect)
    · trivial

/-- To watch changes nothing. -/
theorem watched_calls (cs : List (Slot × Call)) (w : Watch) :
    (watched g sb cs w s).map Prod.snd = (calls g sb cs s).map Prod.snd := by
  induction cs generalizing w s with
  | nil => rfl
  | cons c cs ih =>
    show ((call g sb c s).bind fun p => watched g sb cs (watch s p.2 c p.1 w) p.2).map Prod.snd =
      ((call g sb c s).bind fun p => calls g sb cs p.2).map Prod.snd
    cases call g sb c s with
    | error e => rfl
    | ok p => exact ih _

/-- **What `pgcnt` returns.**  Whatever is on the disk, whenever `kalloc` fails and whatever calls the
processes make: from its `exec` on, through successful calls of `sbrk` and in its children, `pgcnt`
gives a process the number of its pages below `PGROUNDUP(sz)`, less one for the page below its stack
as long as its size has stayed above that page. -/
theorem pgcnt_exact (g : Geometry) (sb : Superblock) (ncpu : Nat) (disk : Fs.State) (deny : List Bool)
    (cs : List (Slot × Call)) :
    wp (fun _ => True) (do main g ncpu; watched g sb cs fun _ => none)
      (fun w s => ∀ i guard, w i = some guard → (s.proc i).state = .RUNNABLE →
        sys_pgcnt i s = .ok (userPages (s.proc i).sz guard, s)) (start disk deny) := by
  have hrun : wp NoKfree (do main g ncpu; watched g sb cs fun _ => none) (fun w s => Sound g w s)
      (start disk deny) := by
    exact wp_seq (main_wp disk deny ncpu) fun _ _ h => watched_wp cs h.owned nofun
  refine wp_weaken hrun (fun w s h i guard hw hlive => ?_) fun _ _ => trivial
  exact sys_pgcnt_image (h i guard hw hlive)

/-- The first process writes a program without segments, executes it, and asks for one byte: it has
three pages, and the first one is its guard. -/
example :
    let elf : List UInt8 := [0x7f, 0x45, 0x4c, 0x46] ++ List.replicate 48 0
    let cs : List (Slot × Call) := [(0, .opens (some [47, 97]) 0x202), (0, .write 0 (some elf)),
      (0, .exec (some ([47, 97], [[97]]))), (0, .sbrk 1)]
    (match (do main .small 1; watched .small .mkfs cs fun _ => none) (start .mkfs []) with
    | .ok (w, s) => decide (w 0 = some (some 0)) && decide ((s.proc 0).sz = 2 * PGSIZE + 1) &&
        (match sys_pgcnt 0 s with
        | .ok (n, _) => decide (n = 2)
        | .error _ => false)
    | .error _ => false) = true := by
  decide +kernel

/-! ## Other processes -/

variable {j : Slot}

/-- Process `j` is as it was, with its page tables and all its pages. -/
def Same (j : Slot) (s s' : State) : Prop :=
  (s'.proc j).core = (s.proc j).core ∧ Kept {(s.proc j).pgdir} 0 s.mem s'.mem

theorem Same.trans {s1 : State} (h : Same j s s1) (h' : Same j s1 s') : Same j s s' := by
  have hpgdir : (s1.proc j).pgdir = (s.proc j).pgdir := congrArg (·.2.1) h.1
  exact ⟨h'.1.trans h.1, h.2.trans (hpgdir ▸ h'.2)⟩

theorem Calm.same {A : Slot → Prop} (h : Calm A s s') (hj : ¬ A j) (hs : (s.proc j).state ≠ .UNUSED)
    (hs' : (s'.proc j).state ≠ .UNUSED) : Same j s s' := by
  refine ⟨(h.core j hj).resolve_right hs', fun d hd => ?_, by simp⟩
  rw [Multiset.mem_singleton.1 hd]
  exact h.tree j hj hs hs'

theorem Effect.same {c : Call} {r : Int} (h : Effect g i s c r s') (hij : j ≠ i)
    (hs : (s.proc j).state ≠ .UNUSED) (hs' : (s'.proc j).state ≠ .UNUSED) : Same j s s' := by
  cases c with
  | fork =>
    obtain hcalm | ⟨np, hchild⟩ := h
    · exact hcalm.same id hs hs'
    · exact hchild.calm.same (fun hj => hs (hj ▸ hchild.unused)) hs hs'
  | exit | sbrk n => exact h.1.same hij hs hs'
  | exec args =>
    obtain ⟨-, hcalm⟩ | ⟨-, hcalm, -⟩ := h
    · exact hcalm.same id hs hs'
    · exact hcalm.same hij hs hs'
  | _ => exact Calm.same h id hs hs'

/-- The calls of a run, and whether slot `j` is in use all along. -/
def lives (g : Geometry) (sb : Superblock) (j : Slot) : List (Slot × Call) → K Bool
  | [] => do
    let s ← get
    pure (decide ((s.proc j).state ≠ .UNUSED))
  | c :: cs => do
    let s ← get
    let _ ← call g sb c
    let b ← lives g sb j cs
    pure (decide ((s.proc j).state ≠ .UNUSED) && b)

theorem lives_wp (cs : List (Slot × Call)) : ∀ {s : State}, Owned g s → (∀ c ∈ cs, j ≠ c.1) →
    wp NoKfree (lives g sb j cs)
      (fun b s' => Owned g s' ∧ (b = true → (s.proc j).state ≠ .UNUSED ∧ Same j s s')) s := by
  induction cs with
  | nil => exact fun h _ => ⟨h, fun hb => ⟨of_decide_eq_true hb, rfl, .refl⟩⟩
  | cons c cs ih =>
    intro s h hcs
    obtain ⟨hc, hcs⟩ := List.forall_mem_cons.1 hcs
    unfold lives call
    simp only [wp_bind, wp_get]
    split
    · rename_i hi
      refine wp_mono (syscall_wp c.2 h hi) ?_
      rintro r s1 ⟨h1, heffect⟩
      refine wp_mono (ih h1 hcs) fun b s' hb => ⟨hb.1, fun hall => ?_⟩
      rw [Bool.and_eq_true, decide_eq_true_iff] at hall
      obtain ⟨hs1, hsame⟩ := hb.2 hall.2
      exact ⟨hall.1, (heffect.same hc hall.1 hs1).trans hsame⟩
    · trivial

/-- **Processes are isolated.**  Whatever calls the other processes make, and whenever `kalloc` fails: a
process that makes no call keeps its size, its page tables and every byte of its pages, and in the end
every page is still owned exactly once. -/
theorem processes_isolated (g : Geometry) (sb : Superblock) (ncpu : Nat) (disk : Fs.State)
    (deny : List Bool) (cs others : List (Slot × Call)) (j : Slot) :
    wp NoKfree (do
        main g ncpu
        calls g sb cs
        let s ← get
        let b ← lives g sb j (others.filter (j ≠ ·.1))
        pure (s, b))
      (fun r s' => owners s' = (Finset.Ico g.first g.top).val ∧ (r.2 = true → Same j r.1 s'))
      (start disk deny) := by
  refine wp_seq (main_wp disk deny ncpu) fun _ s1 h1 => ?_
  refine wp_seq (calls_wp cs h1.owned) fun _ s h => ?_
  simp only [wp_bind, wp_get]
  refine wp_mono (lives_wp _ h ?_) fun b s' hb => ⟨hb.1.owners, fun hall => (hb.2 hall).2⟩
  simp

end Laboratorio.Xv6.Kernel
