import Laboratorio.Xv6.Exec

/-!
# `sbrk`

`growproc` passes on to `allocuvm` or `deallocuvm`, and takes a result of 0 for a failure.  It is also
the size of a process that gives back all its memory, so that `sbrk(-sz)` frees everything and fails;
and `sz + n` is an unsigned number, so that a process that asks for less than nothing is told that it
got it.  `growproc_exact_iff` says that these two are the only calls that do not what they should.
-/

namespace Laboratorio.Xv6.Kernel

open Laboratorio.Lib TwoLevel
open Vm (Page Mem Geometry PGSIZE PGROUNDUP KERNBASE Image Account Kept Edited Grown Zeroed Exact cut user guardBelow)

variable {g : Geometry} {D H : Multiset Page} {s : State} {i : Slot} {n : Int} {E : Stop → Prop}

/-- `sz + n`, as an unsigned number. -/
def newSize (sz : Nat) (n : Int) : Nat := ((sz + n) % 2 ^ 32).toNat

/-- What `allocuvm` or `deallocuvm` has done for `growproc`, with the result `r`. -/
def Resized (d : Page) (D H : Multiset Page) (sz : Nat) (n : Int) (r : Nat) (m m' : Mem) : Prop :=
  if 0 < n then
    (newSize sz n < KERNBASE ∧ r = max sz (newSize sz n) ∧
        Grown Zeroed d D H (PGROUNDUP sz) (PGROUNDUP (newSize sz n)) m m') ∨
      (r = 0 ∧ ∃ hi, Edited d D H m m' (cut (user m d) (PGROUNDUP sz) hi))
  else r = min sz (newSize sz n) ∧
    Edited d D H m m' (cut (user m d) (PGROUNDUP (newSize sz n)) (PGROUNDUP sz))

theorem Resized.kept {d : Page} {sz r : Nat} {m m' : Mem} (h : Resized d D H sz n r m m') :
    Kept D H m m' := by
  unfold Resized at h
  split at h
  · rcases h with ⟨-, -, hgrown⟩ | ⟨-, hi, hcut⟩
    · exact hgrown.edited.kept
    · exact hcut.kept
  · exact h.2.kept

theorem Resized.lt {d : Page} {sz r : Nat} {m m' : Mem} (hsz : sz < KERNBASE)
    (h : Resized d D H sz n r m m') : r < KERNBASE := by
  unfold Resized at h
  split at h
  · rcases h with ⟨hnew, rfl, -⟩ | ⟨rfl, -⟩
    · exact max_lt hsz hnew
    · exact Nat.two_pow_pos 31
  · rw [h.1]
    exact (min_le_left _ _).trans_lt hsz

/-- What `growproc` leaves when its callee has given `r`. -/
def after (s : State) (i : Slot) (r : Nat) (m : Mem) : State :=
  if r = 0 then { s with mem := m } else { s with
    mem := m
    proc := Function.update s.proc i { s.proc i with sz := r } }

theorem Resized.image {d : Page} {sz r : Nat} {guard : Option Nat} {m m' : Mem}
    (h : Resized d D H sz n r m m') (hr : r ≠ 0) (himg : Image g m.page d sz guard) :
    Image g m'.page d r (guardBelow r guard) := by
  unfold Resized at h
  split at h
  · obtain ⟨hnew, rfl, hgrown⟩ | ⟨rfl, -⟩ := h
    · have himg' := himg.grow hnew hgrown
      rwa [Vm.guardBelow_of_le himg' le_rfl]
    · exact absurd rfl hr
  · obtain ⟨rfl, hcut⟩ := h
    rcases Nat.lt_or_ge sz (newSize sz n) with hlt | hge
    · rw [min_eq_left hlt.le, Vm.guardBelow_of_le himg le_rfl]
      refine himg.congr (hcut.kern himg.kern) fun va hva => ?_
      rw [Vm.pte_of_user (hcut.mapped va hva), Vm.cut_of_le (Vm.PGROUNDUP_mono hlt.le), ← Vm.pte_of_user rfl]
    · rw [min_eq_right hge]
      exact himg.shrink hge hcut

theorem growproc_wp (hsz : (s.proc i).sz ≤ KERNBASE)
    (hremap : (∃ va < KERNBASE, PGROUNDUP (s.proc i).sz ≤ va ∧
      (user s.mem (s.proc i).pgdir va).isSome) → E (.vm .remap))
    (h : Account g ((s.proc i).pgdir ::ₘ D) H s.mem) :
    wp E (growproc g i n) (fun ok s' => (n = 0 ∧ ok = true ∧ s' = s) ∨
      (n ≠ 0 ∧ ∃ r m, Account g ((s.proc i).pgdir ::ₘ D) H m ∧
        Resized (s.proc i).pgdir D H (s.proc i).sz n r s.mem m ∧ ok = decide (r ≠ 0) ∧
        s' = after s i r m)) s := by
  unfold growproc
  simp only [wp_bind, wp_get]
  split
  · rename_i hn
    exact .inl ⟨hn, rfl, rfl⟩
  · rename_i hn
    have hgrow : wp (fun e => E (.vm e)) (if 0 < n
          then Vm.allocuvm g (s.proc i).pgdir (s.proc i).sz (newSize (s.proc i).sz n)
          else Vm.deallocuvm g (s.proc i).pgdir (s.proc i).sz (newSize (s.proc i).sz n))
        (fun r m => Account g ((s.proc i).pgdir ::ₘ D) H m ∧
          Resized (s.proc i).pgdir D H (s.proc i).sz n r s.mem m) s.mem := by
      unfold Resized
      split
      · exact Vm.allocuvm_wp hremap h
      · exact wp_mono (Vm.deallocuvm_wp hsz h) fun r m hm => ⟨hm.2.1, hm.1, hm.2.2⟩
    rw [wp_bind]
    refine wp_mem (wp_mono hgrow ?_)
    rintro r m ⟨hm, hr⟩
    split
    · rename_i h0
      exact .inr ⟨hn, r, m, hm, hr, by simp [h0], by simp [h0, after]⟩
    · rename_i h0
      simp only [modProc, wp_bind, wp_modify, wp_pure]
      exact .inr ⟨hn, r, m, hm, hr, by simp [h0], by simp [h0, after]⟩

/-! ## What `growproc` should do -/

/-- From `sz` to `sz'`: the pages below the new size are present, those that survive are the pages they
were, and the new ones are full of zeros. -/
structure Moved (d : Page) (sz sz' : Nat) (m m' : Mem) : Prop where
  exact : Exact m'.page d sz'
  survive : ∀ va < KERNBASE, va < PGROUNDUP sz → va < PGROUNDUP sz' → user m' d va = user m d va
  zeroed : ∀ va < KERNBASE, PGROUNDUP sz ≤ va → va < PGROUNDUP sz' →
    ∃ e, user m' d va = some (e, fun _ => 0)

/-- A success moves the break by `n`; a failure changes neither the size nor the memory. -/
def Atomic (i : Slot) (n : Int) (s : State) (ok : Bool) (s' : State) : Prop :=
  if ok then
    ((s'.proc i).sz : Int) = (s.proc i).sz + n ∧
      Moved (s.proc i).pgdir (s.proc i).sz (s'.proc i).sz s.mem s'.mem
  else (s'.proc i).sz = (s.proc i).sz ∧
    ∀ va < KERNBASE, user s'.mem (s.proc i).pgdir va = user s.mem (s.proc i).pgdir va

theorem Moved.refl {d : Page} {sz : Nat} {m : Mem} (h : Exact m.page d sz) : Moved d sz sz m m :=
  ⟨h, fun _ _ _ _ => rfl, fun va _ hlo hhi => absurd hlo (by omega)⟩

theorem Moved.of_grown {d : Page} {sz sz' : Nat} {m m' : Mem} (h : Exact m.page d sz) (hle : sz ≤ sz')
    (hgrown : Grown Zeroed d D H (PGROUNDUP sz) (PGROUNDUP sz') m m') : Moved d sz sz' m m' := by
  refine ⟨h.grow hle hgrown, fun va hva hlt _ => ?_, fun va hva hlo hhi => ?_⟩
  · rw [hgrown.edited.mapped va hva, if_neg (by omega)]
  · obtain ⟨x, hx, p, rfl⟩ := hgrown.filled va hlo hhi hva
    exact ⟨_, hx⟩

theorem Moved.of_cut {d : Page} {sz sz' : Nat} {m m' : Mem} (h : Exact m.page d sz) (hle : sz' ≤ sz)
    (hcut : Edited d D H m m' (cut (user m d) (PGROUNDUP sz') (PGROUNDUP sz))) : Moved d sz sz' m m' := by
  have hmono := Vm.PGROUNDUP_mono hle
  refine ⟨h.shrink hle hcut, fun va hva _ hlt => ?_, fun va _ hlo hhi => absurd hlo (by omega)⟩
  rw [hcut.mapped va hva, cut, if_neg (by omega)]

theorem newSize_of_nonneg {sz : Nat} {n : Int} (hsz : sz ≤ KERNBASE) (hhi : n < 2 ^ 31) (h : 0 ≤ sz + n) :
    (newSize sz n : Int) = sz + n := by
  unfold newSize
  unfold KERNBASE at hsz
  omega

theorem le_newSize_of_neg {sz : Nat} {n : Int} (hsz : sz ≤ KERNBASE) (hlo : -2 ^ 31 ≤ n) (h : sz + n < 0) :
    sz ≤ newSize sz n := by
  unfold newSize
  unfold KERNBASE at hsz
  omega

section Atomic

variable {r : Nat} {m : Mem}

theorem atomic_after_zero : Atomic i n s (decide (0 ≠ 0)) (after s i 0 m) ↔
    ∀ va < KERNBASE, user m (s.proc i).pgdir va = user s.mem (s.proc i).pgdir va := by
  simp [Atomic, after]

theorem atomic_after_pos (hr : r ≠ 0) : Atomic i n s (decide (r ≠ 0)) (after s i r m) ↔
    (r : Int) = (s.proc i).sz + n ∧ Moved (s.proc i).pgdir (s.proc i).sz r s.mem m := by
  simp [Atomic, after, hr]

theorem Resized.atomic_iff (hsz : (s.proc i).sz ≤ KERNBASE)
    (hexact : Exact s.mem.page (s.proc i).pgdir (s.proc i).sz) (hlo : -2 ^ 31 ≤ n) (hhi : n < 2 ^ 31)
    (hn : n ≠ 0) (h : Resized (s.proc i).pgdir D H (s.proc i).sz n r s.mem m) :
    Atomic i n s (decide (r ≠ 0)) (after s i r m) ↔
      0 ≤ n ∨ 0 < (s.proc i).sz + n ∨ (s.proc i).sz = 0 := by
  unfold Resized at h
  by_cases hpos : 0 < n
  · rw [if_pos hpos] at h
    refine iff_of_true ?_ (.inl hpos.le)
    have hnew := newSize_of_nonneg hsz hhi (by omega)
    obtain ⟨-, rfl, hgrown⟩ | ⟨rfl, hi, hcut⟩ := h
    · rw [max_eq_right (by omega), atomic_after_pos (by omega)]
      exact ⟨hnew, .of_grown hexact (by omega) hgrown⟩
    · exact atomic_after_zero.2 (hexact.undo hcut).mapped
  · rw [if_neg hpos] at h
    obtain ⟨rfl, hcut⟩ := h
    rcases lt_trichotomy ((s.proc i).sz + n) 0 with hneg | hzero | hmore
    · -- the new size has wrapped, and nothing is freed
      rw [min_eq_left (le_newSize_of_neg hsz hlo hneg)]
      by_cases h0 : (s.proc i).sz = 0
      · refine iff_of_true ?_ (.inr (.inr h0))
        rw [h0, atomic_after_zero]
        intro va hva
        rw [hcut.mapped va hva, Vm.cut_of_le (Vm.PGROUNDUP_mono (le_newSize_of_neg hsz hlo hneg))]
      · refine iff_of_false ?_ (by omega)
        rw [atomic_after_pos h0]
        rintro ⟨hsize, -⟩
        omega
    · -- everything is freed, and 0 is taken for a failure
      have hnew : newSize (s.proc i).sz n = 0 := by
        have := newSize_of_nonneg hsz hhi hzero.ge
        omega
      refine iff_of_false ?_ (by omega)
      rw [hnew] at hcut
      rw [hnew, min_eq_right (Nat.zero_le _), atomic_after_zero]
      intro hsame
      have hlt : 0 < PGROUNDUP (s.proc i).sz := by
        have := Vm.le_PGROUNDUP (s.proc i).sz
        omega
      have hpresent := hexact.present hlt (by decide)
      rw [← hsame 0 (by decide), hcut.mapped 0 (by decide), cut, if_pos ⟨le_rfl, hlt⟩] at hpresent
      cases hpresent
    · have hnew := newSize_of_nonneg hsz hhi hmore.le
      refine iff_of_true ?_ (.inr (.inl hmore))
      rw [min_eq_right (by omega), atomic_after_pos (by omega)]
      exact ⟨hnew, .of_cut hexact (by omega) hcut⟩

end Atomic

/-- No page is where `allocuvm` would map a new one. -/
theorem no_remap {P : Prop} (hexact : Exact s.mem.page (s.proc i).pgdir (s.proc i).sz) :
    (∃ va < KERNBASE, PGROUNDUP (s.proc i).sz ≤ va ∧ (user s.mem (s.proc i).pgdir va).isSome) → P := by
  rintro ⟨va, hva, hlo, hsome⟩
  rw [hexact.absent hlo hva] at hsome
  cases hsome

/-- A process that gives back all its memory loses it, and is told that the call has failed. -/
theorem growproc_give_all (h : Account g ((s.proc i).pgdir ::ₘ D) H s.mem) (hsz : (s.proc i).sz ≤ KERNBASE)
    (hexact : Exact s.mem.page (s.proc i).pgdir (s.proc i).sz) (hpos : 0 < (s.proc i).sz) :
    ∃ s', growproc g i (-(s.proc i).sz) s = .ok (false, s') ∧ (s'.proc i).sz = (s.proc i).sz ∧
      ∀ va < KERNBASE, user s'.mem (s.proc i).pgdir va = none := by
  have hwp := growproc_wp (E := fun _ => False) (n := -(s.proc i).sz) hsz (no_remap hexact) h
  cases hrun : growproc g i (-(s.proc i).sz) s with
  | error e => exact (hwp.of_error hrun).elim
  | ok x =>
    obtain ⟨ok, s'⟩ := x
    obtain ⟨hn, -⟩ | ⟨-, r, m, -, hresized, rfl, rfl⟩ := hwp.of_ok hrun
    · omega
    · have hnew : newSize (s.proc i).sz (-(s.proc i).sz) = 0 := by
        simp [newSize]
      rw [Resized, if_neg (by omega), hnew, min_eq_right (Nat.zero_le _)] at hresized
      obtain ⟨rfl, hcut⟩ := hresized
      refine ⟨_, rfl, by simp [after], fun va hva => ?_⟩
      refine (hcut.mapped va hva).trans ?_
      unfold cut
      split
      · rfl
      · exact hexact.absent (by simp [PGROUNDUP, PGSIZE] at *; omega) hva

/-- A new address space of two pages, and whether there was memory for it. -/
def twoNew (g : Geometry) : Vm.M (Page × Bool) := do
  match ← Vm.setupkvm g with
  | none => pure (0, false)
  | some d => do
    let sz ← Vm.allocuvm g d 0 (2 * PGSIZE)
    pure (d, sz = 2 * PGSIZE)

theorem twoNew_wp {m : Mem} (h : Account g D H m) :
    wp (fun _ => True) (twoNew g) (fun x m' => x.2 = true →
      Account g (x.1 ::ₘ D) H m' ∧ Exact m'.page x.1 (2 * PGSIZE)) m := by
  unfold twoNew
  refine wp_seq (Vm.setupkvm_wp (fun _ => trivial) h) ?_
  rintro (_ | d) m1 ⟨h1, -, hblank⟩
  · nofun
  · rw [Vm.addDir_some] at h1
    refine wp_seq (Vm.allocuvm_wp (fun _ => trivial) h1) ?_
    rintro sz m2 ⟨h2, ⟨-, -, hgrown⟩ | ⟨rfl, -⟩⟩
    · exact fun _ => ⟨h2, (hblank d rfl).image.exact.grow (Nat.zero_le _) hgrown⟩
    · nofun

theorem exists_two_pages : ∃ s : State, Account .small ((s.proc 0).pgdir ::ₘ 0) 0 s.mem ∧
    (s.proc 0).sz = 2 * PGSIZE ∧ Exact s.mem.page (s.proc 0).pgdir (2 * PGSIZE) := by
  let m : Mem := ⟨[1, 2, 3, 4, 5, 6, 7, 8, 9, 10, 11], fun _ _ => .zero, fun _ _ => 0, []⟩
  have hm : Account .small 0 0 m := by
    unfold Account
    decide
  obtain ⟨⟨x, m'⟩, hok, htwo⟩ : ∃ p, twoNew .small m = .ok p ∧ p.1.2 := by
    decide +kernel
  obtain ⟨h', hexact⟩ := (twoNew_wp hm).of_ok hok htwo
  let s := start .mkfs []
  exact ⟨{ s with mem := m', proc := fun i => { s.proc i with pgdir := x.1, sz := 2 * PGSIZE } },
    h', rfl, hexact⟩

/-- `growproc` of a process whose pages are those below its size, whatever `n` and whenever `kalloc`
fails.  It is exact and atomic if and only if the process does not shrink to nothing or below. -/
theorem growproc_exact_iff (g : Geometry) (s : State) (i : Slot) (D H : Multiset Page)
    (h : Account g ((s.proc i).pgdir ::ₘ D) H s.mem) (hsz : (s.proc i).sz ≤ KERNBASE)
    (hexact : Exact s.mem.page (s.proc i).pgdir (s.proc i).sz) (n : Int) (hlo : -2 ^ 31 ≤ n)
    (hhi : n < 2 ^ 31) :
    ∃ ok s', growproc g i n s = .ok (ok, s') ∧
      (Atomic i n s ok s' ↔ 0 ≤ n ∨ 0 < (s.proc i).sz + n ∨ (s.proc i).sz = 0) := by
  have hwp := growproc_wp (E := fun _ => False) (n := n) hsz (no_remap hexact) h
  cases hrun : growproc g i n s with
  | error e => exact (hwp.of_error hrun).elim
  | ok x =>
    obtain ⟨ok, s'⟩ := x
    refine ⟨ok, s', rfl, ?_⟩
    obtain ⟨hn, rfl, rfl⟩ | ⟨hn, r, m, -, hresized, rfl, rfl⟩ := hwp.of_ok hrun
    · subst hn
      refine iff_of_true ⟨?_, .refl hexact⟩ (.inl le_rfl)
      omega
    · exact hresized.atomic_iff hsz hexact hlo hhi hn

theorem growproc_exact_shrink : ∃ s : State, Exact s.mem.page (s.proc 0).pgdir (s.proc 0).sz ∧
    ∃ ok s', growproc .small 0 (-PGSIZE) s = .ok (ok, s') ∧ Atomic 0 (-PGSIZE) s ok s' := by
  obtain ⟨s, h, hsz, hexact⟩ := exists_two_pages
  rw [← hsz] at hexact
  have hle : (s.proc 0).sz ≤ KERNBASE := by
    rw [hsz]
    decide
  obtain ⟨ok, s', hrun, hiff⟩ := growproc_exact_iff .small s 0 0 0 h hle hexact (-PGSIZE) (by decide)
    (by decide)
  refine ⟨s, hexact, ok, s', hrun, hiff.2 (.inr (.inl ?_))⟩
  rw [hsz]
  decide

/-- `sbrk(-8192)` in a process of 8192 bytes frees both pages and fails. -/
theorem sbrk_frees_and_fails : ∃ s s' : State, (s.proc 0).sz = 2 * PGSIZE ∧
    Exact s.mem.page (s.proc 0).pgdir (2 * PGSIZE) ∧
    growproc .small 0 (-(2 * PGSIZE : Nat)) s = .ok (false, s') ∧
    (user s.mem (s.proc 0).pgdir 0).isSome ∧ user s'.mem (s.proc 0).pgdir 0 = none ∧
    ¬ Atomic 0 (-(2 * PGSIZE : Nat)) s false s' := by
  obtain ⟨s, h, hsz, hexact⟩ := exists_two_pages
  have hpresent : (user s.mem (s.proc 0).pgdir 0).isSome := hexact.present (by decide) (by decide)
  rw [← hsz] at hexact
  obtain ⟨s', hrun, -, hgone⟩ := growproc_give_all h (by rw [hsz]; decide) hexact (by rw [hsz]; decide)
  rw [hsz] at hrun hexact
  have hnone := hgone 0 (by decide)
  refine ⟨s, s', hsz, hexact, hrun, hpresent, hnone, ?_⟩
  rintro ⟨-, hsame⟩
  rw [← hsame 0 (by decide), hnone] at hpresent
  cases hpresent

end Laboratorio.Xv6.Kernel
