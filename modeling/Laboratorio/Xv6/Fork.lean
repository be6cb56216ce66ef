import Laboratorio.Xv6.Break

/-!
# What `fork` gives the child: `copyuvm`

`copyuvm_wp` says that the new directory has a copy of the user half and that nothing the kernel
owned has changed.  With every page accounted for once, the rest follows: the copies are in frames
that were free, each in its own, and neither directory reaches a frame of the other.
-/

namespace Laboratorio.Xv6.Vm

open Laboratorio.Lib Bytes TwoLevel

variable {g : Geometry} {ds held : Multiset Page} {m m' : Mem} {d d' pgdir : Page} {sz : Nat}

/-! ## Writes through a directory -/

/-- A byte is stored at an address, through the directory `d`. -/
def poke (d : Page) (m : Mem) (w : Nat × UInt8) : Mem :=
  match pte m.page d w.1 with
  | none => m
  | some e =>
    { m with
      bytes := Function.update m.bytes e.ppn (Function.update (m.bytes e.ppn) (w.1 % PGSIZE) w.2) }

theorem poke_page (w : Nat × UInt8) : (poke d m w).page = m.page := by
  unfold poke
  split <;> rfl

theorem poke_bytes {w : Nat × UInt8} (hw : w.1 < KERNBASE) {p : Page} (hp : p ∉ space m.page d) :
    (poke d m w).bytes p = m.bytes p := by
  unfold poke
  split
  · rfl
  · rename_i e he
    have hne : p ≠ e.ppn := fun hpe => hp (hpe ▸ ppn_mem_space hw he)
    exact Function.update_of_ne hne _ _

/-- Writes through one directory are not visible through another one, if their trees have no page in
common. -/
theorem user_pokes (ws : List (Nat × UInt8)) : ∀ {m : Mem},
    (∀ p ∈ space m.page d', p ∉ space m.page d) → (∀ w ∈ ws, w.1 < KERNBASE) → ∀ va < KERNBASE,
      user (ws.foldl (poke d) m) d' va = user m d' va := by
  induction ws with
  | nil => exact fun _ _ _ _ => rfl
  | cons w ws ih =>
    intro m hdis hws va hva
    have hpage := poke_page (d := d) (m := m) w
    have hone : user (poke d m w) d' va = user m d' va :=
      user_congr hva (by rw [hpage]) fun p hp => poke_bytes (hws w List.mem_cons_self) (hdis p hp)
    refine (ih ?_ (fun w' hw' => hws w' (List.mem_cons_of_mem _ hw')) va hva).trans hone
    rwa [hpage]

/-! ## The copy -/

/-- A new directory has been built from free pages. -/
theorem Account.free_add (h : Account g ds held m) (h' : Account g (d ::ₘ ds) held m')
    (hkept : Kept ds held m m') : (m.free : Multiset Page) = m'.free + space m'.page d := by
  have hmap : ds.map (space m'.page) = ds.map (space m.page) :=
    Multiset.map_congr rfl fun d hd => hkept.space hd
  unfold Account at h h'
  rw [Multiset.map_cons, Multiset.sum_cons, hmap, ← h, ← add_assoc] at h'
  exact (add_right_cancel (add_right_cancel h')).symm

/-- What `copyuvm` makes of the process with directory `pgdir` and size `sz`. -/
structure Forked (m : Mem) (pgdir : Page) (sz : Nat) (m' : Mem) (d : Page) : Prop where
  /-- The same flags and the same bytes. -/
  copied : ∀ va < PGROUNDUP sz, ∃ e e', pte m.page pgdir va = some e ∧ pte m'.page d va = some e' ∧
    e' = { e with ppn := e'.ppn } ∧ m'.bytes e'.ppn = m.bytes e.ppn
  /-- The frames have been allocated. -/
  fresh : ∀ va < PGROUNDUP sz, ∀ e', pte m'.page d va = some e' → e'.ppn ∈ m.free ∧ e'.ppn ∉ m'.free
  /-- Every page has a frame of its own. -/
  distinct : ∀ va < PGROUNDUP sz, ∀ va' < PGROUNDUP sz, ∀ e e', pte m'.page d va = some e →
    pte m'.page d va' = some e' → e.ppn = e'.ppn → va / PGSIZE = va' / PGSIZE
  /-- Nothing else is for the user. -/
  others : ∀ va < 2 ^ 32, PGROUNDUP sz ≤ va → ∀ e, pte m'.page d va = some e → e.U = false
  /-- Writes through one directory are not visible through the other. -/
  child : ∀ ws : List (Nat × UInt8), (∀ w ∈ ws, w.1 < KERNBASE) → ∀ va < KERNBASE,
    user (ws.foldl (poke pgdir) m') d va = user m' d va
  parent : ∀ ws : List (Nat × UInt8), (∀ w ∈ ws, w.1 < KERNBASE) → ∀ va < KERNBASE,
    user (ws.foldl (poke d) m') pgdir va = user m' pgdir va

theorem Copied.forked (hsz : sz ≤ KERNBASE) (hpgdir : pgdir ∈ ds) (h : Account g ds held m)
    (h' : Account g (d ::ₘ ds) held m') (hkept : Kept ds held m m')
    (hcopied : Copied g (user m pgdir) sz m' d) : Forked m pgdir sz m' d := by
  have hround : PGROUNDUP sz ≤ KERNBASE := PGROUNDUP_le_KERNBASE hsz
  have hfree := h.free_add h' hkept
  have hdis : ∀ p ∈ space m'.page d, p ∉ space m'.page pgdir := fun p hp => h'.notMem_other hp hpgdir
  refine ⟨fun va hva => ?_, fun va hva e' he' => ?_, fun va hva va' hva' e e' he he' heq => ?_,
    fun va hva hge e he => ?_, fun ws hws => ?_, fun ws hws => ?_⟩
  · obtain ⟨⟨e', c⟩, huser, e, c', p, hu, hxe⟩ := hcopied.below va hva (hva.trans_le hround)
    obtain ⟨rfl, rfl⟩ := Prod.mk.inj hxe
    obtain ⟨he', hc'⟩ := user_eq_some.1 huser
    obtain ⟨he, hc⟩ := user_eq_some.1 hu
    exact ⟨e, _, he, he', rfl, hc'.trans hc.symm⟩
  · have hmem := ppn_mem_space (hva.trans_le hround) he'
    have hn : ((m'.free : Multiset Page) + space m'.page d).Nodup :=
      hfree ▸ (Multiset.nodup_add.1 (Multiset.nodup_add.1 h.nodup).1).1
    refine ⟨?_, fun hfree' => Multiset.disjoint_left.1 (Multiset.nodup_add.1 hn).2.2 hfree' hmem⟩
    rw [← Multiset.mem_coe, hfree]
    exact Multiset.mem_add.2 (.inr hmem)
  · exact page_of_ppn h'.nodup_tree (hva.trans_le hround) (hva'.trans_le hround) he he' heq
  · by_cases hk : va < KERNBASE
    · have hnone := user_eq_none.1 (hcopied.above va hge hk)
      rw [hnone] at he
      cases he
    · exact (hcopied.kern.entry va (Nat.le_of_not_lt hk) hva e he).1
  · exact user_pokes ws hdis hws
  · exact user_pokes ws (fun p hp hp' => hdis p hp' hp) hws

/-- **`fork` copies the address space.**  Whenever `kalloc` fails, `copyuvm` of a process whose pages are
present returns; the tables and the pages of the process are as before, and if there is a new directory,
it is a copy that shares nothing. -/
theorem copyuvm_forks (g : Geometry) (hapart : Apart g.kmap) (m : Mem) (ds held : Multiset Page)
    (h : Account g ds held m) (pgdir : Page) (hpgdir : pgdir ∈ ds) (sz : Nat) (hsz : sz ≤ KERNBASE)
    (hpresent : ∀ va < sz, (pte m.page pgdir va).isSome) :
    ∃ r m', copyuvm g pgdir sz m = .ok (r, m') ∧
      (∀ p ∈ space m.page pgdir, m'.page p = m.page p ∧ m'.bytes p = m.bytes p) ∧
      ∀ d, r = some d → Forked m pgdir sz m' d := by
  have hmissing : (∃ va < sz, user m pgdir va = none) → False ∧ False := by
    rintro ⟨va, hva, hnone⟩
    have hsome := hpresent va hva
    rw [user_eq_none.1 hnone] at hsome
    cases hsome
  have hwp := copyuvm_wp (E := fun _ => False) hsz hpgdir hmissing (fun hno => hno hapart) h
  cases hrun : copyuvm g pgdir sz m with
  | error e => exact (hwp.of_error hrun).elim
  | ok x =>
    obtain ⟨r, m'⟩ := x
    obtain ⟨h', hkept, hcopied⟩ := hwp.of_ok hrun
    refine ⟨r, m', rfl, hkept.tree pgdir hpgdir, ?_⟩
    rintro d rfl
    rw [addDir_some] at h'
    exact (hcopied d rfl).forked hsz hpgdir h h' hkept

/-- Eleven free pages. -/
def elevenFree : Mem :=
  ⟨[1, 2, 3, 4, 5, 6, 7, 8, 9, 10, 11], fun _ _ => .zero, fun _ _ => 0, []⟩

/-- A process of two pages is copied. -/
theorem copyuvm_forks_two : ∃ m pgdir d m', copyuvm .small pgdir (2 * PGSIZE) m = .ok (some d, m') ∧
    Forked m pgdir (2 * PGSIZE) m' d := by
  have hfree : Account .small 0 0 elevenFree := by
    unfold Account
    decide
  obtain ⟨⟨x, m⟩, hnew, htwo, ⟨_ | d, m'⟩, hok, hsome⟩ :
      ∃ p, Kernel.twoNew .small elevenFree = .ok p ∧ p.1.2 ∧
        ∃ q, copyuvm .small p.1.1 (2 * PGSIZE) p.2 = .ok q ∧ q.1.isSome := by decide +kernel
  · cases hsome
  obtain ⟨h, hexact⟩ := (Kernel.twoNew_wp hfree).of_ok hnew htwo
  obtain ⟨r, m'', hok', -, hforked⟩ := copyuvm_forks .small .nil m (x.1 ::ₘ 0) 0 h x.1
    (Multiset.mem_cons_self _ _) (2 * PGSIZE) (by decide) fun va hva =>
      (hexact va (hva.trans (by decide))).2 hva
  rw [hok] at hok'
  cases hok'
  exact ⟨m, x.1, d, m', hok, hforked d rfl⟩

end Laboratorio.Xv6.Vm
