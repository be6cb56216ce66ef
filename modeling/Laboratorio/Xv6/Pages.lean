import Laboratorio.Lib.TwoLevel
import Laboratorio.Xv6.Vm

/-!
# Who owns which page

`Account g ds held m` says that the pages given to `kfree` at boot are, each exactly once, on the
free list, in the tree of one of the page directories `ds`, or in `held`, the pages that someone
else is responsible for.  `Kept ds held m m'` says that the trees of `ds` and the pages `held` have not
been touched from `m` to `m'`, neither their entries nor their bytes.

`pte` and `user` read an address space: the entry that maps an address, and that entry with the bytes
of its page.  Every function of `xv6/kalloc.c`, and `walkpgdir`, has a rule here; those of the other
functions are in `Xv6/Uvm.lean`.
-/

namespace Laboratorio.Xv6.Vm

open Laboratorio.Lib TwoLevel Function Multiset

/-- A page directory has 1024 entries; the tables of the first 512 map user pages. -/
@[irreducible] def shape : Shape := ⟨1024, 512, 1024, by decide⟩

theorem shape_dir : shape.dir = 1024 := by rw [shape]

theorem shape_owned : shape.owned = 512 := by rw [shape]

theorem shape_leaf : shape.leaf = 1024 := by rw [shape]

/-- What an entry points to. -/
def Pte.points (e : Pte) : Option Page := if e.P then some e.ppn else none

def view (page : Page → Nat → Pte) : Page → Nat → Option Page := fun p i => (page p i).points

/-- The directory, its tables and its user pages. -/
def space (page : Page → Nat → Pte) (d : Page) : Multiset Page := tree shape (view page) d

/-- The pages handed to `kfree` at boot. -/
def Geometry.pages (g : Geometry) : Multiset Page := (Finset.Ico g.first g.top).val

def Account (g : Geometry) (ds held : Multiset Page) (m : Mem) : Prop :=
  (m.free : Multiset Page) + (ds.map (space m.page)).sum + held = g.pages

variable {g : Geometry} {ds held : Multiset Page} {m : Mem} {d p t : Page} {i j : Nat}

theorem view_update (page : Page → Nat → Pte) (p : Page) (f : Nat → Pte) :
    view (update page p f) = update (view page) p fun i => (f i).points := by
  funext q i
  by_cases hq : q = p
  · subst hq
    simp [view]
  · simp [view, hq]

theorem view_store (page : Page → Nat → Pte) (t : Page) (j : Nat) (e : Pte) :
    view (update page t (update (page t) j e)) =
      write (view page) t j e.points := by
  rw [view_update, write]
  congr 1
  funext i
  by_cases hi : i = j
  · subst hi
    simp
  · simp [hi, view]

/-! ## Consequences of the account -/

theorem Account.nodup (h : Account g ds held m) :
    ((m.free : Multiset Page) + (ds.map (space m.page)).sum + held).Nodup := by
  rw [h]
  exact (Finset.Ico g.first g.top).nodup

theorem Account.range_of_mem (h : Account g ds held m)
    (hp : p ∈ (m.free : Multiset Page) + (ds.map (space m.page)).sum + held) :
    g.first ≤ p ∧ p < g.top := by
  rw [h] at hp
  exact Finset.mem_Ico.1 hp

theorem space_le_sum (page : Page → Nat → Pte) (hd : d ∈ ds) :
    space page d ≤ (ds.map (space page)).sum :=
  single_le_sum (fun _ _ => zero_le _) _ (mem_map_of_mem _ hd)

theorem Account.nodup_space (h : Account g ds held m) (hd : d ∈ ds) : (space m.page d).Nodup := by
  have hsum := (nodup_add.1 (nodup_add.1 h.nodup).1).2.1
  exact nodup_of_le (space_le_sum m.page hd) hsum

theorem Account.notMem_space (h : Account g ds held m) (hp : p ∈ held) (hd : d ∈ ds) :
    p ∉ space m.page d := by
  intro hps
  have hdis := (nodup_add.1 h.nodup).2.2
  refine disjoint_left.1 hdis ?_ hp
  exact mem_add.2 (.inr (mem_of_le (space_le_sum m.page hd) hps))

/-- A page outside the trees may be overwritten. -/
theorem Account.write_held (h : Account g ds held m) (hp : p ∈ held) (f : Nat → Pte) :
    Account g ds held { m with page := update m.page p f } := by
  have hmap : ds.map (space (update m.page p f)) = ds.map (space m.page) := by
    refine map_congr rfl fun d hd => ?_
    unfold space
    rw [view_update]
    exact tree_update_of_notMem _ (h.notMem_space hp hd)
  unfold Account
  rw [hmap]
  exact h

theorem Account.congr {m' : Mem} (h : Account g ds held m) (hfree : m'.free = m.free)
    (hpage : m'.page = m.page) : Account g ds held m' := by
  unfold Account at h ⊢
  rw [hfree, hpage]
  exact h

theorem Account.nodup_tree (h : Account g (d ::ₘ ds) held m) : (tree shape (view m.page) d).Nodup :=
  h.nodup_space (mem_cons_self _ _)

theorem Account.range_of_space (h : Account g (d ::ₘ ds) held m) (hp : p ∈ space m.page d) :
    g.first ≤ p ∧ p < g.top := by
  refine h.range_of_mem (mem_add.2 (.inl (mem_add.2 (.inr ?_))))
  exact mem_of_le (space_le_sum m.page (mem_cons_self _ _)) hp

/-- The trees of two directories have no page in common. -/
theorem Account.notMem_other (h : Account g (d ::ₘ ds) held m) (hp : p ∈ space m.page d) {d' : Page}
    (hd' : d' ∈ ds) : p ∉ space m.page d' := by
  intro hp'
  have hn := (nodup_add.1 (nodup_add.1 h.nodup).1).2.1
  rw [map_cons, sum_cons, nodup_add] at hn
  exact disjoint_left.1 hn.2.2 hp (mem_of_le (space_le_sum m.page hd') hp')

/-- A write into a page of the tree of `d` that changes the tree from `a` to `b`. -/
theorem Account.write_tree (h : Account g (d ::ₘ ds) held m) (hp : p ∈ space m.page d)
    (f : Nat → Pte) {a b held' : Multiset Page}
    (htree : space (update m.page p f) d + a = space m.page d + b)
    (hheld : held' + b = held + a) :
    Account g (d ::ₘ ds) held' { m with page := update m.page p f } := by
  have hmap : ds.map (space (update m.page p f)) = ds.map (space m.page) := by
    refine map_congr rfl fun d' hd' => ?_
    unfold space
    rw [view_update]
    exact tree_update_of_notMem _ (h.notMem_other hp hd')
  unfold Account at h ⊢
  rw [map_cons, sum_cons] at h ⊢
  rw [hmap, ← h]
  have key : (m.free : Multiset Page) +
      (space (update m.page p f) d + (ds.map (space m.page)).sum) + held' + (a + b) =
      (m.free : Multiset Page) + (space m.page d + (ds.map (space m.page)).sum) + held + (a + b) := by
    calc _ = (m.free : Multiset Page) + (ds.map (space m.page)).sum +
          (space (update m.page p f) d + a) + (held' + b) := by abel
      _ = _ := by rw [htree, hheld]; abel
  exact add_right_cancel key

/-! ## What is not touched -/

/-- A page is the same in both memories. -/
def Agree (m m' : Mem) (p : Page) : Prop := m'.page p = m.page p ∧ m'.bytes p = m.bytes p

theorem Agree.trans {m1 m2 : Mem} (h1 : Agree m m1 p) (h2 : Agree m1 m2 p) : Agree m m2 p :=
  ⟨h2.1.trans h1.1, h2.2.trans h1.2⟩

structure Kept (ds held : Multiset Page) (m m' : Mem) : Prop where
  tree : ∀ d ∈ ds, ∀ p ∈ space m.page d, Agree m m' p
  held : ∀ p ∈ held, Agree m m' p

section Kept

variable {ds' held' : Multiset Page} {m' m1 m2 : Mem}

theorem space_congr {page page' : Page → Nat → Pte} (h : ∀ p ∈ space page d, page' p = page p) :
    space page' d = space page d := by
  refine tree_congr fun p hp => ?_
  unfold view
  rw [h p hp]

theorem Kept.refl : Kept ds held m m := ⟨fun _ _ _ _ => ⟨rfl, rfl⟩, fun _ _ => ⟨rfl, rfl⟩⟩

theorem Kept.of_eq (hpage : m'.page = m.page) (hbytes : m'.bytes = m.bytes) : Kept ds held m m' :=
  ⟨fun _ _ p _ => ⟨congrFun hpage p, congrFun hbytes p⟩,
    fun p _ => ⟨congrFun hpage p, congrFun hbytes p⟩⟩

theorem Kept.space (h : Kept ds held m m') (hd : d ∈ ds) : space m'.page d = space m.page d :=
  space_congr fun p hp => (h.tree d hd p hp).1

theorem Kept.trans (h1 : Kept ds held m m1) (h2 : Kept ds held m1 m2) : Kept ds held m m2 := by
  refine ⟨fun d hd p hp => ?_, fun p hp => (h1.held p hp).trans (h2.held p hp)⟩
  refine (h1.tree d hd p hp).trans (h2.tree d hd p ?_)
  rw [h1.space hd]
  exact hp

theorem Kept.mono (h : Kept ds held m m') (hds : ds' ⊆ ds) (hheld : held' ⊆ held) :
    Kept ds' held' m m' :=
  ⟨fun d hd => h.tree d (hds hd), fun p hp => h.held p (hheld hp)⟩

/-- What `held` has besides `p` does not change with `p`. -/
theorem Account.kept_of_held (h : Account g ds ({p} + held) m) (hm : ∀ q ≠ p, Agree m m' q) :
    Kept ds held m m' := by
  have hp : p ∈ ({p} : Multiset Page) + held := by simp
  refine ⟨fun d hd q hq => hm q ?_, fun q hq => hm q ?_⟩
  · rintro rfl
    exact h.notMem_space hp hd hq
  · rintro rfl
    have hn := (nodup_add.1 h.nodup).2.1
    rw [nodup_add] at hn
    exact disjoint_left.1 hn.2.2 (mem_singleton_self _) hq

/-- Nor do other trees and held pages when a page of the tree of `d` changes. -/
theorem Account.kept_of_tree (h : Account g (d ::ₘ ds) held m) (hp : p ∈ space m.page d)
    (hm : ∀ q ≠ p, Agree m m' q) : Kept ds held m m' := by
  refine ⟨fun d' hd' q hq => hm q ?_, fun q hq => hm q ?_⟩
  · rintro rfl
    exact h.notMem_other hp hd' hq
  · rintro rfl
    exact h.notMem_space hq (mem_cons_self _ _) hp

/-- Pages that were free and come back are all that a call without effect has used. -/
theorem Account.free_eq (h : Account g ds held m) (h' : Account g ds held m')
    (hkept : Kept ds held m m') : (m'.free : Multiset Page) = m.free := by
  have hmap : ds.map (Vm.space m'.page) = ds.map (Vm.space m.page) :=
    map_congr rfl fun d hd => hkept.space hd
  unfold Account at h h'
  rw [hmap, ← h] at h'
  exact add_right_cancel (add_right_cancel h')

end Kept

/-! ## The allocator -/

section Allocator

variable {E : Stop → Prop}

theorem kalloc_wp (h : Account g ds held m) :
    wp E kalloc (fun r m' => Account g ds (target r + held) m' ∧ m'.page = m.page ∧
      m'.bytes = m.bytes) m := by
  unfold kalloc
  simp only [wp_bind, wp_get]
  split
  · exact ⟨by simpa [Account] using h, rfl, rfl⟩
  · split
    · rename_i hfree
      exact ⟨by simpa [Account, hfree] using h, rfl, rfl⟩
    · rename_i r free hfree
      refine ⟨?_, rfl, rfl⟩
      unfold Account at h ⊢
      rw [hfree, ← cons_coe, ← singleton_add] at h
      rw [← h, target_some]
      abel

theorem Account.range_of_held (h : Account g ds ({p} + held) m) : g.first ≤ p ∧ p < g.top :=
  h.range_of_mem (by simp)

theorem kfree_wp (h : Account g ds ({p} + held) m) :
    wp E (kfree g p) (fun _ m' => Account g ds held m' ∧ (∀ q ≠ p, Agree m m' q) ∧
      Kept ds held m m') m := by
  obtain ⟨hfirst, htop⟩ := h.range_of_held
  have hok : ¬ (p < g.first ∨ g.top ≤ p) := not_or.2 ⟨not_lt.2 hfirst, not_le.2 htop⟩
  have hagree : ∀ q ≠ p, Agree m { m with
      free := p :: m.free
      page := update m.page p fun _ => .junk
      bytes := update m.bytes p fun _ => 1 } q := fun q hq =>
    ⟨update_of_ne hq _ _, update_of_ne hq _ _⟩
  unfold kfree
  rw [if_neg hok, wp_modify]
  refine ⟨?_, hagree, h.kept_of_held hagree⟩
  have hwrite := h.write_held (mem_add.2 (.inl (mem_singleton_self p))) fun _ => .junk
  unfold Account at hwrite ⊢
  rw [← hwrite, ← cons_coe, ← singleton_add]
  abel

theorem zero_wp (h : Account g ds ({p} + held) m) :
    wp E (zero p) (fun _ m' => Account g ds ({p} + held) m' ∧
      (m'.page = update m.page p fun _ => .zero) ∧ (m'.bytes p = fun _ => 0) ∧
      Kept ds held m m') m := by
  have hwrite := h.write_held (mem_add.2 (.inl (mem_singleton_self p))) fun _ => .zero
  refine ⟨hwrite.congr rfl rfl, rfl, update_self _ _ _, h.kept_of_held fun q hq => ?_⟩
  exact ⟨update_of_ne hq _ _, update_of_ne hq _ _⟩

end Allocator

/-! ## Entries -/

theorem PDX_lt (va : Nat) : PDX va < shape.dir := by
  rw [shape_dir]
  exact Nat.mod_lt _ (by decide)

theorem PTX_lt (va : Nat) : PTX va < shape.leaf := by
  rw [shape_leaf]
  exact Nat.mod_lt _ (by decide)

theorem PDX_user {va : Nat} (h : va < KERNBASE) : PDX va < shape.owned := by
  rw [shape_owned]
  unfold PDX KERNBASE at *
  omega

theorem PDX_kernel {va : Nat} (h : KERNBASE ≤ va) (hlt : va < 2 ^ 32) : shape.owned ≤ PDX va := by
  rw [shape_owned]
  unfold PDX KERNBASE at *
  omega

theorem lt_of_user {va : Nat} (h : va < KERNBASE) : va < 2 ^ 32 := by
  unfold KERNBASE at h
  omega

/-- Two addresses have the same entry when they are in the same page. -/
theorem index_eq_iff {a va : Nat} (ha : a < 2 ^ 32) (hva : va < 2 ^ 32) :
    PDX va = PDX a ∧ PTX va = PTX a ↔ va / PGSIZE = a / PGSIZE := by
  unfold PDX PTX PGSIZE
  omega

/-- The table and the index for `va`, without allocation. -/
def lookup (page : Page → Nat → Pte) (pgdir : Page) (va : Nat) : Option (Page × Nat) :=
  (view page pgdir (PDX va)).map fun t => (t, PTX va)

/-- The entry that maps `va`, if there is one. -/
def pte (page : Page → Nat → Pte) (pgdir : Page) (va : Nat) : Option Pte :=
  (view page pgdir (PDX va)).bind fun t => if (page t (PTX va)).P then some (page t (PTX va)) else none

/-- The entry that maps `va`, and the bytes of the page. -/
def user (m : Mem) (pgdir : Page) (va : Nat) : Option (Pte × (Nat → UInt8)) :=
  (pte m.page pgdir va).map fun e => (e, m.bytes e.ppn)

section Pte

variable {page page' : Page → Nat → Pte} {va a : Nat} {e : Pte} {m' : Mem}

theorem pte_of_table (ht : view page d (PDX va) = some t) :
    pte page d va = if (page t (PTX va)).P then some (page t (PTX va)) else none := by
  rw [pte, ht, Option.bind_some]

theorem pte_of_noTable (ht : view page d (PDX va) = none) : pte page d va = none := by
  rw [pte, ht, Option.bind_none]

theorem exists_table (h : pte page d va = some e) :
    ∃ t, view page d (PDX va) = some t ∧ page t (PTX va) = e ∧ e.P = true := by
  obtain ⟨t, ht, hif⟩ := Option.bind_eq_some_iff.1 h
  split at hif
  · rename_i hP
    cases hif
    exact ⟨t, ht, rfl, hP⟩
  · cases hif

theorem user_eq_none : user m d va = none ↔ pte m.page d va = none := Option.map_eq_none_iff

theorem user_eq_some {c : Nat → UInt8} :
    user m d va = some (e, c) ↔ pte m.page d va = some e ∧ m.bytes e.ppn = c := by
  unfold user
  cases pte m.page d va with
  | none => simp
  | some e' =>
    simp only [Option.map_some, Option.some.injEq, Prod.mk.injEq]
    refine and_congr_right ?_
    rintro rfl
    rfl

theorem ppn_mem_space (hva : va < KERNBASE) (h : pte page d va = some e) : e.ppn ∈ space page d := by
  obtain ⟨t, ht, rfl, hP⟩ := exists_table h
  refine mem_tree_of_leaf (mem_leaves (PDX_user hva) ht (PTX_lt va) ?_)
  rw [view, Pte.points, if_pos hP]

/-- Two user addresses with one frame are in one page. -/
theorem page_of_ppn {va' : Nat} {e' : Pte} (hn : (space page d).Nodup)
    (hva : va < KERNBASE) (hva' : va' < KERNBASE) (he : pte page d va = some e)
    (he' : pte page d va' = some e') (heq : e.ppn = e'.ppn) : va / PGSIZE = va' / PGSIZE := by
  obtain ⟨t, ht, rfl, hP⟩ := exists_table he
  obtain ⟨t', ht', rfl, hP'⟩ := exists_table he'
  have hleaf : view page t (PTX va) = some (page t (PTX va)).ppn := if_pos hP
  have hleaf' : view page t' (PTX va') = some (page t (PTX va)).ppn := heq ▸ if_pos hP'
  refine (index_eq_iff (lt_of_user hva') (lt_of_user hva)).1 ?_
  exact leaf_inj hn (PDX_user hva) (PDX_user hva') ht ht' (PTX_lt va) (PTX_lt va') hleaf hleaf'

theorem pte_congr (h : ∀ p ∈ space page d, page' p = page p) : pte page' d va = pte page d va := by
  have hview : view page' d (PDX va) = view page d (PDX va) := by
    unfold view
    rw [h d mem_tree_self]
  cases ht : view page d (PDX va) with
  | none => rw [pte_of_noTable ht, pte_of_noTable (hview.trans ht)]
  | some t =>
    have hmem : t ∈ space page d := table_mem_tree (PDX_lt va) ht
    rw [pte_of_table ht, pte_of_table (hview.trans ht), h t hmem]

theorem user_congr (hva : va < KERNBASE) (hpte : pte m'.page d va = pte m.page d va)
    (h : ∀ p ∈ space m.page d, m'.bytes p = m.bytes p) : user m' d va = user m d va := by
  unfold user
  rw [hpte]
  cases hp : pte m.page d va with
  | none => rfl
  | some e => simp only [Option.map_some, h e.ppn (ppn_mem_space hva hp)]

theorem Kept.pte (h : Kept ds held m m') (hd : d ∈ ds) : pte m'.page d va = pte m.page d va :=
  pte_congr fun p hp => (h.tree d hd p hp).1

theorem Kept.user (h : Kept ds held m m') (hd : d ∈ ds) (hva : va < KERNBASE) :
    user m' d va = user m d va :=
  user_congr hva (h.pte hd) fun p hp => (h.tree d hd p hp).2

theorem Kept.view (h : Kept ds held m m') (hd : d ∈ ds) : view m'.page d = view m.page d := by
  unfold Vm.view
  rw [(h.tree d hd d mem_tree_self).1]

theorem pte_store (hn : (space page d).Nodup) (ht : view page d (PDX a) = some t) (e : Pte)
    (ha : a < 2 ^ 32) (hva : va < 2 ^ 32) :
    pte (update page t (update (page t) (PTX a) e)) d va =
      if va / PGSIZE = a / PGSIZE then if e.P then some e else none else pte page d va := by
  obtain ⟨htd, huniq⟩ := table_facts hn (PDX_lt a) ht
  have hview : view (update page t (update (page t) (PTX a) e)) d (PDX va) =
      view page d (PDX va) := by
    rw [view, update_of_ne htd.symm, view]
  by_cases hsame : va / PGSIZE = a / PGSIZE
  · obtain ⟨hD, hT⟩ := (index_eq_iff ha hva).2 hsame
    rw [if_pos hsame, pte_of_table (t := t)]
    · rw [update_self, hT, update_self]
    · rw [hview, hD, ht]
  · rw [if_neg hsame]
    cases hu : view page d (PDX va) with
    | none => rw [pte_of_noTable hu, pte_of_noTable (hview.trans hu)]
    | some u =>
      rw [pte_of_table hu, pte_of_table (hview.trans hu)]
      by_cases hut : u = t
      · subst hut
        have hj : PTX va ≠ PTX a := fun hj =>
          hsame ((index_eq_iff ha hva).1 ⟨huniq _ (PDX_lt va) hu, hj⟩)
        rw [update_self, update_of_ne hj]
      · rw [update_of_ne hut]

/-- A table without entries maps nothing. -/
theorem pte_addTable (hn : (space page d).Nodup) (hnone : view page d (PDX a) = none)
    (hempty : ∀ j, page t j = .zero) (htd : t ≠ d) (W U : Bool) (rest : Nat) :
    pte (update page d (update (page d) (PDX a) ⟨t, true, W, U, rest⟩)) d va =
      pte page d va := by
  by_cases hD : PDX va = PDX a
  · have hview : view (update page d (update (page d) (PDX a) ⟨t, true, W, U, rest⟩)) d
        (PDX va) = some t := by
      rw [view, update_self, hD, update_self, Pte.points, if_pos rfl]
    rw [pte_of_table hview, update_of_ne htd, hempty, pte_of_noTable (hD ▸ hnone)]
    rfl
  · have hview : view (update page d (update (page d) (PDX a) ⟨t, true, W, U, rest⟩)) d
        (PDX va) = view page d (PDX va) := by
      rw [view, update_self, update_of_ne hD, view]
    cases hu : view page d (PDX va) with
    | none => rw [pte_of_noTable hu, pte_of_noTable (hview.trans hu)]
    | some u =>
      have hud : u ≠ d := (table_facts hn (PDX_lt va) hu).1
      rw [pte_of_table hu, pte_of_table (hview.trans hu), update_of_ne hud]

end Pte

/-! ## `walkpgdir` -/

theorem walkpgdir_false_wp {Q : Option (Page × Nat) → Mem → Prop} {E : Stop → Prop} {va : Nat} :
    wp E (walkpgdir d va false) Q m ↔ Q (lookup m.page d va) m := by
  unfold walkpgdir lookup view Pte.points
  simp only [wp_bind, wp_get]
  by_cases hp : (m.page d (PDX va)).P = true
  · simp [hp]
  · simp [hp]

/-- At most the table number `i` is new in the directory, and it is empty. -/
structure Tabled (d : Page) (ds held : Multiset Page) (i : Nat) (m m' : Mem) : Prop where
  kept : Kept ds held m m'
  entries : ∀ va, pte m'.page d va = pte m.page d va
  bytes : ∀ p ∈ space m.page d, m'.bytes p = m.bytes p
  tables : ∀ l ≠ i, view m'.page d l = view m.page d l

theorem Tabled.refl : Tabled d ds held i m m := ⟨.refl, fun _ => rfl, fun _ _ => rfl, fun _ _ => rfl⟩

theorem Tabled.mapped {m' : Mem} (h : Tabled d ds held i m m') {va : Nat} (hva : va < KERNBASE) :
    user m' d va = user m d va :=
  user_congr hva (h.entries va) h.bytes

/-- `walkpgdir` gives the directory a new table if it has none for `va`. -/
theorem walkpgdir_wp {E : Stop → Prop} (va : Nat) (h : Account g (d ::ₘ ds) held m) :
    wp E (walkpgdir d va true)
      (fun r m' => Account g (d ::ₘ ds) held m' ∧ Tabled d ds held (PDX va) m m' ∧
        ∀ t j, r = some (t, j) → j = PTX va ∧ view m'.page d (PDX va) = some t) m := by
  unfold walkpgdir
  simp only [wp_bind, wp_get]
  split
  · rename_i hp
    refine ⟨h, .refl, ?_⟩
    rintro t j ⟨⟩
    exact ⟨rfl, by simp [view, Pte.points, hp]⟩
  · rename_i hp
    simp only [if_true, wp_bind]
    refine wp_mono (kalloc_wp h) ?_
    rintro (_ | pgtab) m1 ⟨h1, hpage1, hbytes1⟩
    · refine ⟨by simpa using h1, ⟨.of_eq hpage1 hbytes1, fun _ => by rw [hpage1], fun _ _ => ?_, fun _ _ => ?_⟩,
        by simp⟩
      · rw [hbytes1]
      · rw [hpage1]
    · rw [target_some] at h1
      refine wp_seq (zero_wp h1) ?_
      rintro ⟨⟩ m2 ⟨h2, hpage2, -, hkept2⟩
      have hmem : pgtab ∈ ({pgtab} : Multiset Page) + held := by simp
      have hself : d ∈ d ::ₘ ds := mem_cons_self _ _
      have hne : pgtab ≠ d := by
        rintro rfl
        exact h2.notMem_space hmem hself mem_tree_self
      have hview2 : view m2.page d = view m.page d := by
        rw [hkept2.view hself, hpage1]
      have hnone : view m2.page d (PDX va) = none := by
        rw [hview2, view, Pte.points, if_neg hp]
      have hzero : ∀ j, m2.page pgtab j = .zero := by
        intro j
        rw [hpage2, update_self]
      have htree := tree_write_dir h2.nodup_tree (PDX_lt va) hnone hne fun j _ => by
        rw [view, hzero]
        rfl
      have hagree : ∀ q ≠ d, Agree m2 { m2 with
          page := update m2.page d
            (update (m2.page d) (PDX va) ⟨pgtab, true, true, true, 0⟩) } q := fun q hq =>
        ⟨update_of_ne hq _ _, rfl⟩
      have hkept : Kept (d ::ₘ ds) held m m2 :=
        (Kept.of_eq hpage1 hbytes1).trans hkept2
      refine ⟨h2.write_tree mem_tree_self _ (a := 0) (b := {pgtab}) ?_ ?_, ⟨?_, ?_, ?_, ?_⟩, ?_⟩
      · rw [add_zero, space, view_store]
        exact htree
      · abel
      · refine (hkept.mono (subset_cons _ _) (Multiset.Subset.refl _)).trans ?_
        exact (h2.kept_of_tree mem_tree_self hagree).mono (Multiset.Subset.refl _)
          (subset_of_le (le_add_left _ _))
      · intro va'
        dsimp only
        rw [pte_addTable h2.nodup_tree hnone hzero hne]
        exact hkept.pte hself
      · intro p hp'
        exact (hkept.tree d hself p hp').2
      · intro l hl
        have hl' : view m2.page d l = view m.page d l := congrFun hview2 l
        rw [← hl']
        simp [view, hl]
      · rintro t j ⟨⟩
        exact ⟨rfl, by simp [view, Pte.points]⟩

theorem Account.map_user {va : Nat} (h : Account g (d ::ₘ ds) ({p} + held) m) (hva : va < KERNBASE)
    (ht : view m.page d (PDX va) = some t) (hfree : (m.page t (PTX va)).P = false) (W U : Bool)
    (rest : Nat) :
    Account g (d ::ₘ ds) held { m with
      page := update m.page t (update (m.page t) (PTX va) ⟨p, true, W, U, rest⟩) } := by
  have htree := tree_write_leaf (some p) (h.nodup_space (mem_cons_self _ _)) (PDX_user hva) ht
    (PTX_lt va)
  have hnone : view m.page t (PTX va) = none := by simp [view, Pte.points, hfree]
  rw [hnone, target_none, target_some] at htree
  refine h.write_tree (table_mem_tree (PDX_lt va) ht) _ (a := 0) (b := {p}) ?_ ?_
  · rw [space, view_store]
    exact htree
  · abel

theorem Account.unmap_user {va : Nat} (h : Account g (d ::ₘ ds) held m) (hva : va < KERNBASE)
    (ht : view m.page d (PDX va) = some t) (hp : view m.page t (PTX va) = some p) :
    Account g (d ::ₘ ds) ({p} + held) { m with
      page := update m.page t (update (m.page t) (PTX va) .zero) } := by
  have htree := tree_write_leaf none (h.nodup_space (mem_cons_self _ _)) (PDX_user hva) ht
    (PTX_lt va)
  rw [hp, target_none, target_some] at htree
  refine h.write_tree (table_mem_tree (PDX_lt va) ht) _ (a := {p}) (b := 0) ?_ ?_
  · rw [space, view_store]
    exact htree
  · abel

/-- The entries of the kernel's part of the tables own nothing. -/
theorem Account.map_kernel {va : Nat} (h : Account g (d ::ₘ ds) held m) (hva : KERNBASE ≤ va)
    (hlt : va < 2 ^ 32) (ht : view m.page d (PDX va) = some t) (j : Nat) (e : Pte) :
    Account g (d ::ₘ ds) held { m with
      page := update m.page t (update (m.page t) j e) } := by
  have htree := tree_write_shared (j := j) e.points (h.nodup_space (mem_cons_self _ _))
    (PDX_lt va) (PDX_kernel hva hlt) ht
  refine h.write_tree (table_mem_tree (PDX_lt va) ht) _ (a := 0) (b := 0) ?_ rfl
  rw [space, view_store, add_zero, add_zero]
  exact htree

end Laboratorio.Xv6.Vm
