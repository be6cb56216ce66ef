import Laboratorio.Xv6.Pages

/-!
# Rules for the functions of `xv6/vm.c`

Each rule says what a function does to the directory `d` it works on, and that it leaves the trees of
the other directories and the pages that are held alone.  `Edited d ds held m m' u` is the form they
take for a change to the user half of `d`: afterwards `u` is what it maps, and the kernel half is as
it was.

A panic is not excluded but described: a rule asks for `E .remap` only where something is mapped
already, and so on, so that the same rule serves where the panic is impossible and where it is not.
-/

namespace Laboratorio.Xv6.Vm

open Laboratorio.Lib TwoLevel Function

variable {g : Geometry} {ds held : Multiset Page} {m m1 m2 : Mem} {d p t : Page} {E : Stop → Prop}

/-! ## Changes to the user half -/

/-- What a directory maps for the user: at every address, an entry and the bytes of its page. -/
abbrev Mapping := Nat → Option (Pte × (Nat → UInt8))

structure Edited (d : Page) (ds held : Multiset Page) (m m' : Mem) (u : Mapping) : Prop where
  kept : Kept ds held m m'
  tables : ∀ i, shape.owned ≤ i → view m'.page d i = view m.page d i
  kernel : ∀ va, KERNBASE ≤ va → va < 2 ^ 32 → pte m'.page d va = pte m.page d va
  mapped : ∀ va < KERNBASE, user m' d va = u va

theorem Edited.refl : Edited d ds held m m (user m d) :=
  ⟨.refl, fun _ _ => rfl, fun _ _ _ => rfl, fun _ _ => rfl⟩

theorem Edited.congr {m' : Mem} {u v : Mapping} (h : Edited d ds held m m' u)
    (huv : ∀ va < KERNBASE, u va = v va) : Edited d ds held m m' v :=
  ⟨h.kept, h.tables, h.kernel, fun va hva => (h.mapped va hva).trans (huv va hva)⟩

theorem Edited.trans {u v : Mapping} (h1 : Edited d ds held m m1 u) (h2 : Edited d ds held m1 m2 v) :
    Edited d ds held m m2 v :=
  ⟨h1.kept.trans h2.kept, fun i hi => (h2.tables i hi).trans (h1.tables i hi),
    fun va hva hlt => (h2.kernel va hva hlt).trans (h1.kernel va hva hlt), h2.mapped⟩

theorem Edited.mono {m' : Mem} {held' : Multiset Page} {u : Mapping} (h : Edited d ds held m m' u)
    (hheld : held' ⊆ held) : Edited d ds held' m m' u :=
  ⟨h.kept.mono (Multiset.Subset.refl _) hheld, h.tables, h.kernel, h.mapped⟩

/-- What is mapped from `lo` up to `hi` goes. -/
def cut (u : Mapping) (lo hi : Nat) : Mapping := fun va => if lo ≤ va ∧ va < hi then none else u va

/-- The page of `a` is mapped anew. -/
def put (u : Mapping) (a : Nat) (x : Option (Pte × (Nat → UInt8))) : Mapping := fun va =>
  if va / PGSIZE = a / PGSIZE then x else u va

theorem user_of_same {a va : Nat} (ha : a < 2 ^ 32) (hva : va < 2 ^ 32)
    (h : va / PGSIZE = a / PGSIZE) : user m d va = user m d a := by
  obtain ⟨hD, hT⟩ := (index_eq_iff ha hva).2 h
  unfold user pte
  rw [hD, hT]

/-- A range is cut page by page. -/
theorem cut_put {u : Mapping} {a hi va : Nat} (ha : a % PGSIZE = 0) (hhi : a + PGSIZE ≤ hi) :
    cut (put u a none) (a + PGSIZE) hi va = cut u a hi va := by
  unfold cut put
  by_cases hsame : va / PGSIZE = a / PGSIZE
  · rw [if_pos hsame, ite_self, if_pos]
    unfold PGSIZE at *
    omega
  · rw [if_neg hsame]
    refine if_congr ?_ rfl rfl
    unfold PGSIZE at *
    omega

theorem cut_of_le {u : Mapping} {lo hi va : Nat} (h : hi ≤ lo) : cut u lo hi va = u va :=
  if_neg (by omega)

theorem Kept.edited {m' : Mem} (h : Kept (d ::ₘ ds) held m m') : Edited d ds held m m' (Vm.user m d) := by
  have hself : d ∈ d ::ₘ ds := Multiset.mem_cons_self _ _
  exact ⟨h.mono (Multiset.subset_cons _ _) (Multiset.Subset.refl _),
    fun i _ => congrFun (h.view hself) i, fun _ _ _ => h.pte hself, fun _ hva => h.user hself hva⟩

theorem Tabled.edited {a : Nat} (ha : a < KERNBASE) (h : Tabled d ds held (PDX a) m m1) :
    Edited d ds held m m1 (user m d) := by
  refine ⟨h.kept, fun i hi => h.tables i ?_, fun va _ _ => h.entries va, fun va hva => h.mapped hva⟩
  rintro rfl
  exact absurd (PDX_user ha) (not_lt.2 hi)

theorem Edited.store {a : Nat} (h : Account g (d ::ₘ ds) held m) (ha : a < KERNBASE)
    (ht : view m.page d (PDX a) = some t) (e : Pte) :
    Edited d ds held m { m with
      page := update m.page t (update (m.page t) (PTX a) e) }
      (put (user m d) a (if e.P then some (e, m.bytes e.ppn) else none)) := by
  have hpte : ∀ va < 2 ^ 32, pte (update m.page t (update (m.page t) (PTX a) e)) d va =
      if va / PGSIZE = a / PGSIZE then if e.P then some e else none else pte m.page d va :=
    fun va hva => pte_store h.nodup_tree ht e (lt_of_user ha) hva
  refine ⟨?_, fun i hi => ?_, fun va hva hlt => ?_, fun va hva => ?_⟩
  · exact h.kept_of_tree (table_mem_tree (PDX_lt a) ht) fun q hq => ⟨update_of_ne hq _ _, rfl⟩
  · have htd := (table_facts h.nodup_tree (PDX_lt a) ht).1
    dsimp only
    rw [view, update_of_ne htd.symm, view]
  · refine (hpte va hlt).trans (if_neg fun hsame => ?_)
    unfold KERNBASE PGSIZE at *
    omega
  · unfold user put
    dsimp only
    rw [hpte va (lt_of_user hva)]
    split
    · split <;> rfl
    · rfl

/-! ## `mappages` -/

theorem mapLoop_turn {Q : Bool → Mem → Prop} {W U : Bool} {rest n a : Nat} {pa : Page}
    (h : Account g (d ::ₘ ds) held m) (hremap : (pte m.page d a).isSome → E .remap)
    (hfail : ∀ m', Account g (d ::ₘ ds) held m' → Tabled d ds held (PDX a) m m' → Q false m')
    (hstore : ∀ m' t, Account g (d ::ₘ ds) held m' → Tabled d ds held (PDX a) m m' →
      view m'.page d (PDX a) = some t → (m'.page t (PTX a)).P = false →
      wp E
        (match n with
          | 0 => pure true
          | n + 1 => mapLoop d W U rest n ((a + PGSIZE) % 2 ^ 32) (pa + 1)) Q
        { m' with
          page := update m'.page t
            (update (m'.page t) (PTX a) ⟨pa, true, W, U, rest⟩) }) :
    wp E (mapLoop d W U rest n a pa) Q m := by
  unfold mapLoop
  refine wp_seq (walkpgdir_wp a h) ?_
  rintro (_ | ⟨t, j⟩) m' ⟨h', htab, hr⟩
  · exact hfail m' h' htab
  · obtain ⟨rfl, ht⟩ := hr t j rfl
    simp only [wp_bind, wp_get]
    split
    · rename_i hp
      refine hremap ?_
      rw [← htab.entries a, pte_of_table ht, if_pos hp]
      rfl
    · rename_i hp
      simp only [Bool.not_eq_true] at hp
      exact hstore m' t h' htab ht hp

/-- One user page is mapped, or it stays with the caller. -/
theorem mappages_user_wp {W U : Bool} {rest a : Nat} (ha : a % PGSIZE = 0) (hlt : a < KERNBASE)
    (hremap : (user m d a).isSome → E .remap) (h : Account g (d ::ₘ ds) ({p} + held) m) :
    wp E (mappages d a PGSIZE p W U rest)
      (fun r m' => Account g (d ::ₘ ds) (if r then held else {p} + held) m' ∧
        Edited d ds ({p} + held) m m'
          (if r then put (user m d) a (some (⟨p, true, W, U, rest⟩, m.bytes p)) else user m d)) m := by
  have ha' : PGROUNDDOWN a = a := by
    unfold PGROUNDDOWN PGSIZE at *
    omega
  have hn : (PGROUNDDOWN ((a + PGSIZE + 2 ^ 32 - 1) % 2 ^ 32) + 2 ^ 32 - a) % 2 ^ 32 / PGSIZE = 0 := by
    unfold PGROUNDDOWN PGSIZE KERNBASE at *
    omega
  unfold mappages
  simp only [ha', hn]
  refine mapLoop_turn h (fun hp => hremap ?_) (fun m' h' htab => ?_) fun m' t h' htab ht hp => ?_
  · unfold user
    rwa [Option.isSome_map]
  · exact ⟨by simpa using h', by simpa using htab.edited hlt⟩
  · refine ⟨by simpa using h'.map_user hlt ht hp W U rest, ?_⟩
    have hbytes : m'.bytes p = m.bytes p := (htab.kept.held p (by simp)).2
    refine ((htab.edited hlt).trans (Edited.store h' hlt ht _)).congr fun va hva => ?_
    simp only [if_true, put, hbytes]
    rw [htab.mapped hva]

/-- What is known about the kernel half of a directory: its entries are not for the user and lie in
`R`, and its tables are those of `T`. -/
structure Kern (page : Page → Nat → Pte) (d : Page) (R T : Nat → Prop) : Prop where
  entry : ∀ va, KERNBASE ≤ va → va < 2 ^ 32 → ∀ e, pte page d va = some e → e.U = false ∧ R va
  table : ∀ i, shape.owned ≤ i → i < shape.dir → ((view page d i).isSome ↔ T i)

theorem Kern.congr {page : Page → Nat → Pte} {R R' T T' : Nat → Prop} (h : Kern page d R T)
    (hR : ∀ va, R va ↔ R' va) (hT : ∀ i, i < shape.dir → (T i ↔ T' i)) : Kern page d R' T' :=
  ⟨fun va hva hlt e he => ⟨(h.entry va hva hlt e he).1, (hR va).1 (h.entry va hva hlt e he).2⟩,
    fun i hi hlt => (h.table i hi hlt).trans (hT i hlt)⟩

theorem Kern.store {R T : Nat → Prop} {a : Nat} (pa : Page) (W : Bool) (rest : Nat)
    (h : Kern m.page d R T) (ha : a < 2 ^ 32) (htab : Tabled d ds held (PDX a) m m1) (hn : (space m1.page d).Nodup)
    (ht : view m1.page d (PDX a) = some t) :
    Kern (update m1.page t
        (update (m1.page t) (PTX a) ⟨pa, true, W, false, rest⟩)) d
      (fun va => R va ∨ va / PGSIZE = a / PGSIZE) (fun i => T i ∨ i = PDX a) := by
  obtain ⟨htd, -⟩ := table_facts hn (PDX_lt a) ht
  refine ⟨fun va hva hlt e he => ?_, fun i hi hlt => ?_⟩
  · rw [pte_store hn ht _ ha hlt] at he
    split at he
    · rename_i hsame
      cases he
      exact ⟨rfl, .inr hsame⟩
    · rw [htab.entries] at he
      obtain ⟨hU, hR⟩ := h.entry va hva hlt e he
      exact ⟨hU, .inl hR⟩
  · rw [view, update_of_ne htd.symm, ← view]
    by_cases hia : i = PDX a
    · subst hia
      simp [ht]
    · rw [htab.tables i hia, h.table i hi hlt]
      simp [hia]

/-- What a call on a directory without user pages leaves alone. -/
structure Bare (d : Page) (ds held : Multiset Page) (m m' : Mem) : Prop where
  kept : Kept ds held m m'
  entries : ∀ va < KERNBASE, pte m'.page d va = pte m.page d va

theorem Bare.refl : Bare d ds held m m := ⟨.refl, fun _ _ => rfl⟩

theorem Bare.trans (h1 : Bare d ds held m m1) (h2 : Bare d ds held m1 m2) : Bare d ds held m m2 :=
  ⟨h1.kept.trans h2.kept, fun va hva => (h2.entries va hva).trans (h1.entries va hva)⟩

theorem Tabled.bare {a : Nat} (h : Tabled d ds held (PDX a) m m1) : Bare d ds held m m1 :=
  ⟨h.kept, fun va _ => h.entries va⟩

theorem Bare.store {a : Nat} {e : Pte} (h : Account g (d ::ₘ ds) held m) (ha : KERNBASE ≤ a)
    (hlt : a < 2 ^ 32) (ht : view m.page d (PDX a) = some t) :
    Bare d ds held m { m with
      page := update m.page t (update (m.page t) (PTX a) e) } := by
  refine ⟨?_, fun va hva => ?_⟩
  · exact h.kept_of_tree (table_mem_tree (PDX_lt a) ht) fun q hq => ⟨update_of_ne hq _ _, rfl⟩
  · refine (pte_store h.nodup_tree ht e hlt (lt_of_user hva)).trans (if_neg ?_)
    unfold KERNBASE PGSIZE at *
    omega

/-- The kernel's own mappings take nothing but tables. -/
theorem mapLoop_kernel_wp {W : Bool} {rest : Nat} (n : Nat) :
    ∀ {a : Nat} {pa : Page} {m : Mem} {R T : Nat → Prop}, KERNBASE ≤ a → a % PGSIZE = 0 →
      a + n * PGSIZE < 2 ^ 32 → Kern m.page d R T →
      ((∃ va, a ≤ va ∧ va < a + (n + 1) * PGSIZE ∧ R va) → E .remap) →
      Account g (d ::ₘ ds) held m →
      wp E (mapLoop d W false rest n a pa) (fun r m' => Account g (d ::ₘ ds) held m' ∧
        Bare d ds held m m' ∧
        (r = true → Kern m'.page d (fun va => R va ∨ a ≤ va ∧ va < a + (n + 1) * PGSIZE)
          (fun i => T i ∨ a / 2 ^ 22 ≤ i ∧ i ≤ (a + n * PGSIZE) / 2 ^ 22))) m := by
  -- by induction on the pages to go; the first of them is one turn
  have hpdx : ∀ a < 2 ^ 32, PDX a = a / 2 ^ 22 := by
    intro a ha
    unfold PDX
    omega
  induction n with
  | zero =>
    intro a pa m R T ha haligned hlt hkern hremap h
    rw [Nat.zero_mul, Nat.add_zero] at hlt
    refine mapLoop_turn h (fun hp => ?_) (fun m' h' htab => ⟨h', htab.bare, nofun⟩)
      fun m' t h' htab ht hp => ?_
    · obtain ⟨e, he⟩ := Option.isSome_iff_exists.1 hp
      refine hremap ⟨a, le_rfl, ?_, (hkern.entry a ha hlt e he).2⟩
      unfold PGSIZE
      omega
    · refine ⟨h'.map_kernel ha hlt ht _ _, htab.bare.trans (Bare.store h' ha hlt ht), fun _ => ?_⟩
      refine (hkern.store _ _ _ hlt htab h'.nodup_tree ht).congr (fun va => ?_) fun i hi => ?_
      · refine or_congr_right ?_
        unfold PGSIZE at *
        omega
      · rw [hpdx a hlt]
        refine or_congr_right ?_
        omega
  | succ n ih =>
    intro a pa m R T ha haligned hlt hkern hremap h
    have ha' : a < 2 ^ 32 := by omega
    refine mapLoop_turn h (fun hp => ?_) (fun m' h' htab => ⟨h', htab.bare, nofun⟩)
      fun m' t h' htab ht hp => ?_
    · obtain ⟨e, he⟩ := Option.isSome_iff_exists.1 hp
      refine hremap ⟨a, le_rfl, ?_, (hkern.entry a ha ha' e he).2⟩
      unfold PGSIZE
      omega
    · have hnext : (a + PGSIZE) % 2 ^ 32 = a + PGSIZE := by
        refine Nat.mod_eq_of_lt ?_
        unfold PGSIZE at *
        omega
      have hstored := hkern.store pa W rest ha' htab h'.nodup_tree ht
      rw [hnext]
      refine wp_mono (ih (by omega) ?_ ?_ hstored ?_ (h'.map_kernel ha ha' ht _ _)) ?_
      · unfold PGSIZE at *
        omega
      · unfold PGSIZE at *
        omega
      · rintro ⟨va, hlo, hhi, hR | hsame⟩
        · refine hremap ⟨va, ?_, ?_, hR⟩ <;> unfold PGSIZE at * <;> omega
        · unfold PGSIZE at *
          omega
      · rintro r m'' ⟨h'', hbare, hr⟩
        refine ⟨h'', (htab.bare.trans (Bare.store h' ha ha' ht)).trans hbare, fun htrue => ?_⟩
        refine (hr htrue).congr (fun va => ?_) fun i hi => ?_
        · unfold PGSIZE at *
          rw [or_assoc]
          refine or_congr_right ?_
          omega
        · rw [hpdx a ha', or_assoc]
          refine or_congr_right ?_
          unfold PGSIZE at *
          omega

/-- The pages of a region of `kmap`. -/
def Kmap.Covers (k : Kmap) (va : Nat) : Prop :=
  PGROUNDDOWN k.virt ≤ va ∧ va < PGROUNDUP (k.virt + k.size)

/-- The tables that a region of `kmap` takes. -/
def Kmap.Uses (k : Kmap) (i : Nat) : Prop := k.virt / 2 ^ 22 ≤ i ∧ i ≤ (k.virt + k.size - 1) / 2 ^ 22

theorem mappages_kernel_wp {k : Kmap} {W : Bool} {rest : Nat} {pa : Page} {R T : Nat → Prop}
    (hk : k.Ok)
    (hkern : Kern m.page d R T) (hremap : (∃ va, k.Covers va ∧ R va) → E .remap)
    (h : Account g (d ::ₘ ds) held m) :
    wp E (mappages d k.virt k.size pa W false rest) (fun r m' => Account g (d ::ₘ ds) held m' ∧
      Bare d ds held m m' ∧
      (r = true → Kern m'.page d (fun va => R va ∨ k.Covers va) (fun i => T i ∨ k.Uses i))) m := by
  obtain ⟨hvirt, hsize, hend⟩ := hk
  have hlast : (k.virt + k.size + 2 ^ 32 - 1) % 2 ^ 32 = k.virt + k.size - 1 := by omega
  have hcovers : ∀ va, k.Covers va ↔ PGROUNDDOWN k.virt ≤ va ∧ va < PGROUNDDOWN k.virt +
      ((PGROUNDDOWN (k.virt + k.size - 1) + 2 ^ 32 - PGROUNDDOWN k.virt) % 2 ^ 32 / PGSIZE + 1) *
        PGSIZE := by
    intro va
    unfold Kmap.Covers PGROUNDDOWN PGROUNDUP PGSIZE
    omega
  have huses : ∀ i, k.Uses i ↔ PGROUNDDOWN k.virt / 2 ^ 22 ≤ i ∧ i ≤ (PGROUNDDOWN k.virt +
      (PGROUNDDOWN (k.virt + k.size - 1) + 2 ^ 32 - PGROUNDDOWN k.virt) % 2 ^ 32 / PGSIZE * PGSIZE) /
        2 ^ 22 := by
    intro i
    unfold Kmap.Uses PGROUNDDOWN PGSIZE
    omega
  unfold mappages
  simp only [hlast]
  refine wp_mono (mapLoop_kernel_wp _ ?_ ?_ ?_ hkern ?_ h) ?_
  · unfold PGROUNDDOWN PGSIZE KERNBASE at *
    omega
  · unfold PGROUNDDOWN PGSIZE
    omega
  · unfold PGROUNDDOWN PGSIZE at *
    omega
  · rintro ⟨va, hlo, hhi, hR⟩
    exact hremap ⟨va, (hcovers va).2 ⟨hlo, hhi⟩, hR⟩
  · rintro r m' ⟨h', hbare, hr⟩
    refine ⟨h', hbare, fun htrue => (hr htrue).congr (fun va => ?_) fun i _ => ?_⟩
    · rw [hcovers]
    · rw [huses]

/-! ## `deallocuvm` and `freevm` -/

/-- `kfree` of a page and a write into another one may as well change places. -/
theorem kfree_store_comm (htp : t ≠ p) (j : Nat) (e : Pte) :
    (do kfree g p; store t j e) = (do store t j e; kfree g p) := by
  funext m
  unfold kfree store
  by_cases hp : p < g.first ∨ g.top ≤ p
  · simp only [hp, if_true]
    rfl
  · simp only [hp, if_false]
    show Except.ok _ = Except.ok _
    simp only [update_of_ne htp, update_comm htp]

theorem freeUser_wp {a : Nat} (h : Account g (d ::ₘ ds) held m) (ha : a < KERNBASE)
    (ht : view m.page d (PDX a) = some t) (hp : view m.page t (PTX a) = some p) :
    wp E (do kfree g p; store t (PTX a) .zero) (fun _ m' => Account g (d ::ₘ ds) held m' ∧
      Edited d ds held m m' (put (user m d) a none)) m := by
  have hstore := h.unmap_user ha ht hp
  have hedit := Edited.store h ha ht .zero
  have htp : t ≠ p := by
    rintro rfl
    exact (leaf_facts h.nodup_tree (mem_leaves (PDX_user ha) ht (PTX_lt a) hp)).2 _ (PDX_lt a) ht
  rw [kfree_store_comm htp, wp_bind, store, wp_modify]
  refine wp_mono (kfree_wp hstore) ?_
  rintro ⟨⟩ m' ⟨h', -, hkept⟩
  exact ⟨h', (hedit.trans hkept.edited).congr hedit.mapped⟩

theorem PGROUNDUP_mod (sz : Nat) : PGROUNDUP sz % PGSIZE = 0 := Nat.mul_mod_left _ _

theorem le_PGROUNDUP (sz : Nat) : sz ≤ PGROUNDUP sz := by
  unfold PGROUNDUP PGSIZE
  omega

/-- Of the multiples of the page size, `PGROUNDUP sz` is the least from `sz` on. -/
theorem PGROUNDUP_le_iff {sz a : Nat} (ha : a % PGSIZE = 0) : PGROUNDUP sz ≤ a ↔ sz ≤ a := by
  unfold PGROUNDUP PGSIZE at *
  omega

theorem PGROUNDUP_mono {a b : Nat} (h : a ≤ b) : PGROUNDUP a ≤ PGROUNDUP b :=
  (PGROUNDUP_le_iff (PGROUNDUP_mod b)).2 (h.trans (le_PGROUNDUP b))

theorem PGROUNDUP_le_KERNBASE {sz : Nat} (h : sz ≤ KERNBASE) : PGROUNDUP sz ≤ KERNBASE :=
  (PGROUNDUP_le_iff rfl).2 h

/-- Where there is no table, nothing is mapped up to the next one. -/
theorem user_of_noTable {a va : Nat} (hnone : view m.page d (PDX a) = none) (ha : a < KERNBASE)
    (hlo : a ≤ va) (hhi : va < (PDX a + 1) * 2 ^ 22) : user m d va = none := by
  have hPDX : PDX va = PDX a := by
    unfold PDX KERNBASE at *
    omega
  rw [user_eq_none]
  exact pte_of_noTable (hPDX ▸ hnone)

theorem deallocLoop_wp {oldsz : Nat} (hold : oldsz ≤ KERNBASE) (n : Nat) :
    ∀ {a : Nat} {m : Mem}, a % PGSIZE = 0 → oldsz ≤ a + n * PGSIZE → Account g (d ::ₘ ds) held m →
      wp E (deallocLoop g d oldsz n a) (fun _ m' => Account g (d ::ₘ ds) held m' ∧
        Edited d ds held m m' (cut (user m d) a (PGROUNDUP oldsz))) m := by
  -- behind `oldsz`, nothing is left to be done
  have hdone : ∀ {a : Nat} {m : Mem}, a % PGSIZE = 0 → oldsz ≤ a → Account g (d ::ₘ ds) held m →
      Account g (d ::ₘ ds) held m ∧ Edited d ds held m m (cut (user m d) a (PGROUNDUP oldsz)) :=
    fun ha hle h => ⟨h, Edited.refl.congr fun _ _ => (cut_of_le ((PGROUNDUP_le_iff ha).2 hle)).symm⟩
  induction n with
  | zero =>
    intro a m ha hn h
    exact hdone ha (by omega) h
  | succ n ih =>
    intro a m ha hn h
    have hsum : a + (n + 1) * PGSIZE = a + PGSIZE + n * PGSIZE := by
      rw [Nat.succ_mul]
      omega
    have hnext : (a + PGSIZE) % PGSIZE = 0 := by rw [Nat.add_mod_right, ha]
    unfold deallocLoop
    split
    · rename_i hlt
      have hak : a < KERNBASE := hlt.trans_le hold
      have hin : a + PGSIZE ≤ PGROUNDUP oldsz := by
        unfold PGROUNDUP PGSIZE at *
        omega
      -- whatever took the page of `a` away, the other turns do the rest
      have hrest : ∀ m1, Account g (d ::ₘ ds) held m1 →
          Edited d ds held m m1 (put (user m d) a none) →
          wp E (deallocLoop g d oldsz n (a + PGSIZE)) (fun _ m' => Account g (d ::ₘ ds) held m' ∧
            Edited d ds held m m' (cut (user m d) a (PGROUNDUP oldsz))) m1 := by
        intro m1 h1 hedit
        refine wp_mono (ih hnext (by omega) h1) fun _ m' h' => ⟨h'.1, ?_⟩
        refine (hedit.trans h'.2).congr fun va hva => ?_
        rw [← cut_put ha hin, cut, cut, hedit.mapped va hva]
      rw [wp_bind, walkpgdir_false_wp]
      unfold lookup
      cases ht : view m.page d (PDX a) with
      | none =>
        refine wp_mono (ih ?_ ?_ h) fun _ m' h' => ⟨h'.1, h'.2.congr fun va hva => ?_⟩
        · unfold PGSIZE
          omega
        · unfold PDX PGSIZE KERNBASE at *
          omega
        · have hskip : a ≤ va → va < (PDX a + 1) * 2 ^ 22 → user m d va = none :=
            user_of_noTable ht hak
          have hge : a ≤ (PDX a + 1) * 2 ^ 22 := by
            unfold PDX KERNBASE at *
            omega
          unfold cut
          split
          · rename_i hcut
            rw [if_pos ⟨hge.trans hcut.1, hcut.2⟩]
          · split
            · exact hskip (by omega) (by omega)
            · rfl
      | some t =>
        simp only [Option.map_some, wp_bind, wp_get]
        split
        · rename_i hP
          have hp : view m.page t (PTX a) = some (m.page t (PTX a)).ppn := by
            simp [view, Pte.points, hP]
          split
          · rename_i h0
            have hmem := mem_leaves (PDX_user hak) ht (PTX_lt a) hp
            have hpos := g.first_pos.trans_le (h.range_of_space (mem_tree_of_leaf hmem)).1
            exact absurd h0 hpos.ne'
          · rw [← bind_assoc]
            exact wp_seq (freeUser_wp h hak ht hp) fun _ m1 h1 => hrest m1 h1.1 h1.2
        · rename_i hP
          have hnone : user m d a = none := by rw [user_eq_none, pte_of_table ht, if_neg hP]
          refine hrest m h (Edited.refl.congr fun va hva => ?_)
          unfold put
          split
          · rename_i hsame
            rw [user_of_same (lt_of_user hak) (lt_of_user hva) hsame, hnone]
          · rfl
    · exact hdone ha (by omega) h

theorem deallocuvm_wp {oldsz newsz : Nat} (hold : oldsz ≤ KERNBASE)
    (h : Account g (d ::ₘ ds) held m) :
    wp E (deallocuvm g d oldsz newsz) (fun r m' => r = min oldsz newsz ∧
      Account g (d ::ₘ ds) held m' ∧
      Edited d ds held m m' (cut (user m d) (PGROUNDUP newsz) (PGROUNDUP oldsz))) m := by
  unfold deallocuvm
  split
  · rename_i hle
    exact ⟨(min_eq_left hle).symm, h, Edited.refl.congr fun _ _ => (cut_of_le (PGROUNDUP_mono hle)).symm⟩
  · rename_i hlt
    refine wp_seq (deallocLoop_wp hold _ (PGROUNDUP_mod _) ?_ h) fun _ m' h' => ⟨?_, h'⟩
    · unfold PGSIZE
      omega
    · exact (min_eq_right (by omega)).symm

/-- What is left of a directory whose user pages are gone: itself and its tables. -/
theorem Account.disband (h : Account g (d ::ₘ ds) held m)
    (hclear : ∀ va < KERNBASE, user m d va = none) :
    Account g ds ({d} + targets 1024 (view m.page d) + held) m := by
  have hleaves : leaves shape (view m.page) d = 0 := by
    refine leaves_eq_zero fun i hi t ht j hj => ?_
    rw [shape_owned] at hi
    rw [shape_leaf] at hj
    have hva : i * 2 ^ 22 + j * 2 ^ 12 < KERNBASE := by
      unfold KERNBASE
      omega
    have hPDX : PDX (i * 2 ^ 22 + j * 2 ^ 12) = i := by
      unfold PDX
      omega
    have hPTX : PTX (i * 2 ^ 22 + j * 2 ^ 12) = j := by
      unfold PTX
      omega
    have hnone := user_eq_none.1 (hclear _ hva)
    rw [pte_of_table (hPDX.symm ▸ ht), hPTX] at hnone
    unfold view Pte.points
    split at hnone
    · cases hnone
    · rename_i hP
      rw [if_neg hP]
  unfold Account at h ⊢
  rw [← h, Multiset.map_cons, Multiset.sum_cons, space, tree, hleaves, shape_dir]
  abel

/-- The tables from the entry `i` on. -/
def restTables (page : Page → Nat → Pte) (d : Page) (i : Nat) : Multiset Page :=
  ∑ l ∈ Finset.Ico i 1024, target (view page d l)

theorem freeTables_wp (n : Nat) : ∀ {i : Nat} {m : Mem}, i + n = 1024 →
    Account g ds ({d} + restTables m.page d i + held) m →
    wp E (freeTables g d n i) (fun _ m' => Account g ds ({d} + held) m' ∧ Kept ds held m m') m := by
  induction n with
  | zero =>
    intro i m hi h
    have hrest : restTables m.page d i = 0 := by
      have : i = 1024 := by omega
      simp [restTables, this]
    rw [hrest, add_zero] at h
    exact ⟨h, .refl⟩
  | succ n ih =>
    intro i m hi h
    have hlt : i < 1024 := by omega
    have hrest : restTables m.page d i =
        target (view m.page d i) + restTables m.page d (i + 1) := by
      unfold restTables
      rw [Finset.sum_eq_sum_Ico_succ_bot hlt]
    rw [hrest] at h
    unfold freeTables
    simp only [wp_bind, wp_get]
    split
    · rename_i hP
      have hp : view m.page d i = some (m.page d i).ppn := by simp [view, Pte.points, hP]
      rw [hp, target_some] at h
      have h' : Account g ds ({(m.page d i).ppn} + ({d} + restTables m.page d (i + 1) + held)) m := by
        unfold Account at h ⊢
        rw [← h]
        abel
      refine wp_seq (kfree_wp h') ?_
      rintro ⟨⟩ m' ⟨h'', -, hkept⟩
      have hsame : view m'.page d = view m.page d := by
        unfold view
        rw [(hkept.held d (by simp)).1]
      have hfree : Account g ds ({d} + restTables m'.page d (i + 1) + held) m' := by
        unfold restTables at h'' ⊢
        rwa [hsame]
      refine wp_mono (ih (by omega) hfree) fun _ m'' h2 => ⟨h2.1, ?_⟩
      refine (hkept.mono (Multiset.Subset.refl _) ?_).trans h2.2
      exact Multiset.subset_of_le (Multiset.le_add_left _ _)
    · rename_i hP
      have hp : view m.page d i = none := by simp [view, Pte.points, hP]
      rw [hp, target_none, zero_add] at h
      exact ih (by omega) h

theorem freevm_wp (h : Account g (d ::ₘ ds) held m) :
    wp E (freevm g d) (fun _ m' => Account g ds held m' ∧ Kept ds held m m') m := by
  unfold freevm
  refine wp_seq (deallocuvm_wp le_rfl h) ?_
  rintro - m1 ⟨-, h1, hedit⟩
  rw [wp_bind]
  have hclear : ∀ va < KERNBASE, user m1 d va = none := fun va hva => by
    rw [hedit.mapped va hva]
    exact if_pos ⟨Nat.zero_le _, hva.trans_le (le_PGROUNDUP _)⟩
  have hall : restTables m1.page d 0 = targets 1024 (view m1.page d) := by
    unfold restTables targets
    rw [Nat.Ico_zero_eq_range]
  have hfree := h1.disband hclear
  rw [← hall] at hfree
  refine wp_mono (freeTables_wp 1024 rfl hfree) ?_
  rintro - m2 ⟨h2, hkept2⟩
  exact wp_mono (kfree_wp h2) fun _ _ h3 => ⟨h3.1, (hedit.kept.trans hkept2).trans h3.2.2⟩

/-! ## `setupkvm` -/

/-- The page directories after a call that returns one, or none. -/
def addDir (r : Option Page) (ds : Multiset Page) : Multiset Page := target r + ds

@[simp] theorem addDir_none : addDir none ds = ds := zero_add ds

@[simp] theorem addDir_some : addDir (some d) ds = d ::ₘ ds := Multiset.singleton_add d ds

/-- No page is in two of the regions. -/
def Apart (ks : List Kmap) : Prop := ks.Pairwise fun k k' => ∀ va, k.Covers va → ¬ k'.Covers va

/-- A directory with the kernel half that `setupkvm` gives it. -/
def Geometry.Kernel (g : Geometry) (page : Page → Nat → Pte) (d : Page) : Prop :=
  Kern page d (fun va => ∃ k ∈ g.kmap, k.Covers va) fun i => ∃ k ∈ g.kmap, k.Uses i

theorem Edited.kern {m' : Mem} {u : Mapping} (h : Edited d ds held m m' u)
    (hkern : g.Kernel m.page d) : g.Kernel m'.page d :=
  ⟨fun va hva hlt e he => hkern.entry va hva hlt e ((h.kernel va hva hlt).symm.trans he),
    fun i hi hlt => by rw [h.tables i hi, hkern.table i hi hlt]⟩

theorem Kept.kern {m' : Mem} (h : Kept ds held m m') (hd : d ∈ ds) (hkern : g.Kernel m.page d) :
    g.Kernel m'.page d :=
  ⟨fun va hva hlt e he => hkern.entry va hva hlt e ((h.pte hd).symm.trans he),
    fun i hi hlt => by rw [h.view hd, hkern.table i hi hlt]⟩

theorem setupLoop_wp (ks : List Kmap) (hks : ∀ k ∈ ks, k.Ok) :
    ∀ {m : Mem} {R T : Nat → Prop}, Account g (d ::ₘ ds) held m → Kern m.page d R T →
      ((¬ Apart ks ∨ ∃ k ∈ ks, ∃ va, k.Covers va ∧ R va) → E .remap) →
      wp E (setupLoop g d ks) (fun r m' => Account g (addDir r ds) held m' ∧ Kept ds held m m' ∧
        ∀ d', r = some d' → d' = d ∧ Bare d ds held m m' ∧
          Kern m'.page d (fun va => R va ∨ ∃ k ∈ ks, k.Covers va)
            (fun i => T i ∨ ∃ k ∈ ks, k.Uses i)) m := by
  induction ks with
  | nil =>
    intro m R T h hkern _
    refine ⟨by simpa [setupLoop] using h, .refl, ?_⟩
    rintro d' ⟨⟩
    exact ⟨rfl, .refl, by simpa using hkern⟩
  | cons k ks ih =>
    intro m R T h hkern hremap
    unfold setupLoop
    refine wp_seq (mappages_kernel_wp (hks k List.mem_cons_self) hkern ?_ h) ?_
    · rintro ⟨va, hk, hR⟩
      exact hremap (.inr ⟨k, List.mem_cons_self, va, hk, hR⟩)
    rintro (_ | _) m1 ⟨h1, hbare1, hr⟩
    · simp only [Bool.false_eq_true, if_false, wp_bind]
      refine wp_mono (freevm_wp h1) ?_
      rintro - m2 ⟨h2, hkept2⟩
      exact ⟨by simpa using h2, hbare1.kept.trans hkept2, by simp⟩
    · refine wp_mono (ih (fun k hk => hks k (List.mem_cons_of_mem _ hk)) h1 (hr rfl) ?_) ?_
      · rintro (hapart | ⟨k', hk', va, hva, hR | hk⟩)
        · exact hremap (.inl fun hall => hapart hall.of_cons)
        · exact hremap (.inr ⟨k', List.mem_cons_of_mem _ hk', va, hva, hR⟩)
        · exact hremap (.inl fun hall => List.rel_of_pairwise_cons hall hk' va hk hva)
      · rintro r m2 ⟨h2, hkept2, hd'⟩
        refine ⟨h2, hbare1.kept.trans hkept2, fun d' hr' => ?_⟩
        obtain ⟨hdd, hbare2, hkern2⟩ := hd' d' hr'
        refine ⟨hdd, hbare1.trans hbare2, hkern2.congr (fun va => ?_) fun i _ => ?_⟩
        · simp only [List.exists_mem_cons_iff, or_assoc]
        · simp only [List.exists_mem_cons_iff, or_assoc]

/-- A page that nobody points into becomes a directory without entries. -/
theorem Account.adopt (h : Account g ds ({d} + held) m) (hzero : ∀ i, view m.page d i = none) :
    Account g (d ::ₘ ds) held m := by
  have htree : space m.page d = {d} := by
    unfold space tree
    rw [targets_eq_zero fun i _ => hzero i, leaves_eq_zero fun i _ t ht => ?_]
    · simp
    · rw [hzero] at ht
      cases ht
  unfold Account at h ⊢
  rw [Multiset.map_cons, Multiset.sum_cons, htree, ← h]
  abel

/-- A directory as `setupkvm` returns it. -/
structure Blank (g : Geometry) (m : Mem) (d : Page) : Prop where
  kern : g.Kernel m.page d
  empty : ∀ va < KERNBASE, user m d va = none

theorem setupkvm_wp (hremap : ¬ Apart g.kmap → E .remap) (h : Account g ds held m) :
    wp E (setupkvm g) (fun r m' => Account g (addDir r ds) held m' ∧ Kept ds held m m' ∧
      ∀ d, r = some d → Blank g m' d) m := by
  unfold setupkvm
  refine wp_seq (kalloc_wp h) ?_
  rintro (_ | d) m1 ⟨h1, hpage1, hbytes1⟩
  · exact ⟨by simpa using h1, .of_eq hpage1 hbytes1, nofun⟩
  · rw [target_some] at h1
    refine wp_seq (zero_wp h1) ?_
    rintro - m2 ⟨h2, hpage2, -, hkept2⟩
    have hnone : ∀ i, view m2.page d i = none := by
      intro i
      rw [view, hpage2, update_self]
      rfl
    have hkern : Kern m2.page d (fun _ => False) fun _ => False := by
      refine ⟨fun va _ _ e he => ?_, fun i _ _ => ?_⟩
      · rw [pte_of_noTable (hnone _)] at he
        cases he
      · simp [hnone]
    refine wp_mono (setupLoop_wp g.kmap g.kmap_ok (h2.adopt hnone) hkern ?_) ?_
    · rintro (hapart | ⟨k, -, va, -, hfalse⟩)
      · exact hremap hapart
      · exact hfalse.elim
    · rintro r m3 ⟨h3, hkept3, hr⟩
      refine ⟨h3, ((Kept.of_eq hpage1 hbytes1).trans hkept2).trans hkept3, fun d' hd' => ?_⟩
      obtain ⟨rfl, hbare, hkern3⟩ := hr d' hd'
      refine ⟨hkern3.congr (fun va => by simp) fun i _ => by simp, fun va hva => ?_⟩
      rw [user_eq_none, hbare.entries va hva, pte_of_noTable (hnone _)]

/-! ## `allocuvm` -/

/-- From `lo` up to `hi`, pages are mapped that satisfy `P`; nothing else is new. -/
structure Grown (P : Nat → Pte × (Nat → UInt8) → Prop) (d : Page) (ds held : Multiset Page)
    (lo hi : Nat) (m m' : Mem) : Prop where
  edited : Edited d ds held m m' fun va => if lo ≤ va ∧ va < hi then user m' d va else user m d va
  filled : ∀ va, lo ≤ va → va < hi → va < KERNBASE → ∃ x, user m' d va = some x ∧ P va x

variable {P : Nat → Pte × (Nat → UInt8) → Prop}

theorem Grown.of_le {lo hi : Nat} (h : hi ≤ lo) : Grown P d ds held lo hi m m :=
  ⟨Edited.refl.congr fun _ _ => (if_neg (by omega)).symm, fun _ _ _ => by omega⟩

theorem Grown.cons {a hi : Nat} {x : Pte × (Nat → UInt8)} (ha : a % PGSIZE = 0)
    (hhi : a + PGSIZE ≤ hi) (hx : ∀ va < KERNBASE, va / PGSIZE = a / PGSIZE → P va x)
    (h1 : Edited d ds held m m1 (put (user m d) a (some x)))
    (h2 : Grown P d ds held (a + PGSIZE) hi m1 m2) : Grown P d ds held a hi m m2 := by
  have hmap : ∀ va < KERNBASE, user m2 d va =
      if a + PGSIZE ≤ va ∧ va < hi then user m2 d va else put (user m d) a (some x) va := by
    intro va hva
    rw [← h1.mapped va hva]
    exact h2.edited.mapped va hva
  refine ⟨(h1.trans h2.edited).congr fun va hva => ?_, fun va hlo hhi' hva => ?_⟩
  · rw [← h2.edited.mapped va hva]
    by_cases hin : a ≤ va ∧ va < hi
    · rw [if_pos hin]
    · rw [if_neg hin, hmap va hva, if_neg (by omega), put, if_neg]
      unfold PGSIZE at *
      omega
  · by_cases hnext : a + PGSIZE ≤ va
    · exact h2.filled va hnext hhi' hva
    · have hsame : va / PGSIZE = a / PGSIZE := by
        unfold PGSIZE at *
        omega
      refine ⟨x, ?_, hx va hva hsame⟩
      rw [hmap va hva, if_neg (by omega), put, if_pos hsame]

/-- A new page full of zeros that the user may write. -/
def Zeroed (_ : Nat) (x : Pte × (Nat → UInt8)) : Prop := ∃ p, x = (⟨p, true, true, true, 0⟩, fun _ => 0)

theorem allocLoop_wp {oldsz newsz : Nat} (hnew : newsz < KERNBASE) (n : Nat) :
    ∀ {a : Nat} {m : Mem}, a % PGSIZE = 0 → PGROUNDUP oldsz ≤ a → newsz ≤ a + n * PGSIZE →
      ((∃ va, a ≤ va ∧ va < newsz ∧ (user m d va).isSome) → E .remap) →
      Account g (d ::ₘ ds) held m →
      wp E (allocLoop g d oldsz newsz n a) (fun r m' => Account g (d ::ₘ ds) held m' ∧
        (r = newsz ∧ Grown Zeroed d ds held a (PGROUNDUP newsz) m m' ∨
          r = 0 ∧ Edited d ds held m m' (cut (user m d) (PGROUNDUP oldsz) (PGROUNDUP newsz)))) m := by
  have hdone : ∀ {a : Nat} {m : Mem}, a % PGSIZE = 0 → newsz ≤ a →
      Grown Zeroed d ds held a (PGROUNDUP newsz) m m :=
    fun ha hle => .of_le ((PGROUNDUP_le_iff ha).2 hle)
  induction n with
  | zero =>
    intro a m ha _ hn _ h
    exact ⟨h, .inl ⟨rfl, hdone ha (by omega)⟩⟩
  | succ n ih =>
    intro a m ha hlo hn hremap h
    unfold allocLoop
    split
    · rename_i hlt
      have hak : a < KERNBASE := hlt.trans hnew
      have hin : a + PGSIZE ≤ PGROUNDUP newsz := by
        unfold PGROUNDUP PGSIZE at *
        omega
      refine wp_seq (kalloc_wp h) ?_
      rintro (_ | mem) m1 ⟨h1, hpage1, hbytes1⟩
      · have hkept : Kept (d ::ₘ ds) held m m1 := .of_eq hpage1 hbytes1
        have hsame := hkept.edited
        rw [target_none, zero_add] at h1
        refine wp_seq (deallocuvm_wp hnew.le h1) ?_
        rintro - m2 ⟨-, h2, hedit2⟩
        refine ⟨h2, .inr ⟨rfl, (hsame.trans hedit2).congr fun va hva => ?_⟩⟩
        rw [cut, cut, hsame.mapped va hva]
      · rw [target_some] at h1
        refine wp_seq (zero_wp h1) ?_
        rintro - m2 ⟨h2, -, hzero2, hkept2⟩
        have hself : d ∈ d ::ₘ ds := Multiset.mem_cons_self _ _
        have hkept : Kept (d ::ₘ ds) held m m2 := (Kept.of_eq hpage1 hbytes1).trans hkept2
        have hsame := hkept.edited
        refine wp_seq (mappages_user_wp ha hak (fun hp => hremap ⟨a, le_rfl, hlt, ?_⟩) h2) ?_
        · rwa [← hkept.user hself hak]
        rintro (_ | _) m3 ⟨h3, hedit3⟩
        · simp only [Bool.false_eq_true, if_false, wp_bind] at h3 hedit3 ⊢
          have hundone := hsame.trans (hedit3.mono (Multiset.subset_of_le (Multiset.le_add_left _ _)))
          refine wp_mono (deallocuvm_wp hnew.le h3) ?_
          rintro - m4 ⟨-, h4, hedit4⟩
          refine wp_mono (kfree_wp h4) ?_
          rintro - m5 ⟨h5, -, hkept5⟩
          refine ⟨h5, .inr ⟨rfl, ?_⟩⟩
          have hcut := hundone.trans (hedit4.mono (Multiset.subset_of_le (Multiset.le_add_left _ _)))
          refine (hcut.trans hkept5.edited).congr fun va hva => ?_
          rw [hedit4.mapped va hva, cut, cut, hundone.mapped va hva, hkept.user hself hva]
        · simp only [if_true] at h3 hedit3 ⊢
          have hput : Edited d ds held m m3 (put (user m d) a (some (⟨mem, true, true, true, 0⟩, fun _ => 0))) := by
            refine (hsame.trans (hedit3.mono (Multiset.subset_of_le (Multiset.le_add_left _ _)))).congr
              fun va hva => ?_
            rw [put, put, hzero2, hkept.user hself hva]
          have hkeep : ∀ va, a + PGSIZE ≤ va → va < KERNBASE → user m3 d va = user m d va := by
            intro va hva hlt'
            rw [hput.mapped va hlt', put, if_neg]
            unfold PGSIZE at *
            omega
          refine wp_mono (ih ?_ (by omega) ?_ ?_ h3) ?_
          · rw [Nat.add_mod_right, ha]
          · rw [Nat.succ_mul] at hn
            omega
          · rintro ⟨va, hva, hlt', hsome⟩
            refine hremap ⟨va, by omega, hlt', ?_⟩
            rwa [← hkeep va hva (hlt'.trans hnew)]
          · rintro r m4 ⟨h4, ⟨hr, hgrown⟩ | ⟨hr, hcut⟩⟩
            · exact ⟨h4, .inl ⟨hr, hgrown.cons ha hin (fun _ _ _ => ⟨mem, rfl⟩) hput⟩⟩
            · refine ⟨h4, .inr ⟨hr, (hput.trans hcut).congr fun va hva => ?_⟩⟩
              unfold cut
              by_cases hrange : PGROUNDUP oldsz ≤ va ∧ va < PGROUNDUP newsz
              · rw [if_pos hrange, if_pos hrange]
              · rw [if_neg hrange, if_neg hrange, hput.mapped va hva, put, if_neg]
                unfold PGSIZE at *
                omega
    · exact ⟨h, .inl ⟨rfl, hdone ha (by omega)⟩⟩

/-- `allocuvm` maps all the pages it is asked for, or takes back those it has mapped. -/
theorem allocuvm_wp {oldsz newsz : Nat}
    (hremap : (∃ va < KERNBASE, PGROUNDUP oldsz ≤ va ∧ (user m d va).isSome) → E .remap)
    (h : Account g (d ::ₘ ds) held m) :
    wp E (allocuvm g d oldsz newsz) (fun r m' => Account g (d ::ₘ ds) held m' ∧
      ((newsz < KERNBASE ∧ r = max oldsz newsz ∧
          Grown Zeroed d ds held (PGROUNDUP oldsz) (PGROUNDUP newsz) m m') ∨
        (r = 0 ∧ ∃ hi, Edited d ds held m m' (cut (user m d) (PGROUNDUP oldsz) hi)))) m := by
  unfold allocuvm
  split
  · exact ⟨h, .inr ⟨rfl, 0, Edited.refl.congr fun _ _ => (cut_of_le (Nat.zero_le _)).symm⟩⟩
  · rename_i hnew
    have hnew' : newsz < KERNBASE := by omega
    split
    · rename_i hlt
      exact ⟨h, .inl ⟨hnew', (max_eq_left hlt.le).symm, .of_le (PGROUNDUP_mono hlt.le)⟩⟩
    · refine wp_mono (allocLoop_wp hnew' _ (PGROUNDUP_mod _) le_rfl ?_ ?_ h) ?_
      · unfold PGSIZE
        omega
      · rintro ⟨va, hlo, hlt, hsome⟩
        exact hremap ⟨va, hlt.trans hnew', hlo, hsome⟩
      · rintro r m' ⟨h', ⟨rfl, hgrown⟩ | ⟨rfl, hcut⟩⟩
        · exact ⟨h', .inl ⟨hnew', (max_eq_right (by omega)).symm, hgrown⟩⟩
        · exact ⟨h', .inr ⟨rfl, _, hcut⟩⟩

/-! ## `copyuvm` -/

/-- A page with the flags and the bytes of the page at the same address of `u`. -/
def CopyOf (u : Mapping) (va : Nat) (x : Pte × (Nat → UInt8)) : Prop :=
  ∃ e c p, u va = some (e, c) ∧ x = ({ e with ppn := p }, c)

theorem copyPage_wp {q : Page} {Q : Unit → Mem → Prop} :
    wp E (copyPage p q) Q m ↔ Q () { m with bytes := update m.bytes p (m.bytes q) } := Iff.rfl

/-- The directory that is copied is only read. -/
theorem copyLoop_wp {pgdir : Page} {sz : Nat} (hsz : sz ≤ KERNBASE) (hpgdir : pgdir ∈ ds) (n : Nat) :
    ∀ {i : Nat} {m : Mem}, i % PGSIZE = 0 → sz ≤ i + n * PGSIZE →
      ((∃ va, i ≤ va ∧ va < sz ∧ user m pgdir va = none) → E .copyuvmExist ∧ E .copyuvmPresent) →
      ((∃ va, i ≤ va ∧ va < sz ∧ (user m d va).isSome) → E .remap) →
      Account g (d ::ₘ ds) held m →
      wp E (copyLoop g pgdir d sz n i) (fun r m' => Account g (addDir r ds) held m' ∧
        Kept ds held m m' ∧ ∀ d', r = some d' → d' = d ∧
          Grown (CopyOf (user m pgdir)) d ds held i (PGROUNDUP sz) m m') m := by
  have hdone : ∀ {i : Nat} {m : Mem}, i % PGSIZE = 0 → sz ≤ i → Account g (d ::ₘ ds) held m →
      Account g (addDir (some d) ds) held m ∧ Kept ds held m m ∧ ∀ d', some d = some d' → d' = d ∧
        Grown (CopyOf (user m pgdir)) d ds held i (PGROUNDUP sz) m m := by
    intro i m hi hle h
    refine ⟨by simpa using h, .refl, ?_⟩
    rintro d' ⟨⟩
    exact ⟨rfl, .of_le ((PGROUNDUP_le_iff hi).2 hle)⟩
  induction n with
  | zero =>
    intro i m hi hn _ _ h
    exact hdone hi (by omega) h
  | succ n ih =>
    intro i m hi hn hmissing hremap h
    unfold copyLoop
    split
    · rename_i hlt
      have hik : i < KERNBASE := hlt.trans_le hsz
      have hin : i + PGSIZE ≤ PGROUNDUP sz := by
        unfold PGROUNDUP PGSIZE at *
        omega
      rw [wp_bind, walkpgdir_false_wp]
      unfold lookup
      cases ht : view m.page pgdir (PDX i) with
      | none => exact (hmissing ⟨i, le_rfl, hlt, user_eq_none.2 (pte_of_noTable ht)⟩).1
      | some t =>
        simp only [Option.map_some, wp_bind, wp_get]
        split
        · rename_i hP
          have hpte : pte m.page pgdir i = some (m.page t (PTX i)) := by
            rw [pte_of_table ht, if_pos hP]
          generalize m.page t (PTX i) = e at hP hpte ⊢
          have hcopied : e.ppn ∈ space m.page pgdir := ppn_mem_space hik hpte
          refine wp_seq (kalloc_wp h) ?_
          rintro (_ | mem) m1 ⟨h1, hpage1, hbytes1⟩
          · rw [target_none, zero_add] at h1
            refine wp_seq (freevm_wp h1) ?_
            rintro - m2 ⟨h2, hkept2⟩
            exact ⟨by simpa using h2, (Kept.of_eq hpage1 hbytes1).trans hkept2, by simp⟩
          · rw [target_some] at h1
            rw [wp_bind, copyPage_wp, wp_bind]
            have h2 : Account g (d ::ₘ ds) ({mem} + held) { m1 with
                bytes := update m1.bytes mem (m1.bytes e.ppn) } := h1.congr rfl rfl
            have hkept : Kept (d ::ₘ ds) held m { m1 with
                bytes := update m1.bytes mem (m1.bytes e.ppn) } :=
              (Kept.of_eq hpage1 hbytes1).trans
                (h1.kept_of_held fun q hq => ⟨rfl, update_of_ne hq _ _⟩)
            have hself : d ∈ d ::ₘ ds := Multiset.mem_cons_self _ _
            have hrest := hkept.mono (Multiset.subset_cons ds d) (Multiset.Subset.refl _)
            refine wp_mono (mappages_user_wp hi hik (fun hp => hremap ⟨i, le_rfl, hlt, ?_⟩) h2) ?_
            · rwa [← hkept.user hself hik]
            rintro (_ | _) m3 ⟨h3, hedit3⟩
            · simp only [Bool.false_eq_true, if_false, wp_bind] at h3 hedit3 ⊢
              refine wp_mono (kfree_wp h3) ?_
              rintro - m4 ⟨h4, -, hkept4⟩
              refine wp_mono (freevm_wp h4) ?_
              rintro - m5 ⟨h5, hkept5⟩
              have hheld : held ⊆ {mem} + held := Multiset.subset_of_le (Multiset.le_add_left _ _)
              refine ⟨by simpa using h5, ?_, by simp⟩
              exact ((hrest.trans (hedit3.mono hheld).kept).trans
                (hkept4.mono (Multiset.subset_cons _ _) (Multiset.Subset.refl _))).trans hkept5
            · simp only [if_true] at h3 hedit3 ⊢
              have hput : Edited d ds held m m3
                  (put (user m d) i (some ({ e with ppn := mem }, m.bytes e.ppn))) := by
                refine (hkept.edited.trans (hedit3.mono
                  (Multiset.subset_of_le (Multiset.le_add_left _ _)))).congr fun va hva => ?_
                rw [put, put, hkept.user hself hva, update_self, hbytes1]
                cases e
                cases hP
                rfl
              have hkeep : ∀ va, i + PGSIZE ≤ va → va < KERNBASE → user m3 d va = user m d va := by
                intro va hva hlt'
                rw [hput.mapped va hlt', put, if_neg]
                unfold PGSIZE at *
                omega
              have hread : ∀ va < KERNBASE, user m3 pgdir va = user m pgdir va := fun va hva =>
                hput.kept.user hpgdir hva
              refine wp_mono (ih ?_ ?_ ?_ ?_ h3) ?_
              · rw [Nat.add_mod_right, hi]
              · rw [Nat.succ_mul] at hn
                omega
              · rintro ⟨va, hva, hlt', hnone⟩
                refine hmissing ⟨va, by omega, hlt', ?_⟩
                rwa [← hread va (hlt'.trans_le hsz)]
              · rintro ⟨va, hva, hlt', hsome⟩
                refine hremap ⟨va, by omega, hlt', ?_⟩
                rwa [← hkeep va hva (hlt'.trans_le hsz)]
              · rintro r m4 ⟨h4, hkept4, hr⟩
                refine ⟨h4, hput.kept.trans hkept4, fun d' hd' => ?_⟩
                obtain ⟨hdd, hgrown⟩ := hr d' hd'
                refine ⟨hdd, Grown.cons hi hin (fun va hva hsame => ?_) hput
                  ⟨hgrown.edited, fun va hlo hhi hva => ?_⟩⟩
                · refine ⟨e, m.bytes e.ppn, mem, ?_, rfl⟩
                  rw [user_of_same (lt_of_user hik) (lt_of_user hva) hsame, user, hpte]
                  rfl
                · obtain ⟨x, hx, e', c, p, hu, hxe⟩ := hgrown.filled va hlo hhi hva
                  exact ⟨x, hx, e', c, p, (hread va hva).symm.trans hu, hxe⟩
        · rename_i hP
          refine (hmissing ⟨i, le_rfl, hlt, ?_⟩).2
          rw [user_eq_none, pte_of_table ht, if_neg hP]
    · exact hdone hi (by omega) h

/-- A directory with the kernel half of `setupkvm` and a copy of the pages of `u` below `sz`. -/
structure Copied (g : Geometry) (u : Mapping) (sz : Nat) (m : Mem) (d : Page) : Prop where
  kern : g.Kernel m.page d
  below : ∀ va < PGROUNDUP sz, va < KERNBASE → ∃ x, user m d va = some x ∧ CopyOf u va x
  above : ∀ va, PGROUNDUP sz ≤ va → va < KERNBASE → user m d va = none

theorem copyuvm_wp {pgdir : Page} {sz : Nat} (hsz : sz ≤ KERNBASE) (hpgdir : pgdir ∈ ds)
    (hmissing : (∃ va < sz, user m pgdir va = none) → E .copyuvmExist ∧ E .copyuvmPresent)
    (hremap : ¬ Apart g.kmap → E .remap) (h : Account g ds held m) :
    wp E (copyuvm g pgdir sz) (fun r m' => Account g (addDir r ds) held m' ∧ Kept ds held m m' ∧
      ∀ d, r = some d → Copied g (user m pgdir) sz m' d) m := by
  unfold copyuvm
  refine wp_seq (setupkvm_wp hremap h) ?_
  rintro (_ | d) m1 ⟨h1, hkept1, hblank⟩
  · exact ⟨h1, hkept1, nofun⟩
  · obtain ⟨hkern, hempty⟩ := hblank d rfl
    rw [addDir_some] at h1
    have hread : ∀ va < KERNBASE, user m1 pgdir va = user m pgdir va := fun va hva =>
      hkept1.user hpgdir hva
    refine wp_mono (copyLoop_wp hsz hpgdir _ rfl ?_ ?_ ?_ h1) ?_
    · unfold PGSIZE
      omega
    · rintro ⟨va, -, hlt, hnone⟩
      exact hmissing ⟨va, hlt, (hread va (hlt.trans_le hsz)).symm.trans hnone⟩
    · rintro ⟨va, -, hlt, hsome⟩
      rw [hempty va (hlt.trans_le hsz)] at hsome
      cases hsome
    · rintro r m2 ⟨h2, hkept2, hr⟩
      refine ⟨h2, hkept1.trans hkept2, fun d' hd' => ?_⟩
      obtain ⟨rfl, hgrown⟩ := hr d' hd'
      refine ⟨hgrown.edited.kern hkern, fun va hlt hva => ?_, fun va hge hva => ?_⟩
      · obtain ⟨x, hx, e, c, p, hu, hxe⟩ := hgrown.filled va (Nat.zero_le _) hlt hva
        exact ⟨x, hx, e, c, p, (hread va hva).symm.trans hu, hxe⟩
      · rw [hgrown.edited.mapped va hva, if_neg (by omega), hempty va hva]

/-! ## What `exec` does to its new directory -/

/-- An entry that is no longer for the user. -/
def Pte.clearU (e : Pte) : Pte := { e with U := false }

theorem clearpteu_wp {uva : Nat} (huva : uva < KERNBASE)
    (hmissing : user m d uva = none → E .clearpteu) (h : Account g (d ::ₘ ds) held m) :
    wp E (clearpteu d uva) (fun _ m' => Account g (d ::ₘ ds) held m' ∧
      Edited d ds held m m' (put (user m d) uva ((user m d uva).map (Prod.map Pte.clearU id)))) m := by
  unfold clearpteu
  rw [wp_bind, walkpgdir_false_wp]
  unfold lookup
  cases ht : view m.page d (PDX uva) with
  | none => exact hmissing (user_eq_none.2 (pte_of_noTable ht))
  | some t =>
    have hview : view (update m.page t
        (update (m.page t) (PTX uva) { m.page t (PTX uva) with U := false })) =
        view m.page := by
      rw [view_store]
      exact (update_eq_self_iff.2 (update_eq_self_iff.2 rfl)).trans rfl
    simp only [Option.map_some, wp_bind, wp_get, store, wp_modify]
    refine ⟨?_, (Edited.store h huva ht _).congr fun va hva => ?_⟩
    · unfold Account space at h ⊢
      rwa [hview]
    · unfold user
      rw [pte_of_table ht]
      cases hP : (m.page t (PTX uva)).P with
      | false => simp
      | true => simp [hP, Pte.clearU]

/-- At most the bytes of pages that are for the user have been written. -/
structure Wrote (d : Page) (m m' : Mem) : Prop where
  free : m'.free = m.free
  page : m'.page = m.page
  bytes : ∀ p, m'.bytes p = m.bytes p ∨
    ∃ va < 2 ^ 32, ∃ e, pte m.page d va = some e ∧ e.U = true ∧ e.ppn = p

theorem Wrote.refl : Wrote d m m := ⟨rfl, rfl, fun _ => .inl rfl⟩

theorem Wrote.trans (h1 : Wrote d m m1) (h2 : Wrote d m1 m2) : Wrote d m m2 := by
  refine ⟨h2.free.trans h1.free, h2.page.trans h1.page, fun p => ?_⟩
  rcases h2.bytes p with hp | hp
  · rcases h1.bytes p with hp' | hp'
    · exact .inl (hp.trans hp')
    · exact .inr hp'
  · rw [h1.page] at hp
    exact .inr hp

theorem Wrote.memmove {va off : Nat} {data : List UInt8} {e : Pte} (hva : va < 2 ^ 32)
    (he : pte m.page d va = some e) (hU : e.U = true) :
    Wrote d m { m with
      bytes := update m.bytes e.ppn (Bytes.splice (m.bytes e.ppn) off data) } := by
  refine ⟨rfl, rfl, fun p => ?_⟩
  by_cases hp : p = e.ppn
  · exact .inr ⟨va, hva, e, he, hU, hp.symm⟩
  · exact .inl (update_of_ne hp _ _)

/-- What is written belongs to the user half of `d` alone. -/
theorem Wrote.kept {m' : Mem} (h : Wrote d m m') (hkern : g.Kernel m.page d)
    (haccount : Account g (d ::ₘ ds) held m) : Kept ds held m m' := by
  have hpage : ∀ p, m'.page p = m.page p := fun p => congrFun h.page p
  have hmem : ∀ p, m'.bytes p = m.bytes p ∨ p ∈ space m.page d := by
    intro p
    rcases h.bytes p with hp | ⟨va, hva, e, he, hU, rfl⟩
    · exact .inl hp
    · refine .inr (ppn_mem_space ?_ he)
      by_contra hge
      have hkernel := (hkern.entry va (by omega) hva e he).1
      rw [hU] at hkernel
      cases hkernel
  refine ⟨fun d' hd' p hp => ⟨hpage p, ?_⟩, fun p hp => ⟨hpage p, ?_⟩⟩
  · exact (hmem p).resolve_right fun hspace => haccount.notMem_other hspace hd' hp
  · exact (hmem p).resolve_right fun hspace =>
      haccount.notMem_space hp (Multiset.mem_cons_self _ _) hspace

theorem uva2ka_wp {uva : Nat} {Q : Option Page → Mem → Prop}
    (hnull : view m.page d (PDX uva) = none → E .nullPte)
    (hno : view m.page d (PDX uva) ≠ none → (∀ e, pte m.page d uva = some e → e.U = false) → Q none m)
    (hyes : ∀ e, pte m.page d uva = some e → e.U = true → Q (some e.ppn) m) :
    wp E (uva2ka d uva) Q m := by
  unfold uva2ka
  rw [wp_bind, walkpgdir_false_wp]
  unfold lookup
  cases ht : view m.page d (PDX uva) with
  | none => exact hnull ht
  | some t =>
    have hpte := pte_of_table ht
    simp only [Option.map_some, wp_bind, wp_get, wp_pure]
    split
    · rename_i hPU
      exact hyes _ (by rw [hpte, if_pos hPU.1]) hPU.2
    · rename_i hPU
      refine hno (by simp [ht]) fun e he => ?_
      rw [hpte] at he
      split at he
      · rename_i hP
        cases he
        simpa [hP] using hPU
      · cases he

theorem copyout_turn {n va : Nat} {buf : List UInt8} {Q : Bool → Mem → Prop} (hlen : 0 < buf.length)
    (hnull : view m.page d (PDX (PGROUNDDOWN va)) = none → E .nullPte)
    (hno : view m.page d (PDX (PGROUNDDOWN va)) ≠ none →
      (∀ e, pte m.page d (PGROUNDDOWN va) = some e → e.U = false) → Q false m)
    (hyes : ∀ e, pte m.page d (PGROUNDDOWN va) = some e → e.U = true →
      wp E (copyout d n ((PGROUNDDOWN va + PGSIZE) % 2 ^ 32)
          (buf.drop (min (PGSIZE - (va - PGROUNDDOWN va)) buf.length))) Q
        { m with bytes := update m.bytes e.ppn (Bytes.splice (m.bytes e.ppn)
          (va - PGROUNDDOWN va) (buf.take (min (PGSIZE - (va - PGROUNDDOWN va)) buf.length))) }) :
    wp E (copyout d (n + 1) va buf) Q m := by
  unfold copyout
  rw [if_pos hlen, wp_bind]
  exact uva2ka_wp hnull hno hyes

theorem copyout_wp (hnull : E .nullPte) (n : Nat) : ∀ {va : Nat} {buf : List UInt8} {m : Mem},
    va < 2 ^ 32 → wp E (copyout d n va buf) (fun _ m' => Wrote d m m') m := by
  induction n with
  | zero => exact fun _ => .refl
  | succ n ih =>
    intro va buf m hva
    by_cases hlen : 0 < buf.length
    · refine copyout_turn hlen (fun _ => hnull) (fun _ _ => .refl) fun e he hU => ?_
      refine wp_mono (ih (Nat.mod_lt _ (by decide))) fun _ m' h' => (Wrote.memmove ?_ he hU).trans h'
      unfold PGROUNDDOWN PGSIZE
      omega
    · unfold copyout
      rw [if_neg hlen]
      exact .refl

end Laboratorio.Xv6.Vm
