import Mathlib

/-!
# Two-level tables in memory

Memory is a function `mem : α → ℕ → Option α`: page `p` has entries, and an entry may point to a
page.  A directory is a page whose entries point to tables, whose entries point to further pages.
`Shape` says how many entries there are and how many of the tables belong to the part that owns what
it points to.

* `tree` is the multiset of all pages that a directory owns: itself, its tables, and the pages in
  the owned part of the tables.
* `tree_congr` is the frame rule: what is written elsewhere does not matter.
* `tree_write_dir`, `tree_write_leaf` and `tree_write_shared` say what one write into a directory or
  into one of its tables does to the tree.
-/

namespace Laboratorio.Lib.TwoLevel

open Finset Function

variable {α : Type*}

/-- The page an entry points to. -/
def target (o : Option α) : Multiset α := o.elim 0 ({·})

@[simp] theorem target_none : target (none : Option α) = 0 := rfl

@[simp] theorem target_some (a : α) : target (some a) = {a} := rfl

/-- The pages that the first `n` entries point to. -/
def targets (n : ℕ) (f : ℕ → Option α) : Multiset α := ∑ i ∈ range n, target (f i)

theorem mem_targets {n : ℕ} {f : ℕ → Option α} {a : α} :
    a ∈ targets n f ↔ ∃ i < n, f i = some a := by
  simp only [targets, Multiset.mem_sum, mem_range]
  refine exists_congr fun i => and_congr_right fun _ => ?_
  cases f i <;> simp [eq_comm]

theorem targets_eq_zero {n : ℕ} {f : ℕ → Option α} (h : ∀ i < n, f i = none) :
    targets n f = 0 :=
  sum_eq_zero fun i hi => by rw [h i (mem_range.1 hi), target_none]

theorem sum_replace {ι M : Type*} [DecidableEq ι] [AddCommMonoid M] {s : Finset ι} {g k : ι → M}
    {i : ι} {x y : M} (hi : i ∈ s) (hne : ∀ j ∈ s, j ≠ i → k j = g j)
    (h : k i + x = g i + y) : ∑ j ∈ s, k j + x = ∑ j ∈ s, g j + y := by
  rw [← add_sum_erase s k hi, ← add_sum_erase s g hi]
  have hrest : ∑ j ∈ s.erase i, k j = ∑ j ∈ s.erase i, g j :=
    sum_congr rfl fun j hj => hne j (mem_of_mem_erase hj) (ne_of_mem_erase hj)
  calc k i + ∑ j ∈ s.erase i, k j + x
      = (k i + x) + ∑ j ∈ s.erase i, g j := by rw [hrest]; abel
    _ = g i + ∑ j ∈ s.erase i, g j + y := by rw [h]; abel

theorem targets_update {n i : ℕ} (f : ℕ → Option α) (o : Option α) (hi : i < n) :
    targets n (update f i o) + target (f i) = targets n f + target o := by
  refine sum_replace (mem_range.2 hi) (fun j _ hj => ?_) ?_
  · rw [update_of_ne hj]
  · rw [update_self, add_comm]

/-- In a sum without duplicates an element comes from one summand. -/
theorem index_of_nodup_sum {n i j : ℕ} {f : ℕ → Multiset α} {a : α}
    (h : (∑ l ∈ range n, f l).Nodup) (hi : i < n) (hj : j < n) (hfi : a ∈ f i) (hfj : a ∈ f j) :
    i = j := by
  classical
  by_contra hne
  have hle : ∑ l ∈ ({i, j} : Finset ℕ), f l ≤ ∑ l ∈ range n, f l := by
    refine sum_le_sum_of_subset fun l hl => ?_
    rcases mem_insert.1 hl with rfl | hl
    · exact mem_range.2 hi
    · rw [mem_singleton.1 hl]
      exact mem_range.2 hj
  rw [sum_pair hne] at hle
  have hnodup := Multiset.nodup_of_le hle h
  rw [Multiset.nodup_add] at hnodup
  exact Multiset.disjoint_left.1 hnodup.2.2 hfi hfj

theorem targets_inj {n i j : ℕ} {f : ℕ → Option α} {a : α} (h : (targets n f).Nodup) (hi : i < n)
    (hj : j < n) (hfi : f i = some a) (hfj : f j = some a) : i = j :=
  index_of_nodup_sum (a := a) h hi hj (by simp [hfi]) (by simp [hfj])

/-- The number of entries of a directory, of those whose tables are owned, and of a table. -/
structure Shape where
  dir : ℕ
  owned : ℕ
  leaf : ℕ
  owned_le : owned ≤ dir

variable (S : Shape)

/-- The pages in the owned part of the tables. -/
def leaves (mem : α → ℕ → Option α) (d : α) : Multiset α :=
  ∑ i ∈ range S.owned, (mem d i).elim 0 fun t => targets S.leaf (mem t)

/-- Everything a directory owns. -/
def tree (mem : α → ℕ → Option α) (d : α) : Multiset α :=
  {d} + targets S.dir (mem d) + leaves S mem d

variable {S} {mem : α → ℕ → Option α} {d t : α} {i j : ℕ}

theorem mem_tree_self : d ∈ tree S mem d := by simp [tree]

theorem table_mem_tree (hi : i < S.dir) (h : mem d i = some t) : t ∈ tree S mem d := by
  have ht : t ∈ targets S.dir (mem d) := mem_targets.2 ⟨i, hi, h⟩
  simp [tree, ht]

theorem table_facts (hn : (tree S mem d).Nodup) (hi : i < S.dir) (h : mem d i = some t) :
    t ≠ d ∧ ∀ l < S.dir, mem d l = some t → l = i := by
  unfold tree at hn
  rw [Multiset.nodup_add, Multiset.nodup_add] at hn
  obtain ⟨⟨-, hdir, hdis⟩, -, -⟩ := hn
  refine ⟨?_, fun l hl hlt => targets_inj hdir hl hi hlt h⟩
  rintro rfl
  exact Multiset.disjoint_left.1 hdis (Multiset.mem_singleton_self t) (mem_targets.2 ⟨i, hi, h⟩)

theorem mem_leaves {p : α} (hi : i < S.owned) (ht : mem d i = some t) (hj : j < S.leaf)
    (hp : mem t j = some p) : p ∈ leaves S mem d := by
  refine Multiset.mem_sum.2 ⟨i, mem_range.2 hi, ?_⟩
  rw [ht]
  exact mem_targets.2 ⟨j, hj, hp⟩

theorem mem_tree_of_leaf {p : α} (hp : p ∈ leaves S mem d) : p ∈ tree S mem d := by
  simp [tree, hp]

theorem leaf_facts {p : α} (hn : (tree S mem d).Nodup) (hp : p ∈ leaves S mem d) :
    p ≠ d ∧ ∀ l < S.dir, mem d l ≠ some p := by
  have hdis := (Multiset.nodup_add.1 hn).2.2
  refine ⟨?_, fun l hl hlp => ?_⟩
  · rintro rfl
    exact Multiset.disjoint_left.1 hdis (by simp) hp
  · have hmem : p ∈ targets S.dir (mem d) := mem_targets.2 ⟨l, hl, hlp⟩
    exact Multiset.disjoint_left.1 hdis (by simp [hmem]) hp

/-- A page in the owned part has one place. -/
theorem leaf_inj {t' p : α} {i' j' : ℕ} (hn : (tree S mem d).Nodup) (hi : i < S.owned)
    (hi' : i' < S.owned) (ht : mem d i = some t) (ht' : mem d i' = some t') (hj : j < S.leaf)
    (hj' : j' < S.leaf) (hp : mem t j = some p) (hp' : mem t' j' = some p) : i = i' ∧ j = j' := by
  have hleaves : (leaves S mem d).Nodup := (Multiset.nodup_add.1 hn).2.1
  have hmem : p ∈ (mem d i).elim 0 fun t => targets S.leaf (mem t) := by
    rw [ht]
    exact mem_targets.2 ⟨j, hj, hp⟩
  have hmem' : p ∈ (mem d i').elim 0 fun t => targets S.leaf (mem t) := by
    rw [ht']
    exact mem_targets.2 ⟨j', hj', hp'⟩
  obtain rfl := index_of_nodup_sum hleaves hi hi' hmem hmem'
  obtain rfl := Option.some.inj (ht.symm.trans ht')
  have htable : (targets S.leaf (mem t)).Nodup := by
    have hle := single_le_sum (f := fun i => (mem d i).elim 0 fun t => targets S.leaf (mem t))
      (fun _ _ => zero_le) (mem_range.2 hi)
    simp only [ht, Option.elim_some] at hle
    exact Multiset.nodup_of_le hle hleaves
  exact ⟨rfl, targets_inj htable hj hj' hp hp'⟩

theorem leaves_eq_zero (h : ∀ i < S.owned, ∀ t, mem d i = some t → ∀ j < S.leaf, mem t j = none) :
    leaves S mem d = 0 := by
  refine sum_eq_zero fun i hi => ?_
  cases hm : mem d i with
  | none => rfl
  | some t => exact targets_eq_zero (h i (mem_range.1 hi) t hm)

theorem leaves_congr {mem' : α → ℕ → Option α} (hd : mem' d = mem d)
    (ht : ∀ i < S.owned, ∀ t, mem d i = some t → mem' t = mem t) :
    leaves S mem' d = leaves S mem d := by
  refine sum_congr rfl fun i hi => ?_
  rw [hd]
  cases h : mem d i with
  | none => rfl
  | some t =>
    show targets S.leaf (mem' t) = targets S.leaf (mem t)
    rw [ht i (mem_range.1 hi) t h]

theorem tree_congr {mem' : α → ℕ → Option α} (h : ∀ p ∈ tree S mem d, mem' p = mem p) :
    tree S mem' d = tree S mem d := by
  have hd : mem' d = mem d := h d mem_tree_self
  unfold tree
  rw [hd, leaves_congr hd fun i hi t ht => ?_]
  exact h t (table_mem_tree (hi.trans_le S.owned_le) ht)

variable [DecidableEq α]

/-- Write one entry. -/
def write (mem : α → ℕ → Option α) (p : α) (i : ℕ) (o : Option α) : α → ℕ → Option α :=
  update mem p (update (mem p) i o)

theorem tree_update_of_notMem {p : α} (f : ℕ → Option α) (hp : p ∉ tree S mem d) :
    tree S (update mem p f) d = tree S mem d := by
  refine tree_congr fun q hq => update_of_ne ?_ _ _
  rintro rfl
  exact hp hq

theorem tree_write_dir (hn : (tree S mem d).Nodup) (hi : i < S.dir) (hfree : mem d i = none)
    (ht : t ≠ d) (hempty : ∀ j < S.leaf, mem t j = none) :
    tree S (write mem d i (some t)) d = tree S mem d + {t} := by
  have hd : write mem d i (some t) d = update (mem d) i (some t) := update_self _ _ _
  have hother : ∀ p, p ≠ d → write mem d i (some t) p = mem p := fun p hp =>
    update_of_ne hp _ _
  have hdir := targets_update (mem d) (some t) hi
  rw [hfree, target_none, add_zero, target_some] at hdir
  have hleaves : leaves S (write mem d i (some t)) d = leaves S mem d := by
    refine sum_congr rfl fun l hl => ?_
    rw [hd]
    by_cases hli : l = i
    · subst hli
      rw [update_self, hfree]
      show targets S.leaf (write mem d l (some t) t) = 0
      rw [hother t ht]
      exact targets_eq_zero hempty
    · rw [update_of_ne hli]
      cases hm : mem d l with
      | none => rfl
      | some u =>
        show targets S.leaf (write mem d i (some t) u) = targets S.leaf (mem u)
        rw [hother u (table_facts hn ((mem_range.1 hl).trans_le S.owned_le) hm).1]
  unfold tree
  rw [hd, hdir, hleaves]
  abel

theorem tree_write_leaf (o : Option α) (hn : (tree S mem d).Nodup) (hi : i < S.owned)
    (ht : mem d i = some t) (hj : j < S.leaf) :
    tree S (write mem t j o) d + target (mem t j) = tree S mem d + target o := by
  obtain ⟨hne, huniq⟩ := table_facts hn (hi.trans_le S.owned_le) ht
  have hd : write mem t j o d = mem d := update_of_ne hne.symm _ _
  have hself : write mem t j o t = update (mem t) j o := update_self _ _ _
  have hleaves : leaves S (write mem t j o) d + target (mem t j) =
      leaves S mem d + target o := by
    refine sum_replace (mem_range.2 hi) (fun l hl hli => ?_) ?_
    · rw [hd]
      cases hm : mem d l with
      | none => rfl
      | some u =>
        have hut : u ≠ t := by
          rintro rfl
          exact hli (huniq l ((mem_range.1 hl).trans_le S.owned_le) hm)
        show targets S.leaf (write mem t j o u) = targets S.leaf (mem u)
        rw [show write mem t j o u = mem u from update_of_ne hut _ _]
    · rw [hd, ht]
      show targets S.leaf (write mem t j o t) + _ = targets S.leaf (mem t) + _
      rw [hself]
      exact targets_update (mem t) o hj
  unfold tree
  rw [hd, add_assoc, hleaves, ← add_assoc]

theorem tree_write_shared (o : Option α) (hn : (tree S mem d).Nodup) (hi : i < S.dir)
    (hshared : S.owned ≤ i) (ht : mem d i = some t) :
    tree S (write mem t j o) d = tree S mem d := by
  obtain ⟨hne, huniq⟩ := table_facts hn hi ht
  have hd : write mem t j o d = mem d := update_of_ne hne.symm _ _
  unfold tree
  rw [hd, leaves_congr hd fun l hl u hu => ?_]
  refine update_of_ne ?_ _ _
  rintro rfl
  have := huniq l (hl.trans_le S.owned_le) hu
  omega

end Laboratorio.Lib.TwoLevel
