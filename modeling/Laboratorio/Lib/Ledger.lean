import Laboratorio.Lib.TwoLevel

/-!
# Who owns what

Every owner in a finite set has `n` slots, and a slot may hold an item.  `owned` are all items that
are held.  If no item is held twice, an item determines its owner and its slot.

`Marked` connects the items with marks: what is marked is `base`, what is owned, and what is `held`
by whoever changes the slots.
-/

namespace Laboratorio.Lib.Ledger

open Finset TwoLevel

variable {ι α : Type*}

/-- The items in the slots of all owners. -/
def owned (owners : Finset ι) (n : ℕ) (slot : ι → ℕ → Option α) : Multiset α :=
  ∑ x ∈ owners, targets n (slot x)

variable {owners : Finset ι} {n : ℕ} {slot slot' : ι → ℕ → Option α} {x y : ι} {k l : ℕ} {a : α}

theorem mem_owned : a ∈ owned owners n slot ↔ ∃ x ∈ owners, ∃ k < n, slot x k = some a := by
  simp only [owned, Multiset.mem_sum, mem_targets]

theorem owned_inj (h : (owned owners n slot).Nodup) (hx : x ∈ owners) (hy : y ∈ owners) (hk : k < n)
    (hl : l < n) (hxk : slot x k = some a) (hyl : slot y l = some a) : x = y ∧ k = l := by
  classical
  have hxy : x = y := by
    by_contra hne
    have hle : ∑ z ∈ ({x, y} : Finset ι), targets n (slot z) ≤ owned owners n slot := by
      refine sum_le_sum_of_subset fun z hz => ?_
      rcases mem_insert.1 hz with rfl | hz
      · exact hx
      · rw [mem_singleton.1 hz]
        exact hy
    rw [sum_pair hne] at hle
    have hnodup := Multiset.nodup_of_le hle h
    rw [Multiset.nodup_add] at hnodup
    exact Multiset.disjoint_left.1 hnodup.2.2 (mem_targets.2 ⟨k, hk, hxk⟩) (mem_targets.2 ⟨l, hl, hyl⟩)
  subst hxy
  have hle : targets n (slot x) ≤ owned owners n slot :=
    single_le_sum (f := fun x => targets n (slot x)) (fun _ _ => Multiset.zero_le _) hx
  exact ⟨rfl, targets_inj (Multiset.nodup_of_le hle h) hk hl hxk hyl⟩

theorem owned_replace [DecidableEq ι] {p q : Multiset α} (hx : x ∈ owners)
    (hne : ∀ y ∈ owners, y ≠ x → ∀ k < n, slot' y k = slot y k)
    (h : targets n (slot' x) + p = targets n (slot x) + q) :
    owned owners n slot' + p = owned owners n slot + q := by
  refine sum_replace hx (fun y hy hyx => ?_) h
  refine sum_congr rfl fun k hk => ?_
  rw [hne y hy hyx k (mem_range.1 hk)]

/-- Marks on the numbers below `size`. -/
def Marked (size : ℕ) (base : Finset ℕ) (mark : ℕ → Bool) (items : Multiset ℕ) : Prop :=
  ((range size).filter fun b => mark b = true).val = base.val + items

variable {size b : ℕ} {base : Finset ℕ} {mark : ℕ → Bool} {items : Multiset ℕ}

theorem marked_iff : Marked size base mark items ↔
    items.Nodup ∧ (∀ b ∈ items, b < size ∧ b ∉ base) ∧ (∀ b ∈ base, b < size) ∧
      ∀ b < size, (mark b = true ↔ b ∈ base ∨ b ∈ items) := by
  unfold Marked
  constructor
  · intro h
    have hmem : ∀ b, b < size ∧ mark b = true ↔ b ∈ base ∨ b ∈ items := by
      intro b
      have hb : b ∈ ((range size).filter fun b => mark b = true).val ↔ b ∈ base.val + items := by rw [h]
      simpa using hb
    have hnodup : (base.val + items).Nodup := h ▸ Finset.nodup _
    rw [Multiset.nodup_add] at hnodup
    refine ⟨hnodup.2.1, fun b hb => ⟨((hmem b).2 (.inr hb)).1, fun hbase => ?_⟩,
      fun b hb => ((hmem b).2 (.inl hb)).1, fun b hb => ?_⟩
    · exact Multiset.disjoint_left.1 hnodup.2.2 hbase hb
    · rw [← hmem b]
      simp [hb]
  · rintro ⟨hnodup, hitems, hbase, hmark⟩
    have hsum : (base.val + items).Nodup := by
      rw [Multiset.nodup_add]
      refine ⟨base.nodup, hnodup, Multiset.disjoint_left.2 fun hb hb' => (hitems _ hb').2 hb⟩
    rw [(Finset.nodup _).ext hsum]
    intro b
    simp only [mem_val, mem_filter, mem_range, Multiset.mem_add]
    constructor
    · rintro ⟨hb, hb'⟩
      exact (hmark b hb).1 hb'
    · intro hb
      have hlt : b < size := hb.elim (hbase b) fun hb => (hitems b hb).1
      exact ⟨hlt, (hmark b hlt).2 hb⟩

theorem Marked.nodup (h : Marked size base mark items) : items.Nodup := (marked_iff.1 h).1

theorem Marked.of_mem (h : Marked size base mark items) (hb : b ∈ items) :
    b < size ∧ b ∉ base ∧ mark b = true := by
  obtain ⟨-, hitems, -, hmark⟩ := marked_iff.1 h
  exact ⟨(hitems b hb).1, (hitems b hb).2, (hmark b (hitems b hb).1).2 (.inr hb)⟩

theorem Marked.notMem (h : Marked size base mark items) (hb : b < size) (hmark : mark b = false) :
    b ∉ items ∧ b ∉ base := by
  obtain ⟨-, -, -, hiff⟩ := marked_iff.1 h
  have := hiff b hb
  simp_all

theorem Marked.set_mark (h : Marked size base mark items) (hb : b < size) (hmark : mark b = false) :
    Marked size base (Function.update mark b true) (b ::ₘ items) := by
  obtain ⟨hnotMem, hbase'⟩ := h.notMem hb hmark
  obtain ⟨hnodup, hitems, hbase, hiff⟩ := marked_iff.1 h
  refine marked_iff.2 ⟨Multiset.nodup_cons.2 ⟨hnotMem, hnodup⟩, fun c hc => ?_, hbase, fun c hc => ?_⟩
  · rcases Multiset.mem_cons.1 hc with rfl | hc
    · exact ⟨hb, hbase'⟩
    · exact hitems c hc
  · by_cases hcb : c = b
    · simp [hcb]
    · simp [hcb, hiff c hc]

theorem Marked.clear_mark (h : Marked size base mark (b ::ₘ items)) :
    Marked size base (Function.update mark b false) items := by
  obtain ⟨-, hbase', -⟩ := h.of_mem (Multiset.mem_cons_self b items)
  obtain ⟨hnodup, hitems, hbase, hiff⟩ := marked_iff.1 h
  obtain ⟨hnotMem, hnodup⟩ := Multiset.nodup_cons.1 hnodup
  refine marked_iff.2 ⟨hnodup, fun c hc => hitems c (Multiset.mem_cons_of_mem hc), hbase,
    fun c hc => ?_⟩
  by_cases hcb : c = b
  · subst hcb
    simp [hbase', hnotMem]
  · simp [hcb, hiff c hc]

end Laboratorio.Lib.Ledger
