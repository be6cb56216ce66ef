import Mathlib

/-!
# Doubly linked rings with a sentinel

The nodes of a ring are the elements of `α` and a sentinel, written `none`.  `Links` holds the two
pointers of every node.  `Ring s l` says that `next` leads from the sentinel through `l` and back,
each element once, and that `prev` leads the same way in the other direction.

* `Ring.insertFront`, `Ring.unlink`, `Ring.moveToFront` — pointer surgery keeps the ring and
  changes the list as expected.
* `Ring.walk_next`, `Ring.walk_cases` — a loop along the pointers searches the list.
-/

namespace Laboratorio.Lib.DList

open Function List

variable {α : Type*}

structure Links (α : Type*) where
  next : Option α → Option α
  prev : Option α → Option α

/-- `next` leads from `a` to `b` in one step, and `prev` back. -/
def Link (s : Links α) (a b : Option α) : Prop := s.next a = b ∧ s.prev b = a

/-- `next` leads from `a` through `l` to `b`, and `prev` back. -/
def Path (s : Links α) : Option α → List α → Option α → Prop
  | a, [], b => Link s a b
  | a, x :: l, b => Link s a (some x) ∧ Path s (some x) l b

structure Ring (s : Links α) (l : List α) : Prop where
  path : Path s none l none
  nodup : l.Nodup

/-- The ring of the sentinel alone. -/
def empty : Links α := ⟨fun _ => none, fun _ => none⟩

theorem ring_empty : Ring (empty : Links α) [] := ⟨⟨rfl, rfl⟩, nodup_nil⟩

variable {s s' : Links α} {a b c : Option α} {l l1 l2 : List α} {x : α}

theorem path_append : Path s a (l1 ++ x :: l2) b ↔ Path s a l1 (some x) ∧ Path s (some x) l2 b := by
  induction l1 generalizing a with
  | nil => rfl
  | cons y l1 ih =>
    simp only [cons_append, Path, ih]
    tauto

theorem Path.congr (h : Path s a l b) (hnext : s'.next a = s.next a)
    (hnexts : ∀ x ∈ l, s'.next (some x) = s.next (some x)) (hprev : s'.prev b = s.prev b)
    (hprevs : ∀ x ∈ l, s'.prev (some x) = s.prev (some x)) : Path s' a l b := by
  induction l generalizing a with
  | nil => exact ⟨hnext.trans h.1, hprev.trans h.2⟩
  | cons y l ih =>
    obtain ⟨⟨h1, h2⟩, h3⟩ := h
    have hy := mem_cons_self (a := y) (l := l)
    refine ⟨⟨hnext.trans h1, (hprevs y hy).trans h2⟩, ?_⟩
    exact ih h3 (hnexts y hy) (fun x hx => hnexts x (mem_cons_of_mem y hx))
      fun x hx => hprevs x (mem_cons_of_mem y hx)

/-! ## The other direction -/

def Links.flip (s : Links α) : Links α := ⟨s.prev, s.next⟩

theorem Path.flip (h : Path s a l b) : Path s.flip b l.reverse a := by
  induction l generalizing a with
  | nil => exact ⟨h.2, h.1⟩
  | cons y l ih =>
    rw [reverse_cons]
    exact path_append.2 ⟨ih h.2, h.1.2, h.1.1⟩

theorem Ring.flip (h : Ring s l) : Ring s.flip l.reverse :=
  ⟨h.path.flip, nodup_reverse.2 h.nodup⟩

/-! ## Walking -/

/-- `for (b = a; b != &head; b = b->next) if (p(b)) return b;` with a bound on the number of turns;
`none` when the bound is too small. -/
def walk (next : Option α → Option α) (p : α → Bool) : Nat → Option α → Option (Option α)
  | _, none => some none
  | 0, some _ => none
  | n + 1, some b => if p b then some (some b) else walk next p n (next (some b))

theorem walk_path (h : Path s a l none) (p : α → Bool) {n : Nat} (hn : l.length ≤ n) :
    walk s.next p n (s.next a) = some (l.find? p) := by
  induction l generalizing a n with
  | nil =>
    rw [h.1]
    cases n with
    | zero => rfl
    | succ n => rfl
  | cons y l ih =>
    obtain ⟨hlink, hrest⟩ := h
    cases n with
    | zero => simp at hn
    | succ n =>
      rw [hlink.1, walk, List.find?_cons]
      by_cases hp : p y = true
      · rw [if_pos hp, hp]
      · rw [if_neg hp, Bool.of_not_eq_true hp]
        exact ih hrest (by simpa using hn)

theorem Ring.walk_next (h : Ring s l) (p : α → Bool) {n : Nat} (hn : l.length ≤ n) :
    walk s.next p n (s.next none) = some (l.find? p) := walk_path h.path p hn

/-- A loop along a ring of everything finds a node that meets `p`, if there is one.  For the loop
along `prev` this is used with the flipped ring. -/
theorem Ring.walk_cases (h : Ring s l) (hall : ∀ x, x ∈ l) (p : α → Bool) {n : Nat}
    (hn : l.length ≤ n) :
    (∃ b, walk s.next p n (s.next none) = some (some b) ∧ p b = true) ∨
      walk s.next p n (s.next none) = some none ∧ ∀ b, p b = false := by
  rw [h.walk_next p hn]
  cases hf : l.find? p with
  | none => exact .inr ⟨rfl, fun b => by simpa using List.find?_eq_none.1 hf b (hall b)⟩
  | some b => exact .inl ⟨b, rfl, List.find?_some hf⟩

/-! ## Surgery -/

theorem Ring.next_ne (h : Ring s l) (hx : x ∉ l) : s.next none ≠ some x := by
  intro hn
  cases l with
  | nil => cases hn.symm.trans h.path.1
  | cons y l =>
    cases hn.symm.trans h.path.1.1
    exact hx mem_cons_self

theorem Path.prev_mem (h : Path s a l b) : s.prev b = a ∨ ∃ z ∈ l, s.prev b = some z := by
  induction l generalizing a with
  | nil => exact .inl h.2
  | cons y l ih =>
    right
    rcases ih h.2 with hp | ⟨z, hz, hp⟩
    · exact ⟨y, mem_cons_self, hp⟩
    · exact ⟨z, mem_cons_of_mem y hz, hp⟩

theorem Path.retarget (h : Path s a l b) (hl : l.Nodup) (ha : ∀ y ∈ l, a ≠ some y)
    (hlast : s'.next (s.prev b) = c) (hc : s'.prev c = s.prev b)
    (hnext : ∀ y, y ≠ s.prev b → s'.next y = s.next y)
    (hprev : ∀ y ∈ l, s'.prev (some y) = s.prev (some y)) : Path s' a l c := by
  induction l generalizing a with
  | nil =>
    rw [h.2] at hlast hc
    exact ⟨hlast, hc⟩
  | cons y l ih =>
    obtain ⟨⟨h1, h2⟩, hrest⟩ := h
    have hnodup := nodup_cons.1 hl
    have hne : a ≠ s.prev b := by
      rcases hrest.prev_mem with hp | ⟨z, hz, hp⟩
      · rw [hp]
        exact ha y mem_cons_self
      · rw [hp]
        exact ha z (mem_cons_of_mem y hz)
    refine ⟨⟨(hnext a hne).trans h1, (hprev y mem_cons_self).trans h2⟩, ?_⟩
    apply ih hrest hnodup.2
    · intro z hz h
      exact hnodup.1 (Option.some.inj h ▸ hz)
    · exact fun z hz => hprev z (mem_cons_of_mem y hz)

variable [DecidableEq α]

/-- `b->next = head.next; b->prev = &head; head.next->prev = b; head.next = b;` -/
def insertFront (b : α) (s : Links α) : Links α :=
  let s := { s with next := update s.next (some b) (s.next none) }
  let s := { s with prev := update s.prev (some b) none }
  let s := { s with prev := update s.prev (s.next none) (some b) }
  { s with next := update s.next none (some b) }

/-- `b->next->prev = b->prev; b->prev->next = b->next;` -/
def unlink (b : α) (s : Links α) : Links α :=
  let s := { s with prev := update s.prev (s.next (some b)) (s.prev (some b)) }
  { s with next := update s.next (s.prev (some b)) (s.next (some b)) }

theorem Ring.insertFront (h : Ring s l) (hx : x ∉ l) : Ring (insertFront x s) (x :: l) := by
  have hne := h.next_ne hx
  have hnext : ∀ y, y ≠ some x → y ≠ none → (DList.insertFront x s).next y = s.next y := by
    intro y hy hy'
    simp [DList.insertFront, hy, hy']
  have hnextx : (DList.insertFront x s).next (some x) = s.next none := by
    simp [DList.insertFront]
  have hprev : ∀ y, y ≠ some x → y ≠ s.next none → (DList.insertFront x s).prev y = s.prev y := by
    intro y hy hy'
    simp [DList.insertFront, hy, hy']
  have hprevx : (DList.insertFront x s).prev (s.next none) = some x := by
    simp [DList.insertFront]
  have hfront : Link (DList.insertFront x s) none (some x) := by
    simp [Link, DList.insertFront, hne.symm]
  refine ⟨⟨hfront, ?_⟩, nodup_cons.2 ⟨hx, h.nodup⟩⟩
  cases l with
  | nil =>
    have h0 := h.path.1
    rw [h0] at hnextx hprevx
    exact ⟨hnextx, hprevx⟩
  | cons y l =>
    obtain ⟨⟨h0, -⟩, hrest⟩ := h.path
    have hnodup := nodup_cons.1 h.nodup
    rw [h0] at hnextx hprevx hprev
    refine ⟨⟨hnextx, hprevx⟩, hrest.congr ?_ ?_ ?_ ?_⟩
    · exact hnext _ (fun h => hx (by simp [Option.some.inj h])) nofun
    · intro z hz
      exact hnext _ (fun h => hx (by simp [← Option.some.inj h, hz])) nofun
    · exact hprev _ nofun nofun
    · intro z hz
      refine hprev _ (fun h => hx (by simp [← Option.some.inj h, hz])) ?_
      intro h
      exact hnodup.1 (Option.some.inj h ▸ hz)

/-- The first assignment of `unlink` does not change what the second one reads, not even when `x` is
its own successor. -/
theorem unlink_eq (x : α) (s : Links α) :
    unlink x s = ⟨update s.next (s.prev (some x)) (s.next (some x)),
      update s.prev (s.next (some x)) (s.prev (some x))⟩ := by
  have h : update s.prev (s.next (some x)) (s.prev (some x)) (some x)
      = s.prev (some x) := by
    by_cases hx : some x = s.next (some x)
    · rw [← hx, update_self]
    · exact update_of_ne hx _ _
  simp only [unlink, h]

theorem Ring.unlink (h : Ring s (l1 ++ x :: l2)) : Ring (unlink x s) (l1 ++ l2) := by
  obtain ⟨h1, h2⟩ := path_append.1 h.path
  obtain ⟨hx, hnodup⟩ := nodup_cons.1 (nodup_middle.1 h.nodup)
  have hl1 : l1.Nodup := (nodup_append.1 hnodup).1
  have hdisj : ∀ y ∈ l1, ∀ z ∈ l2, y ≠ z := (nodup_append.1 hnodup).2.2
  refine ⟨?_, hnodup⟩
  have hnext : ∀ y, y ≠ s.prev (some x) → (DList.unlink x s).next y = s.next y := by
    intro y hy
    rw [unlink_eq]
    exact update_of_ne hy _ _
  have hprev : ∀ y, y ≠ s.next (some x) → (DList.unlink x s).prev y = s.prev y := by
    intro y hy
    rw [unlink_eq]
    exact update_of_ne hy _ _
  have hlast : (DList.unlink x s).next (s.prev (some x)) = s.next (some x) := by
    rw [unlink_eq]
    exact update_self ..
  have hfirst : (DList.unlink x s).prev (s.next (some x)) = s.prev (some x) := by
    rw [unlink_eq]
    exact update_self ..
  cases l2 with
  | nil =>
    have h0 : s.next (some x) = none := h2.1
    rw [h0] at hlast hfirst hprev
    rw [append_nil]
    exact h1.retarget hl1 nofun hlast hfirst hnext fun y _ => hprev _ nofun
  | cons z l2 =>
    obtain ⟨⟨h0, -⟩, hrest⟩ := h2
    rw [h0] at hlast hfirst hprev
    have hz : z ∉ l2 := (nodup_cons.1 (nodup_append.1 hnodup).2.1).1
    -- the node before `x` is the sentinel or in `l₁`
    have hp : ∀ y ∈ z :: l2, some y ≠ s.prev (some x) := by
      intro y hy he
      rcases h1.prev_mem with hp | ⟨w, hw, hp⟩
      · rw [hp] at he
        cases he
      · rw [hp] at he
        exact hdisj w hw y hy (Option.some.inj he).symm
    apply path_append.2
    constructor
    · apply h1.retarget hl1 nofun hlast hfirst hnext
      intro y hy
      apply hprev
      intro he
      exact hdisj y hy z mem_cons_self (Option.some.inj he)
    · apply hrest.congr
      · exact hnext _ (hp z mem_cons_self)
      · exact fun y hy => hnext _ (hp y (mem_cons_of_mem z hy))
      · exact hprev _ nofun
      · intro y hy
        apply hprev
        intro he
        exact hz (Option.some.inj he ▸ hy)

/-- A node that is taken out and put in front: the list of the others keeps its order. -/
theorem Ring.moveToFront (h : Ring s l) (hx : x ∈ l) :
    Ring (DList.insertFront x (DList.unlink x s)) (x :: l.erase x) := by
  obtain ⟨l1, l2, hx1, rfl, he⟩ := exists_erase_eq hx
  rw [he]
  have hx' := (nodup_cons.1 (nodup_middle.1 h.nodup)).1
  exact h.unlink.insertFront hx'

end Laboratorio.Lib.DList
