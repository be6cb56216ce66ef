import Mathlib

/-!
# Singly linked lists

`Walk next t l b` says that the pointer `t` leads to the first node of `l`, `next` from each node to
the one behind it, and from the last one to `b`.  A ring is a walk that ends where it begins, and
such a walk may begin at any of its nodes (`Walk.rotate`).

* `walk_append`, `Walk.congr` — pointer surgery: cut a walk, change pointers, put it together.
* `Walk.scan` — a search along the pointers of a ring finds the only node that stops it.
-/

namespace Laboratorio.Lib.SList

variable {α : Type*} {next next' : α → α} {t b p q x : α} {l l1 l2 : List α}

def Walk (next : α → α) : α → List α → α → Prop
  | t, [], b => t = b
  | t, x :: l, b => t = x ∧ Walk next (next x) l b

@[simp] theorem walk_nil : Walk next t [] b ↔ t = b := Iff.rfl

@[simp] theorem walk_cons : Walk next t (x :: l) b ↔ t = x ∧ Walk next (next x) l b := Iff.rfl

theorem walk_append : Walk next t (l1 ++ l2) b ↔ ∃ c, Walk next t l1 c ∧ Walk next c l2 b := by
  induction l1 generalizing t with
  | nil => simp
  | cons y l1 ih => simp [ih, and_assoc]

theorem walk_append_cons : Walk next t (l1 ++ x :: l2) b ↔ Walk next t l1 x ∧ Walk next (next x) l2 b := by
  simp [walk_append]

theorem Walk.congr (h : Walk next t l b) (heq : ∀ x ∈ l, next' x = next x) : Walk next' t l b := by
  induction l generalizing t with
  | nil => exact h
  | cons y l ih =>
    obtain ⟨rfl, h⟩ := h
    refine ⟨rfl, ?_⟩
    rw [heq t List.mem_cons_self]
    exact ih h fun x hx => heq x (List.mem_cons_of_mem t hx)

/-- A ring may be entered at any node. -/
theorem Walk.rotate (h : Walk next t (l1 ++ p :: l2) t) : Walk next p (p :: (l2 ++ l1)) p := by
  obtain ⟨h1, h2⟩ := walk_append_cons.1 h
  exact ⟨rfl, walk_append.2 ⟨t, h2, h1⟩⟩

theorem Walk.next_mem (h : Walk next t l t) (hp : p ∈ l) : next p ∈ l := by
  obtain ⟨l1, l2, rfl⟩ := List.append_of_mem hp
  have hrest := (walk_cons.1 h.rotate).2
  cases hl : l2 ++ l1 with
  | nil =>
    rw [hl, walk_nil] at hrest
    rw [hrest]
    exact hp
  | cons y l =>
    rw [hl, walk_cons] at hrest
    have hy : y ∈ l2 ++ l1 := by rw [hl]; exact List.mem_cons_self
    rw [hrest.1]
    simp only [List.mem_append, List.mem_cons] at hy ⊢
    tauto

theorem Walk.next_getLast (h : Walk next (next p) l b) :
    next ((p :: l).getLast (List.cons_ne_nil p l)) = b := by
  induction l generalizing p with
  | nil => exact h
  | cons y l ih =>
    obtain ⟨-, h⟩ := h
    rw [List.getLast_cons_cons]
    exact ih h

/-- `for (p = start; !stop(p); p = p->next);` with a bound on the number of turns. -/
def scan (next : α → α) (stop : α → Prop) [DecidablePred stop] : (n : Nat) → α → Option α
  | 0, _ => none
  | n + 1, p => if stop p then some p else scan next stop n (next p)

variable {stop : α → Prop} [DecidablePred stop]

theorem Walk.scan_of_mem (h : Walk next p l b) (hq : q ∈ l) (hstop : stop q)
    (huniq : ∀ x ∈ l, stop x → x = q) {n : Nat} (hn : l.length ≤ n) : scan next stop n p = some q := by
  induction l generalizing p n with
  | nil => cases hq
  | cons y l ih =>
    obtain ⟨rfl, h⟩ := h
    obtain ⟨n, rfl⟩ : ∃ n', n = n' + 1 := ⟨n - 1, by simp at hn; omega⟩
    rw [scan]
    split
    · rename_i hp
      rw [huniq p List.mem_cons_self hp]
    · rename_i hp
      have hq' : q ∈ l := by
        refine (List.mem_cons.1 hq).resolve_left ?_
        rintro rfl
        exact hp hstop
      exact ih h hq' (fun x hx => huniq x (List.mem_cons_of_mem p hx)) (by simpa using hn)

/-- **Search in a ring.** -/
theorem Walk.scan (h : Walk next t l t) (hp : p ∈ l) (hq : q ∈ l) (hstop : stop q)
    (huniq : ∀ x ∈ l, stop x → x = q) {n : Nat} (hn : l.length ≤ n) :
    SList.scan next stop n p = some q := by
  obtain ⟨l1, l2, rfl⟩ := List.append_of_mem hp
  have hmem : ∀ x, x ∈ p :: (l2 ++ l1) ↔ x ∈ l1 ++ p :: l2 := by
    intro x
    simp only [List.mem_cons, List.mem_append]
    tauto
  refine h.rotate.scan_of_mem ((hmem q).2 hq) hstop (fun x hx => huniq x ((hmem x).1 hx)) ?_
  simp only [List.length_cons, List.length_append] at hn ⊢
  omega

end Laboratorio.Lib.SList
