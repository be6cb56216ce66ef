import Mathlib

/-!
# Sequences of block writes and crashes between them

A store maps addresses to contents, and `apply ws d` makes the writes `ws` in order.  A crash
leaves the store after a prefix of the writes: `AtEvery I ws d` says that `I` holds at every such
point, and it is composed along the sequence by `AtEvery.append`.

Replaying a whole log over a store that already has a prefix of it gives the same as replaying it
once (`apply_of_prefix`): this is why redo recovery may itself be interrupted.
-/

namespace Laboratorio.Lib.Redo

open Function

variable {α β : Type*} [DecidableEq α]

def apply (ws : List (α × β)) (d : α → β) : α → β :=
  ws.foldl (fun d w => update d w.1 w.2) d

variable {ws vs p : List (α × β)} {d e : α → β} {x : α} {I : (α → β) → Prop}

@[simp] theorem apply_nil (d : α → β) : apply [] d = d := rfl

theorem apply_cons (w : α × β) (ws : List (α × β)) (d : α → β) :
    apply (w :: ws) d = apply ws (update d w.1 w.2) := rfl

theorem apply_append (ws vs : List (α × β)) (d : α → β) :
    apply (ws ++ vs) d = apply vs (apply ws d) := List.foldl_append

theorem apply_of_notMem (h : x ∉ ws.map Prod.fst) : apply ws d x = d x := by
  induction ws generalizing d with
  | nil => rfl
  | cons w ws ih =>
    simp only [List.map_cons, List.mem_cons, not_or] at h
    rw [apply_cons, ih h.2, update_of_ne h.1]

/-- What a written block holds afterwards does not depend on the store before. -/
theorem apply_congr (h : x ∈ ws.map Prod.fst ∨ d x = e x) : apply ws d x = apply ws e x := by
  induction ws generalizing d e with
  | nil =>
    rcases h with h | h
    · cases h
    · exact h
  | cons w ws ih =>
    rw [apply_cons, apply_cons]
    apply ih
    rcases eq_or_ne x w.1 with rfl | hne
    · right
      rw [update_self, update_self]
    · rcases h with h | h
      · rcases List.mem_cons.1 h with h | h
        · exact absurd h hne
        · exact Or.inl h
      · right
        rw [update_of_ne hne, update_of_ne hne, h]

/-- A block that every write gives the contents `f` holds them afterwards, whatever the order. -/
theorem apply_of_mem {f : α → β} (h : ∀ w ∈ ws, w.2 = f w.1) (hx : x ∈ ws.map Prod.fst) :
    apply ws d x = f x := by
  induction ws generalizing d with
  | nil => cases hx
  | cons w ws ih =>
    rw [apply_cons]
    by_cases hmem : x ∈ ws.map Prod.fst
    · exact ih (fun v hv => h v (List.mem_cons_of_mem w hv)) hmem
    · have hw : x = w.1 := by simpa [hmem] using hx
      rw [apply_of_notMem hmem, hw, update_self]
      exact h w List.mem_cons_self

/-- **Redo is idempotent**, also over a replay that was interrupted. -/
theorem apply_of_prefix (h : p <+: ws) (d : α → β) : apply ws (apply p d) = apply ws d := by
  funext x
  apply apply_congr
  by_cases hx : x ∈ ws.map Prod.fst
  · exact Or.inl hx
  · right
    apply apply_of_notMem
    intro hp
    exact hx ((h.map Prod.fst).subset hp)

/-! ## Every crash point -/

omit [DecidableEq α] in
theorem cut_append (h : p <+: ws ++ vs) : p <+: ws ∨ ∃ q, q <+: vs ∧ p = ws ++ q := by
  rcases List.prefix_or_prefix_of_prefix h (List.prefix_append ws vs) with hw | ⟨q, rfl⟩
  · exact Or.inl hw
  · exact Or.inr ⟨q, (List.prefix_append_right_inj ws).1 h, rfl⟩

/-- `I` holds of the store after each prefix of the writes. -/
def AtEvery (I : (α → β) → Prop) (ws : List (α × β)) (d : α → β) : Prop :=
  ∀ p, p <+: ws → I (apply p d)

theorem AtEvery.append (h : AtEvery I ws d) (h' : AtEvery I vs (apply ws d)) :
    AtEvery I (ws ++ vs) d := by
  intro p hp
  rcases cut_append hp with hw | ⟨q, hq, rfl⟩
  · exact h p hw
  · rw [apply_append]
    exact h' q hq

theorem AtEvery.last (h : AtEvery I ws d) : I (apply ws d) := h ws (List.prefix_refl ws)

theorem atEvery_singleton {w : α × β} (h : I d) (h' : I (apply [w] d)) : AtEvery I [w] d := by
  intro p hp
  rcases p with _ | ⟨v, p⟩
  · exact h
  · obtain ⟨rfl, hnil⟩ := List.cons_prefix_cons.1 hp
    rw [List.prefix_nil.1 hnil]
    exact h'

end Laboratorio.Lib.Redo
