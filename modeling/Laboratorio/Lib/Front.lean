import Mathlib

/-!
# A word of a language at the front of a text

`Front L k text` says that `text` starts with a word of `L` and that `k` holds of what follows it.
Every operation on languages is then one on the condition `k`, which is how a matcher that tries the
parts of a pattern one after the other sees them.
-/

namespace Laboratorio.Lib

open Computability

variable {α : Type*} {L M : Language α} {p : α → Prop} {k : List α → Prop} {text : List α}

def Front (L : Language α) (k : List α → Prop) (text : List α) : Prop :=
  ∃ w ∈ L, ∃ rest, w ++ rest = text ∧ k rest

/-- The words of one letter. -/
def letters (p : α → Prop) : Language α := fun w => ∃ b, w = [b] ∧ p b

@[simp] theorem front_one : Front 1 k text ↔ k text := by
  constructor
  · rintro ⟨w, hw, rest, rfl, hk⟩
    rw [Language.mem_one] at hw
    subst hw
    exact hk
  · intro hk
    exact ⟨[], Language.mem_one [] |>.2 rfl, text, rfl, hk⟩

theorem front_add : Front (L + M) k text ↔ Front L k text ∨ Front M k text := by
  simp only [Front, Language.mem_add, or_and_right, exists_or]

theorem front_mul : Front (L * M) k text ↔ Front L (Front M k) text := by
  constructor
  · rintro ⟨w, hw, rest, rfl, hk⟩
    obtain ⟨a, ha, b, hb, rfl⟩ := Language.mem_mul.1 hw
    exact ⟨a, ha, b ++ rest, (List.append_assoc ..).symm, b, hb, rest, rfl, hk⟩
  · rintro ⟨a, ha, _, rfl, b, hb, rest, rfl, hk⟩
    exact ⟨a ++ b, Language.append_mem_mul ha hb, rest, List.append_assoc .., hk⟩

/-- Either no word of `L` is taken, or one and then any number of them. -/
theorem front_kstar : Front L∗ k text ↔ k text ∨ Front L (Front L∗ k) text := by
  conv_lhs => rw [← Language.one_add_self_mul_kstar_eq_kstar L]
  rw [front_add, front_one, front_mul]

@[simp] theorem front_letters_nil : ¬ Front (letters p) k [] := by
  rintro ⟨w, ⟨b, rfl, -⟩, rest, h, -⟩
  cases h

@[simp] theorem front_letters_cons {b : α} : Front (letters p) k (b :: text) ↔ p b ∧ k text := by
  constructor
  · rintro ⟨w, ⟨c, rfl, hp⟩, rest, h, hk⟩
    cases h
    exact ⟨hp, hk⟩
  · rintro ⟨hp, hk⟩
    exact ⟨[b], ⟨b, rfl, hp⟩, text, rfl, hk⟩

end Laboratorio.Lib
