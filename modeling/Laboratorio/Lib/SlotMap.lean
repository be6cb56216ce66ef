import Mathlib

/-!
# Finite maps in a table of slots

A table is a list of slots, each of them empty or with a key and a value.  What is put into the table
goes into the first empty slot, or behind the last slot if there is none; what is removed leaves its
slot empty.  If no key has two slots, the table is a finite map.
-/

namespace Laboratorio.Lib.SlotMap

open List

variable {κ β : Type}

abbrev Table (κ β : Type) := List (Option (κ × β))

/-- The first empty slot, or the place behind the last. -/
def room (l : Table κ β) : Nat := l.findIdx fun e => e.isNone

def insert (l : Table κ β) (k : κ) (v : β) : Table κ β :=
  if room l < l.length then l.set (room l) (some (k, v)) else l ++ [some (k, v)]

/-- No key has two slots. -/
def Distinct (l : Table κ β) : Prop :=
  ∀ (i j : Nat) k v w, l[i]? = some (some (k, v)) → l[j]? = some (some (k, w)) → i = j

variable {l : Table κ β} {k : κ} {v w : β} {i : Nat}

/-! ## Empty slots -/

theorem room_lt : room l < l.length ↔ none ∈ l := by
  unfold room
  simp [findIdx_lt_length]

theorem getElem?_room (h : room l < l.length) : l[room l]? = some none := by
  have hnone : (l[room l]).isNone = true := findIdx_getElem
  rw [getElem?_eq_getElem h, Option.isNone_iff_eq_none.1 hnone]

theorem getElem?_insert (l : Table κ β) (k : κ) (v : β) (i : Nat) :
    (insert l k v)[i]? = if i = room l then some (some (k, v)) else l[i]? := by
  unfold insert
  split
  · rename_i hlt
    by_cases hi : i = room l
    · subst hi
      rw [if_pos rfl, getElem?_set_self hlt]
    · rw [if_neg hi, getElem?_set_ne (Ne.symm hi)]
  · rename_i hge
    have hroom : room l = l.length := Nat.le_antisymm findIdx_le_length (Nat.le_of_not_lt hge)
    rw [hroom]
    by_cases hi : i = l.length
    · subst hi
      simp
    · rw [if_neg hi]
      by_cases hlt : i < l.length
      · rw [getElem?_append_left hlt]
      · rw [getElem?_eq_none (by simp; omega), getElem?_eq_none (by omega)]

theorem room_empty (hi : l[i]? = some (some (k, v))) : i ≠ room l := by
  rintro rfl
  have hlt : room l < l.length := by
    by_contra hge
    rw [getElem?_eq_none (Nat.le_of_not_lt hge)] at hi
    cases hi
  rw [getElem?_room hlt] at hi
  cases hi

theorem mem_insert {p : κ × β} : some p ∈ insert l k v ↔ p = (k, v) ∨ some p ∈ l := by
  simp only [mem_iff_getElem?, getElem?_insert]
  constructor
  · rintro ⟨i, hi⟩
    split at hi
    · cases hi
      exact .inl rfl
    · exact .inr ⟨i, hi⟩
  · rintro (rfl | ⟨i, hi⟩)
    · exact ⟨room l, if_pos rfl⟩
    · exact ⟨i, by rw [if_neg (room_empty hi), hi]⟩

theorem Distinct.eq_of_mem (h : Distinct l) (hv : some (k, v) ∈ l) (hw : some (k, w) ∈ l) : v = w := by
  obtain ⟨i, hi⟩ := getElem?_of_mem hv
  obtain ⟨j, hj⟩ := getElem?_of_mem hw
  obtain rfl := h i j k v w hi hj
  rw [hi] at hj
  cases hj
  rfl

/-- An empty slot is used before the table grows. -/
theorem length_insert_of_mem (h : none ∈ l) (k : κ) (v : β) : (insert l k v).length = l.length := by
  rw [insert, if_pos (room_lt.2 h), length_set]

/-! ## Looking up -/

variable [DecidableEq κ]

/-- The value in the first slot with this key. -/
def lookup (l : Table κ β) (k : κ) : Option β :=
  l.findSome? fun e => e.bind fun p => if p.1 = k then some p.2 else none

theorem lookup_eq_none : lookup l k = none ↔ ∀ v, some (k, v) ∉ l := by
  unfold lookup
  rw [findSome?_eq_none_iff]
  constructor
  · intro h v hv
    simpa using h _ hv
  · rintro h (_ | ⟨k', v⟩) he
    · rfl
    · rw [Option.bind_some, if_neg]
      rintro rfl
      exact h v he

theorem mem_of_lookup (h : lookup l k = some v) : some (k, v) ∈ l := by
  unfold lookup at h
  obtain ⟨e, he, hv⟩ := exists_of_findSome?_eq_some h
  obtain ⟨⟨k', w⟩, rfl, hw⟩ := Option.bind_eq_some_iff.1 hv
  split at hw
  · rename_i hk
    cases hw
    subst hk
    exact he
  · cases hw

theorem Distinct.lookup_eq_some (h : Distinct l) : lookup l k = some v ↔ some (k, v) ∈ l := by
  refine ⟨mem_of_lookup, fun hv => ?_⟩
  cases hw : lookup l k with
  | none => exact absurd hv (lookup_eq_none.1 hw v)
  | some w => rw [h.eq_of_mem hv (mem_of_lookup hw)]

/-- Two tables with the same entries are the same map. -/
theorem Distinct.lookup_congr {l' : Table κ β} (h : Distinct l) (h' : Distinct l') {k' : κ}
    (hmem : ∀ v, some (k, v) ∈ l ↔ some (k', v) ∈ l') : lookup l k = lookup l' k' := by
  refine Option.ext fun v => ?_
  rw [h.lookup_eq_some, h'.lookup_eq_some, hmem]

/-! ## Putting in -/

theorem Distinct.insert (h : Distinct l) (hk : lookup l k = none) (v : β) : Distinct (insert l k v) := by
  intro i j k' v' w' hi hj
  rw [getElem?_insert] at hi hj
  split at hi
  · rename_i hroom
    split at hj
    · rename_i hroom'
      rw [hroom, hroom']
    · cases hi
      exact absurd (mem_of_getElem? hj) (lookup_eq_none.1 hk w')
  · split at hj
    · cases hj
      exact absurd (mem_of_getElem? hi) (lookup_eq_none.1 hk v')
    · exact h i j k' v' w' hi hj

theorem Distinct.lookup_insert (h : Distinct l) (hk : lookup l k = none) (v : β) :
    lookup (SlotMap.insert l k v) = Function.update (lookup l) k (some v) := by
  funext k'
  by_cases hkk : k' = k
  · subst hkk
    rw [Function.update_self, (h.insert hk v).lookup_eq_some, mem_insert]
    exact .inl rfl
  · rw [Function.update_of_ne hkk]
    refine (h.insert hk v).lookup_congr h fun w => ?_
    rw [mem_insert]
    simp [hkk]

/-! ## Removing -/

def erase (l : Table κ β) (k : κ) : Table κ β :=
  l.map fun e => e.bind fun p => if p.1 = k then none else some p

theorem Distinct.set_none (h : Distinct l) (hi : l[i]? = some (some (k, v))) :
    l.set i none = erase l k := by
  have hlt : i < l.length := by
    by_contra hge
    rw [getElem?_eq_none (Nat.le_of_not_lt hge)] at hi
    cases hi
  refine ext_getElem? fun j => ?_
  unfold erase
  rw [getElem?_map]
  by_cases hj : i = j
  · subst hj
    rw [getElem?_set_self hlt, hi]
    simp
  · rw [getElem?_set_ne hj]
    cases he : l[j]? with
    | none => rfl
    | some e =>
      cases e with
      | none => rfl
      | some p =>
        have hp : p.1 ≠ k := by
          rintro rfl
          exact hj (h i j p.1 v p.2 hi he)
        simp [hp]

theorem mem_erase {p : κ × β} : some p ∈ erase l k ↔ some p ∈ l ∧ p.1 ≠ k := by
  unfold erase
  rw [mem_map]
  constructor
  · rintro ⟨e, he, hp⟩
    obtain ⟨q, rfl, hq⟩ := Option.bind_eq_some_iff.1 hp
    split at hq
    · cases hq
    · cases hq
      exact ⟨he, by assumption⟩
  · rintro ⟨hp, hk⟩
    exact ⟨some p, hp, by simp [hk]⟩

theorem Distinct.erase (h : Distinct l) (k : κ) : Distinct (erase l k) := by
  have hold : ∀ (i : Nat) k' v', (SlotMap.erase l k)[i]? = some (some (k', v')) → l[i]? = some (some (k', v')) := by
    intro i k' v' hi
    unfold SlotMap.erase at hi
    rw [getElem?_map] at hi
    obtain ⟨e, he, hp⟩ := Option.map_eq_some_iff.1 hi
    obtain ⟨q, rfl, hq⟩ := Option.bind_eq_some_iff.1 hp
    split at hq
    · cases hq
    · cases hq
      exact he
  intro i j k' v' w' hi hj
  exact h i j k' v' w' (hold i k' v' hi) (hold j k' w' hj)

theorem Distinct.lookup_erase (h : Distinct l) (k : κ) :
    lookup (SlotMap.erase l k) = Function.update (lookup l) k none := by
  funext k'
  by_cases hkk : k' = k
  · subst hkk
    rw [Function.update_self, lookup_eq_none]
    intro v hv
    exact (mem_erase.1 hv).2 rfl
  · rw [Function.update_of_ne hkk]
    refine (h.erase k).lookup_congr h fun w => ?_
    rw [mem_erase]
    simp [hkk]

end Laboratorio.Lib.SlotMap
