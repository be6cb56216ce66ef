import Mathlib

/-!
# Accounts of address ranges

`span a n` is the multiset of the `n` addresses from `a` on.  That ranges together make up others,
with no address twice, is an equation between sums of spans; two spans in such a sum lie apart.
-/

namespace Laboratorio.Lib

variable {a b m n u : Nat}

def span (a n : Nat) : Multiset Nat := Multiset.Ico a (a + n)

@[simp] theorem mem_span : u ∈ span a n ↔ a ≤ u ∧ u < a + n := Multiset.mem_Ico

@[simp] theorem span_zero : span a 0 = 0 := Multiset.Ico_self a

theorem span_add : span a (m + n) = span a m + span (a + m) n := by
  unfold span
  rw [← Nat.add_assoc]
  exact (Multiset.Ico_add_Ico_eq_Ico (Nat.le_add_right a m) (Nat.le_add_right (a + m) n)).symm

theorem nodup_span : (span a n).Nodup := Multiset.nodup_Ico

theorem apart_of_disjoint (h : Disjoint (span a m) (span b n)) (hm : 0 < m) (hn : 0 < n) :
    a + m ≤ b ∨ b + n ≤ a := by
  by_contra hno
  rw [not_or, not_le, not_le] at hno
  have hleft : max a b ∈ span a m := by
    rw [mem_span]
    omega
  have hright : max a b ∈ span b n := by
    rw [mem_span]
    omega
  exact Multiset.disjoint_left.1 h hleft hright

end Laboratorio.Lib
