import Mathlib

/-!
# Byte buffers

A buffer is a function from offsets to bytes.  `slice` reads a run of bytes, `splice` writes one, and
`ofBytes` and `toBytes` are little-endian numbers.
-/

namespace Laboratorio.Lib.Bytes

open List

/-- The `n` bytes from `off` on. -/
def slice (f : Nat → UInt8) (off n : Nat) : List UInt8 := (List.range n).map fun t => f (off + t)

/-- `memmove(f + off, l, l.length)`. -/
def splice (f : Nat → UInt8) (off : Nat) (l : List UInt8) : Nat → UInt8 := fun i =>
  if off ≤ i then (l[i - off]?).getD (f i) else f i

def ofBytes : List UInt8 → Nat
  | [] => 0
  | b :: bs => b.toNat + 256 * ofBytes bs

/-- The `n` low bytes of `x`. -/
def toBytes : (n x : Nat) → List UInt8
  | 0, _ => []
  | n + 1, x => UInt8.ofNat x :: toBytes n (x / 256)

variable {f g : Nat → UInt8} {off n i : Nat} {l : List UInt8}

/-! ## Reading and writing runs of bytes -/

@[simp] theorem length_slice (f : Nat → UInt8) (off n : Nat) : (slice f off n).length = n := by
  simp [slice]

theorem getElem?_slice (hi : i < n) : (slice f off n)[i]? = some (f (off + i)) := by
  simp [slice, hi]

theorem slice_congr (h : ∀ i < n, f (off + i) = g (off + i)) : slice f off n = slice g off n := by
  unfold slice
  refine map_congr_left fun i hi => ?_
  exact h i (mem_range.1 hi)

theorem slice_add (f : Nat → UInt8) (off m n : Nat) :
    slice f off (m + n) = slice f off m ++ slice f (off + m) n := by
  unfold slice
  rw [range_add, map_append, map_map]
  refine congrArg _ (map_congr_left fun i _ => ?_)
  rw [Function.comp_apply, Nat.add_assoc]

theorem slice_eq (h : ∀ i < l.length, l[i]? = some (f (off + i))) : slice f off l.length = l := by
  refine ext_getElem? fun i => ?_
  by_cases hi : i < l.length
  · rw [getElem?_slice hi, h i hi]
  · rw [getElem?_eq_none (by simpa using hi), getElem?_eq_none (by omega)]

theorem splice_inside (hi : i < l.length) : some (splice f off l (off + i)) = l[i]? := by
  unfold splice
  rw [if_pos (Nat.le_add_right off i), Nat.add_sub_cancel_left, getElem?_eq_getElem hi]
  rfl

theorem splice_outside (h : i < off ∨ off + l.length ≤ i) : splice f off l i = f i := by
  unfold splice
  split
  · rw [getElem?_eq_none (by omega)]
    rfl
  · rfl

theorem slice_splice (f : Nat → UInt8) (off : Nat) (l : List UInt8) :
    slice (splice f off l) off l.length = l :=
  slice_eq fun _ hi => (splice_inside hi).symm

theorem slice_splice_of_disjoint {o : Nat} (h : o + n ≤ off ∨ off + l.length ≤ o) :
    slice (splice f off l) o n = slice f o n :=
  slice_congr fun i hi => splice_outside (by omega)

theorem take_slice (f : Nat → UInt8) (off : Nat) {m n : Nat} (h : m ≤ n) :
    (slice f off n).take m = slice f off m := by
  obtain ⟨k, rfl⟩ := Nat.exists_eq_add_of_le h
  rw [slice_add, take_append_of_le_length (by simp), take_of_length_le (by simp)]

theorem drop_slice (f : Nat → UInt8) (off m n : Nat) :
    (slice f off n).drop m = slice f (off + m) (n - m) := by
  by_cases h : m ≤ n
  · obtain ⟨k, rfl⟩ := Nat.exists_eq_add_of_le h
    rw [slice_add, drop_append_of_le_length (by simp), drop_of_length_le (by simp),
      Nat.add_sub_cancel_left, nil_append]
  · rw [Nat.sub_eq_zero_of_le (by omega), drop_of_length_le (by rw [length_slice]; omega)]
    rfl

/-! ## Writing into a list -/

/-- The list with `src` in the place of what is at `off`; it may become longer. -/
def put (l : List UInt8) (off : Nat) (src : List UInt8) : List UInt8 :=
  l.take off ++ src ++ l.drop (off + src.length)

@[simp] theorem put_nil (l : List UInt8) (off : Nat) : put l off [] = l := by simp [put]

theorem length_put (src : List UInt8) (h : off ≤ l.length) :
    (put l off src).length = max l.length (off + src.length) := by
  simp only [put, length_append, length_take, length_drop]
  omega

theorem put_append (src src' : List UInt8) (h : off ≤ l.length) :
    put (put l off src) (off + src.length) src' = put l off (src ++ src') := by
  have hlen : (l.take off ++ src).length = off + src.length := by
    rw [length_append, length_take, Nat.min_eq_left h]
  have htake : (put l off src).take (off + src.length) = l.take off ++ src := by
    rw [put, take_append_of_le_length hlen.ge, take_of_length_le hlen.le]
  have hdrop : (put l off src).drop (off + src.length + src'.length) =
      l.drop (off + src.length + src'.length) := by
    rw [put, drop_append, hlen, drop_of_length_le (by omega), Nat.add_sub_cancel_left,
      drop_drop, nil_append]
  rw [put, htake, hdrop, put, length_append, append_assoc (l.take off) src src',
    Nat.add_assoc]

theorem getElem?_put (src : List UInt8) (h : off ≤ l.length) (i : Nat) : (put l off src)[i]? =
    if off ≤ i ∧ i < off + src.length then src[i - off]? else l[i]? := by
  have hlen : (l.take off).length = off := by rw [length_take, Nat.min_eq_left h]
  unfold put
  by_cases hlt : i < off
  · rw [if_neg (by omega), append_assoc, getElem?_append_left (by omega),
      getElem?_take_of_lt hlt]
  · by_cases hin : i < off + src.length
    · rw [if_pos ⟨by omega, hin⟩, getElem?_append_left (by rw [length_append]; omega),
        getElem?_append_right (by omega), hlen]
    · have hsub : off + src.length + (i - (off + src.length)) = i := by omega
      rw [if_neg (by omega), getElem?_append_right (by rw [length_append]; omega),
        length_append, hlen, getElem?_drop, hsub]

theorem slice_put {src : List UInt8} (hoff : off ≤ n)
    (hout : ∀ i < n, i < off ∨ off + src.length ≤ i → g i = f i)
    (hput : ∀ i < src.length, src[i]? = some (g (off + i))) :
    slice g 0 (max n (off + src.length)) = put (slice f 0 n) off src := by
  have hsplit : max n (off + src.length) = off + src.length + (n - (off + src.length)) := by omega
  have hfirst : slice g 0 off = slice f 0 off := by
    refine slice_congr fun i hi => ?_
    rw [Nat.zero_add]
    exact hout i (by omega) (by omega)
  have hlast : slice g (off + src.length) (n - (off + src.length)) =
      slice f (off + src.length) (n - (off + src.length)) :=
    slice_congr fun i hi => hout _ (by omega) (by omega)
  rw [hsplit, slice_add, slice_add, Nat.zero_add, Nat.zero_add, hfirst, slice_eq hput, hlast, put,
    take_slice _ _ hoff, drop_slice, Nat.zero_add]

/-! ## Numbers -/

@[simp] theorem length_toBytes (n x : Nat) : (toBytes n x).length = n := by
  induction n generalizing x with
  | zero => rfl
  | succ n ih => simp [toBytes, ih]

theorem ofBytes_toBytes (n x : Nat) : ofBytes (toBytes n x) = x % 256 ^ n := by
  induction n generalizing x with
  | zero => simp [toBytes, ofBytes, Nat.mod_one]
  | succ n ih =>
    have hbyte : (UInt8.ofNat x).toNat = x % 256 := by simp
    rw [toBytes, ofBytes, ih, hbyte, pow_succ, Nat.mul_comm (256 ^ n), Nat.mod_mul]

theorem ofBytes_lt (l : List UInt8) : ofBytes l < 256 ^ l.length := by
  induction l with
  | nil => simp [ofBytes]
  | cons b l ih =>
    have hb : b.toNat < 256 := b.toNat_lt
    rw [ofBytes, length_cons, pow_succ]
    omega

theorem ofBytes_replicate (n : Nat) : ofBytes (List.replicate n 0) = 0 := by
  induction n with
  | zero => rfl
  | succ n ih => simp [replicate_succ, ofBytes, ih]

end Laboratorio.Lib.Bytes
