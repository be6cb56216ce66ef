import Laboratorio.Lib.Ledger
import Laboratorio.Xv6.Fs.Inode

/-!
# Which blocks an inode references, and its bytes

`Account` says that the bits in the bit map are those of the metadata, of the blocks that allocated
inodes reference, and of blocks that are `held` by a function between taking them and storing them.
It is about a table of inodes and the bytes of the blocks, not about a state: while a file is written,
the inode that counts is the one in the cache.
-/

namespace Laboratorio.Xv6.Fs

open Laboratorio.Lib Bytes TwoLevel Ledger Function

/-- A block number in an inode or an indirect block, where 0 is none. -/
def ptr (b : Nat) : Option Nat := if b = 0 then none else some b

@[simp] theorem ptr_zero : ptr 0 = none := rfl

theorem ptr_eq_some {b c : Nat} : ptr b = some c ↔ b = c ∧ c ≠ 0 := by
  unfold ptr
  split
  · simp_all [eq_comm]
  · simp only [Option.some.injEq]
    constructor
    · rintro rfl
      exact ⟨rfl, by assumption⟩
    · exact fun h => h.1

theorem ptr_eq_none {b : Nat} : ptr b = none ↔ b = 0 := by simp [ptr]

/-- The bytes of all blocks. -/
abbrev Data := Nat → Nat → UInt8

variable {sb : Superblock} {T : Nat → Dinode} {D : Data} {d : Dinode} {x y k l b : Nat}

/-- The block numbers of an inode: those of the blocks of its file, directly and through the indirect
block, and at last the indirect block itself. -/
def Dinode.slot (D : Data) (d : Dinode) (k : Nat) : Option Nat :=
  if k < NDIRECT then ptr (d.addrs k)
  else if k < MAXFILE then (ptr (d.addrs NDIRECT)).bind fun a => ptr (word (D a) (k - NDIRECT))
  else if k = MAXFILE then ptr (d.addrs NDIRECT)
  else none

def NSLOT : Nat := MAXFILE + 1

/-- The slots of inode `x`, if it is allocated. -/
def slots (T : Nat → Dinode) (D : Data) (x k : Nat) : Option Nat :=
  if (T x).type = .free then none else (T x).slot D k

/-- The blocks that allocated inodes reference. -/
@[irreducible] def blocks (sb : Superblock) (T : Nat → Dinode) (D : Data) : Multiset Nat :=
  owned (Finset.range sb.ninodes) NSLOT (slots T D)

/-! ## Slots -/

theorem slots_alloc (h : (T x).type ≠ .free) : slots T D x = (T x).slot D := by
  funext k
  rw [slots, if_neg h]

theorem slots_free (h : (T x).type = .free) : slots T D x = fun _ => none := by
  funext k
  rw [slots, if_pos h]

theorem alloc_of_slots (h : slots T D x k = some b) : (T x).type ≠ .free ∧ (T x).slot D k = some b := by
  unfold slots at h
  split at h
  · cases h
  · exact ⟨by assumption, h⟩

theorem slot_direct (hk : k < NDIRECT) : d.slot D k = ptr (d.addrs k) := if_pos hk

theorem slot_indirect (d : Dinode) (D : Data) : d.slot D MAXFILE = ptr (d.addrs NDIRECT) := by
  unfold Dinode.slot
  rw [if_neg (by decide), if_neg (Nat.lt_irrefl _), if_pos rfl]

theorem slot_word (hk : ¬ k < NDIRECT) (hk' : k < MAXFILE) (h : d.addrs NDIRECT ≠ 0) :
    d.slot D k = ptr (word (D (d.addrs NDIRECT)) (k - NDIRECT)) := by
  unfold Dinode.slot
  rw [if_neg hk, if_pos hk', ptr, if_neg h]
  rfl

theorem slot_congr {D' : Data} (h : d.addrs NDIRECT ≠ 0 → D' (d.addrs NDIRECT) = D (d.addrs NDIRECT)) :
    d.slot D' = d.slot D := by
  funext k
  unfold Dinode.slot
  by_cases ha : d.addrs NDIRECT = 0
  · simp [ha]
  · simp [ptr, ha, h ha]

theorem slot_set_addr (D : Data) (d : Dinode) {k : Nat} (hk : k < NDIRECT) (b : Nat) :
    Dinode.slot D { d with addrs := update d.addrs k b } =
      update (d.slot D) k (ptr b) := by
  have hne : NDIRECT ≠ k := by omega
  funext l
  by_cases hl : l = k
  · subst hl
    rw [slot_direct hk, update_self]
    dsimp only
    rw [update_self]
  · rw [update_of_ne hl]
    unfold Dinode.slot
    dsimp only
    rw [update_of_ne hl, update_of_ne hne]

theorem slot_set_indirect (h : d.addrs NDIRECT = 0) (hb : ∀ j < NINDIRECT, word (D b) j = 0) :
    Dinode.slot D { d with addrs := update d.addrs NDIRECT b } =
      update (d.slot D) MAXFILE (ptr b) := by
  funext l
  by_cases hl : l = MAXFILE
  · subst hl
    rw [slot_indirect, update_self]
    dsimp only
    rw [update_self]
  · rw [update_of_ne hl]
    unfold Dinode.slot
    dsimp only
    by_cases hl' : l < NDIRECT
    · rw [if_pos hl', if_pos hl', update_of_ne (Nat.ne_of_lt hl')]
    · rw [if_neg hl', if_neg hl', update_self, h]
      by_cases hmax : l < MAXFILE
      · have hj : l - NDIRECT < NINDIRECT := by
          unfold MAXFILE at hmax
          omega
        rw [if_pos hmax, if_pos hmax, ptr_zero]
        unfold ptr
        split
        · rfl
        · simp [hb _ hj]
      · rw [if_neg hmax, if_neg hmax, if_neg hl, if_neg hl]

/-- Without its indirect block, an inode has its direct blocks only. -/
theorem slot_clear_indirect (D : Data) (d : Dinode) :
    Dinode.slot D { d with addrs := update d.addrs NDIRECT 0 } =
      fun k => if k < NDIRECT then d.slot D k else none := by
  funext k
  by_cases hk : k < NDIRECT
  · rw [if_pos hk, slot_direct hk, slot_direct hk]
    dsimp only
    rw [update_of_ne (Nat.ne_of_lt hk)]
  · rw [if_neg hk]
    unfold Dinode.slot
    simp [hk]

/-! ## Words of an indirect block -/

theorem word_splice_self (f : Nat → UInt8) (j : Nat) (hb : b < 2 ^ 32) :
    word (splice f (4 * j) (toBytes 4 b)) j = b := by
  have hslice := slice_splice f (4 * j) (toBytes 4 b)
  rw [length_toBytes] at hslice
  unfold word
  rw [hslice, ofBytes_toBytes]
  exact Nat.mod_eq_of_lt (by simpa using hb)

theorem word_splice_of_ne (f : Nat → UInt8) {i j : Nat} (hij : i ≠ j) (b : Nat) :
    word (splice f (4 * j) (toBytes 4 b)) i = word f i := by
  unfold word
  rw [slice_splice_of_disjoint]
  rw [length_toBytes]
  omega

theorem word_zero (j : Nat) : word (fun _ => 0) j = 0 := by
  have hslice : slice (fun _ => 0) (4 * j) 4 = List.replicate 4 0 := rfl
  unfold word
  rw [hslice, ofBytes_replicate]

theorem slot_set_word {a : Nat} (ha : d.addrs NDIRECT = a) (ha' : a ≠ 0) (hk : ¬ k < NDIRECT)
    (hk' : k < MAXFILE) (hb : b < 2 ^ 32) :
    d.slot (update D a (splice (D a) (4 * (k - NDIRECT)) (toBytes 4 b))) =
      update (d.slot D) k (ptr b) := by
  subst ha
  funext l
  by_cases hl : l = k
  · subst hl
    rw [slot_word hk hk' ha', update_self, update_self, word_splice_self _ _ hb]
  · rw [update_of_ne hl]
    by_cases hl' : l < NDIRECT
    · rw [slot_direct hl', slot_direct hl']
    by_cases hmax : l < MAXFILE
    · have hne : l - NDIRECT ≠ k - NDIRECT := by omega
      rw [slot_word hl' hmax ha', slot_word hl' hmax ha', update_self,
        word_splice_of_ne _ hne]
    · unfold Dinode.slot
      simp [hl', hmax]

/-! ## The account -/

structure Account (sb : Superblock) (T : Nat → Dinode) (D : Data) (bit : Nat → Bool)
    (held : Multiset Nat) : Prop where
  marked : Marked sb.size (Finset.range sb.nmeta) bit (blocks sb T D + held)
  beyond : ∀ x, sb.ninodes ≤ x → (T x).type = .free

variable {bit : Nat → Bool} {held : Multiset Nat} {D' : Data}

theorem mem_blocks (hT : ∀ x, sb.ninodes ≤ x → (T x).type = .free) (hk : k < NSLOT)
    (h : slots T D x k = some b) : b ∈ blocks sb T D := by
  have hx : x < sb.ninodes := by
    by_contra hx
    exact (alloc_of_slots h).1 (hT x (Nat.le_of_not_lt hx))
  unfold blocks
  exact mem_owned.2 ⟨x, Finset.mem_range.2 hx, k, hk, h⟩

theorem lt_nslot (h : d.slot D k = some b) : k < NSLOT := by
  unfold Dinode.slot at h
  unfold NSLOT
  split at h
  · rename_i hk
    exact hk.trans (by decide)
  split at h
  · omega
  split at h
  · omega
  · cases h

theorem mem_blocks_iff (hT : ∀ x, sb.ninodes ≤ x → (T x).type = .free) :
    b ∈ blocks sb T D ↔ ∃ x k, (T x).type ≠ .free ∧ (T x).slot D k = some b := by
  constructor
  · intro hb
    unfold blocks at hb
    obtain ⟨x, -, k, -, hk⟩ := mem_owned.1 hb
    exact ⟨x, k, alloc_of_slots hk⟩
  · rintro ⟨x, k, hx, hk⟩
    refine mem_blocks hT (lt_nslot hk) (x := x) ?_
    rw [slots_alloc hx, hk]

theorem Account.lt_ninodes (h : Account sb T D bit held) (hx : (T x).type ≠ .free) : x < sb.ninodes := by
  by_contra hlt
  exact hx (h.beyond x (Nat.le_of_not_lt hlt))

theorem Account.inj (h : Account sb T D bit held) (hk : k < NSLOT) (hl : l < NSLOT)
    (hx : slots T D x k = some b) (hy : slots T D y l = some b) : x = y ∧ k = l := by
  have hnodup := (Multiset.nodup_add.1 h.marked.nodup).1
  unfold blocks at hnodup
  have hx' := h.lt_ninodes (alloc_of_slots hx).1
  have hy' := h.lt_ninodes (alloc_of_slots hy).1
  exact owned_inj hnodup (Finset.mem_range.2 hx') (Finset.mem_range.2 hy') hk hl hx hy

theorem Account.ne_of_held (h : Account sb T D bit held) (hb : b ∈ held) (hk : k < NSLOT) :
    slots T D x k ≠ some b := by
  intro hx
  have hdis := (Multiset.nodup_add.1 h.marked.nodup).2.2
  exact Multiset.disjoint_left.1 hdis (mem_blocks h.beyond hk hx) hb

/-- The boot block is metadata, so 0 is never a block that is taken. -/
theorem Account.pos_of_held (h : Account sb T D bit held) (hb : b ∈ held) : b ≠ 0 := by
  obtain ⟨-, hmeta, -⟩ := h.marked.of_mem (Multiset.mem_add.2 (.inr hb))
  rintro rfl
  have hpos := sb.nblocks_lt
  rw [Finset.mem_range, Superblock.nmeta] at hmeta
  omega

theorem Account.lt_of_held (h : Account sb T D bit held) (hb : b ∈ held) : b < 2 ^ 32 := by
  obtain ⟨hlt, -, -⟩ := h.marked.of_mem (Multiset.mem_add.2 (.inr hb))
  have hsize := sb.size_lt
  omega

theorem Account.take (h : Account sb T D bit held) (hb : b < sb.size) (hbit : bit b = false) :
    Account sb T D (update bit b true) (b ::ₘ held) := by
  refine ⟨?_, h.beyond⟩
  rw [Multiset.add_cons]
  exact h.marked.set_mark hb hbit

theorem Account.give (h : Account sb T D bit (b ::ₘ held)) :
    bit b = true ∧ Account sb T D (update bit b false) held := by
  obtain ⟨hmarked, hbeyond⟩ := h
  rw [Multiset.add_cons] at hmarked
  exact ⟨(hmarked.of_mem (Multiset.mem_cons_self _ _)).2.2, hmarked.clear_mark, hbeyond⟩

/-- One inode changes, and with it what is held. -/
theorem Account.change (h : Account sb T D bit held) {rest : Multiset Nat} (hx : x < sb.ninodes)
    (hother : ∀ y ≠ x, slots T D' y = slots T D y)
    (hslots : targets NSLOT (slots (update T x d) D' x) + rest =
      targets NSLOT (slots T D x) + held) :
    Account sb (update T x d) D' bit rest := by
  have hne : ∀ y ≠ x, slots (update T x d) D' y = slots T D y := by
    intro y hy
    rw [← hother y hy]
    funext k
    simp only [slots, update_of_ne hy]
  have hsum : blocks sb (update T x d) D' + rest = blocks sb T D + held := by
    unfold blocks
    exact owned_replace (Finset.mem_range.2 hx) (fun y _ hy k _ => by rw [hne y hy]) hslots
  refine ⟨?_, fun y hy => ?_⟩
  · rw [hsum]
    exact h.marked
  have hyx : y ≠ x := by omega
  rw [update_of_ne hyx]
  exact h.beyond y hy

/-- What is written to a block that is nobody's indirect block does not change the account. -/
theorem Account.set_data (h : Account sb T D bit held) {f : Nat → UInt8}
    (hb : ∀ x, slots T D x MAXFILE ≠ some b) : Account sb T (update D b f) bit held := by
  have hslots : slots T (update D b f) = slots T D := by
    funext x k
    unfold slots
    split
    · rfl
    · rename_i hx
      rw [slot_congr fun ha => ?_]
      refine update_of_ne (fun hab => hb x ?_) ..
      rw [slots_alloc hx, slot_indirect, ptr, if_neg ha, hab]
  have hblocks : blocks sb T (update D b f) = blocks sb T D := by
    unfold blocks
    rw [hslots]
  refine ⟨?_, h.beyond⟩
  rw [hblocks]
  exact h.marked

/-! ## The bytes of a file -/

/-- The byte at `off`. -/
def Dinode.byte (D : Data) (d : Dinode) (off : Nat) : UInt8 :=
  (d.slot D (off / BSIZE)).elim 0 fun b => D b (off % BSIZE)

def Dinode.bytes (D : Data) (d : Dinode) : List UInt8 := slice (d.byte D) 0 d.size

/-- There are blocks for the first `n` bytes. -/
def Backed (D : Data) (d : Dinode) (n : Nat) : Prop :=
  ∀ k, k * BSIZE < n → ∃ b, d.slot D k = some b

/-- The blocks of the file stay, with what is in them. -/
def Kept (D : Data) (d : Dinode) (D' : Data) (d' : Dinode) : Prop :=
  ∀ k < MAXFILE, ∀ b, d.slot D k = some b → d'.slot D' k = some b ∧ D' b = D b

variable {d' : Dinode} {n off : Nat}

theorem Kept.refl (D : Data) (d : Dinode) : Kept D d D d := fun _ _ _ h => ⟨h, rfl⟩

theorem Kept.trans {D'' : Data} {d'' : Dinode} (h : Kept D d D' d') (h' : Kept D' d' D'' d'') :
    Kept D d D'' d'' := by
  intro k hk b hb
  obtain ⟨hb1, hD1⟩ := h k hk b hb
  obtain ⟨hb2, hD2⟩ := h' k hk b hb1
  exact ⟨hb2, hD2.trans hD1⟩

theorem div_lt_maxfile (h : off < MAXFILE * BSIZE) : off / BSIZE < MAXFILE :=
  Nat.div_lt_of_lt_mul (by rwa [Nat.mul_comm])

theorem Backed.slot (h : Backed D d n) (hoff : off < n) : ∃ b, d.slot D (off / BSIZE) = some b :=
  h _ ((Nat.div_mul_le_self off BSIZE).trans_lt hoff)

theorem Kept.byte (h : Kept D d D' d') (hback : Backed D d n) (hn : n ≤ MAXFILE * BSIZE)
    (hoff : off < n) : d'.byte D' off = d.byte D off := by
  obtain ⟨b, hb⟩ := hback.slot hoff
  obtain ⟨hb', hD⟩ := h _ (div_lt_maxfile (hoff.trans_le hn)) b hb
  unfold Dinode.byte
  rw [hb, hb']
  show D' b _ = D b _
  rw [hD]

theorem Kept.backed (h : Kept D d D' d') (hback : Backed D d n) (hn : n ≤ MAXFILE * BSIZE) :
    Backed D' d' n := by
  intro k hk
  obtain ⟨b, hb⟩ := hback k hk
  have hlt : k < MAXFILE := Nat.lt_of_mul_lt_mul_right (hk.trans_le hn)
  exact ⟨b, (h k hlt b hb).1⟩

theorem Kept.bytes (h : Kept D d D' d') (hback : Backed D d d.size) (hn : d.size ≤ MAXFILE * BSIZE)
    (hsize : d'.size = d.size) : d'.bytes D' = d.bytes D := by
  unfold Dinode.bytes
  rw [hsize]
  refine slice_congr fun i hi => ?_
  exact h.byte hback hn (by omega)

/-- A write to a block that is held reaches no file. -/
theorem Account.kept_of_held (h : Account sb T D bit held) (hb : b ∈ held) (f : Nat → UInt8)
    (hx : (T x).type ≠ .free) : Kept D (T x) (update D b f) (T x) := by
  have hne : ∀ {k c}, k < NSLOT → (T x).slot D k = some c → c ≠ b := by
    rintro k c hk hc rfl
    exact h.ne_of_held hb hk ((congrFun (slots_alloc hx) k).trans hc)
  have hslot : (T x).slot (update D b f) = (T x).slot D := by
    refine slot_congr fun ha => update_of_ne ?_ ..
    refine hne (Nat.lt_succ_self MAXFILE) ?_
    rw [slot_indirect, ptr, if_neg ha]
  intro k hk c hc
  rw [hslot]
  exact ⟨hc, update_of_ne (hne (hk.trans (Nat.lt_succ_self _)) hc) ..⟩

/-- A write to a block of a file leaves the slots alone. -/
theorem Account.slot_write (h : Account sb T D bit held) (hk : k < MAXFILE)
    (hb : slots T D x k = some b) (f : Nat → UInt8) (hy : (T y).type ≠ .free) :
    (T y).slot (update D b f) = (T y).slot D := by
  refine slot_congr fun ha => update_of_ne ?_ ..
  intro hab
  have hind : slots T D y MAXFILE = some b := by
    rw [slots_alloc hy, slot_indirect, ptr, if_neg ha, hab]
  have := (h.inj (hk.trans (Nat.lt_succ_self _)) (Nat.lt_succ_self _) hb hind).2
  omega

/-- It reaches no other file, -/
theorem Account.kept_write (h : Account sb T D bit held) (hk : k < MAXFILE)
    (hb : slots T D x k = some b) (f : Nat → UInt8) (hy : (T y).type ≠ .free) (hyx : y ≠ x) :
    Kept D (T y) (update D b f) (T y) := by
  intro l hl c hc
  rw [h.slot_write hk hb f hy]
  refine ⟨hc, update_of_ne ?_ ..⟩
  rintro rfl
  have hc' : slots T D y l = some c := (congrFun (slots_alloc hy) l).trans hc
  exact hyx (h.inj (hl.trans (Nat.lt_succ_self _)) (hk.trans (Nat.lt_succ_self _)) hc' hb).1

/-- and no other block of this one. -/
theorem Account.byte_write (h : Account sb T D bit held) (hk : k < MAXFILE)
    (hb : slots T D x k = some b) (f : Nat → UInt8) (hoff : off < MAXFILE * BSIZE) :
    (T x).byte (update D b f) off =
      if off / BSIZE = k then f (off % BSIZE) else (T x).byte D off := by
  obtain ⟨hx, hb'⟩ := alloc_of_slots hb
  unfold Dinode.byte
  rw [h.slot_write hk hb f hx]
  split
  · rename_i hoffk
    rw [hoffk, hb']
    show update D b f b _ = _
    rw [update_self]
  · rename_i hoffk
    cases hc : (T x).slot D (off / BSIZE) with
    | none => rfl
    | some c =>
      show update D b f c _ = D c _
      rw [update_of_ne]
      rintro rfl
      have hc' : slots T D x (off / BSIZE) = some c := (congrFun (slots_alloc hx) _).trans hc
      have hlt := (div_lt_maxfile hoff).trans (Nat.lt_succ_self _)
      exact hoffk (h.inj hlt (hk.trans (Nat.lt_succ_self _)) hc' hb).2

end Laboratorio.Xv6.Fs
