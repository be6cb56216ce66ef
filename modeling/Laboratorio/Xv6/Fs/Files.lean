import Laboratorio.Xv6.Fs.Blocks

/-!
# Reading, writing and truncating one inode

While a function works on an inode, its copy in the cache may be ahead of the disk: `State.table` is
the table of inodes with that copy in its place.  The rules say what happens to the account of blocks
and to the bytes of every file.
-/

namespace Laboratorio.Xv6.Fs

open Laboratorio.Lib Bytes TwoLevel Ledger Function

variable {sb : Superblock} {T : Nat → Dinode} {held : Multiset Nat} {s s1 : State} {ip : Ino} {k n : Nat}
  {E : Panic → Prop}

/-! ## What is given to `log_write` -/

/-- All that the open operation has given to `log_write` in between is among these blocks. -/
def Logs (P : LogBlock → Prop) (o o' : List (List LogBlock)) : Prop :=
  ∃ l, (∀ b ∈ l, P b) ∧ o' = o.modifyHead (l ++ ·)

variable {P P' : LogBlock → Prop} {o o1 o2 : List (List LogBlock)} {b : LogBlock}

theorem Logs.refl (P : LogBlock → Prop) (o : List (List LogBlock)) : Logs P o o := by
  refine ⟨[], nofun, ?_⟩
  cases o with
  | nil => rfl
  | cons l o => rfl

theorem Logs.trans (h : Logs P o o1) (h' : Logs P o1 o2) : Logs P o o2 := by
  obtain ⟨l, hl, rfl⟩ := h
  obtain ⟨l', hl', rfl⟩ := h'
  refine ⟨l' ++ l, fun b hb => ?_, ?_⟩
  · exact (List.mem_append.1 hb).elim (hl' b) (hl b)
  · cases o with
    | nil => rfl
    | cons l0 o => simp

theorem Logs.mono (h : Logs P o o1) (hP : ∀ b, P b → P' b) : Logs P' o o1 := by
  obtain ⟨l, hl, ho⟩ := h
  exact ⟨l, fun b hb => hP b (hl b hb), ho⟩

theorem Logs.write (h : Logs P o o1) (hb : P b) : Logs P o (o1.modifyHead (b :: ·)) :=
  h.trans ⟨[b], by simpa using hb, rfl⟩

/-- The blocks of the bit map, and those in the slots `ks` of an inode. -/
def Touched (sb : Superblock) (ks : Nat → Prop) (D : Data) (d : Dinode) : LogBlock → Prop
  | .bitmap i => ∃ c < sb.size, i = c / BPB
  | .inodes _ => False
  | .data b => ∃ k, ks k ∧ d.slot D k = some b

theorem Touched.mono {ks ks' : Nat → Prop} {D D' : Data} {d d' : Dinode} (h : Touched sb ks D d b)
    (hks : ∀ k, ks k → ks' k) (hslot : ∀ k c, d.slot D k = some c → d'.slot D' k = some c) :
    Touched sb ks' D' d' b := by
  cases b with
  | bitmap i => exact h
  | inodes i => exact h
  | data b =>
    obtain ⟨k, hk, hb⟩ := h
    exact ⟨k, hks k hk, hslot k b hb⟩

/-! ## Taking and giving back blocks -/

/-- The number of blocks that are not in use. -/
def freeBlocks (sb : Superblock) (bit : Nat → Bool) : Nat :=
  ((Finset.range sb.size).filter fun b => bit b = false).card

theorem freeBlocks_take {bit : Nat → Bool} {b : Nat} (hb : b < sb.size) (hbit : bit b = false) :
    freeBlocks sb (update bit b true) + 1 = freeBlocks sb bit := by
  have hmem : b ∈ (Finset.range sb.size).filter fun b => bit b = false := by simp [hb, hbit]
  have herase : (Finset.range sb.size).filter (fun c => update bit b true c = false) =
      ((Finset.range sb.size).filter fun b => bit b = false).erase b := by
    ext c
    by_cases hc : c = b
    · simp [hc]
    · simp [hc]
  unfold freeBlocks
  rw [herase, Finset.card_erase_add_one hmem]

theorem balloc_wp (h : Account sb T s.data s.bit held)
    (hout : freeBlocks sb s.bit = 0 → E .outOfBlocks) :
    wp E (balloc sb) (fun b s' =>
      s' = { s with bit := update s.bit b true
                    data := update s.data b fun _ => 0
                    ops := (s.ops.modifyHead (.bitmap (b / BPB) :: ·)).modifyHead (.data b :: ·) } ∧
      b < sb.size ∧ freeBlocks sb s'.bit + 1 = freeBlocks sb s.bit ∧
      Account sb T s'.data s'.bit (b ::ₘ held) ∧
      ∀ y, (T y).type ≠ .free → Kept s.data (T y) s'.data (T y)) s := by
  unfold balloc
  simp only [wp_bind, wp_get]
  cases hf : (List.range sb.size).find? fun b => !s.bit b with
  | none =>
    refine hout (Finset.card_eq_zero.2 (Finset.filter_eq_empty_iff.2 fun b hb => ?_))
    have hused := List.find?_eq_none.1 hf b (List.mem_range.2 (Finset.mem_range.1 hb))
    simpa using hused
  | some b =>
    have hmem := List.mem_of_find?_eq_some hf
    have hbit := List.find?_some hf
    simp only [List.mem_range, Bool.not_eq_true'] at hmem hbit
    have htake := h.take hmem hbit
    have hb := Multiset.mem_cons_self b held
    refine ⟨rfl, hmem, freeBlocks_take hmem hbit, htake.set_data fun x => ?_,
      fun y hy => htake.kept_of_held hb _ hy⟩
    exact htake.ne_of_held hb (Nat.lt_succ_self _)

theorem bfree_wp {b : Nat} (h : Account sb T s.data s.bit (b ::ₘ held)) :
    wp E (bfree b) (fun _ s' =>
      s' = { s with bit := update s.bit b false
                    ops := s.ops.modifyHead (.bitmap (b / BPB) :: ·) } ∧
      Account sb T s'.data s'.bit held) s := by
  obtain ⟨hbit, hgive⟩ := h.give
  unfold bfree
  simp only [wp_bind, wp_get]
  rw [if_pos hbit]
  exact ⟨rfl, hgive⟩

/-! ## The inode in the hands of a function -/

def State.table (s : State) (ip : Ino) : Nat → Dinode :=
  update s.dinode (s.inode ip).inum (s.inode ip).copy

theorem table_self (s : State) (ip : Ino) : s.table ip (s.inode ip).inum = (s.inode ip).copy :=
  update_self ..

/-- The entry with other block numbers. -/
def Inode.withAddrs (i : Inode) (A : Nat → Nat) : Inode := { i with copy := { i.copy with addrs := A } }

/-- Nothing but blocks, bits and the block numbers in this entry has changed. -/
structure Inside (ip : Ino) (s s' : State) : Prop where
  dinode : s'.dinode = s.dinode
  input : s'.input = s.input
  begun : s'.begun = s.begun
  ended : s'.ended = s.ended
  inode : ∃ A, s'.inode = update s.inode ip ((s.inode ip).withAddrs A)

theorem Inside.refl (ip : Ino) (s : State) : Inside ip s s :=
  ⟨rfl, rfl, rfl, rfl, (s.inode ip).copy.addrs, (update_eq_self ip s.inode).symm⟩

theorem Inside.trans {s2 : State} (h : Inside ip s s1) (h' : Inside ip s1 s2) : Inside ip s s2 := by
  obtain ⟨A, hA⟩ := h.inode
  obtain ⟨B, hB⟩ := h'.inode
  refine ⟨h'.dinode.trans h.dinode, h'.input.trans h.input, h'.begun.trans h.begun,
    h'.ended.trans h.ended, B, ?_⟩
  rw [hB, hA, update_idem, update_self]
  rfl

theorem Inside.copy (h : Inside ip s s1) : ∃ A, (s1.inode ip).copy = { (s.inode ip).copy with addrs := A } ∧
    (s1.inode ip).inum = (s.inode ip).inum := by
  obtain ⟨A, hA⟩ := h.inode
  refine ⟨A, ?_⟩
  rw [hA, update_self]
  exact ⟨rfl, rfl⟩

theorem Inside.table (h : Inside ip s s1) :
    s1.table ip = update (s.table ip) (s.inode ip).inum (s1.inode ip).copy := by
  obtain ⟨A, -, hinum⟩ := h.copy
  unfold State.table
  rw [h.dinode, hinum, update_idem]

/-! ## `bmap` -/

theorem bmap_wp_of_slot {E : Panic → Prop} {b : Nat} (hk : k < MAXFILE)
    (hb : (s.inode ip).copy.slot s.data k = some b) :
    wp E (bmap sb ip k) (fun r s' => r = b ∧ s' = s) s := by
  unfold bmap addrAlloc
  by_cases hdir : k < NDIRECT
  · rw [slot_direct hdir, ptr_eq_some] at hb
    rw [if_pos hdir]
    simp only [wp_bind, wp_get]
    rw [if_neg (by rw [hb.1]; exact hb.2)]
    exact ⟨hb.1, rfl⟩
  · have hind : (s.inode ip).copy.addrs NDIRECT ≠ 0 := by
      intro h0
      unfold Dinode.slot at hb
      simp [hdir, hk, h0] at hb
    rw [slot_word hdir hk hind, ptr_eq_some] at hb
    have hlt : k - NDIRECT < NINDIRECT := by
      unfold MAXFILE at hk
      omega
    rw [if_neg hdir, if_pos hlt]
    simp only [wp_bind, wp_get]
    rw [if_neg hind]
    simp only [wp_pure]
    rw [if_neg (by rw [hb.1]; exact hb.2)]
    exact ⟨hb.1, rfl⟩

theorem Account.store {D D' : Data} {bit : Nat → Bool} {d : Dinode} {x b : Nat}
    (h : Account sb T D bit (b ::ₘ held)) (hx : (T x).type ≠ .free) (hd : d.type ≠ .free)
    (hk : k < NSLOT) (hempty : (T x).slot D k = none)
    (hother : ∀ y ≠ x, slots T D' y = slots T D y)
    (hslot : d.slot D' = update ((T x).slot D) k (some b)) :
    Account sb (update T x d) D' bit held := by
  refine h.change (h.lt_ninodes hx) hother ?_
  have hd' : (update T x d x).type ≠ .free := by rwa [update_self]
  have hsum := targets_update ((T x).slot D) (some b) hk
  rw [hempty, target_none, add_zero, target_some] at hsum
  rw [slots_alloc hd', slots_alloc hx, update_self, hslot, hsum, ← Multiset.singleton_add]
  abel

/-- A file of `n` bytes has a block in this slot. -/
def Uses (n k : Nat) : Prop := if k < MAXFILE then k * BSIZE < n else NDIRECT * BSIZE < n

instance (n k : Nat) : Decidable (Uses n k) :=
  inferInstanceAs (Decidable (if k < MAXFILE then k * BSIZE < n else NDIRECT * BSIZE < n))

/-- The slots of an inode that have no block yet, but will if the file has `n` bytes. -/
def needs (D : Data) (d : Dinode) (n : Nat) : Finset Nat :=
  (Finset.range NSLOT).filter fun k => Uses n k ∧ d.slot D k = none

theorem Backed.needs {D : Data} {d : Dinode} (h : Backed D d n) : needs D d n = ∅ := by
  refine Finset.filter_eq_empty_iff.2 fun k hk => ?_
  rintro ⟨huses, hnone⟩
  unfold Uses at huses
  split at huses
  · obtain ⟨b, hb⟩ := h k huses
    rw [hb] at hnone
    cases hnone
  · obtain ⟨b, hb⟩ := h NDIRECT huses
    have hmax : k = MAXFILE := by
      have hlt := Finset.mem_range.1 hk
      unfold NSLOT at hlt
      omega
    rw [hmax, slot_indirect, ptr_eq_none] at hnone
    unfold Dinode.slot at hb
    rw [if_neg (Nat.lt_irrefl _), if_pos (by decide), hnone] at hb
    cases hb

theorem needs_store {D D' : Data} {d d' : Dinode} {b : Nat} (hk : k < NSLOT) (huses : Uses n k)
    (hempty : d.slot D k = none) (hslot : d'.slot D' = update (d.slot D) k (some b)) :
    (needs D' d' n).card + 1 = (needs D d n).card := by
  have hmem : k ∈ needs D d n := by simp [needs, hk, huses, hempty]
  have herase : needs D' d' n = (needs D d n).erase k := by
    ext l
    by_cases hl : l = k
    · simp [needs, hslot, hl]
    · simp [needs, hslot, hl]
  rw [herase, Finset.card_erase_add_one hmem]

/-- What a function has done that adds blocks to the slots `ks` of an inode, for a file of at most `n`
bytes: every block that it has taken is one that the file needed. -/
structure Grown (sb : Superblock) (ip : Ino) (n : Nat) (ks : Nat → Prop) (s s' : State) : Prop where
  inside : Inside ip s s'
  account : Account sb (s'.table ip) s'.data s'.bit 0
  kept : ∀ y, (s.table ip y).type ≠ .free → Kept s.data (s.table ip y) s'.data (s'.table ip y)
  slot : ∀ k b, (s.inode ip).copy.slot s.data k = some b → (s'.inode ip).copy.slot s'.data k = some b
  balance : freeBlocks sb s'.bit + (needs s.data (s.inode ip).copy n).card =
    freeBlocks sb s.bit + (needs s'.data (s'.inode ip).copy n).card
  logs : Logs (Touched sb ks s'.data (s'.inode ip).copy) s.ops s'.ops

variable {ks ks' : Nat → Prop}

theorem Grown.refl (h : Account sb (s.table ip) s.data s.bit 0) : Grown sb ip n ks s s :=
  ⟨.refl ip s, h, fun _ _ => .refl _ _, fun _ _ hb => hb, rfl, .refl _ _⟩

theorem Grown.mono (h : Grown sb ip n ks s s1) (hks : ∀ k, ks k → ks' k) : Grown sb ip n ks' s s1 :=
  { h with logs := h.logs.mono fun _ hb => hb.mono hks fun _ _ hc => hc }

theorem Inside.type (h : Inside ip s s1) (y : Nat) : (s1.table ip y).type = (s.table ip y).type := by
  obtain ⟨A, hA, -⟩ := h.copy
  rw [h.table]
  by_cases hy : y = (s.inode ip).inum
  · rw [hy, update_self, table_self, hA]
  · rw [update_of_ne hy]

theorem Grown.trans {s2 : State} (h : Grown sb ip n ks s s1) (h' : Grown sb ip n ks s1 s2) :
    Grown sb ip n ks s s2 := by
  refine ⟨h.inside.trans h'.inside, h'.account, fun y hy => (h.kept y hy).trans (h'.kept y ?_),
    fun k b hb => h'.slot k b (h.slot k b hb), ?_, ?_⟩
  · rwa [h.inside.type]
  · have := h.balance
    have := h'.balance
    omega
  · exact (h.logs.mono fun b hb => hb.mono (fun _ hk => hk) h'.slot).trans h'.logs

theorem kept_of_slot {D D' : Data} {d d' : Dinode} {b : Nat} (hempty : d.slot D k = none)
    (hslot : d'.slot D' = update (d.slot D) k (some b))
    (hD : ∀ l < MAXFILE, ∀ c, d.slot D l = some c → D' c = D c) : Kept D d D' d' := by
  intro l hl c hc
  rw [hslot, update_of_ne]
  · exact ⟨hc, hD l hl c hc⟩
  · rintro rfl
    rw [hempty] at hc
    cases hc

/-- A new block has gone into the slot `idx` of the inode, and `D'` is what is in the blocks then. -/
theorem Grown.of_store {A : Nat → Nat} {D : Data} {bit : Nat → Bool} {o : List (List LogBlock)} {b idx : Nat}
    (htype : (s.inode ip).copy.type ≠ .free) (hidx : idx < NSLOT) (huses : Uses n idx)
    (haccount : Account sb (s.table ip) D bit (b ::ₘ 0)) (hfree : freeBlocks sb bit + 1 = freeBlocks sb s.bit)
    (hslots : (s.inode ip).copy.slot D = (s.inode ip).copy.slot s.data)
    (hkept : ∀ y, (s.table ip y).type ≠ .free → Kept s.data (s.table ip y) D (s.table ip y))
    (D' : Data) (hD : ∀ y ≠ (s.inode ip).inum, slots (s.table ip) D' y = slots (s.table ip) D y)
    (hkept' : ∀ y ≠ (s.inode ip).inum, (s.table ip y).type ≠ .free →
      Kept D (s.table ip y) D' (s.table ip y))
    (hsame : ∀ l < MAXFILE, ∀ c, (s.inode ip).copy.slot D l = some c → D' c = D c)
    (hempty : (s.inode ip).copy.slot D idx = none)
    (hslot : Dinode.slot D' { (s.inode ip).copy with addrs := A } =
      update ((s.inode ip).copy.slot D) idx (some b))
    (hlogs : Logs (Touched sb ks D' { (s.inode ip).copy with addrs := A }) s.ops o) :
    Grown sb ip n ks s { s with
      bit := bit
      data := D'
      ops := o
      inode := update s.inode ip ((s.inode ip).withAddrs A) } := by
  have hself := table_self s ip
  have hinside : Inside ip s { s with
      bit := bit
      data := D'
      ops := o
      inode := update s.inode ip ((s.inode ip).withAddrs A) } :=
    ⟨rfl, rfl, rfl, rfl, A, rfl⟩
  have htable := hinside.table
  simp only [update_self] at htable
  refine ⟨hinside, ?_, fun y hy => ?_, fun k c hc => ?_, ?_, ?_⟩
  · rw [htable]
    refine haccount.store ?_ htype hidx ?_ hD ?_
    · rwa [hself]
    · rwa [hself]
    · rwa [hself]
  · rw [htable]
    refine (hkept y hy).trans ?_
    by_cases hyx : y = (s.inode ip).inum
    · subst hyx
      rw [update_self, hself]
      exact kept_of_slot hempty hslot hsame
    · rw [update_of_ne hyx]
      exact hkept' y hyx hy
  · rw [← hslots] at hc
    simp only [update_self]
    show Dinode.slot D' { (s.inode ip).copy with addrs := A } k = some c
    rw [hslot, update_of_ne]
    · exact hc
    · rintro rfl
      rw [hempty] at hc
      cases hc
  · rw [hslots] at hempty hslot
    have hneeds := needs_store hidx huses hempty hslot
    rw [← hneeds, ← hfree]
    simp only [update_self]
    exact (Nat.add_assoc _ _ _).symm.trans (Nat.add_right_comm _ _ _)
  · simp only [update_self]
    exact hlogs

/-- The slot for `addrs[k]`. -/
def slotOf (k : Nat) : Nat := if k < NDIRECT then k else MAXFILE

theorem addrAlloc_wp (hk : k ≤ NDIRECT) (huses : Uses n (slotOf k))
    (htype : (s.inode ip).copy.type ≠ .free) (h : Account sb (s.table ip) s.data s.bit 0)
    (hout : freeBlocks sb s.bit < (needs s.data (s.inode ip).copy n).card → E .outOfBlocks) :
    wp E (addrAlloc sb ip k) (fun a s' => Grown sb ip n (· = slotOf k) s s' ∧ a ≠ 0 ∧
      (s'.inode ip).copy.addrs k = a) s := by
  have hidx : slotOf k < NSLOT := by
    unfold slotOf NSLOT MAXFILE
    split <;> omega
  unfold addrAlloc
  simp only [wp_bind, wp_get]
  refine wp_ite.2 ⟨fun h0 => ?_, fun h0 => ⟨.refl h, h0, rfl⟩⟩
  have hnone : ∀ D : Data, (s.inode ip).copy.slot D (slotOf k) = none := by
    intro D
    unfold slotOf
    split
    · rename_i hdir
      rw [slot_direct hdir, h0, ptr_zero]
    · obtain rfl : k = NDIRECT := by omega
      rw [slot_indirect, h0, ptr_zero]
  refine wp_seq (balloc_wp h fun hzero => hout ?_) ?_
  · have hmem : slotOf k ∈ needs s.data (s.inode ip).copy n := by simp [needs, hidx, huses, hnone]
    rw [hzero]
    exact Finset.card_pos.2 ⟨_, hmem⟩
  rintro b s1 ⟨rfl, hlt, hfree, h1, hkept⟩
  simp only [modCopy, modInode, wp_bind, wp_modify, wp_pure]
  have hb : b ≠ 0 := h1.pos_of_held (Multiset.mem_cons_self b 0)
  have hptr : ptr b = some b := ptr_eq_some.2 ⟨rfl, hb⟩
  have hslots : (s.inode ip).copy.slot (update s.data b fun _ => 0) =
      (s.inode ip).copy.slot s.data := by
    refine slot_congr fun ha => update_of_ne (fun hab => ?_) ..
    refine h1.ne_of_held (x := (s.inode ip).inum) (Multiset.mem_cons_self b 0) (Nat.lt_succ_self MAXFILE) ?_
    rw [slots_alloc (by rwa [table_self]), table_self, slot_indirect, hab, hptr]
  have hslot : Dinode.slot (update s.data b fun _ => 0)
      { (s.inode ip).copy with addrs := update (s.inode ip).copy.addrs k b } =
      update ((s.inode ip).copy.slot (update s.data b fun _ => 0)) (slotOf k) (some b) := by
    unfold slotOf
    split
    · rename_i hdir
      rw [slot_set_addr _ _ hdir, hptr]
    · obtain rfl : k = NDIRECT := by omega
      rw [slot_set_indirect h0, hptr]
      intro j _
      rw [update_self]
      exact word_zero j
  refine ⟨Grown.of_store htype hidx huses h1 hfree hslots hkept _ (fun _ _ => rfl)
    (fun _ _ _ => .refl _ _) (fun _ _ _ _ => rfl) (hnone _) hslot ?_, hb, ?_⟩
  · refine ((Logs.refl _ _).write ⟨b, hlt, rfl⟩).write ⟨slotOf k, rfl, ?_⟩
    rw [hslot, update_self]
  · simp

/-- The indirect block of an inode is nobody else's, and none of the blocks of the file. -/
theorem Account.write_indirect {D : Data} {bit : Nat → Bool} {x a : Nat} (h : Account sb T D bit held)
    (ha : slots T D x MAXFILE = some a) (f : Nat → UInt8) :
    (∀ y ≠ x, (T y).type ≠ .free → (T y).slot (update D a f) = (T y).slot D) ∧
    (∀ y ≠ x, (T y).type ≠ .free → Kept D (T y) (update D a f) (T y)) ∧
    ∀ l < MAXFILE, ∀ c, (T x).slot D l = some c → update D a f c = D c := by
  have hne : ∀ y ≠ x, (T y).type ≠ .free → ∀ l < NSLOT, ∀ c, (T y).slot D l = some c → c ≠ a := by
    rintro y hy hyt l hl c hc rfl
    have hc' := (congrFun (slots_alloc hyt) l).trans hc
    exact hy (h.inj hl (Nat.lt_succ_self _) hc' ha).1
  have hslot : ∀ y ≠ x, (T y).type ≠ .free → (T y).slot (update D a f) = (T y).slot D := by
    intro y hy hyt
    refine slot_congr fun hya => update_of_ne ?_ ..
    refine hne y hy hyt MAXFILE (Nat.lt_succ_self _) _ ?_
    rw [slot_indirect]
    exact ptr_eq_some.2 ⟨rfl, hya⟩
  refine ⟨hslot, fun y hy hyt l hl c hc => ?_, fun l hl c hc => ?_⟩
  · rw [hslot y hy hyt]
    exact ⟨hc, update_of_ne (hne y hy hyt l (hl.trans (Nat.lt_succ_self _)) c hc) ..⟩
  · refine update_of_ne ?_ ..
    rintro rfl
    have hc' := (congrFun (slots_alloc (alloc_of_slots ha).1) l).trans hc
    have := (h.inj (hl.trans (Nat.lt_succ_self _)) (Nat.lt_succ_self _) hc' ha).2
    omega

theorem bmap_wp (hk : k * BSIZE < n) (hn : n ≤ MAXFILE * BSIZE) (htype : (s.inode ip).copy.type ≠ .free)
    (h : Account sb (s.table ip) s.data s.bit 0)
    (hout : freeBlocks sb s.bit < (needs s.data (s.inode ip).copy n).card → E .outOfBlocks) :
    wp E (bmap sb ip k) (fun b s' => Grown sb ip n (fun l => l = k ∨ l = MAXFILE) s s' ∧
      (s'.inode ip).copy.slot s'.data k = some b) s := by
  have hmax : k < MAXFILE := Nat.lt_of_mul_lt_mul_right (hk.trans_le hn)
  have huse : Uses n k := by rwa [Uses, if_pos hmax]
  unfold bmap
  by_cases hdir : k < NDIRECT
  · rw [if_pos hdir]
    refine wp_mono (addrAlloc_wp hdir.le ?_ htype h hout) ?_
    · rwa [slotOf, if_pos hdir]
    rintro a s1 ⟨h1, ha, hk1⟩
    refine ⟨h1.mono fun l hl => .inl ?_, ?_⟩
    · rwa [slotOf, if_pos hdir] at hl
    rw [slot_direct hdir, hk1]
    exact ptr_eq_some.2 ⟨rfl, ha⟩
  have hlt : k - NDIRECT < NINDIRECT := by
    unfold MAXFILE at hmax
    omega
  rw [if_neg hdir, if_pos hlt]
  simp only [wp_bind, wp_get]
  refine wp_mono (addrAlloc_wp le_rfl ?_ htype h hout) ?_
  · rw [slotOf, if_neg (Nat.lt_irrefl _), Uses, if_neg (Nat.lt_irrefl _)]
    exact (Nat.mul_le_mul_right BSIZE (Nat.le_of_not_lt hdir)).trans_lt hk
  rintro a s1 ⟨hgrown, ha, ha1⟩
  have h1 : Grown sb ip n (fun l => l = k ∨ l = MAXFILE) s s1 := hgrown.mono fun l hl => .inr hl
  have htype1 : (s1.inode ip).copy.type ≠ .free := by
    obtain ⟨A, hA, -⟩ := h1.inside.copy
    rwa [hA]
  have hslotk : ∀ D : Data, (s1.inode ip).copy.slot D k = ptr (word (D a) (k - NDIRECT)) := by
    intro D
    rw [slot_word hdir hmax (by rwa [ha1]), ha1]
  have hmaxfile : ∀ D : Data, (s1.inode ip).copy.slot D MAXFILE = some a := by
    intro D
    rw [slot_indirect, ha1]
    exact ptr_eq_some.2 ⟨rfl, ha⟩
  refine wp_ite.2 ⟨fun h0 => ?_, fun h0 => ⟨h1, ?_⟩⟩
  rotate_left
  · rw [hslotk]
    exact ptr_eq_some.2 ⟨rfl, h0⟩
  have hbalance := h1.balance
  have hnone : (s1.inode ip).copy.slot s1.data k = none := by rw [hslotk, h0, ptr_zero]
  refine wp_seq (balloc_wp h1.account fun hzero => hout ?_) ?_
  · have hmem : k ∈ needs s1.data (s1.inode ip).copy n := by
      have : k < NSLOT := hmax.trans (Nat.lt_succ_self _)
      simp [needs, this, huse, hnone]
    have := Finset.card_pos.2 ⟨_, hmem⟩
    omega
  rintro b s2 ⟨rfl, hblt, hfree, h2, hkept⟩
  simp only [log_write, wp_bind, wp_modify, wp_pure]
  have hheld := Multiset.mem_cons_self b (0 : Multiset Nat)
  have hb : b ≠ 0 := h2.pos_of_held hheld
  have hself := table_self s1 ip
  have hind : slots (s1.table ip) (update s1.data b fun _ => 0) (s1.inode ip).inum MAXFILE =
      some a := by
    rw [slots_alloc (by rwa [hself]), hself, hmaxfile]
  have hba : b ≠ a := by
    rintro rfl
    exact h2.ne_of_held hheld (Nat.lt_succ_self _) hind
  have hslots : (s1.inode ip).copy.slot (update s1.data b fun _ => 0) =
      (s1.inode ip).copy.slot s1.data := by
    refine slot_congr fun _ => update_of_ne ?_ ..
    rw [ha1]
    exact hba.symm
  -- the entry goes into the indirect block
  obtain ⟨f, hf⟩ : ∃ f, f = splice (update s1.data b (fun _ => 0) a) (4 * (k - NDIRECT))
      (toBytes 4 b) := ⟨_, rfl⟩
  obtain ⟨hother, hkept', hsame⟩ := h2.write_indirect hind f
  rw [hself] at hsame
  have hslot : Dinode.slot (update (update s1.data b fun _ => 0) a f)
      { (s1.inode ip).copy with addrs := (s1.inode ip).copy.addrs } =
      update ((s1.inode ip).copy.slot (update s1.data b fun _ => 0)) k (some b) := by
    rw [hf, slot_set_word ha1 ha hdir hmax (h2.lt_of_held hheld), ptr, if_neg hb]
  have hlogs : Logs (Touched sb (fun l => l = k ∨ l = MAXFILE)
      (update (update s1.data b fun _ => 0) a f) (s1.inode ip).copy) s1.ops
      (((s1.ops.modifyHead (.bitmap (b / BPB) :: ·)).modifyHead (.data b :: ·)).modifyHead
        (.data a :: ·)) := by
    refine (((Logs.refl _ _).write ?_).write ?_).write ?_
    · exact ⟨b, hblt, rfl⟩
    · refine ⟨k, .inl rfl, ?_⟩
      have := congrFun hslot k
      rwa [update_self] at this
    · exact ⟨MAXFILE, .inr rfl, hmaxfile _⟩
  have hgrown := Grown.of_store (n := n) htype1 (hmax.trans (Nat.lt_succ_self _)) huse h2 hfree hslots hkept
    _ (fun y hy => ?_) hkept' hsame (hslots ▸ hnone) hslot hlogs
  rotate_left
  · by_cases hyt : (s1.table ip y).type = .free
    · rw [slots_free hyt, slots_free hyt]
    · rw [slots_alloc hyt, slots_alloc hyt, hother y hy hyt]
  have hwith : (s1.inode ip).withAddrs (s1.inode ip).copy.addrs = s1.inode ip := rfl
  rw [hwith, update_eq_self] at hgrown
  rw [← hf]
  refine ⟨h1.trans hgrown, ?_⟩
  have hslotk' := congrFun hslot k
  rw [update_self] at hslotk'
  exact hslotk'

/-! ## `readi` -/

theorem slice_byte {D : Data} {d : Dinode} {b off m : Nat} (hb : d.slot D (off / BSIZE) = some b)
    (hm : off % BSIZE + m ≤ BSIZE) : slice (D b) (off % BSIZE) m = slice (d.byte D) off m := by
  have hB : BSIZE = 512 := rfl
  unfold slice
  refine List.map_congr_left fun t ht => ?_
  have ht' := List.mem_range.1 ht
  have hdiv : (off + t) / BSIZE = off / BSIZE := by
    rw [hB] at hm ⊢
    omega
  have hmod : (off + t) % BSIZE = off % BSIZE + t := by
    rw [hB] at hm ⊢
    omega
  unfold Dinode.byte
  rw [hdiv, hb, hmod]
  rfl

/-- Reading takes no blocks where there are blocks. -/
theorem readLoop_wp (turns : Nat) : ∀ {off n : Nat}, n ≤ turns → off + n ≤ MAXFILE * BSIZE →
    Backed s.data (s.inode ip).copy (off + n) →
    wp E (readLoop sb ip turns off n)
      (fun r s' => r = slice ((s.inode ip).copy.byte s.data) off n ∧ s' = s) s := by
  induction turns with
  | zero =>
    intro off n hn _ _
    obtain rfl : n = 0 := by omega
    exact ⟨rfl, rfl⟩
  | succ turns ih =>
    intro off n hn hmax hback
    have hB : BSIZE = 512 := rfl
    unfold readLoop
    split
    · rename_i hzero
      subst hzero
      exact ⟨rfl, rfl⟩
    · have hoff : off < off + n := by omega
      obtain ⟨b, hb⟩ := hback.slot hoff
      refine wp_seq (bmap_wp_of_slot (div_lt_maxfile (by omega)) hb) ?_
      rintro _ s1 ⟨rfl, hs1⟩
      subst s1
      simp only [wp_bind, wp_get]
      obtain ⟨m, hm⟩ : ∃ m, m = min n (BSIZE - off % BSIZE) := ⟨_, rfl⟩
      have hm' : m ≤ n ∧ 0 < m ∧ off % BSIZE + m ≤ BSIZE := by
        rw [hB] at hm ⊢
        omega
      rw [← hm]
      refine wp_mono (ih (by omega) (by omega) ?_) ?_
      · have hsum : off + m + (n - m) = off + n := by omega
        rwa [hsum]
      rintro r s1 ⟨rfl, hs1⟩
      refine ⟨?_, hs1⟩
      have hsplit := slice_add ((s.inode ip).copy.byte s.data) off m (n - m)
      rw [Nat.add_sub_cancel' hm'.1] at hsplit
      rw [hsplit, slice_byte hb hm'.2.2]

/-! ## `writei` -/

/-- The slots for the bytes from `off` to `off + m`, and the one of the indirect block. -/
def Spanned (off m k : Nat) : Prop := k = MAXFILE ∨ ∃ o, off ≤ o ∧ o < off + m ∧ k = o / BSIZE

/-- The bytes `src` have been written at `off`, in a file of at most `n` bytes. -/
structure Written (sb : Superblock) (ip : Ino) (n off : Nat) (src : List UInt8) (s s' : State) :
    Prop where
  inside : Inside ip s s'
  account : Account sb (s'.table ip) s'.data s'.bit 0
  others : ∀ y ≠ (s.inode ip).inum, (s.table ip y).type ≠ .free →
    Kept s.data (s.table ip y) s'.data (s'.table ip y)
  slot : ∀ k b, (s.inode ip).copy.slot s.data k = some b → (s'.inode ip).copy.slot s'.data k = some b
  filled : ∀ o, off ≤ o → o < off + src.length → ∃ b, (s'.inode ip).copy.slot s'.data (o / BSIZE) = some b
  byte : ∀ o < MAXFILE * BSIZE, (∃ b, (s.inode ip).copy.slot s.data (o / BSIZE) = some b) →
    o < off ∨ off + src.length ≤ o →
    (s'.inode ip).copy.byte s'.data o = (s.inode ip).copy.byte s.data o
  put : ∀ i < src.length, src[i]? = some ((s'.inode ip).copy.byte s'.data (off + i))
  balance : freeBlocks sb s'.bit + (needs s.data (s.inode ip).copy n).card =
    freeBlocks sb s.bit + (needs s'.data (s'.inode ip).copy n).card
  logs : Logs (Touched sb (Spanned off src.length) s'.data (s'.inode ip).copy) s.ops s'.ops
  /-- Where there are blocks, the inode stays as it is. -/
  same : (∀ o, off ≤ o → o < off + src.length → ∃ b, (s.inode ip).copy.slot s.data (o / BSIZE) = some b) →
    s'.inode = s.inode

theorem Written.nil {off : Nat} (h : Account sb (s.table ip) s.data s.bit 0) :
    Written sb ip n off [] s s where
  inside := .refl ip s
  account := h
  others _ _ _ := .refl _ _
  slot _ _ hb := hb
  filled _ hlo hhi := absurd hhi (Nat.not_lt.2 hlo)
  byte _ _ _ _ := rfl
  put i hi := absurd hi (Nat.not_lt_zero i)
  balance := rfl
  logs := .refl _ _
  same _ := rfl

theorem Written.trans {s2 : State} {off mid : Nat} {a b : List UInt8} (hmid : mid = off + a.length)
    (hmax : mid + b.length ≤ MAXFILE * BSIZE) (h : Written sb ip n off a s s1)
    (h' : Written sb ip n mid b s1 s2) : Written sb ip n off (a ++ b) s s2 := by
  subst hmid
  obtain ⟨A, -, hinum⟩ := h.inside.copy
  have hlen : (a ++ b).length = a.length + b.length := List.length_append
  refine ⟨h.inside.trans h'.inside, h'.account, fun y hy hyt => ?_, fun k c hc => ?_,
    fun o hlo hhi => ?_, fun o ho hback hout => ?_, fun i hi => ?_, ?_, ?_, fun hall => ?_⟩
  · refine (h.others y hy hyt).trans (h'.others y ?_ ?_)
    · rwa [hinum]
    · rwa [h.inside.type]
  · exact h'.slot k c (h.slot k c hc)
  · by_cases hfirst : o < off + a.length
    · obtain ⟨c, hc⟩ := h.filled o hlo hfirst
      exact ⟨c, h'.slot _ c hc⟩
    · exact h'.filled o (by omega) (by omega)
  · obtain ⟨c, hc⟩ := hback
    rw [h'.byte o ho ⟨c, h.slot _ c hc⟩ (by omega), h.byte o ho ⟨c, hc⟩ (by omega)]
  · by_cases hfirst : i < a.length
    · obtain ⟨c, hc⟩ := h.filled (off + i) (by omega) (by omega)
      rw [List.getElem?_append_left hfirst, h.put i hfirst,
        h'.byte (off + i) (by omega) ⟨c, hc⟩ (by omega)]
    · have hoff : off + i = off + a.length + (i - a.length) := by omega
      rw [List.getElem?_append_right (by omega), h'.put _ (by omega), hoff]
  · have := h.balance
    have := h'.balance
    omega
  · have hfirst : ∀ k, Spanned off a.length k → Spanned off (a ++ b).length k :=
      fun k hk => hk.imp_right fun ⟨o, hlo, hhi, ho⟩ => ⟨o, hlo, by omega, ho⟩
    have hlast : ∀ k, Spanned (off + a.length) b.length k → Spanned off (a ++ b).length k :=
      fun k hk => hk.imp_right fun ⟨o, hlo, hhi, ho⟩ => ⟨o, by omega, by omega, ho⟩
    exact (h.logs.mono fun _ hx => hx.mono hfirst h'.slot).trans
      (h'.logs.mono fun _ hx => hx.mono hlast fun _ _ hc => hc)
  · have hfirst : s1.inode = s.inode := h.same fun o hlo hhi => hall o hlo (by omega)
    refine (h'.same fun o hlo hhi => ?_).trans hfirst
    obtain ⟨c, hc⟩ := hall o (by omega) (by omega)
    exact ⟨c, h.slot _ c hc⟩

/-- One turn of the loop: `bmap` has found or taken the block, and a part of it is written. -/
theorem Written.turn {off b : Nat} (src : List UInt8) (hmax : off + src.length ≤ MAXFILE * BSIZE)
    (hpos : 0 < src.length) (hfit : off % BSIZE + src.length ≤ BSIZE)
    (htype : (s.inode ip).copy.type ≠ .free)
    (h : Grown sb ip n (fun l => l = off / BSIZE ∨ l = MAXFILE) s s1)
    (hb : (s1.inode ip).copy.slot s1.data (off / BSIZE) = some b)
    (hsame : (∃ c, (s.inode ip).copy.slot s.data (off / BSIZE) = some c) → s1 = s) :
    Written sb ip n off src s { s1 with
      data := update s1.data b (splice (s1.data b) (off % BSIZE) src)
      ops := s1.ops.modifyHead (.data b :: ·) } := by
  have hB : BSIZE = 512 := rfl
  obtain ⟨A, hA, hinum⟩ := h.inside.copy
  have hk : off / BSIZE < MAXFILE := div_lt_maxfile (by omega)
  have hself := table_self s1 ip
  have htype1 : (s1.table ip (s1.inode ip).inum).type ≠ .free := by
    rw [hself, hA]
    exact htype
  have hslot : Fs.slots (s1.table ip) s1.data (s1.inode ip).inum (off / BSIZE) = some b := by
    rw [slots_alloc htype1, hself, hb]
  have hwrite := h.account.slot_write hk hslot (splice (s1.data b) (off % BSIZE) src) htype1
  rw [hself] at hwrite
  have hbyte : ∀ o < MAXFILE * BSIZE, (s1.inode ip).copy.byte
      (update s1.data b (splice (s1.data b) (off % BSIZE) src)) o =
      if o / BSIZE = off / BSIZE then splice (s1.data b) (off % BSIZE) src (o % BSIZE)
      else (s1.inode ip).copy.byte s1.data o := by
    intro o ho
    have := h.account.byte_write hk hslot (splice (s1.data b) (off % BSIZE) src) ho
    rwa [hself] at this
  have hkept : Kept s.data (s.inode ip).copy s1.data (s1.inode ip).copy := by
    have := h.kept (s.inode ip).inum (by rwa [table_self])
    rwa [table_self, ← hinum, hself] at this
  have haccount : Account sb (s1.table ip)
      (update s1.data b (splice (s1.data b) (off % BSIZE) src)) s1.bit 0 := by
    refine h.account.set_data fun x hx => ?_
    have := (h.account.inj (hk.trans (Nat.lt_succ_self _)) (Nat.lt_succ_self _) hslot hx).2
    omega
  refine ⟨⟨h.inside.dinode, h.inside.input, h.inside.begun, h.inside.ended, h.inside.inode⟩, haccount,
    fun y hy hyt => ?_, fun k c hc => ?_, fun o hlo hhi => ?_, fun o ho hback hout => ?_,
    fun i hi => ?_, ?_, ?_, fun hall => ?_⟩
  · refine (h.kept y hyt).trans (h.account.kept_write hk hslot _ ?_ ?_)
    · rwa [h.inside.type]
    · rwa [hinum]
  · dsimp only
    rw [hwrite]
    exact h.slot k c hc
  · have hdiv : o / BSIZE = off / BSIZE := by
      rw [hB] at hfit ⊢
      omega
    refine ⟨b, ?_⟩
    dsimp only
    rw [hwrite, hdiv, hb]
  · obtain ⟨c, hc⟩ := hback
    obtain ⟨hc1, hDc⟩ := hkept _ (div_lt_maxfile ho) c hc
    have hold : (s1.inode ip).copy.byte s1.data o = (s.inode ip).copy.byte s.data o := by
      unfold Dinode.byte
      rw [hc, hc1]
      exact congrFun hDc _
    dsimp only
    rw [hbyte o ho]
    split
    · rename_i hdiv
      have hout' : o % BSIZE < off % BSIZE ∨ off % BSIZE + src.length ≤ o % BSIZE := by
        rw [hB] at hdiv ⊢
        omega
      rw [splice_outside hout', ← hold]
      unfold Dinode.byte
      rw [hdiv, hb]
      rfl
    · exact hold
  · have hdiv : (off + i) / BSIZE = off / BSIZE := by
      rw [hB] at hfit ⊢
      omega
    have hmod : (off + i) % BSIZE = off % BSIZE + i := by
      rw [hB] at hfit ⊢
      omega
    dsimp only
    rw [hbyte (off + i) (by omega), if_pos hdiv, hmod, splice_inside hi]
  · have hneeds : needs (update s1.data b (splice (s1.data b) (off % BSIZE) src))
        (s1.inode ip).copy n = needs s1.data (s1.inode ip).copy n := by
      unfold needs
      rw [hwrite]
    dsimp only
    rw [hneeds]
    exact h.balance
  · have hspan : ∀ l, l = off / BSIZE ∨ l = MAXFILE → Spanned off src.length l := by
      rintro l (rfl | rfl)
      · exact .inr ⟨off, le_rfl, by omega, rfl⟩
      · exact .inl rfl
    dsimp only
    refine (h.logs.mono fun _ hx => hx.mono hspan ?_).write ⟨off / BSIZE, hspan _ (.inl rfl), ?_⟩
    · intro k c hc
      rwa [hwrite]
    · rw [hwrite, hb]
  · dsimp only
    rw [hsame (hall off le_rfl (by omega))]

theorem writeLoop_wp (hn : n ≤ MAXFILE * BSIZE) (turns : Nat) : ∀ {off : Nat} {src : List UInt8} {s : State},
    src.length ≤ turns → off + src.length ≤ n → (s.inode ip).copy.type ≠ .free →
    Account sb (s.table ip) s.data s.bit 0 →
    (freeBlocks sb s.bit < (needs s.data (s.inode ip).copy n).card → E .outOfBlocks) →
    wp E (writeLoop sb ip turns off src) (fun _ s' => Written sb ip n off src s s') s := by
  induction turns with
  | zero =>
    intro off src s hsrc _ _ h _
    obtain rfl : src = [] := List.eq_nil_of_length_eq_zero (by omega)
    exact .nil h
  | succ turns ih =>
    intro off src s hsrc hoff htype h hout
    have hB : BSIZE = 512 := rfl
    unfold writeLoop
    split
    · rename_i hzero
      obtain rfl := List.eq_nil_of_length_eq_zero hzero
      exact .nil h
    · have hk : off / BSIZE * BSIZE < n := (Nat.div_mul_le_self off BSIZE).trans_lt (by omega)
      have hfound : wp E (bmap sb ip (off / BSIZE)) (fun b s1 =>
          Grown sb ip n (fun l => l = off / BSIZE ∨ l = MAXFILE) s s1 ∧
          (s1.inode ip).copy.slot s1.data (off / BSIZE) = some b ∧
          ((∃ c, (s.inode ip).copy.slot s.data (off / BSIZE) = some c) → s1 = s)) s := by
        cases hc : (s.inode ip).copy.slot s.data (off / BSIZE) with
        | none =>
          refine wp_mono (bmap_wp hk hn htype h hout) ?_
          rintro b s1 ⟨h1, hb⟩
          exact ⟨h1, hb, nofun⟩
        | some c =>
          refine wp_mono (bmap_wp_of_slot (div_lt_maxfile (by omega)) hc) ?_
          rintro b s1 ⟨rfl, rfl⟩
          exact ⟨.refl h, hc, fun _ => rfl⟩
      refine wp_seq hfound ?_
      rintro b s1 ⟨h1, hb, hsame⟩
      obtain ⟨m, hm⟩ : ∃ m, m = min src.length (BSIZE - off % BSIZE) := ⟨_, rfl⟩
      have hm' : m ≤ src.length ∧ 0 < m ∧ off % BSIZE + m ≤ BSIZE := by
        rw [hB] at hm ⊢
        omega
      have htake : (src.take m).length = m := by
        rw [List.length_take]
        omega
      simp only [log_write, wp_bind, wp_modify, ← hm]
      have hturn := Written.turn (src.take m) (by omega) (by omega) (by omega) htype h1 hb hsame
      have hbalance := hturn.balance
      refine wp_mono (ih ?_ ?_ ?_ hturn.account fun hlt => hout ?_) ?_
      · rw [List.length_drop]
        omega
      · rw [List.length_drop]
        omega
      · obtain ⟨A, hA, -⟩ := hturn.inside.copy
        rw [hA]
        exact htype
      · omega
      · intro _ s2 h2
        have hmid : off + m = off + (src.take m).length := by rw [htake]
        have hend : off + m + (src.drop m).length ≤ MAXFILE * BSIZE := by
          rw [List.length_drop]
          omega
        have htrans := hturn.trans hmid hend h2
        rwa [List.take_append_drop] at htrans

end Laboratorio.Xv6.Fs
