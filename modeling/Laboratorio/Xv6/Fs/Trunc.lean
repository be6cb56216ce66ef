import Laboratorio.Xv6.Fs.Good

/-!
# Giving the blocks of an inode back

`itrunc` gives the direct blocks back one by one, then the blocks in the indirect block, and at last
the indirect block itself.  The entries of the indirect block are not cleared: from the account's point
of view they are all held from the moment on at which the loop starts.
-/

namespace Laboratorio.Xv6.Fs

open Laboratorio.Lib Bytes TwoLevel Ledger Function

variable {sb : Superblock} {T : Nat → Dinode} {held : Multiset Nat} {s s' s1 s2 : State} {ip : Ino}
  {k n x b : Nat} {D : Data} {bit : Nat → Bool} {d : Dinode} {E : Panic → Prop}

/-- A block of the bit map. -/
def IsBit (sb : Superblock) (b : LogBlock) : Prop := ∃ c < sb.size, b = .bitmap (c / BPB)

theorem Account.unstore (h : Account sb T D bit held) (hx : (T x).type ≠ .free) (hd : d.type ≠ .free)
    (hk : k < NSLOT) (hb : (T x).slot D k = some b)
    (hslot : d.slot D = update ((T x).slot D) k none) :
    Account sb (update T x d) D bit (b ::ₘ held) := by
  refine h.change (h.lt_ninodes hx) (fun _ _ => rfl) ?_
  have hd' : (update T x d x).type ≠ .free := by rwa [update_self]
  have hsum := targets_update ((T x).slot D) none hk
  rw [hb, target_none, add_zero, target_some] at hsum
  rw [slots_alloc hd', slots_alloc hx, update_self, hslot, ← hsum, ← Multiset.singleton_add]
  abel

/-- The blocks that the words from `j` on of an indirect block name. -/
def named (f : Nat → UInt8) (j : Nat) : Multiset Nat :=
  ∑ i ∈ Finset.range (NINDIRECT - j), target (ptr (word f (j + i)))

theorem named_end (f : Nat → UInt8) : named f NINDIRECT = 0 := by
  unfold named
  rw [Nat.sub_self]
  rfl

theorem named_succ (f : Nat → UInt8) {j : Nat} (hj : j < NINDIRECT) :
    named f j = target (ptr (word f j)) + named f (j + 1) := by
  unfold named
  obtain ⟨m, hm⟩ : ∃ m, NINDIRECT - j = m + 1 := ⟨NINDIRECT - j - 1, by omega⟩
  have hm' : NINDIRECT - (j + 1) = m := by omega
  rw [hm, hm', Finset.sum_range_succ', Nat.add_zero, add_comm]
  refine congrArg _ (Finset.sum_congr rfl fun i _ => ?_)
  rw [Nat.add_right_comm, Nat.add_assoc]

/-- The inode loses its indirect block, and the blocks in it. -/
theorem Account.drop_indirect (h : Account sb T D bit 0) (hx : (T x).type ≠ .free) {a : Nat}
    (ha : (T x).addrs NDIRECT = a) (ha' : a ≠ 0) :
    Account sb (update T x { T x with addrs := update (T x).addrs NDIRECT 0 }) D bit
      (a ::ₘ named (D a) 0) := by
  refine h.change (h.lt_ninodes hx) (fun _ _ => rfl) ?_
  have hslots : targets NSLOT ((T x).slot D) =
      targets NDIRECT ((T x).slot D) + named (D a) 0 + {a} := by
    have hsplit : NSLOT = NDIRECT + NINDIRECT + 1 := rfl
    have hlast : (T x).slot D (NDIRECT + NINDIRECT) = some a := by
      have := slot_indirect (T x) D
      rw [ha, ptr, if_neg ha'] at this
      exact this
    unfold targets named
    rw [hsplit, Finset.sum_range_succ, Finset.sum_range_add, hlast, target_some]
    refine congrArg (_ + · + _) (Finset.sum_congr rfl fun i hi => ?_)
    have hlt := Finset.mem_range.1 hi
    rw [slot_word (by omega) (by unfold MAXFILE; omega) (by rwa [ha]), ha, Nat.add_sub_cancel_left,
      Nat.zero_add]
  have hclear : targets NSLOT (Dinode.slot D { T x with addrs := update (T x).addrs NDIRECT 0 }) =
      targets NDIRECT ((T x).slot D) := by
    have hsplit : NSLOT = NDIRECT + (NINDIRECT + 1) := rfl
    rw [slot_clear_indirect]
    unfold targets
    rw [hsplit, Finset.sum_range_add]
    have hfirst : ∑ i ∈ Finset.range NDIRECT, target (if i < NDIRECT then (T x).slot D i else none) =
        ∑ i ∈ Finset.range NDIRECT, target ((T x).slot D i) :=
      Finset.sum_congr rfl fun i hi => by rw [if_pos (Finset.mem_range.1 hi)]
    have hrest : ∑ i ∈ Finset.range (NINDIRECT + 1),
        target (if NDIRECT + i < NDIRECT then (T x).slot D (NDIRECT + i) else none) = 0 :=
      Finset.sum_eq_zero fun i _ => by rw [if_neg (by omega), target_none]
    rw [hfirst, hrest, add_zero]
  have hd' : (update T x { T x with addrs := update (T x).addrs NDIRECT 0 } x).type ≠
      .free := by rwa [update_self]
  rw [slots_alloc hd', slots_alloc hx, update_self, hclear, hslots, ← Multiset.singleton_add]
  abel

/-! ## The loops -/

/-- Blocks of the inode have been given back. -/
structure Emptied (sb : Superblock) (ip : Ino) (s s' : State) : Prop where
  inside : Inside ip s s'
  data : s'.data = s.data
  account : Account sb (s'.table ip) s'.data s'.bit 0
  zeros : ∀ k, (s.inode ip).copy.addrs k = 0 → (s'.inode ip).copy.addrs k = 0
  logs : Logs (IsBit sb) s.ops s'.ops

theorem Emptied.refl (h : Account sb (s.table ip) s.data s.bit 0) : Emptied sb ip s s :=
  ⟨.refl ip s, rfl, h, fun _ hk => hk, .refl _ _⟩

theorem Emptied.trans (h : Emptied sb ip s s1) (h' : Emptied sb ip s1 s2) : Emptied sb ip s s2 :=
  ⟨h.inside.trans h'.inside, h'.data.trans h.data, h'.account, fun k hk => h'.zeros k (h.zeros k hk),
    h.logs.trans h'.logs⟩

theorem Emptied.type (h : Emptied sb ip s s') (htype : (s.inode ip).copy.type ≠ .free) :
    (s'.inode ip).copy.type ≠ .free := by
  obtain ⟨A, hA, -⟩ := h.inside.copy
  rwa [hA]

theorem bfree_wp_lt {b : Nat} (h : Account sb T s.data s.bit (b ::ₘ held)) :
    wp E (bfree b) (fun _ s' =>
      s' = { s with bit := update s.bit b false
                    ops := s.ops.modifyHead (.bitmap (b / BPB) :: ·) } ∧
      Logs (IsBit sb) s.ops s'.ops ∧ Account sb T s'.data s'.bit held) s := by
  have hlt := (h.marked.of_mem (Multiset.mem_add.2 (.inr (Multiset.mem_cons_self b held)))).1
  refine wp_mono (bfree_wp h) ?_
  rintro _ s1 ⟨hs1, h1⟩
  refine ⟨hs1, ?_, h1⟩
  rw [hs1]
  exact (Logs.refl _ _).write ⟨b, hlt, rfl⟩

theorem Emptied.clear (hinode : s'.inode = update s.inode ip
      ((s.inode ip).withAddrs (update (s.inode ip).copy.addrs k 0)))
    (hdinode : s'.dinode = s.dinode) (hdata : s'.data = s.data) (hinput : s'.input = s.input)
    (hbegun : s'.begun = s.begun) (hended : s'.ended = s.ended) (hlogs : Logs (IsBit sb) s.ops s'.ops)
    (h : Account sb (update (s.table ip) (s.inode ip).inum
      { (s.inode ip).copy with addrs := update (s.inode ip).copy.addrs k 0 }) s'.data s'.bit 0) :
    Emptied sb ip s s' ∧ (s'.inode ip).copy.addrs k = 0 := by
  have hself : s'.inode ip = (s.inode ip).withAddrs (update (s.inode ip).copy.addrs k 0) := by
    rw [hinode, update_self]
  have hinside : Inside ip s s' := ⟨hdinode, hinput, hbegun, hended, _, hinode⟩
  refine ⟨⟨hinside, hdata, ?_, fun l hl => ?_, hlogs⟩, ?_⟩
  · rw [hinside.table, hself]
    exact h
  · rw [hself]
    show update (s.inode ip).copy.addrs k 0 l = 0
    by_cases hlk : l = k
    · rw [hlk, update_self]
    · rw [update_of_ne hlk, hl]
  · rw [hself]
    exact update_self ..

theorem truncDirect_wp (n : Nat) : ∀ {i : Nat} {s : State}, i + n = NDIRECT →
    (s.inode ip).copy.type ≠ .free → Account sb (s.table ip) s.data s.bit 0 →
    wp E (truncDirect ip n i) (fun _ s' => Emptied sb ip s s' ∧
      ∀ k, i ≤ k → k < NDIRECT → (s'.inode ip).copy.addrs k = 0) s := by
  induction n with
  | zero =>
    intro i s hi _ h
    exact ⟨.refl h, fun k hk hlt => by omega⟩
  | succ n ih =>
    intro i s hi htype h
    have hlt : i < NDIRECT := by omega
    -- once the number `i` is 0, the other turns leave it so
    have hrest : ∀ {s1 : State}, Emptied sb ip s s1 → (s1.inode ip).copy.addrs i = 0 →
        wp E (truncDirect ip n (i + 1)) (fun _ s' => Emptied sb ip s s' ∧
          ∀ k, i ≤ k → k < NDIRECT → (s'.inode ip).copy.addrs k = 0) s1 := by
      intro s1 h1 hzero
      refine wp_mono (ih (by omega) (h1.type htype) h1.account) ?_
      rintro _ s2 ⟨h2, hzeros⟩
      refine ⟨h1.trans h2, fun k hk hlt' => ?_⟩
      rcases Nat.eq_or_lt_of_le hk with rfl | hk
      · exact h2.zeros _ hzero
      · exact hzeros k hk hlt'
    unfold truncDirect
    simp only [wp_bind, wp_get]
    refine wp_ite.2 ⟨fun hzero => hrest (.refl h) hzero, fun hne => ?_⟩
    have htable := table_self s ip
    have hslot : (s.table ip (s.inode ip).inum).slot s.data i = some ((s.inode ip).copy.addrs i) := by
      rw [htable, slot_direct hlt, ptr_eq_some]
      exact ⟨rfl, hne⟩
    have hheld := h.unstore (x := (s.inode ip).inum)
      (d := { (s.inode ip).copy with addrs := update (s.inode ip).copy.addrs i 0 })
      (by rwa [htable]) htype (hlt.trans (by decide)) hslot
      (by rw [htable, slot_set_addr _ _ hlt, ptr_zero])
    refine wp_seq (bfree_wp_lt hheld) ?_
    rintro _ s1 ⟨hs1, hlogs, h1⟩
    rw [hs1] at hlogs h1 ⊢
    obtain ⟨s2, hs2⟩ : ∃ s2 : State, s2 = { s with
        bit := update s.bit ((s.inode ip).copy.addrs i) false
        ops := s.ops.modifyHead (.bitmap ((s.inode ip).copy.addrs i / BPB) :: ·)
        inode := update s.inode ip
          ((s.inode ip).withAddrs (update (s.inode ip).copy.addrs i 0)) } := ⟨_, rfl⟩
    have hclear : Emptied sb ip s s2 ∧ (s2.inode ip).copy.addrs i = 0 := by
      rw [hs2]
      exact Emptied.clear rfl rfl rfl rfl rfl rfl hlogs h1
    rw [hs2] at hclear
    exact hrest hclear.1 hclear.2

/-- The loop over the indirect block: all that it names is held, and given back in order. -/
theorem truncIndirect_wp {a : Nat} {f : Nat → UInt8} (n : Nat) : ∀ {j : Nat} {s : State},
    j + n = NINDIRECT → s.data a = f → Account sb T s.data s.bit (named f j + held) →
    wp E (truncIndirect a n j) (fun _ s' => (∃ bit o, s' = { s with bit := bit, ops := o }) ∧
      Logs (IsBit sb) s.ops s'.ops ∧ Account sb T s'.data s'.bit held) s := by
  induction n with
  | zero =>
    intro j s hj _ h
    obtain rfl : j = NINDIRECT := by omega
    rw [named_end, zero_add] at h
    exact ⟨⟨s.bit, s.ops, rfl⟩, .refl _ _, h⟩
  | succ n ih =>
    intro j s hj hf h
    rw [named_succ f (by omega), add_assoc] at h
    unfold truncIndirect
    simp only [wp_bind, wp_get, hf]
    refine wp_ite.2 ⟨fun hzero => ?_, fun hne => ?_⟩
    · rw [hzero, ptr_zero, target_none, zero_add] at h
      exact ih (by omega) hf h
    · have hptr : ptr (word f j) = some (word f j) := ptr_eq_some.2 ⟨rfl, hne⟩
      rw [hptr, target_some, Multiset.singleton_add] at h
      refine wp_seq (bfree_wp_lt h) ?_
      rintro _ s1 ⟨hs1, hlogs, h1⟩
      refine wp_mono (ih (by omega) (by rw [hs1]; exact hf) h1) ?_
      rintro _ s2 ⟨⟨bit, o, rfl⟩, hlogs', h2⟩
      refine ⟨⟨bit, o, ?_⟩, hlogs.trans hlogs', h2⟩
      rw [hs1]

theorem truncLast_wp (htype : (s.inode ip).copy.type ≠ .free)
    (h : Account sb (s.table ip) s.data s.bit 0) :
    wp E (truncLast ip) (fun _ s' => Emptied sb ip s s' ∧ (s'.inode ip).copy.addrs NDIRECT = 0) s := by
  unfold truncLast
  simp only [wp_bind, wp_get]
  refine wp_ite.2 ⟨fun hzero => ⟨.refl h, hzero⟩, fun hne => ?_⟩
  have htable := table_self s ip
  obtain ⟨a, ha⟩ : ∃ a, a = (s.inode ip).copy.addrs NDIRECT := ⟨_, rfl⟩
  rw [← ha] at hne ⊢
  have hheld := h.drop_indirect (x := (s.inode ip).inum) (by rwa [htable]) (by rw [htable, ha]) hne
  rw [htable, ← Multiset.singleton_add, add_comm] at hheld
  refine wp_seq (truncIndirect_wp NINDIRECT (Nat.zero_add _) rfl hheld) ?_
  rintro _ s1 ⟨⟨bit, o, hs1⟩, hlogs, h1⟩
  rw [← Multiset.cons_zero] at h1
  refine wp_seq (bfree_wp_lt h1) ?_
  rintro _ s2 ⟨hs2, hlogs', h2⟩
  have hs2' : s2.inode = s.inode ∧ s2.dinode = s.dinode ∧ s2.data = s.data ∧ s2.input = s.input ∧
      s2.begun = s.begun ∧ s2.ended = s.ended := by
    rw [hs2, hs1]
    exact ⟨rfl, rfl, rfl, rfl, rfl, rfl⟩
  obtain ⟨hinode, hdinode, hdata, hinput, hbegun, hended⟩ := hs2'
  refine Emptied.clear ?_ hdinode hdata hinput hbegun hended (hlogs.trans hlogs') h2
  simp only [hinode]
  rfl

/-! ## `itrunc` and `iput` -/

/-- `iput` frees the inode: this was the last reference, and there are no links. -/
def LastPut (s : State) (ip : Ino) : Prop :=
  (s.inode ip).valid = true ∧ (s.inode ip).copy.nlink = 0 ∧ (s.inode ip).ref = 1

/-- The inode has been freed, in the cache and on the disk. -/
structure Freed (sb : Superblock) (ip : Ino) (s s' : State) : Prop where
  dinode : ∃ d, s'.dinode = update s.dinode (s.inode ip).inum d ∧ d.type = .free
  data : s'.data = s.data
  account : Account sb s'.dinode s'.data s'.bit 0
  inode : ∃ c, s'.inode = update s.inode ip { s.inode ip with valid := false, copy := c }
  input : s'.input = s.input
  begun : s'.begun = s.begun
  ended : s'.ended = s.ended
  logs : Logs (fun b => IsBit sb b ∨ b = .inodes ((s.inode ip).inum / IPB)) s.ops s'.ops

theorem Account.clear (h : Account sb T D bit 0) (hx : (T x).type ≠ .free)
    (haddrs : ∀ k ≤ NDIRECT, (T x).addrs k = 0) (hd : d.type = .free) :
    Account sb (update T x d) D bit 0 := by
  refine h.change (h.lt_ninodes hx) (fun _ _ => rfl) ?_
  have hnone : (T x).slot D = fun _ => none := funext (slot_of_no_addrs haddrs D)
  rw [slots_free (by rwa [update_self]), slots_alloc hx, hnone]

theorem ifree_wp (h : Good sb s) (href : 0 < (s.inode ip).ref) :
    wp E (ifree ip) (fun _ s' => LastPut s ip ∧ Freed sb ip s s' ∨ ¬ LastPut s ip ∧ s' = s) s := by
  unfold ifree
  simp only [wp_bind, wp_get]
  refine wp_ite.2 ⟨fun hfree => ?_, fun hfree => .inr ⟨hfree, rfl⟩⟩
  obtain ⟨hcopy, htype⟩ := h.copies ip href hfree.1
  have haccount : Account sb (s.table ip) s.data s.bit 0 := by
    rw [h.table href hfree.1]
    exact h.account
  unfold itrunc
  simp only [wp_bind]
  refine wp_mono (truncDirect_wp NDIRECT (Nat.zero_add _) htype haccount) ?_
  rintro _ s1 ⟨h1, hzeros1⟩
  refine wp_mono (truncLast_wp (h1.type htype) h1.account) ?_
  rintro _ s2 ⟨h2, hzero2⟩
  have h12 := h1.trans h2
  have hzeros : ∀ k ≤ NDIRECT, (s2.inode ip).copy.addrs k = 0 := by
    intro k hk
    rcases Nat.eq_or_lt_of_le hk with rfl | hk
    · exact hzero2
    · exact h2.zeros k (hzeros1 k (Nat.zero_le k) hk)
  obtain ⟨A, -, hinum⟩ := h12.inside.copy
  obtain ⟨B, hB⟩ := h12.inside.inode
  simp only [modCopy, modInode, iupdate, log_write, wp_bind, wp_get, wp_set, wp_modify,
    update_self, update_idem]
  refine .inl ⟨hfree, ⟨{ (s2.inode ip).copy with size := 0, type := .free }, ?_, rfl⟩, h12.data, ?_,
    ⟨{ (s2.inode ip).copy with size := 0, type := .free }, ?_⟩, h12.inside.input, h12.inside.begun,
    h12.inside.ended, ?_⟩
  · rw [h12.inside.dinode, hinum]
  · have hlast := h12.account.clear (x := (s2.inode ip).inum)
      (d := { (s2.inode ip).copy with size := 0, type := .free })
      (by rw [table_self]; exact h12.type htype) (by rwa [table_self]) rfl
    unfold State.table at hlast
    rwa [update_idem] at hlast
  · rw [hB, update_idem, update_self]
    rfl
  · rw [hinum]
    have hlogs := h12.logs.mono fun b hb => Or.inl (b := b = .inodes ((s.inode ip).inum / IPB)) hb
    exact (hlogs.write (.inr rfl)).write (.inr rfl)

theorem Freed.good (h : Good sb s) (href : 0 < (s.inode ip).ref) (hfreed : Freed sb ip s s') :
    Good sb s' := by
  obtain ⟨d, hdinode, hd⟩ := hfreed.dinode
  obtain ⟨c, hinode⟩ := hfreed.inode
  have hself : s'.inode ip = { s.inode ip with valid := false, copy := c } := by
    rw [hinode, update_self]
  have hne : ∀ i ≠ ip, s'.inode i = s.inode i := fun i hi => by rw [hinode, update_of_ne hi]
  have hold : ∀ y, (s'.dinode y).type ≠ .free → y ≠ (s.inode ip).inum := by
    rintro y hy rfl
    rw [hdinode, update_self] at hy
    exact hy hd
  have hsame : ∀ y ≠ (s.inode ip).inum, s'.dinode y = s.dinode y := fun y hy => by
    rw [hdinode, update_of_ne hy]
  -- the entry may not be valid any more, but it is in use for the same inode
  have hentry : Good sb (s.setInode ip { s.inode ip with valid := false, copy := c }) :=
    h.sameInode id rfl rfl nofun
  refine ⟨hfreed.account, fun y hy => ?_, fun y hy => ?_, ?_, ?_, fun i hi hv => ?_⟩
  · have hyx := hold y hy
    rw [hsame y hyx] at hy ⊢
    exact h.small y hy
  · have hyx := hold y hy
    rw [hsame y hyx] at hy ⊢
    rw [hfreed.data]
    exact h.backed y hy
  · rw [hinode]
    exact hentry.dev
  · rw [hinode]
    exact hentry.unique
  · by_cases hip : i = ip
    · rw [hip, hself] at hv
      cases hv
    · rw [hne i hip] at hi hv ⊢
      rw [hsame _ fun heq => hip (h.unique i ip hi href heq)]
      exact h.copies i hi hv

/-- A reference has been given back. -/
structure Put (sb : Superblock) (ip : Ino) (s s' : State) : Prop where
  good : Good sb s'
  unlocked : (s.inode ip).lock = false
  inode : ∃ v c, s'.inode = update s.inode ip
    { s.inode ip with ref := (s.inode ip).ref - 1, valid := v, copy := c }
  data : s'.data = s.data
  dinode : s'.dinode = s.dinode ∨
    ∃ d, s'.dinode = update s.dinode (s.inode ip).inum d ∧ d.type = .free
  input : s'.input = s.input
  begun : s'.begun = s.begun
  ended : s'.ended = s.ended
  logs : Logs (fun b => IsBit sb b ∨ b = .inodes ((s.inode ip).inum / IPB)) s.ops s'.ops
  last : LastPut s ip → (s'.dinode (s.inode ip).inum).type = .free
  same : ¬ LastPut s ip → s'.dinode = s.dinode ∧ s'.ops = s.ops ∧
    (s'.inode ip).valid = (s.inode ip).valid

theorem Good.put {v : Bool} {c : Dinode} (hlock : (s.inode ip).lock = false) (h : Good sb s1)
    (href : 0 < (s.inode ip).ref)
    (hinode : s1.inode = update s.inode ip
      { s.inode ip with lock := true, valid := v, copy := c })
    (hdata : s1.data = s.data) (hdinode : s1.dinode = s.dinode ∨
      ∃ d, s1.dinode = update s.dinode (s.inode ip).inum d ∧ d.type = .free)
    (hinput : s1.input = s.input) (hbegun : s1.begun = s.begun) (hended : s1.ended = s.ended)
    (hlogs : Logs (fun b => IsBit sb b ∨ b = .inodes ((s.inode ip).inum / IPB)) s.ops s1.ops)
    (hlast : LastPut s ip → (s1.dinode (s.inode ip).inum).type = .free)
    (hsame : ¬ LastPut s ip → s1.dinode = s.dinode ∧ s1.ops = s.ops ∧ v = (s.inode ip).valid) :
    Put sb ip s (s1.setInode ip { s1.inode ip with lock := false, ref := (s1.inode ip).ref - 1 }) := by
  have hself : s1.inode ip = { s.inode ip with lock := true, valid := v, copy := c } := by
    rw [hinode, update_self]
  have href1 : 0 < (s1.inode ip).ref := by rwa [hself]
  refine ⟨h.sameInode (fun _ => href1) rfl rfl fun _ => h.copies ip href1, hlock, ⟨v, c, ?_⟩, hdata, hdinode,
    hinput, hbegun, hended, hlogs, hlast, fun hno => ?_⟩
  · rw [State.setInode, hself, hinode, update_idem, ← hlock]
  · obtain ⟨hdisk, hops, hv⟩ := hsame hno
    rw [setInode_self, hself]
    exact ⟨hdisk, hops, hv⟩

theorem Good.iput_wp (h : Good sb s) (href : 0 < (s.inode ip).ref)
    (hlock : (s.inode ip).lock = true → E .deadlock) :
    wp E (iput ip) (fun _ s' => Put sb ip s s') s := by
  unfold iput acquiresleep
  simp only [wp_bind, wp_get]
  refine wp_ite.2 ⟨hlock, fun hfree => ?_⟩
  have hunlocked : (s.inode ip).lock = false := by simpa using hfree
  obtain ⟨s1, hs1⟩ : ∃ s1, s1 = s.setInode ip { s.inode ip with lock := true } := ⟨_, rfl⟩
  have hself : s1.inode ip = { s.inode ip with lock := true } := by
    rw [hs1]
    exact update_self ..
  have h1 : Good sb s1 := by
    rw [hs1]
    exact h.sameInode id rfl rfl (h.copies ip)
  simp only [modInode, wp_modify]
  change wp E (ifree ip) _ (s.setInode ip { s.inode ip with lock := true })
  rw [← hs1]
  have href1 : 0 < (s1.inode ip).ref := by rwa [hself]
  have hlast : LastPut s1 ip ↔ LastPut s ip := by
    unfold LastPut
    rw [hself]
  refine wp_mono (ifree_wp h1 href1) ?_
  intro _ s2 h2
  simp only [releasesleep, modInode, wp_modify, update_self, update_idem]
  rcases h2 with ⟨hyes, hfreed⟩ | ⟨hno, rfl⟩
  · have h2 := hfreed.good h1 href1
    obtain ⟨hdinode, hdata, -, ⟨c, hc⟩, hinput, hbegun, hended, hlogs⟩ := hfreed
    rw [hself] at hc hlogs hdinode
    rw [hs1] at hc hdata hdinode hinput hbegun hended hlogs
    refine Good.put (v := false) (c := c) hunlocked h2 href ?_ hdata (.inr hdinode) hinput hbegun hended hlogs
      (fun _ => ?_) fun hno => absurd (hlast.1 hyes) hno
    · rw [hc, State.setInode, update_idem]
    · obtain ⟨d, hd, hfree⟩ := hdinode
      rw [hd]
      simpa using hfree
  · refine Good.put (v := (s.inode ip).valid) (c := (s.inode ip).copy) hunlocked h1 href ?_ ?_ ?_ ?_ ?_ ?_ ?_
      (fun hyes => absurd (hlast.2 hyes) hno) ?_
    all_goals rw [hs1]
    · rfl
    · rfl
    · exact .inl rfl
    · rfl
    · rfl
    · rfl
    · exact .refl _ _
    · exact fun _ => ⟨rfl, rfl, rfl⟩

end Laboratorio.Xv6.Fs
