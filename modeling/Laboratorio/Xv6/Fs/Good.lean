import Laboratorio.Xv6.Fs.Dir
import Laboratorio.Xv6.Fs.Files

/-!
# Well-formed file systems

`Good` holds between the functions that work on inodes: the blocks of the allocated inodes are
accounted for, every file has blocks for all of its bytes, and what is in the cache is what is on the
disk.  A write leaves the file system well-formed, since `writei` writes the inode back whenever the
file has become longer, and takes no blocks otherwise.
-/

namespace Laboratorio.Xv6.Fs

open Laboratorio.Lib Bytes TwoLevel Ledger Function

structure Good (sb : Superblock) (s : State) : Prop where
  account : Account sb s.dinode s.data s.bit 0
  small : ∀ x, (s.dinode x).type ≠ .free → (s.dinode x).size ≤ MAXFILE * BSIZE
  backed : ∀ x, (s.dinode x).type ≠ .free → Backed s.data (s.dinode x) (s.dinode x).size
  dev : ∀ i, 0 < (s.inode i).ref → (s.inode i).dev = ROOTDEV
  unique : ∀ i j, 0 < (s.inode i).ref → 0 < (s.inode j).ref → (s.inode i).inum = (s.inode j).inum → i = j
  copies : ∀ i, 0 < (s.inode i).ref → (s.inode i).valid = true →
    (s.inode i).copy = s.dinode (s.inode i).inum ∧ (s.inode i).copy.type ≠ .free

variable {sb : Superblock} {T : Nat → Dinode} {s s1 s' : State} {ip : Ino} {n : Nat} {E : Panic → Prop}

/-- The inode on the disk of an entry of the cache. -/
def State.file (s : State) (ip : Ino) : Dinode := s.dinode (s.inode ip).inum

theorem Good.congr (h : Good sb s) (hdinode : s'.dinode = s.dinode) (hdata : s'.data = s.data)
    (hbit : s'.bit = s.bit) (hinode : s'.inode = s.inode) : Good sb s' := by
  refine ⟨?_, ?_, ?_, ?_, ?_, ?_⟩
  · rw [hdinode, hdata, hbit]
    exact h.account
  · rw [hdinode]
    exact h.small
  · rw [hdinode, hdata]
    exact h.backed
  · rw [hinode]
    exact h.dev
  · rw [hinode]
    exact h.unique
  · rw [hinode, hdinode]
    exact h.copies

/-- An entry changes.  If it is in use then, no other one is for the same inode. -/
theorem Good.setInode (h : Good sb s) {i : Inode} (hdev : 0 < i.ref → i.dev = ROOTDEV)
    (hnew : 0 < i.ref → ∀ j ≠ ip, 0 < (s.inode j).ref → (s.inode j).inum ≠ i.inum)
    (hcopy : 0 < i.ref → i.valid = true → i.copy = s.dinode i.inum ∧ i.copy.type ≠ .free) :
    Good sb (s.setInode ip i) := by
  have hself := setInode_self s ip i
  have hne : ∀ j ≠ ip, (s.setInode ip i).inode j = s.inode j := fun j hj => setInode_of_ne s i hj
  refine ⟨h.account, h.small, h.backed, fun j hj => ?_, fun j k hj hk hjk => ?_, fun j hj hv => ?_⟩
  · by_cases hjp : j = ip
    · subst hjp
      rw [hself] at hj ⊢
      exact hdev hj
    · rw [hne j hjp] at hj ⊢
      exact h.dev j hj
  · by_cases hjp : j = ip
    · by_cases hkp : k = ip
      · rw [hjp, hkp]
      · rw [hjp, hself] at hj hjk
        rw [hne k hkp] at hk hjk
        exact absurd hjk.symm (hnew hj k hkp hk)
    · by_cases hkp : k = ip
      · rw [hkp, hself] at hk hjk
        rw [hne j hjp] at hj hjk
        exact absurd hjk (hnew hk j hjp hj)
      · rw [hne j hjp] at hj hjk
        rw [hne k hkp] at hk hjk
        exact h.unique j k hj hk hjk
  · by_cases hjp : j = ip
    · subst hjp
      rw [hself] at hj hv ⊢
      exact hcopy hj hv
    · rw [hne j hjp] at hj hv ⊢
      exact h.copies j hj hv

theorem Good.sameInode (h : Good sb s) {i : Inode} (href : 0 < i.ref → 0 < (s.inode ip).ref)
    (hdev : i.dev = (s.inode ip).dev) (hinum : i.inum = (s.inode ip).inum)
    (hcopy : 0 < i.ref → i.valid = true → i.copy = s.dinode i.inum ∧ i.copy.type ≠ .free) :
    Good sb (s.setInode ip i) := by
  refine h.setInode (fun hi => ?_) (fun hi j hj hlive heq => ?_) hcopy
  · rw [hdev]
    exact h.dev ip (href hi)
  · rw [hinum] at heq
    exact hj (h.unique j ip hlive (href hi) heq)

/-! ## Locks -/

/-- The state with this inode locked. -/
def State.locked (s : State) (ip : Ino) : State :=
  s.setInode ip { s.inode ip with lock := true, copy := s.file ip, valid := true }

theorem locked_inode (s : State) (ip : Ino) : (s.locked ip).inode ip =
    { s.inode ip with lock := true, copy := s.file ip, valid := true } := update_self ..

@[simp] theorem locked_file (s : State) (ip : Ino) : (s.locked ip).file ip = s.file ip := by
  show s.dinode ((s.locked ip).inode ip).inum = s.dinode (s.inode ip).inum
  rw [locked_inode]

/-- The state with this inode unlocked. -/
def State.unlocked (s : State) (ip : Ino) : State := s.setInode ip { s.inode ip with lock := false }

theorem iunlock_ok (href : 0 < (s.inode ip).ref) (hlock : (s.inode ip).lock = true) :
    wp E (iunlock ip) (fun _ s' => s' = s.unlocked ip) s := by
  have hnot : ¬ ((s.inode ip).lock = false ∨ (s.inode ip).ref < 1) := by
    rintro (hfree | hdead)
    · simp [hlock] at hfree
    · omega
  rw [iunlock_wp, if_neg hnot]
  rfl

theorem Good.unlocked (h : Good sb s) : Good sb (s.unlocked ip) :=
  h.sameInode id rfl rfl (h.copies ip)

theorem Good.ilock_wp (h : Good sb s) (href : 0 < (s.inode ip).ref) (hlock : (s.inode ip).lock = false)
    (htype : (s.file ip).type ≠ .free) : wp E (ilock ip) (fun _ s' => s' = s.locked ip) s := by
  rw [Fs.ilock_wp, if_neg (by omega), if_neg (by simp [hlock])]
  split
  · rename_i hvalid
    unfold State.locked State.file
    rw [← (h.copies ip href hvalid).1, ← hvalid]
  · rw [if_neg (by exact htype)]
    rfl

theorem Good.locked (h : Good sb s) (href : 0 < (s.inode ip).ref) (htype : (s.file ip).type ≠ .free) :
    Good sb (s.locked ip) :=
  h.sameInode (fun _ => href) rfl rfl fun _ _ => ⟨rfl, htype⟩

/-! ## `readi` -/

theorem Good.table (h : Good sb s) (href : 0 < (s.inode ip).ref) (hvalid : (s.inode ip).valid = true) :
    s.table ip = s.dinode := by
  rw [State.table, (h.copies ip href hvalid).1, update_eq_self]

theorem Good.readi_wp (h : Good sb s) (href : 0 < (s.inode ip).ref) (hvalid : (s.inode ip).valid = true)
    (hdev : (s.file ip).type ≠ .T_DEV) (off : Nat) (hoff : off ≤ (s.file ip).size)
    (hn : off + n < 2 ^ 32) :
    wp E (readi sb ip off n) (fun r s' =>
      r = some ((((s.file ip).bytes s.data).drop off).take n) ∧ s' = s) s := by
  obtain ⟨hcopy, htype⟩ := h.copies ip href hvalid
  change (s.inode ip).copy = s.file ip at hcopy
  rw [hcopy] at htype
  have hsmall := h.small _ htype
  have hback := h.backed _ htype
  unfold readi
  simp only [wp_bind, wp_get, hcopy]
  rw [if_neg hdev, if_neg (by rw [Nat.mod_eq_of_lt hn]; omega)]
  obtain ⟨m, hm⟩ : ∃ m, m = if off + n > (s.file ip).size then (s.file ip).size - off else n := ⟨_, rfl⟩
  rw [← hm, wp_bind]
  have hm' : off + m ≤ (s.file ip).size ∧ m = min n ((s.file ip).size - off) := by
    split at hm <;> omega
  refine wp_mono (readLoop_wp m le_rfl (hm'.1.trans hsmall) ?_) ?_
  · rw [hcopy]
    intro k hk
    exact hback k (hk.trans_le hm'.1)
  · rintro r s1 ⟨rfl, hs⟩
    refine ⟨?_, hs⟩
    rw [hcopy, Dinode.bytes, drop_slice, Nat.zero_add]
    by_cases hle : n ≤ (s.file ip).size - off
    · rw [take_slice _ _ hle, hm'.2, Nat.min_eq_left hle]
    · rw [List.take_of_length_le (by rw [length_slice]; omega), hm'.2, Nat.min_eq_right (by omega)]

/-! ## `writei` -/

/-- The account is about types and block numbers only. -/
theorem Account.congr {D : Data} {bit : Nat → Bool} {held : Multiset Nat} {T' : Nat → Dinode}
    (h : Account sb T D bit held) (hT : ∀ x, (T' x).type = (T x).type ∧ (T' x).addrs = (T x).addrs) :
    Account sb T' D bit held := by
  have hslots : slots T' D = slots T D := by
    funext x k
    unfold slots Dinode.slot
    rw [(hT x).1, (hT x).2]
  have hblocks : blocks sb T' D = blocks sb T D := by
    unfold blocks
    rw [hslots]
  refine ⟨?_, fun x hx => ?_⟩
  · rw [hblocks]
    exact h.marked
  · rw [(hT x).1]
    exact h.beyond x hx

theorem Good.store (h : Good sb s) (href : 0 < (s.inode ip).ref) {c : Dinode}
    (hdinode : s'.dinode = update s.dinode (s.inode ip).inum c)
    (hinode : s'.inode = update s.inode ip { s.inode ip with copy := c })
    (haccount : Account sb s'.dinode s'.data s'.bit 0) (htype : c.type ≠ .free)
    (hsmall : c.size ≤ MAXFILE * BSIZE) (hback : Backed s'.data c c.size)
    (hkept : ∀ y ≠ (s.inode ip).inum, (s.dinode y).type ≠ .free →
      Kept s.data (s.dinode y) s'.data (s.dinode y)) : Good sb s' := by
  have hself : s'.inode ip = { s.inode ip with copy := c } := by rw [hinode, update_self]
  have hne : ∀ i ≠ ip, s'.inode i = s.inode i := fun i hi => by rw [hinode, update_of_ne hi]
  have hkey : ∀ i, (s'.inode i).ref = (s.inode i).ref ∧ (s'.inode i).dev = (s.inode i).dev ∧
      (s'.inode i).inum = (s.inode i).inum := by
    intro i
    by_cases hi : i = ip
    · subst hi
      rw [hself]
      exact ⟨rfl, rfl, rfl⟩
    · rw [hne i hi]
      exact ⟨rfl, rfl, rfl⟩
  refine ⟨haccount, fun y hy => ?_, fun y hy => ?_, fun i hi => ?_, fun i j hi hj hij => ?_,
    fun i hi hv => ?_⟩
  · rw [hdinode] at hy ⊢
    by_cases hyx : y = (s.inode ip).inum
    · rwa [hyx, update_self]
    · rw [update_of_ne hyx] at hy ⊢
      exact h.small y hy
  · rw [hdinode] at hy ⊢
    by_cases hyx : y = (s.inode ip).inum
    · rwa [hyx, update_self]
    · rw [update_of_ne hyx] at hy ⊢
      exact (hkept y hyx hy).backed (h.backed y hy) (h.small y hy)
  · rw [(hkey i).1] at hi
    rw [(hkey i).2.1]
    exact h.dev i hi
  · rw [(hkey i).1] at hi
    rw [(hkey j).1] at hj
    rw [(hkey i).2.2, (hkey j).2.2] at hij
    exact h.unique i j hi hj hij
  · by_cases hip : i = ip
    · subst hip
      rw [hself, hdinode]
      refine ⟨?_, htype⟩
      dsimp only
      rw [update_self]
    · rw [hne i hip] at hi hv ⊢
      have hinum : (s.inode i).inum ≠ (s.inode ip).inum := fun heq => hip (h.unique i ip hi href heq)
      rw [hdinode, update_of_ne hinum]
      exact h.copies i hi hv

/-- A change to the links or the device of an inode, that is written to the disk at once. -/
structure Stored (ip : Ino) (f : Dinode → Dinode) (s s' : State) : Prop where
  dinode : s'.dinode = update s.dinode (s.inode ip).inum (f (s.file ip))
  inode : s'.inode = update s.inode ip { s.inode ip with copy := f (s.file ip) }
  data : s'.data = s.data
  bit : s'.bit = s.bit
  ops : s'.ops = s.ops.modifyHead (.inodes ((s.inode ip).inum / IPB) :: ·)

theorem Good.store_wp {f : Dinode → Dinode}
    (hf : ∀ c, (f c).type = c.type ∧ (f c).size = c.size ∧ (f c).addrs = c.addrs) (h : Good sb s)
    (href : 0 < (s.inode ip).ref) (hvalid : (s.inode ip).valid = true) :
    wp E (do modCopy ip f; iupdate ip) (fun _ s' => Good sb s' ∧ Stored ip f s s') s := by
  obtain ⟨hcopy, htype⟩ := h.copies ip href hvalid
  change (s.inode ip).copy = s.file ip at hcopy
  obtain ⟨htype', hsize, haddrs⟩ := hf (s.file ip)
  rw [hcopy] at htype
  have hstored : wp E (do modCopy ip f; iupdate ip) (fun _ s' => Stored ip f s s') s := by
    simp only [modCopy, modInode, iupdate, log_write, wp_bind, wp_get, wp_set, wp_modify,
      update_self, hcopy]
    exact ⟨rfl, rfl, rfl, rfl, rfl⟩
  refine wp_mono hstored fun _ s1 h1 => ⟨?_, h1⟩
  have hslot : ∀ T, (f (s.file ip)).slot T = (s.file ip).slot T := by
    intro T
    unfold Dinode.slot
    rw [haddrs]
  refine h.store href h1.dinode h1.inode ?_ ?_ ?_ ?_ fun y _ _ => ?_
  · rw [h1.data, h1.bit]
    refine h.account.congr fun y => ?_
    rw [h1.dinode]
    by_cases hy : y = (s.inode ip).inum
    · rw [hy, update_self]
      exact ⟨htype', haddrs⟩
    · rw [update_of_ne hy]
      exact ⟨rfl, rfl⟩
  · rwa [htype']
  · rw [hsize]
    exact h.small _ htype
  · rw [hsize, h1.data]
    intro k hk
    rw [hslot]
    exact h.backed _ htype k hk
  · rw [h1.data]
    exact .refl _ _

/-- The file of `ip`, of at most `n` bytes, has been written to at `off`. -/
structure Wrote (sb : Superblock) (ip : Ino) (n off : Nat) (src : List UInt8) (s s' : State) : Prop where
  good : Good sb s'
  dinode : ∃ A, s'.dinode = update s.dinode (s.inode ip).inum
    { s.file ip with size := max (s.file ip).size (off + src.length), addrs := A }
  inode : s'.inode = update s.inode ip { s.inode ip with copy := s'.dinode (s.inode ip).inum }
  input : s'.input = s.input
  begun : s'.begun = s.begun
  ended : s'.ended = s.ended
  others : ∀ y ≠ (s.inode ip).inum, (s.dinode y).type ≠ .free →
    Kept s.data (s.dinode y) s'.data (s.dinode y)
  bytes : (s'.dinode (s.inode ip).inum).bytes s'.data = put ((s.file ip).bytes s.data) off src
  balance : freeBlocks sb s'.bit + (needs s.data (s.file ip) n).card =
    freeBlocks sb s.bit + (needs s'.data (s'.dinode (s.inode ip).inum) n).card
  logs : Logs (fun b => Touched sb (Spanned off src.length) s'.data (s'.dinode (s.inode ip).inum) b ∨
    b = .inodes ((s.inode ip).inum / IPB)) s.ops s'.ops

/-- The loop of `writei` has run, and the inode is written back if the file has become longer. -/
theorem Written.wrote {off : Nat} {src : List UInt8} (h : Good sb s) (href : 0 < (s.inode ip).ref)
    (hvalid : (s.inode ip).valid = true) (hoff : off ≤ (s.file ip).size)
    (hmax : off + src.length ≤ MAXFILE * BSIZE) (hw : Written sb ip n off src s s1)
    {c : Dinode} (hc : c = { (s1.inode ip).copy with size := max (s.file ip).size (off + src.length) })
    (hdinode : s'.dinode = update s.dinode (s.inode ip).inum c)
    (hinode : s'.inode = update s.inode ip { s.inode ip with copy := c })
    (hdata : s'.data = s1.data) (hbit : s'.bit = s1.bit) (hinput : s'.input = s.input)
    (hbegun : s'.begun = s.begun) (hended : s'.ended = s.ended)
    (hops : Logs (· = .inodes ((s.inode ip).inum / IPB)) s1.ops s'.ops) :
    Wrote sb ip n off src s s' := by
  obtain ⟨hcopy, htype⟩ := h.copies ip href hvalid
  change (s.inode ip).copy = s.file ip at hcopy
  obtain ⟨A, hA, -⟩ := hw.inside.copy
  rw [hcopy] at hA htype
  have hslot : ∀ D : Data, c.slot D = (s1.inode ip).copy.slot D := by
    intro D
    rw [hc]
    rfl
  have hself : s'.dinode (s.inode ip).inum = c := by rw [hdinode, update_self]
  have hsize : c.size = max (s.file ip).size (off + src.length) := by rw [hc]
  have htable : s1.table ip = update s.dinode (s.inode ip).inum (s1.inode ip).copy := by
    rw [hw.inside.table, h.table href hvalid]
  have hsmall := h.small _ htype
  have hback := h.backed _ htype
  have hkept : ∀ y ≠ (s.inode ip).inum, (s.dinode y).type ≠ .free →
      Kept s.data (s.dinode y) s'.data (s.dinode y) := by
    intro y hyx hy
    have hk := hw.others y hyx
    rw [h.table href hvalid, htable, update_of_ne hyx] at hk
    rw [hdata]
    exact hk hy
  have hgood : Good sb s' := by
    refine h.store href hdinode hinode ?_ ?_ ?_ ?_ hkept
    · rw [hdata, hbit]
      refine hw.account.congr fun y => ?_
      rw [hdinode, htable]
      by_cases hyx : y = (s.inode ip).inum
      · rw [hyx, update_self, update_self, hc]
        exact ⟨rfl, rfl⟩
      · rw [update_of_ne hyx, update_of_ne hyx]
        exact ⟨rfl, rfl⟩
    · rw [hc, hA]
      exact htype
    · rw [hsize]
      exact Nat.max_le.2 ⟨hsmall, hmax⟩
    · intro k hk
      rw [hsize] at hk
      rw [hslot, hdata]
      by_cases hold : k * BSIZE < (s.file ip).size
      · obtain ⟨b, hb⟩ := hback k hold
        refine ⟨b, hw.slot k b ?_⟩
        rwa [hcopy]
      · obtain ⟨b, hb⟩ := hw.filled (k * BSIZE) (by omega) (by omega)
        rw [Nat.mul_div_cancel _ (by decide)] at hb
        exact ⟨b, hb⟩
  have hbytes : c.bytes s'.data = Bytes.put ((s.file ip).bytes s.data) off src := by
    have hbyte : ∀ o, c.byte s'.data o = (s1.inode ip).copy.byte s1.data o := by
      intro o
      unfold Dinode.byte
      rw [hslot, hdata]
    unfold Dinode.bytes
    rw [hsize]
    refine slice_put hoff (fun i hi hout => ?_) fun i hi => ?_
    · rw [hbyte, hw.byte i (hi.trans_le hsmall) ?_ hout, hcopy]
      rw [hcopy]
      exact hback.slot hi
    · rw [hbyte]
      exact hw.put i hi
  refine ⟨hgood, ⟨A, ?_⟩, ?_, hinput, hbegun, hended, hkept, ?_, ?_, ?_⟩
  · rw [hdinode, hc, hA]
  · rw [hself, hinode]
  · rw [hself, hbytes]
  · have hneeds : needs s'.data c n = needs s1.data (s1.inode ip).copy n := by
      unfold needs
      rw [hslot, hdata]
    have hbalance := hw.balance
    rw [hcopy] at hbalance
    rwa [hself, hneeds, hbit]
  · rw [hself]
    refine (hw.logs.mono fun b hb => .inl ?_).trans (hops.mono fun b hb => .inr hb)
    refine hb.mono (fun _ hk => hk) fun k d hd => ?_
    rwa [hslot, hdata]

/-- `writei` of a file with room for `n` bytes. -/
theorem Good.writei_wp (h : Good sb s) (href : 0 < (s.inode ip).ref) (hvalid : (s.inode ip).valid = true)
    (hdev : (s.file ip).type ≠ .T_DEV) (off : Nat) {src : List UInt8} (hoff : off ≤ (s.file ip).size)
    (hsrc : off + src.length ≤ n) (hn : n ≤ MAXFILE * BSIZE)
    (hout : freeBlocks sb s.bit < (needs s.data (s.file ip) n).card → E .outOfBlocks) :
    wp E (writei sb ip src off) (fun r s' => r = some src.length ∧ Wrote sb ip n off src s s') s := by
  obtain ⟨hcopy, htype⟩ := h.copies ip href hvalid
  change (s.inode ip).copy = s.file ip at hcopy
  have hM : MAXFILE * BSIZE < 2 ^ 32 := by decide
  have hsmall := h.small (s.inode ip).inum (by rw [hcopy] at htype; exact htype)
  have hback := h.backed (s.inode ip).inum (by rw [hcopy] at htype; exact htype)
  have haccount : Account sb (s.table ip) s.data s.bit 0 := by
    rw [h.table href hvalid]
    exact h.account
  unfold writei
  simp only [wp_bind, wp_get, hcopy]
  rw [if_neg hdev, if_neg (by rw [Nat.mod_eq_of_lt (by omega)]; omega), if_neg (by omega)]
  refine wp_seq (writeLoop_wp hn src.length le_rfl hsrc htype haccount (by rwa [hcopy])) ?_
  intro _ s1 hw
  obtain ⟨A, hA, hinum⟩ := hw.inside.copy
  have hsize : (s1.inode ip).copy.size = (s.file ip).size := by rw [hA, hcopy]
  unfold grow
  simp only [wp_bind, wp_get]
  refine wp_ite.2 ⟨fun hgrow => ?_, fun hgrow => ?_⟩
  · -- the file has become longer, and the inode is written
    obtain ⟨B, hB⟩ := hw.inside.inode
    simp only [modCopy, modInode, iupdate, log_write, wp_bind, wp_get, wp_set, wp_modify, wp_pure,
      update_self]
    have hmax : off + src.length = max (s.file ip).size (off + src.length) := by omega
    refine ⟨trivial, hw.wrote h href hvalid hoff (hsrc.trans hn) rfl ?_ ?_ rfl rfl hw.inside.input
      hw.inside.begun hw.inside.ended ?_⟩
    · simp only [hw.inside.dinode, hinum, ← hmax]
    · simp only [hB, update_idem, update_self, ← hmax]
      rfl
    · rw [hinum]
      exact (Logs.refl _ _).write rfl
  · have hlong : off + src.length ≤ (s.file ip).size := by omega
    have hsame : s1.inode = s.inode := by
      refine hw.same fun o _ ho => ?_
      rw [hcopy]
      exact hback.slot (ho.trans_le hlong)
    have hc : (s.inode ip).copy =
        { (s1.inode ip).copy with size := max (s.file ip).size (off + src.length) } := by
      rw [hsame, Nat.max_eq_left hlong, hcopy]
    refine ⟨rfl, hw.wrote h href hvalid hoff (hsrc.trans hn) hc ?_ ?_ rfl rfl hw.inside.input
      hw.inside.begun hw.inside.ended (.refl _ _)⟩
    · rw [hw.inside.dinode, hcopy]
      exact (update_eq_self ..).symm
    · rw [hsame]
      exact (update_eq_self ..).symm

/-! ## Inodes without blocks, and the disk that `mkfs` makes -/

theorem slot_of_no_addrs {d : Dinode} (h : ∀ k ≤ NDIRECT, d.addrs k = 0) (D : Data) (k : Nat) :
    d.slot D k = none := by
  unfold Dinode.slot
  rw [h NDIRECT le_rfl]
  by_cases hk : k < NDIRECT
  · simp [h k hk.le]
  · simp [hk]

theorem Good.alloc (h : Good sb s) {x : Nat} (hx : x < sb.ninodes) (hfree : (s.dinode x).type = .free)
    {d : Dinode} (htype : d.type ≠ .free) (hsize : d.size = 0) (haddrs : ∀ k, d.addrs k = 0)
    (hdinode : s'.dinode = update s.dinode x d) (hdata : s'.data = s.data) (hbit : s'.bit = s.bit)
    (hinode : s'.inode = s.inode) : Good sb s' := by
  have hne : ∀ y, (s.dinode y).type ≠ .free → y ≠ x := by
    rintro y hy rfl
    exact hy hfree
  refine ⟨?_, fun y hy => ?_, fun y hy => ?_, ?_, ?_, fun i hi hv => ?_⟩
  · rw [hdinode, hdata, hbit]
    refine h.account.change hx (fun _ _ => rfl) ?_
    rw [slots_free hfree, slots_alloc (by rwa [update_self]), update_self]
    exact congrArg (targets NSLOT · + 0) (funext (slot_of_no_addrs (fun k _ => haddrs k) _))
  · rw [hdinode] at hy ⊢
    by_cases hyx : y = x
    · rw [hyx, update_self, hsize]
      exact Nat.zero_le _
    · rw [update_of_ne hyx] at hy ⊢
      exact h.small y hy
  · rw [hdinode, hdata] at *
    by_cases hyx : y = x
    · rw [hyx, update_self, hsize]
      exact fun k hk => absurd hk (Nat.not_lt_zero _)
    · rw [update_of_ne hyx] at hy ⊢
      exact h.backed y hy
  · rw [hinode]
    exact h.dev
  · rw [hinode]
    exact h.unique
  · rw [hinode] at hi hv ⊢
    obtain ⟨hcopy, hctype⟩ := h.copies i hi hv
    rw [hdinode, update_of_ne (hne _ (by rwa [← hcopy]))]
    exact ⟨hcopy, hctype⟩

theorem blocks_mkfs : blocks .mkfs State.mkfs.dinode State.mkfs.data = {Superblock.mkfs.nmeta} := by
  have hother : ∀ x ≠ ROOTINO, targets NSLOT (slots State.mkfs.dinode State.mkfs.data x) = 0 := by
    intro x hx
    have hfree : (State.mkfs.dinode x).type = .free := by
      show (update (fun _ => Dinode.zero) ROOTINO _ x).type = .free
      rw [update_of_ne hx]
      rfl
    rw [slots_free hfree]
    exact targets_eq_zero fun _ _ => rfl
  have hroot : slots State.mkfs.dinode State.mkfs.data ROOTINO =
      update (fun _ => none) 0 (some Superblock.mkfs.nmeta) := by
    have hempty : Dinode.slot State.mkfs.data ⟨.T_DIR, 0, 0, 1, BSIZE, fun _ => 0⟩ = fun _ => none :=
      funext (slot_of_no_addrs (fun _ _ => rfl) _)
    have hslot := slot_set_addr State.mkfs.data ⟨.T_DIR, 0, 0, 1, BSIZE, fun _ => 0⟩
      (k := 0) (by decide) Superblock.mkfs.nmeta
    rw [hempty] at hslot
    exact (slots_alloc (by decide)).trans hslot
  have hsum := targets_update (n := NSLOT) (fun _ => none) (some Superblock.mkfs.nmeta) (i := 0) (by decide)
  rw [targets_eq_zero fun _ _ => rfl, target_none, target_some, add_zero, zero_add] at hsum
  unfold blocks owned
  rw [Finset.sum_eq_single ROOTINO (fun x _ hx => hother x hx) (fun h => absurd (by decide) h), hroot, hsum]

theorem Good.mkfs : Good .mkfs .mkfs := by
  have hroot : ∀ x, (State.mkfs.dinode x).type ≠ .free → x = ROOTINO := by
    intro x hx
    by_contra hne
    refine hx ?_
    show (update (fun _ => Dinode.zero) ROOTINO _ x).type = .free
    rw [update_of_ne hne]
    rfl
  refine ⟨⟨?_, fun x hx => ?_⟩, fun x hx => ?_, fun x hx => ?_, nofun, nofun, nofun⟩
  · rw [blocks_mkfs, add_zero]
    refine marked_iff.2 ⟨Multiset.nodup_singleton _, fun b hb => ?_, fun b hb => ?_, fun b hb => ?_⟩
    · rw [Multiset.mem_singleton.1 hb]
      decide
    · have hmeta : Superblock.mkfs.nmeta < Superblock.mkfs.size := by decide
      exact (Finset.mem_range.1 hb).trans hmeta
    · show decide (b ≤ Superblock.mkfs.nmeta) = true ↔ _
      simp only [decide_eq_true_eq, Finset.mem_range, Multiset.mem_singleton]
      omega
  · by_contra hx'
    rw [hroot x hx'] at hx
    exact absurd hx (by decide)
  · rw [hroot x hx]
    decide
  · rw [hroot x hx]
    intro k hk
    have hsize : (State.mkfs.dinode ROOTINO).size = BSIZE := rfl
    rw [hsize] at hk
    obtain rfl : k = 0 := by
      by_contra h0
      exact absurd hk (Nat.not_lt.2 (Nat.le_mul_of_pos_left BSIZE (Nat.pos_of_ne_zero h0)))
    exact ⟨Superblock.mkfs.nmeta, rfl⟩

/-- The disk that `mkfs` makes, with an empty file as well. -/
def State.mkfsFile : State :=
  { State.mkfs with dinode := update State.mkfs.dinode 2 { Dinode.zero with type := .T_FILE, nlink := 1 } }

theorem Good.mkfsFile : Good .mkfs .mkfsFile :=
  Good.mkfs.alloc (by decide) rfl (by decide) rfl (fun _ => rfl) rfl rfl rfl rfl

end Laboratorio.Xv6.Fs
