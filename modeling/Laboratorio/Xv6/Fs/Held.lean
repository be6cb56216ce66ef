import Laboratorio.Xv6.Fs.Refs
import Laboratorio.Xv6.Fs.Trunc

/-!
# The file system while a call runs

`Held sb L n E s` puts the references and the well-formedness of the file system together with the
locks that the call has: `L`.  There is one rule for each function that works on one inode.  It says
that `Held` is kept, which entries of the cache stay for the same inode, and what has been given to
`log_write`.  `Held.rules` are these rules for the paths and calls of `Xv6/Fs/Rules.lean`.
-/

namespace Laboratorio.Xv6.Fs

open Laboratorio.Lib Bytes TwoLevel Ledger Function

structure Held (sb : Superblock) (L : Multiset Ino) (n : Nat) (E : Multiset Ino) (s : State) : Prop where
  refs : Refs E n s
  good : Good sb s
  nodup : L.Nodup
  lock : ∀ ip ∈ L, ip ∈ E ∧ (s.inode ip).valid = true ∧ (s.inode ip).lock = true

/-- The entries in use stay for the same inodes, and those that have been read stay so. -/
def Names (E : Multiset Ino) (s s' : State) : Prop :=
  ∀ i ∈ E, (s'.inode i).inum = (s.inode i).inum ∧ ((s.inode i).valid = true → (s'.inode i).valid = true)

/-- No inode on the disk has changed but `x`. -/
def OnlyInode (x : Nat) (s s' : State) : Prop := ∀ y ≠ x, s'.dinode y = s.dinode y

/-- Nothing has been given to `log_write`. -/
structure Quiet (E : Multiset Ino) (s s' : State) : Prop where
  names : Names E s s'
  dinode : s'.dinode = s.dinode
  ops : s'.ops = s.ops

variable {α : Type} {sb : Superblock} {L E : Multiset Ino} {n : Nat} {s s' s1 s2 : State} {ip dp : Ino}
  {D : Panic → Prop}

theorem Names.refl (E : Multiset Ino) (s : State) : Names E s s := fun _ _ => ⟨rfl, id⟩

theorem Names.trans (h : Names E s s1) (h' : Names E s1 s2) : Names E s s2 := fun i hi =>
  ⟨(h' i hi).1.trans (h i hi).1, fun hvalid => (h' i hi).2 ((h i hi).2 hvalid)⟩

theorem Names.mono {E' : Multiset Ino} (h : Names E s s1) (hE : ∀ i ∈ E', i ∈ E) : Names E' s s1 :=
  fun i hi => h i (hE i hi)

theorem Names.of_update {i : Inode} (hinode : s'.inode = update s.inode ip i)
    (h : ip ∈ E → i.inum = (s.inode ip).inum ∧ ((s.inode ip).valid = true → i.valid = true)) :
    Names E s s' := by
  intro j hj
  rw [hinode]
  by_cases hjp : j = ip
  · subst hjp
    rw [update_self]
    exact h hj
  · rw [update_of_ne hjp]
    exact ⟨rfl, id⟩

theorem Quiet.refl (E : Multiset Ino) (s : State) : Quiet E s s := ⟨.refl E s, rfl, rfl⟩

theorem Quiet.trans (h : Quiet E s s1) (h' : Quiet E s1 s2) : Quiet E s s2 :=
  ⟨h.names.trans h'.names, h'.dinode.trans h.dinode, h'.ops.trans h.ops⟩

theorem Quiet.mono {E' : Multiset Ino} (h : Quiet E s s1) (hE : ∀ i ∈ E', i ∈ E) : Quiet E' s s1 :=
  ⟨h.names.mono hE, h.dinode, h.ops⟩

theorem Held.ref_pos (h : Held sb L n E s) (hip : ip ∈ E) : 0 < (s.inode ip).ref := by
  rw [h.refs.ref ip]
  exact_mod_cast Multiset.count_pos.2 hip

theorem Held.lock_pos (h : Held sb L n E s) (hip : ip ∈ L) : 0 < (s.inode ip).ref :=
  h.ref_pos (h.lock ip hip).1

theorem Held.of_refs (h : Held sb L n E s) (hrefs : s'.refs = s.refs) (hgood : Good sb s')
    (hlock : ∀ i ∈ L, (s'.inode i).valid = (s.inode i).valid ∧ (s'.inode i).lock = (s.inode i).lock) :
    Held sb L n E s' := by
  refine ⟨h.refs.of_refs hrefs, hgood, h.nodup, fun i hi => ?_⟩
  obtain ⟨hE, hvalid, hlocked⟩ := h.lock i hi
  rw [(hlock i hi).1, (hlock i hi).2]
  exact ⟨hE, hvalid, hlocked⟩

theorem Held.setInode (h : Held sb L n E s) {E' : Multiset Ino} {i : Inode}
    (hrefs : Refs E' n (s.setInode ip i)) (hgood : Good sb (s.setInode ip i)) (hE : ∀ j ∈ L, j ∈ E')
    (hip : ip ∈ L → i.valid = true ∧ i.lock = true) : Held sb L n E' (s.setInode ip i) := by
  refine ⟨hrefs, hgood, h.nodup, fun j hj => ⟨hE j hj, ?_⟩⟩
  by_cases hjp : j = ip
  · subst hjp
    rw [setInode_self]
    exact hip hj
  · rw [setInode_of_ne s i hjp]
    exact (h.lock j hj).2

theorem quiet_setInode {i : Inode}
    (h : ip ∈ E → i.inum = (s.inode ip).inum ∧ ((s.inode ip).valid = true → i.valid = true)) :
    Quiet E s (s.setInode ip i) := ⟨.of_update rfl h, rfl, rfl⟩

/-! ## Operations and references -/

theorem begin_op_held (h : Held sb L n E s) :
    wp D begin_op (fun _ s' => Held sb L (n + 1) E s' ∧ s'.inode = s.inode ∧ s'.dinode = s.dinode ∧
      s'.ops = [] :: s.ops) s := by
  refine ⟨⟨?_, h.good.congr rfl rfl rfl rfl, h.nodup, h.lock⟩, rfl, rfl, rfl⟩
  exact (begin_op_refs h.refs).of_ok rfl

theorem end_op_held (h : Held sb L (n + 1) E s) :
    wp D end_op (fun _ s' => Held sb L n E s' ∧ Quiet E s s') s := by
  refine ⟨⟨?_, h.good.congr rfl rfl rfl rfl, h.nodup, h.lock⟩, .refl E s, rfl, rfl⟩
  exact (end_op_refs h.refs).of_ok rfl

theorem iget_held (hD : D .iget) (inum : Nat) (h : Held sb L n E s) :
    wp D (iget ROOTDEV inum) (fun ip s' => Held sb L n (ip ::ₘ E) s' ∧ Quiet E s s' ∧
      (s'.inode ip).inum = inum) s := by
  have hmem : ∀ ip, ∀ j ∈ L, j ∈ ip ::ₘ E := fun ip j hj => Multiset.mem_cons_of_mem (h.lock j hj).1
  refine wp_mono (wp_also (iget_wp ROOTDEV inum fun _ _ => hD) (iget_refs ROOTDEV inum h.refs)) ?_
  rintro ip _ ⟨⟨hlive, hdev, hinum⟩ | ⟨hfree, hnew⟩, hrefs⟩
  · refine ⟨h.setInode hrefs ?_ (hmem ip) fun hip => (h.lock ip hip).2, quiet_setInode fun _ => ⟨rfl, id⟩, ?_⟩
    · exact h.good.sameInode (fun _ => hlive) rfl rfl fun _ => h.good.copies ip hlive
    · rw [setInode_self]
      exact hinum
  · have hout : ip ∉ E := fun hip => (h.ref_pos hip).ne' hfree
    refine ⟨h.setInode hrefs ?_ (hmem ip) fun hip => absurd (h.lock ip hip).1 hout,
      quiet_setInode fun hip => absurd hip hout, ?_⟩
    · exact h.good.setInode (fun _ => rfl) (fun _ j _ hj => hnew j hj (h.good.dev j hj)) nofun
    · rw [setInode_self]

theorem idup_held (h : Held sb L n E s) (hip : ip ∈ E) :
    wp D (idup ip) (fun r s' => r = ip ∧ Held sb L n (ip ::ₘ E) s' ∧ Quiet E s s') s := by
  have hrefs := (idup_refs h.refs hip).of_ok rfl
  have hpos := h.ref_pos hip
  refine ⟨rfl, h.setInode hrefs.2 ?_ (fun j hj => ?_) fun hip => (h.lock ip hip).2,
    quiet_setInode fun _ => ⟨rfl, id⟩⟩
  · exact h.good.sameInode (fun _ => hpos) rfl rfl fun _ => h.good.copies ip hpos
  · exact Multiset.mem_cons_of_mem (h.lock j hj).1

theorem iput_held (hD : D .deadlock) (h : Held sb L n (ip ::ₘ E) s) :
    wp D (iput ip) (fun _ s' => Held sb L n E s' ∧ Names E s s' ∧
      Logs (fun b => IsBit sb b ∨ b = .inodes ((s.inode ip).inum / IPB)) s.ops s'.ops ∧
      (¬ LastPut s ip → Quiet E s s')) s := by
  have hpos := h.ref_pos (Multiset.mem_cons_self ip E)
  refine wp_mono (wp_also (h.good.iput_wp hpos fun _ => hD) (iput_refs h.refs)) ?_
  rintro _ s1 ⟨hput, hrefs⟩
  obtain ⟨v, c, hinode⟩ := hput.inode
  have hout : ip ∉ L := fun hip => by simpa [hput.unlocked] using (h.lock ip hip).2.2
  have hnames : Names E s s1 := by
    refine .of_update hinode fun hip => ⟨rfl, fun hvalid => ?_⟩
    -- another reference remains, so the inode has not been freed
    have hlast : ¬ LastPut s ip := by
      rintro ⟨-, -, href⟩
      have hcount := h.refs.ref ip
      have hE := Multiset.count_pos.2 hip
      rw [href, Multiset.count_cons_self] at hcount
      omega
    have hv := (hput.same hlast).2.2
    rw [hinode, update_self] at hv
    exact hv.trans hvalid
  refine ⟨⟨hrefs, hput.good, h.nodup, fun j hj => ?_⟩, hnames, hput.logs, fun hlast => ?_⟩
  · obtain ⟨hE, hlocked⟩ := h.lock j hj
    have hjp : j ≠ ip := fun hjp => hout (hjp ▸ hj)
    rw [hinode, update_of_ne hjp]
    exact ⟨(Multiset.mem_cons.1 hE).resolve_left hjp, hlocked⟩
  · exact ⟨hnames, (hput.same hlast).1, (hput.same hlast).2.1⟩

/-! ## Locks -/

theorem ilock_held (hD : ∀ e, e ≠ .freeingFreeBlock → D e) (h : Held sb L n E s) (hip : ip ∈ E) :
    wp D (ilock ip) (fun _ s' => Held sb (ip ::ₘ L) n E s' ∧ Quiet E s s') s := by
  have hpos := h.ref_pos hip
  by_cases hlock : (s.inode ip).lock = true
  · rw [ilock_wp, if_neg (by omega), if_pos hlock]
    exact hD _ (by simp)
  have hfree : (s.inode ip).lock = false := by simpa using hlock
  have hout : ip ∉ L := fun hip => by simpa [hfree] using (h.lock ip hip).2.2
  by_cases htype : (s.file ip).type = .free
  · have hvalid : (s.inode ip).valid = false := by
      by_contra hvalid
      obtain ⟨hcopy, hne⟩ := h.good.copies ip hpos (by simpa using hvalid)
      rw [hcopy] at hne
      exact hne htype
    rw [ilock_wp, if_neg (by omega), if_neg hlock, if_neg (by simp [hvalid]), if_pos (by exact htype)]
    exact hD _ (by simp)
  · refine wp_mono (wp_also (h.good.ilock_wp hpos hfree htype) (ilock_refs ip s)) ?_
    rintro _ s1 ⟨rfl, hrefs⟩
    refine ⟨⟨h.refs.of_refs hrefs, h.good.locked hpos htype, Multiset.nodup_cons.2 ⟨hout, h.nodup⟩,
      fun j hj => ?_⟩, quiet_setInode fun _ => ⟨rfl, fun _ => rfl⟩⟩
    rcases Multiset.mem_cons.1 hj with rfl | hj
    · rw [locked_inode]
      exact ⟨hip, rfl, rfl⟩
    · have hjp : j ≠ ip := fun hjp => hout (hjp ▸ hj)
      rw [State.locked, setInode_of_ne s _ hjp]
      exact h.lock j hj

theorem iunlock_held (h : Held sb (ip ::ₘ L) n E s) :
    wp D (iunlock ip) (fun _ s' => Held sb L n E s' ∧ Quiet E s s') s := by
  have hip := Multiset.mem_cons_self ip L
  obtain ⟨hout, hnodup⟩ := Multiset.nodup_cons.1 h.nodup
  refine wp_mono (wp_also (iunlock_ok (h.lock_pos hip) (h.lock ip hip).2.2) (iunlock_refs ip s)) ?_
  rintro _ s1 ⟨rfl, hrefs⟩
  refine ⟨⟨h.refs.of_refs hrefs, h.good.unlocked, hnodup, fun j hj => ?_⟩,
    quiet_setInode fun _ => ⟨rfl, id⟩⟩
  have hjp : j ≠ ip := fun hjp => hout (hjp ▸ hj)
  rw [State.unlocked, setInode_of_ne s _ hjp]
  exact h.lock j (Multiset.mem_cons_of_mem hj)

/-! ## The content of an inode -/

theorem Good.readi_same (h : Good sb s) (href : 0 < (s.inode ip).ref) (hvalid : (s.inode ip).valid = true)
    (off k : Nat) : wp D (readi sb ip off k) (fun _ s' => ∃ i, s' = { s with input := i }) s := by
  obtain ⟨hcopy, htype⟩ := h.copies ip href hvalid
  change (s.inode ip).copy = s.file ip at hcopy
  rw [hcopy] at htype
  have hsmall := h.small _ htype
  have hback := h.backed _ htype
  change (s.file ip).size ≤ MAXFILE * BSIZE at hsmall
  unfold readi
  simp only [wp_bind, wp_get, hcopy]
  refine wp_ite.2 ⟨fun _ => wp_ite.2 ⟨fun _ => ⟨_, rfl⟩, fun _ => ⟨_, rfl⟩⟩, fun _ => ?_⟩
  refine wp_ite.2 ⟨fun _ => ⟨_, rfl⟩, fun hoff => ?_⟩
  obtain ⟨m, hm⟩ : ∃ m, m = if off + k > (s.file ip).size then (s.file ip).size - off else k := ⟨_, rfl⟩
  rw [← hm, wp_bind]
  have hm' : off + m ≤ (s.file ip).size := by
    split at hm <;> omega
  refine wp_mono (readLoop_wp m le_rfl (hm'.trans hsmall) ?_) ?_
  · rw [hcopy]
    exact fun k hk => hback k (hk.trans_le hm')
  · rintro r s1 ⟨-, rfl⟩
    exact ⟨_, rfl⟩

theorem readi_held (h : Held sb L n E s) (hip : ip ∈ L) (off k : Nat) :
    wp D (readi sb ip off k) (fun _ s' => Held sb L n E s' ∧ Quiet E s s') s := by
  refine wp_mono (h.good.readi_same (h.lock_pos hip) (h.lock ip hip).2.1 off k) ?_
  rintro _ _ ⟨i, rfl⟩
  exact ⟨h.of_refs rfl (h.good.congr rfl rfl rfl rfl) fun _ _ => ⟨rfl, rfl⟩, .refl E s, rfl, rfl⟩

/-- The bit map, and the blocks in `B`. -/
def Within (sb : Superblock) (B : Finset LogBlock) (b : LogBlock) : Prop := IsBit sb b ∨ b ∈ B

/-- The slots for the bytes from `off` to `off + m`, and the one of the indirect block. -/
def span (off m : Nat) : Finset Nat := insert MAXFILE (Finset.Icc (off / BSIZE) ((off + m - 1) / BSIZE))

theorem mem_span {off m k : Nat} (h : Spanned off m k) : k ∈ span off m := by
  rcases h with rfl | ⟨o, hlo, hhi, rfl⟩
  · exact Finset.mem_insert_self ..
  · refine Finset.mem_insert_of_mem (Finset.mem_Icc.2 ⟨Nat.div_le_div_right hlo, Nat.div_le_div_right ?_⟩)
    omega

theorem card_span_le {off m c : Nat} (h : (off + m - 1) / BSIZE ≤ off / BSIZE + c) :
    (span off m).card ≤ c + 2 := by
  refine (Finset.card_insert_le ..).trans ?_
  rw [Nat.card_Icc]
  omega

/-- What a write may have given to `log_write`: as many blocks of data as it touches slots. -/
theorem Wrote.within {off m : Nat} {src : List UInt8} (h : Wrote sb ip m off src s s') :
    ∃ B : Finset LogBlock, B.card ≤ (span off src.length).card ∧
      Logs (Within sb (insert (.inodes ((s.inode ip).inum / IPB)) B)) s.ops s'.ops := by
  obtain ⟨d, hd⟩ : ∃ d, d = s'.dinode (s.inode ip).inum := ⟨_, rfl⟩
  refine ⟨(span off src.length).image fun k => .data ((d.slot s'.data k).getD 0), Finset.card_image_le,
    h.logs.mono ?_⟩
  rintro b (hb | rfl)
  · cases b with
    | bitmap i =>
      obtain ⟨c, hc, rfl⟩ := hb
      exact .inl ⟨c, hc, rfl⟩
    | inodes i => exact hb.elim
    | data b =>
      obtain ⟨k, hk, hslot⟩ := hb
      refine .inr (Finset.mem_insert_of_mem (Finset.mem_image.2 ⟨k, mem_span hk, ?_⟩))
      rw [hd, hslot, Option.getD_some]
  · exact .inr (Finset.mem_insert_self ..)

theorem writei_held (hD : D .outOfBlocks) (h : Held sb L n E s) (hip : ip ∈ L) (src : List UInt8)
    (off : Nat) :
    wp D (writei sb ip src off) (fun _ s' => Held sb L n E s' ∧ Names E s s' ∧
      OnlyInode (s.inode ip).inum s s' ∧ ∃ B : Finset LogBlock, B.card ≤ (span off src.length).card ∧
        Logs (Within sb (insert (.inodes ((s.inode ip).inum / IPB)) B)) s.ops s'.ops) s := by
  have hpos := h.lock_pos hip
  have hvalid := (h.lock ip hip).2.1
  obtain ⟨hcopy, -⟩ := h.good.copies ip hpos hvalid
  change (s.inode ip).copy = s.file ip at hcopy
  have hsame : Held sb L n E s ∧ Names E s s ∧ OnlyInode (s.inode ip).inum s s ∧
      ∃ B : Finset LogBlock, B.card ≤ (span off src.length).card ∧ Logs (Within sb (insert (.inodes ((s.inode ip).inum / IPB)) B)) s.ops s.ops :=
    ⟨h, .refl E s, fun _ _ => rfl, ∅, Nat.zero_le _, .refl _ _⟩
  by_cases hdev : (s.file ip).type = .T_DEV
  · unfold writei
    simp only [wp_bind, wp_get, hcopy]
    rw [if_pos hdev]
    exact wp_ite.2 ⟨fun _ => hsame, fun _ => hsame⟩
  by_cases hoff : off > (s.file ip).size ∨ (off + src.length) % 2 ^ 32 < off
  · unfold writei
    simp only [wp_bind, wp_get, hcopy]
    rw [if_neg hdev, if_pos hoff]
    exact hsame
  by_cases hmax : off + src.length > MAXFILE * BSIZE
  · unfold writei
    simp only [wp_bind, wp_get, hcopy]
    rw [if_neg hdev, if_neg hoff, if_pos hmax]
    exact hsame
  refine wp_mono (wp_also (h.good.writei_wp hpos hvalid hdev off (by omega) (Nat.le_of_not_lt hmax) le_rfl
    fun _ => hD) (writei_refs ip src off s)) ?_
  rintro _ s1 ⟨⟨-, hw⟩, hrefs⟩
  obtain ⟨A, hA⟩ := hw.dinode
  refine ⟨h.of_refs hrefs hw.good fun i _ => ?_, .of_update hw.inode fun _ => ⟨rfl, id⟩, fun y hy => ?_,
    hw.within⟩
  swap
  · rw [hA, update_of_ne hy]
  rw [hw.inode]
  by_cases hi : i = ip
  · rw [hi, update_self]
    exact ⟨rfl, rfl⟩
  · rw [update_of_ne hi]
    exact ⟨rfl, rfl⟩

theorem store_held {f : Dinode → Dinode}
    (hf : ∀ c, (f c).type = c.type ∧ (f c).size = c.size ∧ (f c).addrs = c.addrs)
    (h : Held sb L n E s) (hip : ip ∈ L) :
    wp D (do modCopy ip f; iupdate ip) (fun _ s' => Held sb L n E s' ∧ Names E s s' ∧
      Stored ip f s s') s := by
  refine wp_mono (wp_also (h.good.store_wp hf (h.lock_pos hip) (h.lock ip hip).2.1)
    (R := fun _ s' => s'.refs = s.refs) ?_) ?_
  · exact Fixes.bind (modCopy_refs ip f) (fun _ => iupdate_refs ip) s
  rintro _ s1 ⟨⟨hgood, hstored⟩, hrefs⟩
  refine ⟨h.of_refs hrefs hgood fun i _ => ?_, .of_update hstored.inode fun _ => ⟨rfl, id⟩, hstored⟩
  rw [hstored.inode]
  by_cases hi : i = ip
  · rw [hi, update_self]
    exact ⟨rfl, rfl⟩
  · rw [update_of_ne hi]
    exact ⟨rfl, rfl⟩

theorem addLink_held (d : Int) (h : Held sb L n E s) (hip : ip ∈ L) :
    wp D (addLink ip d) (fun _ s' => Held sb L n E s' ∧ Names E s s' ∧
      Stored ip (fun c => { c with nlink := (c.nlink + d).bmod (2 ^ 16) }) s s') s :=
  store_held (fun _ => ⟨rfl, rfl, rfl⟩) h hip

theorem ialloc_held {type : FType} (hD : ∀ e, e ≠ .freeingFreeBlock → D e) (htype : type ≠ .free)
    (h : Held sb L n E s) :
    wp D (ialloc sb ROOTDEV type) (fun ip s' => Held sb L n (ip ::ₘ E) s' ∧ Names E s s' ∧
      OnlyInode (s'.inode ip).inum s s' ∧ s'.ops = s.ops.modifyHead (.inodes ((s'.inode ip).inum / IPB) :: ·)) s := by
  unfold ialloc
  simp only [wp_bind, wp_get]
  cases hf : (List.range' 1 (sb.ninodes - 1)).find? fun inum => decide ((s.dinode inum).type = .free) with
  | none => exact hD _ (by simp)
  | some x =>
    have hmem := List.mem_of_find?_eq_some hf
    have hfree := List.find?_some hf
    simp only [List.mem_range'_1, decide_eq_true_eq] at hmem hfree
    have hx : x < sb.ninodes := by omega
    obtain ⟨s1, hs1⟩ : ∃ s1 : State, s1 = { s with
        dinode := update s.dinode x { Dinode.zero with type := type }
        ops := s.ops.modifyHead (.inodes (x / IPB) :: ·) } := ⟨_, rfl⟩
    have h1 : Held sb L n E s1 := by
      refine h.of_refs (by rw [hs1]; rfl) ?_ fun _ _ => by rw [hs1]; exact ⟨rfl, rfl⟩
      refine h.good.alloc hx hfree (d := { Dinode.zero with type := type }) htype rfl (fun _ => rfl)
        ?_ ?_ ?_ ?_
      all_goals rw [hs1]
    simp only [log_write, wp_bind, wp_set, wp_modify]
    change wp D (iget ROOTDEV x) _ { s with
        dinode := update s.dinode x { Dinode.zero with type := type }
        ops := s.ops.modifyHead (.inodes (x / IPB) :: ·) }
    rw [← hs1]
    refine wp_mono (iget_held (hD _ (by simp)) x h1) ?_
    rintro ip s2 ⟨h2, hquiet, hinum⟩
    have hinode : s1.inode = s.inode := by rw [hs1]
    refine ⟨h2, fun i hi => hinode ▸ hquiet.names i hi, fun y hy => ?_, ?_⟩
    · rw [hinum] at hy
      rw [hquiet.dinode, hs1]
      exact update_of_ne hy ..
    · rw [hquiet.ops, hinum, hs1]

/-! ## Directories -/

theorem reads_held (s : State) (hdp : dp ∈ L) :
    Reads sb D dp fun s' => Held sb L n E s' ∧ Quiet E s s' := by
  rintro off k s1 ⟨h1, hquiet⟩
  refine wp_mono (readi_held h1 hdp off k) ?_
  rintro _ s2 ⟨h2, hquiet'⟩
  exact ⟨h2, hquiet.trans hquiet'⟩

theorem dirlookup_held (hD : ∀ e, e ≠ .freeingFreeBlock → D e) (name : Name) (h : Held sb L n E s)
    (hdp : dp ∈ L) :
    wp D (dirlookup sb dp name) (fun r s' => Held sb L n (found r + E) s' ∧ Quiet E s s' ∧
      ∀ x, r = some x → DIRENT ∣ x.2) s := by
  unfold dirlookup
  simp only [wp_bind, wp_get]
  refine wp_ite.2 ⟨fun _ => ?_, fun _ => hD _ (by simp)⟩
  refine wp_seq ((reads_held s hdp).lookupLoop (hD _ (by simp)) name _ _ (dvd_zero _)
    ⟨h, .refl E s⟩) ?_
  rintro (_ | ⟨off, inum⟩) s1 ⟨⟨h1, hquiet⟩, hoff⟩
  · exact ⟨by rwa [found_none, zero_add], hquiet, by simp⟩
  · rw [h.good.dev dp (h.lock_pos hdp)]
    refine wp_seq (iget_held (hD _ (by simp)) inum h1) ?_
    rintro ip s2 ⟨h2, hquiet', -⟩
    refine ⟨by rwa [found_some, Multiset.singleton_add], hquiet.trans hquiet', ?_⟩
    rintro _ ⟨⟩
    exact hoff _ rfl

/-- Whatever panics, `bfree` of a free block does not. -/
theorem Held.rules : Rules sb (· ≠ .freeingFreeBlock) (Held sb) where
  other _ he _ := he
  begin_op h := wp_mono (begin_op_held h) fun _ _ h1 => h1.1
  end_op h := wp_mono (end_op_held h) fun _ _ h1 => h1.1
  root h := wp_mono (iget_held (by simp) ROOTINO h) fun _ _ h1 => h1.1
  idup hip h := wp_mono (idup_held h hip) fun _ _ h1 => ⟨h1.1, h1.2.1⟩
  iput h := wp_mono (iput_held (by simp) h) fun _ _ h1 => h1.1
  ilock hip h := wp_mono (ilock_held (fun _ he => he) h hip) fun _ _ h1 => h1.1
  iunlock h := wp_mono (iunlock_held h) fun _ _ h1 => h1.1
  readi off k hip h := wp_mono (readi_held h hip off k) fun _ _ h1 => h1.1
  writei src off hip h := wp_mono (writei_held (by simp) h hip src off) fun _ _ h1 => h1.1
  dirlookup name hdp h := wp_mono (dirlookup_held (fun _ he => he) name h hdp) fun _ _ h1 => h1.1
  addLink d hip h := wp_mono (addLink_held d h hip) fun _ _ h1 => h1.1
  fresh htype hdp h := by
    rw [h.good.dev _ (h.lock_pos hdp)]
    refine wp_seq (ialloc_held (fun _ he => he) htype h) fun ip s1 h1 => ?_
    exact wp_seq (ilock_held (fun _ he => he) h1.1 (Multiset.mem_cons_self ip _)) fun _ _ h2 => h2.1
  fill _ _ hip h := wp_mono (store_held (fun _ => ⟨rfl, rfl, rfl⟩) h hip) fun _ _ h1 => h1.1

end Laboratorio.Xv6.Fs
