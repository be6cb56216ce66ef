import Laboratorio.Xv6.Mkfs.Append
import Laboratorio.Xv6.Mkfs.Limits

/-!
# The image that `mkfs` writes
-/

namespace Laboratorio.Xv6.Mkfs

open Laboratorio.Lib Bytes Function List
open Fs (BSIZE NDIRECT NINDIRECT MAXFILE FSSIZE ROOTINO DIRSIZ NSLOT Dinode Data Account Kept)

/-! ## Inodes and their contents -/

structure Node where
  type : Nat
  size : Nat
  data : List UInt8

/-- A node whose size is that of its data. -/
def Node.file (type : Nat) (data : List UInt8) : Node := ⟨type, data.length, data⟩

/-- The inode on the disk is `n`. -/
structure Stored (D : Data) (d : Din) (n : Node) : Prop where
  type : n.type = T_DIR ∨ n.type = T_FILE
  fits : d.Fits
  fields : ∃ A, d = ⟨n.type, 0, 0, 1, n.size, A⟩
  holds : Holds D d.dinode n.data

def State.table (s : State) (i : Nat) : Din := if i < NINODE then s.din i else Din.zero

/-- The image has the nodes of `C`. -/
structure Img (C : Nat → Option Node) (s : State) : Prop where
  work : Work s.table s 0
  super : s.sect 1 = splice zeroes 0 superblock
  stored : ∀ i n, C i = some n → i < NINODE ∧ Stored s.sect (s.din i) n
  empty : ∀ i, C i = none → i < NINODE → s.din i = Din.zero
  fresh : ∀ i, s.freeinode ≤ i → C i = none

variable {C : Nat → Option Node} {s s1 : State} {i j b t : Nat} {n : Node} {d : Din} {p : List UInt8}
  {E : Exit → Prop} {T : Nat → Din} {buf : Buf}

theorem table_of_lt (hi : i < NINODE) : s.table i = s.din i := if_pos hi

theorem Stored.alloc {D : Data} (h : Stored D d n) : d.dinode.type ≠ .free := by
  obtain ⟨A, rfl⟩ := h.fields
  show ftype n.type ≠ .free
  rcases h.type with ht | ht <;> rw [ht] <;> decide

theorem Holds.of_kept {D D' : Data} {d d' : Dinode} {c : List UInt8} (h : Holds D d c)
    (hslot : d'.slot D' = d.slot D) (hkept : Kept D d D' d') : Holds D' d' c := by
  refine ⟨h.le, fun k hk => ?_, ?_, fun i hi => ?_⟩
  · rw [hslot]
    exact h.slot k hk
  · rw [hslot]
    exact h.indirect
  · rw [h.byte i hi, hkept.byte h.backed h.le hi]

theorem Stored.of_kept {D D' : Data} (h : Stored D d n)
    (hkept : d.dinode.slot D' = d.dinode.slot D ∧ Kept D d.dinode D' d.dinode) : Stored D' d n :=
  ⟨h.type, h.fits, h.fields, h.holds.of_kept hkept.1 hkept.2⟩

/-! ## Writing to the blocks in front of the data -/

/-- The blocks in front of the data are in no file. -/
theorem Work.kept_meta (h : Work T s 0) (hb : b < nmeta) (hi : (T i).dinode.type ≠ .free) (f : Buf) :
    (T i).dinode.slot (s.put b f).sect = (T i).dinode.slot s.sect ∧
      Kept s.sect (T i).dinode (s.put b f).sect (T i).dinode := by
  have hne : ∀ {k c}, k < NSLOT → (T i).dinode.slot s.sect k = some c → c ≠ b := by
    intro k c hk hc hcb
    have hlow := (h.slot_lt hi hk hc).1
    omega
  have hslot : (T i).dinode.slot (s.put b f).sect = (T i).dinode.slot s.sect := by
    refine Fs.slot_congr fun ha => update_of_ne ?_ ..
    refine hne (Nat.lt_succ_self MAXFILE) ?_
    rw [Fs.slot_indirect, Fs.ptr, if_neg ha]
  refine ⟨hslot, fun k hk c hc => ?_⟩
  rw [hslot]
  exact ⟨hc, update_of_ne (hne (hk.trans (Nat.lt_succ_self _)) hc) ..⟩

theorem Work.put_meta (h : Work T s 0) (hb : b < nmeta) (f : Buf) : Work T (s.put b f) 0 := by
  refine ⟨h.len, h.low, h.high, ?_, fun c hc hc' => ?_⟩
  · refine h.account.set_data fun x hx => ?_
    obtain ⟨htype, hslot⟩ := Fs.alloc_of_slots hx
    have hlow := (h.slot_lt htype (Nat.lt_succ_self MAXFILE) hslot).1
    omega
  · have hne : c ≠ b := by
      have := h.low
      have : s.freeblock ≤ c := hc
      omega
    show update s.sect b f c = zeroes
    rw [update_of_ne hne]
    exact h.zero c hc hc'

theorem dinode_update (T : Nat → Din) (i : Nat) (d : Din) :
    (fun j => (update T i d j).dinode) =
      update (fun j => (T j).dinode) i d.dinode := by
  funext j
  by_cases hj : j = i
  · rw [hj, update_self, update_self]
  · rw [update_of_ne hj, update_of_ne hj]

theorem Work.set_din (h : Work T s 0) (hi : i < NINODE)
    (hslots : Fs.slots (fun _ => d.dinode) s.sect i = Fs.slots (fun _ => (T i).dinode) s.sect i) :
    Work (update T i d) s 0 := by
  have hself : Fs.slots (update (fun j => (T j).dinode) i d.dinode) s.sect i =
      Fs.slots (fun j => (T j).dinode) s.sect i := by
    refine Eq.trans ?_ hslots
    unfold Fs.slots
    rw [update_self]
  refine ⟨h.len, h.low, h.high, ?_, h.zero⟩
  rw [dinode_update]
  exact h.account.change hi (fun y _ => rfl) (by rw [hself])

theorem rinode_total {Q : Din → State → Prop} (h : Work T s 0) (hi : i < NINODE)
    (hQ : Q (s.din i) s) : wp E (rinode i) Q s := by
  have hlt : IBLOCK i < FSSIZE := (iblock_lt hi).trans (by decide)
  unfold rinode
  rw [wp_bind]
  exact rsect_total h.len hlt hQ

/-- What `winode` makes of the state. -/
def State.winode (s : State) (i : Nat) (d : Din) : State :=
  { s.put (IBLOCK i) (splice (s.sect (IBLOCK i)) (i % IPB * DINODE) d.bytes) with
    iwrites := s.iwrites ++ [IBLOCK i] }

theorem winode_total {Q : Unit → State → Prop} (h : Work T s 0) (hi : i < NINODE)
    (hQ : Q () (s.winode i d)) : wp E (winode i d) Q s := by
  have hlt : IBLOCK i < FSSIZE := (iblock_lt hi).trans (by decide)
  unfold winode
  rw [wp_bind]
  refine rsect_total h.len hlt ?_
  rw [wp_bind]
  refine wsect_total h.len hlt ?_
  exact hQ

theorem table_winode (hi : i < NINODE) (hd : d.Fits) :
    (s.winode i d).table = update s.table i d := by
  funext j
  by_cases hj : j = i
  · subst hj
    rw [update_self, table_of_lt hi]
    exact din_winode_self hd
  · rw [update_of_ne hj]
    unfold State.table
    split
    · exact din_winode_of_ne hj
    · rfl

theorem din_winode (hi : i < NINODE) (hd : d.Fits) (hj : j < NINODE) :
    (s.winode i d).din j = update s.table i d j := by
  rw [← table_of_lt hj, table_winode hi hd]

/-- The table is in front of the data. -/
theorem Frame.table_eq (h : Frame i s.table s d s1) : s1.table = s.table := by
  funext j
  unfold State.table
  split
  · rename_i hj
    unfold State.din
    rw [h.table (IBLOCK j) ((iblock_lt hj).trans (by decide))]
  · rfl

/-- Inode `i` is written when its blocks are there already. -/
theorem Img.winode {d' : Din} (h : Img C s) (hframe : Frame i s.table s d s1) (hi : i < NINODE)
    (hi' : i < s.freeinode)
    (hslots : Fs.slots (fun _ => d'.dinode) s1.sect i = Fs.slots (fun _ => d.dinode) s1.sect i)
    (hstored : Stored s1.sect d' n) : Img (update C i (some n)) (s1.winode i d') := by
  have hblock : IBLOCK i < nmeta := (iblock_lt hi).trans (by decide)
  have hwork : Work (update s.table i d') s1 0 := by
    have := hframe.work.set_din (d := d') hi (by rwa [update_self])
    rwa [update_idem] at this
  have hdin : ∀ {j}, j < NINODE → (s1.winode i d').din j = update s.table i d' j := by
    intro j hj
    rw [din_winode hi hstored.fits hj, hframe.table_eq]
  refine ⟨?_, ?_, fun j m hm => ?_, fun j hm hj => ?_, fun j hj => ?_⟩
  · have hput := hwork.put_meta hblock (splice (s1.sect (IBLOCK i)) (i % IPB * DINODE) d'.bytes)
    rw [table_winode hi hstored.fits, hframe.table_eq]
    exact ⟨hput.len, hput.low, hput.high, hput.account, hput.zero⟩
  · have hone : 1 ≠ IBLOCK i :=
      Nat.ne_of_lt (Nat.lt_of_lt_of_le (by decide : 1 < inodestart) (Nat.le_add_left ..))
    unfold State.winode State.put
    dsimp only
    rw [update_of_ne hone, hframe.table 1 (by decide), h.super]
  · by_cases hji : j = i
    · subst hji
      rw [update_self] at hm
      obtain rfl := Option.some.inj hm
      have hself : update s.table j d' j = d' := update_self ..
      have hkept := hwork.kept_meta (i := j) hblock (by rw [hself]; exact hstored.alloc)
        (splice (s1.sect (IBLOCK j)) (j % IPB * DINODE) d'.bytes)
      rw [hself] at hkept
      rw [hdin hi, hself]
      exact ⟨hi, hstored.of_kept hkept⟩
    · rw [update_of_ne hji] at hm
      obtain ⟨hj, hs⟩ := h.stored j m hm
      have hT : update s.table i d' j = s.din j := by
        rw [update_of_ne hji, table_of_lt hj]
      have halloc : (s.table j).dinode.type ≠ .free := by
        rw [table_of_lt hj]
        exact hs.alloc
      have hother := hframe.other j hji halloc
      have hkept := hwork.kept_meta (i := j) hblock (by rw [hT]; exact hs.alloc)
        (splice (s1.sect (IBLOCK i)) (i % IPB * DINODE) d'.bytes)
      rw [hT] at hkept
      rw [table_of_lt hj] at hother
      rw [hdin hj, hT]
      exact ⟨hj, (hs.of_kept hother).of_kept hkept⟩
  · have hji : j ≠ i := by
      rintro rfl
      rw [update_self] at hm
      cases hm
    rw [update_of_ne hji] at hm
    rw [hdin hj, update_of_ne hji, table_of_lt hj]
    exact h.empty j hm hj
  · have hfree : s.freeinode ≤ j := by
      rw [← hframe.freeinode]
      exact hj
    rw [update_of_ne (by omega)]
    exact h.fresh j hfree

/-! ## The calls -/

theorem Img.lt_freeinode (h : Img C s) (hi : C i = some n) : i < s.freeinode := by
  by_contra hge
  rw [h.fresh i (Nat.le_of_not_lt hge)] at hi
  cases hi

theorem iappend_wp {c : List UInt8} (h : Img C s) (hi : C i = some (.file t c))
    (hlen : c.length + p.length ≤ MAXFILE * BSIZE)
    (hroom : s.freeblock + blocksFor (c.length + p.length) ≤ FSSIZE + blocksFor c.length) :
    wp (fun _ => False) (iappend i p) (fun _ s' =>
      Img (update C i (some (.file t (c ++ p)))) s' ∧ s'.freeinode = s.freeinode ∧
      s'.freeblock + blocksFor c.length = s.freeblock + blocksFor (c.length + p.length)) s := by
  obtain ⟨hlt, hs⟩ := h.stored i _ hi
  obtain ⟨A, hA⟩ := hs.fields
  have hT : s.table i = s.din i := table_of_lt hlt
  have hsize : (s.din i).size = c.length := by
    rw [hA]
    rfl
  unfold iappend
  rw [wp_bind]
  refine rinode_total h.work hlt ?_
  have hloop := appendLoop_wp (x := i) (c := c) (Nat.le_refl p.length) h.work
    (by rw [hT]; exact hs.alloc) (by rw [hT]; exact hs.holds) hlen hroom
  rw [hT] at hloop
  rw [wp_bind, hsize]
  refine wp_mono hloop ?_
  rintro ⟨d, off⟩ s1 ⟨hframe, hd, hoff, hfree⟩
  dsimp only at hframe hd hoff ⊢
  have hfits : ({ d with size := off } : Din).Fits := by
    obtain ⟨h1, h2, h3, h4, -, h6, h7⟩ := hframe.fits (by rw [hT]; exact hs.fits)
    refine ⟨h1, h2, h3, h4, ?_, h6, h7⟩
    unfold MAXFILE NDIRECT NINDIRECT BSIZE at hlen
    show off < 2 ^ 32
    omega
  have hstored : Stored s1.sect { d with size := off } (.file t (c ++ p)) := by
    refine ⟨hs.type, hfits, ?_, hd.of_kept rfl (Kept.refl _ _)⟩
    obtain ⟨B, hB⟩ := hframe.fields
    have hlen' : off = (Node.file t (c ++ p)).size := by
      rw [hoff, ← length_append]
      rfl
    refine ⟨B, ?_⟩
    rw [hB, hT, hA, hlen']
    rfl
  have hwork : Work (update s.table i d) s1 0 := hframe.work
  refine winode_total hwork hlt ⟨?_, hframe.freeinode, hfree⟩
  exact h.winode hframe hlt (h.lt_freeinode hi) rfl hstored

theorem slot_new {D : Data} {d : Dinode} (h : d.addrs = fun _ => 0) : d.slot D = fun _ => none := by
  funext k
  unfold Dinode.slot
  simp [h]

theorem stored_new {D : Data} (ht : t = T_DIR ∨ t = T_FILE) :
    Stored D { Din.zero with type := t, nlink := 1 } (.file t []) := by
  have hzero := fits_zero
  have hslot : ({ Din.zero with type := t, nlink := 1 } : Din).dinode.slot D = fun _ => none :=
    slot_new rfl
  refine ⟨ht, ⟨?_, hzero.major, hzero.minor, Nat.one_lt_two_pow (by decide), hzero.size, hzero.addrs, hzero.beyond⟩,
    ⟨_, rfl⟩, Nat.zero_le _, fun k _ => ?_, ?_, nofun⟩
  · rcases ht with rfl | rfl <;> decide
  · rw [hslot]
    exact iff_of_true rfl (Nat.zero_le _)
  · rw [hslot]
    exact iff_of_true rfl (Nat.zero_le _)

theorem ialloc_wp (h : Img C s) (hlt : s.freeinode < NINODE) (ht : t = T_DIR ∨ t = T_FILE) :
    wp (fun _ => False) (ialloc t) (fun i s' => i = s.freeinode ∧
      Img (update C i (some (.file t []))) s' ∧ s'.freeinode = s.freeinode + 1 ∧
      s'.freeblock = s.freeblock) s := by
  have hnone : C s.freeinode = none := h.fresh _ (Nat.le_refl _)
  have hzero : s.din s.freeinode = Din.zero := h.empty _ hnone hlt
  have hmod : (s.freeinode + 1) % 2 ^ 32 = s.freeinode + 1 := by
    have : NINODE = 208 := rfl
    omega
  unfold ialloc nextinode
  simp only [wp_bind, wp_get, wp_set, wp_pure]
  rw [hmod]
  generalize hs1 : ({ s with
    freeinode := s.freeinode + 1, inums := s.inums ++ [s.freeinode] } : State) = s1
  have h1 : Img C s1 := by
    subst hs1
    exact ⟨⟨h.work.len, h.work.low, h.work.high, h.work.account, h.work.zero⟩, h.super, h.stored,
      h.empty, fun j hj => h.fresh j (Nat.le_of_succ_le hj)⟩
  have hfree1 : s1.freeinode = s.freeinode + 1 := by
    subst hs1
    rfl
  have hT : s1.table s.freeinode = Din.zero := by
    rw [table_of_lt hlt, h1.empty _ hnone hlt]
  refine winode_total h1.work hlt ⟨trivial, ?_, hfree1, by subst hs1; rfl⟩
  refine h1.winode (.refl h1.work _) hlt (by omega) ?_ ?_
  · rw [hT, Fs.slots_free (T := fun _ => Din.zero.dinode) rfl,
       Fs.slots_alloc (stored_new (D := s1.sect) ht).alloc]
    exact slot_new rfl
  · exact stored_new ht

theorem appendChunks_wp {c : List UInt8} {cs : List (List UInt8)} (h : Img C s)
    (hi : C i = some (.file t c)) (hlen : c.length + cs.flatten.length ≤ MAXFILE * BSIZE)
    (hroom : s.freeblock + blocksFor (c.length + cs.flatten.length) ≤ FSSIZE + blocksFor c.length) :
    wp (fun _ => False) (appendChunks i cs) (fun _ s' =>
      Img (update C i (some (.file t (c ++ cs.flatten)))) s' ∧
      s'.freeinode = s.freeinode ∧
      s'.freeblock + blocksFor c.length = s.freeblock + blocksFor (c.length + cs.flatten.length)) s := by
  induction cs generalizing C s c with
  | nil =>
    rw [flatten_nil, append_nil, ← hi, update_eq_self]
    exact ⟨h, rfl, rfl⟩
  | cons p cs ih =>
    have hflat : (p :: cs).flatten.length = p.length + cs.flatten.length := by
      rw [flatten_cons, length_append]
    rw [hflat] at hlen hroom
    have hmono := blocksFor_mono (m := c.length + p.length)
      (n := c.length + (p.length + cs.flatten.length)) (by omega)
    unfold appendChunks
    refine wp_seq (iappend_wp h hi (by omega) (by omega)) ?_
    rintro ⟨⟩ s1 ⟨h1, hino, hblk⟩
    have hlen' : (c ++ p).length = c.length + p.length := length_append
    have hsum : c.length + p.length + cs.flatten.length =
        c.length + (p.length + cs.flatten.length) := by omega
    refine wp_mono (ih h1 (update_self ..) ?_ ?_) ?_
    · omega
    · rw [hlen', hsum]
      omega
    · rintro ⟨⟩ s2 ⟨h2, hino2, hblk2⟩
      rw [update_idem, append_assoc] at h2
      rw [hlen', hsum] at hblk2
      refine ⟨h2, hino2.trans hino, ?_⟩
      rw [hflat]
      omega

/-! ## The root directory and the files -/

/-- The bytes of a file. -/
def Input.contents (f : Input) : List UInt8 := (f.fd.getD []).flatten

/-- The entries of files, the first of which has inode `i`. -/
def entries : Nat → List Input → List UInt8
  | _, [] => []
  | i, f :: fs => Fs.dirent f.dename i ++ entries (i + 1) fs

/-- The bytes of the root directory. -/
def rootData (files : List Input) : List UInt8 :=
  Fs.dirent Fs.dot ROOTINO ++ Fs.dirent Fs.dotdot ROOTINO ++ entries 2 files

/-- The inodes of the image when these files are in it, before the size of the root is fixed. -/
def nodes (files : List Input) : Nat → Option Node
  | 0 => none
  | 1 => some (.file T_DIR (rootData files))
  | i + 2 => files[i]?.map fun f => .file T_FILE f.contents

/-- The number of data blocks for the root directory and the files. -/
def used (files : List Input) : Nat :=
  blocksFor (Fs.DIRENT * (files.length + 2)) +
    (files.map fun f => blocksFor f.contents.length).sum

/-- The files can be read and there is room for them. -/
structure Room (files : List Input) : Prop where
  opens : ∀ f ∈ files, f.fd.isSome
  slash : ∀ f ∈ files, Fs.slash ∉ f.name
  size : ∀ f ∈ files, f.contents.length ≤ MAXFILE * BSIZE
  total : used files ≤ nblocks
  table : files.length + 2 ≤ NINODE

variable {files done : List Input} {f : Input}

theorem length_entries (i : Nat) (files : List Input) :
    (entries i files).length = Fs.DIRENT * files.length := by
  induction files generalizing i with
  | nil => rfl
  | cons f files ih =>
    rw [entries, length_append, ih, Fs.length_dirent, length_cons]
    ring

theorem length_rootData (files : List Input) :
    (rootData files).length = Fs.DIRENT * (files.length + 2) := by
  rw [rootData, length_append, length_append, Fs.length_dirent,
    Fs.length_dirent, length_entries]
  ring

theorem entries_concat (i : Nat) (files : List Input) (f : Input) :
    entries i (files ++ [f]) = entries i files ++ Fs.dirent f.dename (i + files.length) := by
  induction files generalizing i with
  | nil =>
    show Fs.dirent f.dename i ++ [] = _
    rw [append_nil]
    rfl
  | cons g files ih =>
    rw [cons_append, entries, entries, ih, append_assoc, length_cons]
    congr 3
    omega

theorem rootData_concat (files : List Input) (f : Input) :
    rootData (files ++ [f]) = rootData files ++ Fs.dirent f.dename (files.length + 2) := by
  rw [rootData, rootData, entries_concat, ← append_assoc, Nat.add_comm 2]

/-- One more file, seen from the inodes. -/
theorem nodes_concat (files : List Input) (f : Input) :
    nodes (files ++ [f]) = update (update (nodes files) ROOTINO
      (some (.file T_DIR (rootData (files ++ [f]))))) (files.length + 2)
      (some (.file T_FILE f.contents)) := by
  funext i
  match i with
  | 0 => rfl
  | 1 => rfl
  | i + 2 =>
    have hroot : i + 2 ≠ ROOTINO := by
      have : ROOTINO = 1 := rfl
      omega
    by_cases hi : i = files.length
    · subst hi
      rw [update_self]
      show (files ++ [f])[files.length]?.map _ = _
      rw [getElem?_concat_length]
      rfl
    · rw [update_of_ne (by omega), update_of_ne hroot]
      show (files ++ [f])[i]?.map _ = files[i]?.map _
      by_cases hlt : i < files.length
      · rw [getElem?_append_left hlt]
      · have hlen : (files ++ [f]).length ≤ i := by
          rw [length_append, length_singleton]
          omega
        rw [getElem?_eq_none hlen, getElem?_eq_none (Nat.le_of_not_lt hlt)]

theorem used_concat (files : List Input) (f : Input) :
    used (files ++ [f]) + blocksFor (Fs.DIRENT * (files.length + 2)) =
      used files + blocksFor (Fs.DIRENT * (files.length + 3)) + blocksFor f.contents.length := by
  simp only [used, length_append, length_singleton, map_append, map_cons,
    map_nil, sum_append, sum_cons, sum_nil, Nat.add_zero]
  rw [show files.length + 1 + 2 = files.length + 3 by omega]
  omega

theorem used_mono (files rest : List Input) : used files ≤ used (files ++ rest) := by
  have := blocksFor_mono (m := Fs.DIRENT * (files.length + 2))
    (n := Fs.DIRENT * ((files ++ rest).length + 2)) (by
      rw [length_append]
      exact Nat.mul_le_mul_left _ (by omega))
  simp only [used, map_append, sum_append]
  omega

/-- The image after these files. -/
structure Built (files : List Input) (s : State) : Prop where
  img : Img (nodes files) s
  freeinode : s.freeinode = files.length + 2
  freeblock : s.freeblock = nmeta + used files

theorem Room.of_append {rest : List Input} (h : Room (files ++ rest)) : Room files := by
  refine ⟨fun f hf => h.opens f (mem_append_left _ hf),
    fun f hf => h.slash f (mem_append_left _ hf),
    fun f hf => h.size f (mem_append_left _ hf), (used_mono files rest).trans h.total, ?_⟩
  have := h.table
  rw [length_append] at this
  omega

theorem addFile_wp (h : Built done s) (hroom : Room (done ++ [f])) :
    wp (fun _ => False) (addFile ROOTINO f) (fun _ s' => Built (done ++ [f]) s') s := by
  have hmem : f ∈ done ++ [f] := mem_append_right _ (mem_singleton_self f)
  have htotal := hroom.total
  have htable := hroom.table
  rw [length_append, length_singleton] at htable
  have hino : s.freeinode < NINODE := by
    have := h.freeinode
    omega
  have hused := used_concat done f
  have hfree := h.freeblock
  have hblocks : nmeta + nblocks = FSSIZE := rfl
  obtain ⟨cs, hcs⟩ := Option.isSome_iff_exists.1 (hroom.opens f hmem)
  have hcontents : f.contents = cs.flatten := by
    unfold Input.contents
    rw [hcs]
    rfl
  have hentry : (rootData done).length + (Fs.dirent f.dename s.freeinode).length =
      Fs.DIRENT * (done.length + 3) := by
    rw [length_rootData, Fs.length_dirent]
    ring
  unfold addFile
  rw [if_neg (hroom.slash f hmem), hcs]
  refine wp_seq (ialloc_wp h.img hino (.inr rfl)) ?_
  rintro i s1 ⟨rfl, h1, hino1, hblk1⟩
  have hne : ROOTINO ≠ s.freeinode := by
    have : ROOTINO = 1 := rfl
    have := h.freeinode
    omega
  have hroot : update (nodes done) s.freeinode (some (.file T_FILE [])) ROOTINO =
      some (.file T_DIR (rootData done)) := by
    rw [update_of_ne hne]
    rfl
  refine wp_seq (iappend_wp h1 hroot ?_ ?_) ?_
  · rw [hentry]
    have hM : MAXFILE * BSIZE = 71680 := rfl
    have hD : Fs.DIRENT = 16 := rfl
    have hN : NINODE = 208 := rfl
    rw [hM, hD]
    omega
  · rw [hentry, length_rootData]
    omega
  rintro ⟨⟩ s2 ⟨h2, hino2, hblk2⟩
  rw [hentry, length_rootData] at hblk2
  have hself : update (update (nodes done) s.freeinode (some (.file T_FILE [])))
      ROOTINO (some (.file T_DIR (rootData done ++ Fs.dirent f.dename s.freeinode))) s.freeinode =
      some (.file T_FILE []) := by
    rw [update_of_ne hne.symm, update_self]
  have hzero : blocksFor ([] : List UInt8).length = 0 := rfl
  have hchunks : ([] : List UInt8).length + cs.flatten.length = f.contents.length := by
    rw [hcontents, length_nil, Nat.zero_add]
  refine wp_mono (appendChunks_wp h2 hself ?_ ?_) ?_
  · rw [hchunks]
    exact hroom.size f hmem
  · rw [hchunks, hzero]
    omega
  rintro ⟨⟩ s3 ⟨h3, hino3, hblk3⟩
  rw [hchunks, hzero] at hblk3
  refine ⟨?_, ?_, ?_⟩
  · rw [nil_append, ← hcontents, update_comm hne, update_idem,
      update_comm hne.symm, h.freeinode, ← rootData_concat, ← nodes_concat] at h3
    exact h3
  · rw [hino3, hino2, hino1, h.freeinode, length_append, length_singleton]
  · omega

theorem addFiles_wp {rest : List Input} (h : Built done s) (hroom : Room (done ++ rest)) :
    wp (fun _ => False) (addFiles ROOTINO rest) (fun _ s' => Built (done ++ rest) s') s := by
  induction rest generalizing done s with
  | nil =>
    rw [append_nil]
    exact h
  | cons f rest ih =>
    have hcons : done ++ f :: rest = done ++ [f] ++ rest := by simp
    rw [hcons] at hroom ⊢
    unfold addFiles
    refine wp_seq (addFile_wp h hroom.of_append) ?_
    intro _ s1 h1
    exact ih h1 hroom

/-! ## The whole program -/

/-- The image before the first call of `ialloc`. -/
def blank : State := ({ start with len := FSSIZE } : State).put 1 (splice zeroes 0 superblock)

theorem blank_sect (hb : b ≠ 1) : blank.sect b = zeroes := update_of_ne hb ..

theorem blank_din (i : Nat) : blank.din i = Din.zero := by
  have hone : IBLOCK i ≠ 1 :=
    (Nat.ne_of_lt (Nat.lt_of_lt_of_le (by decide : 1 < inodestart) (Nat.le_add_left ..))).symm
  have hslice : ∀ o n, slice zeroes o n = List.replicate n 0 := by
    intro o n
    unfold slice zeroes
    rw [map_const', length_range]
  unfold State.din Din.read
  rw [blank_sect hone]
  simp only [hslice, ofBytes_replicate, ite_self]
  rfl

theorem blank_table : blank.table = fun _ => Din.zero := by
  funext i
  unfold State.table
  split
  · exact blank_din i
  · rfl

theorem blocks_of_free {sb : Fs.Superblock} {T : Nat → Dinode} {D : Data}
    (h : ∀ x, (T x).type = .free) : Fs.blocks sb T D = 0 := by
  unfold Fs.blocks
  refine Multiset.eq_zero_of_forall_notMem fun b hb => ?_
  obtain ⟨x, -, k, -, hk⟩ := Ledger.mem_owned.1 hb
  exact (Fs.alloc_of_slots hk).1 (h x)

theorem img_blank : Img (fun _ => none) blank := by
  have hsuper : blank.sect 1 = splice zeroes 0 superblock := by
    unfold blank State.put
    dsimp only
    rw [update_self]
  refine ⟨⟨rfl, Nat.le_refl _, by decide, ⟨?_, fun x _ => ?_⟩, fun b hb _ => blank_sect ?_⟩,
    hsuper, nofun, fun i _ _ => blank_din i, fun _ _ => rfl⟩
  · have hblocks : Fs.blocks roomy (fun i => (blank.table i).dinode) blank.sect = 0 := by
      refine blocks_of_free fun x => ?_
      rw [blank_table]
      rfl
    rw [hblocks, add_zero]
    refine Ledger.marked_iff.2 ⟨Multiset.nodup_zero, fun b hb => absurd hb (Multiset.notMem_zero b),
      fun b hb => ?_, fun b _ => ?_⟩
    · exact (Finset.mem_range.1 hb).trans (by decide)
    · simp only [decide_eq_true_eq, Finset.mem_range, Multiset.notMem_zero, or_false]
      rfl
  · rw [blank_table]
    rfl
  · rintro rfl
    exact absurd hb (by decide)

theorem makeRoot_wp :
    wp (fun _ => False) makeRoot (fun i s => i = ROOTINO ∧ Built [] s) blank := by
  have hdot : (Fs.dirent Fs.dot ROOTINO).length = Fs.DIRENT := rfl
  unfold makeRoot
  refine wp_seq (ialloc_wp img_blank (by decide) (.inl rfl)) ?_
  rintro i s1 ⟨rfl, h1, hino1, hblk1⟩
  have hfree1 : s1.freeblock = nmeta := hblk1
  have hroot : blank.freeinode = ROOTINO := rfl
  rw [hroot] at h1 ⊢
  rw [if_pos rfl]
  refine wp_seq (iappend_wp h1 (update_self ..) (by decide) ?_) ?_
  · rw [hfree1]
    decide
  rintro ⟨⟩ s2 ⟨h2, hino2, hblk2⟩
  have hfree2 : s2.freeblock = nmeta + 1 := by
    rw [hfree1] at hblk2
    exact hblk2
  refine wp_seq (iappend_wp h2 (update_self ..) (by decide) ?_) ?_
  · rw [hfree2]
    decide
  rintro ⟨⟩ s3 ⟨h3, hino3, hblk3⟩
  rw [wp_pure]
  refine ⟨rfl, ?_, ?_, ?_⟩
  · rw [update_idem, update_idem] at h3
    have hnodes : nodes [] = update (fun _ => none) ROOTINO
        (some (.file T_DIR ([] ++ Fs.dirent Fs.dot ROOTINO ++ Fs.dirent Fs.dotdot ROOTINO))) := by
      funext i
      match i with
      | 0 => rfl
      | 1 => rfl
      | i + 2 => rfl
    rw [hnodes]
    exact h3
  · rw [hino3, hino2, hino1]
    rfl
  · rw [hfree2] at hblk3
    have : s3.freeblock + 1 = nmeta + 1 + 1 := hblk3
    have : used [] = 1 := rfl
    omega

/-- The inodes of the image at the end: the size of the root is a multiple of the block size. -/
def final (files : List Input) : Nat → Option Node :=
  update (nodes files) ROOTINO
    (some ⟨T_DIR, ((rootData files).length / BSIZE + 1) * BSIZE, rootData files⟩)

/-- What the program leaves. -/
structure Final (files : List Input) (s : State) : Prop where
  img : Img (final files) s
  bits : s.sect bmapstart = bitmap s.freeblock
  freeblock : s.freeblock = nmeta + used files

theorem fixRoot_wp (h : Built files s) (hroom : Room files) :
    wp (fun _ => False) (fixRoot ROOTINO) (fun _ s' =>
      Img (final files) s' ∧ s'.freeblock = s.freeblock) s := by
  obtain ⟨hlt, hs⟩ := h.img.stored ROOTINO _ rfl
  obtain ⟨A, hA⟩ := hs.fields
  have hsize : (s.din ROOTINO).size = (rootData files).length := by
    rw [hA]
    rfl
  have hbound : ((rootData files).length / BSIZE + 1) * BSIZE < 2 ^ 32 := by
    have htable := hroom.table
    have hB : BSIZE = 512 := rfl
    have hD : Fs.DIRENT = 16 := rfl
    have hN : NINODE = 208 := rfl
    rw [length_rootData, hD, hB]
    omega
  unfold fixRoot
  rw [wp_bind]
  refine rinode_total h.img.work hlt ?_
  rw [hsize]
  refine winode_total h.img.work hlt ⟨?_, rfl⟩
  refine h.img.winode (.refl h.img.work ROOTINO) hlt (h.img.lt_freeinode (n := _) rfl) ?_ ?_
  · rw [table_of_lt hlt]
    rfl
  · refine ⟨.inl rfl, ?_, ⟨A, ?_⟩, hs.holds.of_kept rfl (Kept.refl _ _)⟩
    · obtain ⟨h1, h2, h3, h4, -, h6, h7⟩ := hs.fits
      exact ⟨h1, h2, h3, h4, hbound, h6, h7⟩
    · rw [hA]
      rfl

theorem balloc_wp (h : Img C s) :
    wp (fun _ => False) (balloc s.freeblock) (fun _ s' =>
      Img C s' ∧ s'.sect bmapstart = bitmap s.freeblock ∧ s'.freeblock = s.freeblock) s := by
  have hhigh := h.work.high
  have hF : FSSIZE = 1000 := rfl
  have hwrap : wrap32 s.freeblock = s.freeblock := wrap32_of_range (by omega) (by omega)
  have hbmap : bmapstart < nmeta := by decide
  unfold balloc
  rw [hwrap, if_pos]
  · rw [Int.toNat_natCast]
    generalize bitmap s.freeblock = f
    have hself : (s.put bmapstart f).sect bmapstart = f := by
      unfold State.put
      dsimp only
      rw [update_self]
    refine wsect_total h.work.len (by decide) ⟨?_, hself, rfl⟩
    have htable : (s.put bmapstart f).table = s.table := by
      funext i
      unfold State.table
      split
      · rename_i hi
        exact din_update (Nat.le_refl _) hi
      · rfl
    refine ⟨?_, ?_, fun i n hi => ?_, fun i hC hi => ?_, h.fresh⟩
    · rw [htable]
      exact h.work.put_meta hbmap f
    · have hne : 1 ≠ bmapstart := by decide
      unfold State.put
      dsimp only
      rw [update_of_ne hne, h.super]
    · obtain ⟨hlt, hs⟩ := h.stored i n hi
      refine ⟨hlt, ?_⟩
      have hkept := h.work.kept_meta (i := i) hbmap (by rw [table_of_lt hlt]; exact hs.alloc) f
      rw [table_of_lt hlt] at hkept
      rw [din_update (Nat.le_refl _) hlt]
      exact hs.of_kept hkept
    · rw [din_update (Nat.le_refl _) hi]
      exact h.empty i hC hi
  · have hB : BSIZE = 512 := rfl
    omega

theorem main_wp (hroom : Room files) :
    wp (fun _ => False) (main files) (fun _ s => Final files s) start := by
  unfold main
  rw [wp_bind]
  refine clear_wp (Nat.le_refl _) ?_
  rw [wp_bind]
  refine wsect_total rfl (by decide) ?_
  refine wp_seq makeRoot_wp ?_
  rintro i s1 ⟨rfl, h1⟩
  refine wp_seq (addFiles_wp h1 hroom) ?_
  intro _ s2 h2
  refine wp_seq (fixRoot_wp h2 hroom) ?_
  rintro ⟨⟩ s3 ⟨h3, hfree3⟩
  rw [wp_bind, wp_get]
  refine wp_mono (balloc_wp h3) ?_
  rintro ⟨⟩ s4 ⟨h4, hbits, hfree4⟩
  refine ⟨h4, ?_, ?_⟩
  · rw [hbits, hfree4]
  · rw [hfree4, hfree3]
    exact h2.freeblock

theorem mkfs_spec (hroom : Room files) : ∃ s, mkfs files = .ok s ∧ Final files s := by
  have h := main_wp hroom
  unfold wp at h
  unfold mkfs
  split at h
  · rename_i s hs
    exact ⟨s, by rw [hs]; rfl, h⟩
  · exact h.elim

end Laboratorio.Xv6.Mkfs
