import Laboratorio.Xv6.Mkfs.Layout

/-!
# `iappend`

`iappend` works on a copy of the inode, which it writes back at the end.  `Work T s` is about the
table `T` of inodes with that copy in its place: the blocks below `freeblock` are the metadata and the
blocks of the inodes, each once, and the others are zero.
-/

namespace Laboratorio.Xv6.Mkfs

open Laboratorio.Lib Bytes Function
open Fs (BSIZE NDIRECT NINDIRECT MAXFILE NSLOT FSSIZE ROOTINO DIRSIZ FType Dinode Data Account Kept)

/-- The super block of the image, with all the inodes for which there is room. -/
def roomy : Fs.Superblock where
  size := FSSIZE
  nblocks := nblocks
  ninodes := NINODE
  size_lt := Fs.Superblock.mkfs.size_lt
  nblocks_lt := by decide
  ninodes_gt := by decide
  ninodes_le := by decide

structure Work (T : Nat → Din) (s : State) (held : Multiset Nat) : Prop where
  len : s.len = FSSIZE
  low : nmeta ≤ s.freeblock
  high : s.freeblock ≤ FSSIZE
  account : Account roomy (fun i => (T i).dinode) s.sect (fun b => decide (b < s.freeblock)) held
  zero : ∀ b, s.freeblock ≤ b → b < FSSIZE → s.sect b = zeroes

variable {T : Nat → Din} {s s1 s2 : State} {held : Multiset Nat} {d d1 : Din} {x y k b : Nat}
  {E : Exit → Prop} {buf : Buf}

/-! ## Sectors and blocks -/

theorem sector_of_lt_size (hx : x < FSSIZE) : sector x = x := by
  unfold FSSIZE at hx
  unfold sector BSIZE
  omega

theorem rsect_total {Q : Buf → State → Prop} (hlen : s.len = FSSIZE) (hx : x < FSSIZE)
    (hQ : Q (s.sect x) s) : wp E (rsect x) Q s := by
  unfold rsect
  simp only [wp_bind, wp_get]
  rw [sector_of_lt_size hx, if_pos (by rwa [hlen])]
  exact hQ

theorem wsect_total {Q : Unit → State → Prop} (hlen : s.len = FSSIZE) (hx : x < FSSIZE)
    (hQ : Q () (s.put x buf)) : wp E (wsect x buf) Q s := by
  unfold wsect
  rw [wp_modify, sector_of_lt_size hx, Nat.max_eq_left (by omega)]
  exact hQ

theorem nextblock_total {Q : Nat → State → Prop} (hx : s.freeblock < FSSIZE)
    (hQ : Q s.freeblock { s with freeblock := s.freeblock + 1, blocks := s.blocks ++ [s.freeblock] }) :
    wp E nextblock Q s := by
  unfold nextblock
  simp only [wp_bind, wp_get, wp_set, wp_pure]
  rwa [Nat.mod_eq_of_lt]
  unfold FSSIZE at hx
  omega

theorem Work.take (h : Work T s held) (hroom : s.freeblock < FSSIZE) :
    Work T { s with freeblock := s.freeblock + 1, blocks := s.blocks ++ [s.freeblock] }
      (s.freeblock ::ₘ held) := by
  have hbit : update (fun b => decide (b < s.freeblock)) s.freeblock true =
      fun b => decide (b < s.freeblock + 1) := by
    funext b
    by_cases hb : b = s.freeblock
    · rw [hb, update_self]
      simp
    · rw [update_of_ne hb]
      by_cases hlt : b < s.freeblock
      · simp [hlt, Nat.lt_succ_of_lt hlt]
      · have hlt' : ¬ b < s.freeblock + 1 := by omega
        simp [hlt, hlt']
  have htake := h.account.take (b := s.freeblock) hroom (by simp)
  rw [hbit] at htake
  refine ⟨h.len, Nat.le_succ_of_le h.low, hroom, htake, fun b hb hb' => h.zero b ?_ hb'⟩
  exact Nat.le_of_succ_le hb

theorem Work.slot_lt (h : Work T s held) (hx : (T x).dinode.type ≠ .free) (hk : k < NSLOT)
    (hb : (T x).dinode.slot s.sect k = some b) : nmeta ≤ b ∧ b < s.freeblock := by
  have hslots : Fs.slots (fun i => (T i).dinode) s.sect x k = some b := by
    rw [Fs.slots_alloc hx]
    exact hb
  have hmem := Fs.mem_blocks h.account.beyond hk hslots
  obtain ⟨-, hmeta, hbit⟩ := h.account.marked.of_mem (Multiset.mem_add.2 (.inl hmem))
  constructor
  · exact Nat.le_of_not_lt fun hlt => hmeta (Finset.mem_range.2 hlt)
  · simpa using hbit

/-! ## More blocks for an inode -/

/-- What the work on inode `x` leaves alone; `d` is the copy of the inode. -/
structure Frame (x : Nat) (T : Nat → Din) (s : State) (d : Din) (s' : State) : Prop where
  work : Work (update T x d) s' 0
  fields : ∃ A, d = { T x with addrs := A }
  fits : (T x).Fits → d.Fits
  table : ∀ b < nmeta, s'.sect b = s.sect b
  freeinode : s'.freeinode = s.freeinode
  other : ∀ y, y ≠ x → (T y).dinode.type ≠ .free →
    (T y).dinode.slot s'.sect = (T y).dinode.slot s.sect ∧
      Kept s.sect (T y).dinode s'.sect (T y).dinode

/-- The inode has got more blocks. -/
structure Grow (x : Nat) (T : Nat → Din) (s : State) (d : Din) (s' : State) : Prop
    extends Frame x T s d s' where
  kept : Kept s.sect (T x).dinode s'.sect d.dinode

theorem Frame.refl (h : Work T s 0) (x : Nat) : Frame x T s (T x) s := by
  refine ⟨?_, ⟨_, rfl⟩, fun h => h, fun _ _ => rfl, rfl, fun y _ _ => ⟨rfl, .refl _ _⟩⟩
  rwa [update_eq_self]

theorem Grow.refl (h : Work T s 0) (x : Nat) : Grow x T s (T x) s := ⟨.refl h x, .refl _ _⟩

theorem Frame.type (h : Frame x T s d s1) : d.dinode.type = (T x).dinode.type := by
  obtain ⟨A, rfl⟩ := h.fields
  rfl

theorem Frame.trans (h : Frame x T s d s1) (h' : Frame x (update T x d) s1 d1 s2) :
    Frame x T s d1 s2 := by
  obtain ⟨A, hA⟩ := h.fields
  obtain ⟨B, hB⟩ := h'.fields
  have hfits := h'.fits
  have hwork := h'.work
  rw [update_self] at hB hfits
  rw [update_idem] at hwork
  refine ⟨hwork, ⟨B, ?_⟩, fun hT => hfits (h.fits hT), fun b hb => ?_,
    h'.freeinode.trans h.freeinode, fun y hy hty => ?_⟩
  · rw [hB, hA]
  · rw [h'.table b hb, h.table b hb]
  · obtain ⟨hslot, hkept1⟩ := h.other y hy hty
    have h2 := h'.other y hy
    rw [update_of_ne hy] at h2
    obtain ⟨hslot', hkept2⟩ := h2 hty
    exact ⟨hslot'.trans hslot, hkept1.trans hkept2⟩

theorem Grow.trans (h : Grow x T s d s1) (h' : Grow x (update T x d) s1 d1 s2) :
    Grow x T s d1 s2 := by
  have hkept := h'.kept
  rw [update_self] at hkept
  exact ⟨h.toFrame.trans h'.toFrame, h.kept.trans hkept⟩

/-- The place in the inode of a new address. -/
def place (k : Nat) : Nat := if k < NDIRECT then k else MAXFILE

theorem slot_place (hk : k ≤ NDIRECT) (d : Dinode) (D : Data) :
    d.slot D (place k) = Fs.ptr (d.addrs k) := by
  unfold place
  split
  · rename_i hlt
    exact Fs.slot_direct hlt
  · obtain rfl : k = NDIRECT := by omega
    exact Fs.slot_indirect d D

theorem addr_wp (h : Work T s 0) (htype : (T x).dinode.type ≠ .free) (hk : k ≤ NDIRECT)
    (hroom : (T x).addrs k = 0 → s.freeblock < FSSIZE) :
    wp (fun _ => False) (addr (T x) k) (fun d s' => Grow x T s d s' ∧
      (((T x).addrs k ≠ 0 ∧ d = T x ∧ s' = s) ∨
        ((T x).addrs k = 0 ∧ s'.freeblock = s.freeblock + 1 ∧ d.addrs k = s.freeblock ∧
          d.dinode.slot s'.sect =
            update ((T x).dinode.slot s.sect) (place k) (some s.freeblock)))) s := by
  unfold addr
  rw [wp_ite]
  constructor
  · intro h0
    have hlt := hroom h0
    have hlow := h.low
    rw [wp_bind]
    refine nextblock_total hlt ?_
    rw [wp_pure]
    have htake := h.take hlt
    have hb : s.freeblock ≠ 0 := by
      unfold nmeta at hlow
      omega
    have hptr : Fs.ptr s.freeblock = some s.freeblock := Fs.ptr_eq_some.2 ⟨rfl, hb⟩
    have hslot : Dinode.slot s.sect { (T x).dinode with
        addrs := update (T x).dinode.addrs k s.freeblock } =
        update ((T x).dinode.slot s.sect) (place k) (some s.freeblock) := by
      unfold place
      by_cases hdir : k < NDIRECT
      · rw [if_pos hdir, Fs.slot_set_addr _ _ hdir, hptr]
      · obtain rfl : k = NDIRECT := by omega
        rw [if_neg hdir, Fs.slot_set_indirect h0, hptr]
        intro j _
        rw [h.zero s.freeblock (Nat.le_refl _) hlt]
        exact Fs.word_zero j
    have hempty : (T x).dinode.slot s.sect (place k) = none := by
      rw [slot_place hk]
      exact Fs.ptr_eq_none.2 h0
    have hplace : place k < NSLOT := by
      unfold place NSLOT
      split
      · rename_i hlt
        unfold MAXFILE
        omega
      · exact Nat.lt_succ_self _
    have hstore : Account roomy (update (fun i => (T i).dinode) x { (T x).dinode with
        addrs := update (T x).dinode.addrs k s.freeblock }) s.sect _ 0 :=
      htake.account.store htype htype hplace hempty (fun y _ => rfl) hslot
    refine ⟨⟨⟨?_, ⟨_, rfl⟩, fun hT => ?_, fun b _ => rfl, rfl, fun y _ _ => ⟨rfl, .refl _ _⟩⟩, ?_⟩,
      .inr ⟨h0, rfl, update_self .., hslot⟩⟩
    · refine ⟨htake.len, htake.low, htake.high, ?_, htake.zero⟩
      convert hstore using 1
      funext i
      by_cases hi : i = x
      · rw [hi, update_self, update_self]
        rfl
      · rw [update_of_ne hi, update_of_ne hi]
    · have hlt : s.freeblock < 2 ^ 32 := by
        unfold FSSIZE at hlt
        omega
      refine ⟨hT.type, hT.major, hT.minor, hT.nlink, hT.size, fun i => ?_, fun i hi => ?_⟩
      · by_cases hik : i = k
        · rw [hik]
          simpa using hlt
        · simpa [hik] using hT.addrs i
      · have hik : i ≠ k := by omega
        simpa [hik] using hT.beyond i hi
    · exact Fs.kept_of_slot hempty hslot fun _ _ _ _ => rfl
  · intro h0
    rw [wp_pure]
    exact ⟨.refl h x, .inl ⟨h0, rfl, rfl⟩⟩

theorem Work.indirect_inj {l : Nat} (h : Work T s held) (hx : (T x).dinode.type ≠ .free)
    (ha : (T x).addrs NDIRECT ≠ 0) (hy : (T y).dinode.type ≠ .free) (hl : l < NSLOT)
    (hb : (T y).dinode.slot s.sect l = some ((T x).addrs NDIRECT)) : y = x ∧ l = MAXFILE := by
  have hind : Fs.slots (fun i => (T i).dinode) s.sect x MAXFILE = some ((T x).addrs NDIRECT) := by
    rw [Fs.slots_alloc hx, Fs.slot_indirect]
    exact Fs.ptr_eq_some.2 ⟨rfl, ha⟩
  have hslots : Fs.slots (fun i => (T i).dinode) s.sect y l = some ((T x).addrs NDIRECT) := by
    rw [Fs.slots_alloc hy]
    exact hb
  exact h.account.inj hl (Nat.lt_succ_self _) hslots hind

/-- A write into the indirect block of `x` is not seen by the others. -/
theorem Work.indirect_frame (h : Work T s held) (hx : (T x).dinode.type ≠ .free)
    (ha : (T x).addrs NDIRECT ≠ 0) (f : Buf) (hyx : y ≠ x) (hy : (T y).dinode.type ≠ .free) :
    (T y).dinode.slot (update s.sect ((T x).addrs NDIRECT) f) = (T y).dinode.slot s.sect ∧
      Kept s.sect (T y).dinode (update s.sect ((T x).addrs NDIRECT) f) (T y).dinode := by
  have hslot : (T y).dinode.slot (update s.sect ((T x).addrs NDIRECT) f) =
      (T y).dinode.slot s.sect := by
    refine Fs.slot_congr fun h0 => update_of_ne (fun he => ?_) _ _
    refine hyx (h.indirect_inj hx ha hy (Nat.lt_succ_self MAXFILE) ?_).1
    rw [Fs.slot_indirect, he]
    exact Fs.ptr_eq_some.2 ⟨rfl, ha⟩
  refine ⟨hslot, fun l hl c hc => ?_⟩
  rw [hslot]
  refine ⟨hc, update_of_ne (fun he => ?_) _ _⟩
  rw [he] at hc
  exact hyx (h.indirect_inj hx ha hy (hl.trans (Nat.lt_succ_self _)) hc).1

theorem indirectAddr_wp (h : Work T s 0) (htype : (T x).dinode.type ≠ .free)
    (ha : (T x).addrs NDIRECT ≠ 0) (hdir : ¬ k < NDIRECT) (hk : k < MAXFILE)
    (hroom : (T x).dinode.slot s.sect k = none → s.freeblock < FSSIZE) :
    wp (fun _ => False) (indirectAddr (T x) (k - NDIRECT)) (fun b s' => Grow x T s (T x) s' ∧
      (((T x).dinode.slot s.sect k = some b ∧ s' = s) ∨
        ((T x).dinode.slot s.sect k = none ∧ s'.freeblock = s.freeblock + 1 ∧
          (T x).dinode.slot s'.sect =
            update ((T x).dinode.slot s.sect) k (some b)))) s := by
  have hword : (T x).dinode.slot s.sect k =
      Fs.ptr (Fs.word (s.sect ((T x).addrs NDIRECT)) (k - NDIRECT)) := Fs.slot_word hdir hk ha
  have hind : (T x).dinode.slot s.sect MAXFILE = some ((T x).addrs NDIRECT) := by
    rw [Fs.slot_indirect]
    exact Fs.ptr_eq_some.2 ⟨rfl, ha⟩
  obtain ⟨hlow, hlt⟩ := h.slot_lt htype (Nat.lt_succ_self MAXFILE) hind
  have hlt' : (T x).addrs NDIRECT < FSSIZE := hlt.trans_le h.high
  unfold indirectAddr
  rw [wp_bind]
  refine rsect_total h.len hlt' ?_
  rw [wp_ite]
  constructor
  · intro h0
    rw [h0, Fs.ptr_zero] at hword
    have hfree := hroom hword
    have htake := h.take hfree
    rw [wp_bind]
    refine nextblock_total hfree ?_
    rw [wp_bind]
    refine wsect_total htake.len hlt' ?_
    rw [wp_pure]
    have hb : s.freeblock ≠ 0 := by
      have := h.low
      unfold nmeta at this
      omega
    have hb' : s.freeblock < 2 ^ 32 := by
      unfold FSSIZE at hfree
      omega
    have hslot : (T x).dinode.slot (update s.sect ((T x).addrs NDIRECT)
        (splice (s.sect ((T x).addrs NDIRECT)) (4 * (k - NDIRECT)) (toBytes 4 s.freeblock))) =
        update ((T x).dinode.slot s.sect) k (some s.freeblock) := by
      have := Fs.slot_set_word (D := s.sect) (d := (T x).dinode) rfl ha hdir hk hb'
      rwa [Fs.ptr_eq_some.2 ⟨rfl, hb⟩] at this
    have hother := fun y (hyx : y ≠ x) (hy : (T y).dinode.type ≠ .free) =>
      h.indirect_frame htype ha (splice (s.sect ((T x).addrs NDIRECT)) (4 * (k - NDIRECT))
        (toBytes 4 s.freeblock)) hyx hy
    have hslots : ∀ y, y ≠ x → Fs.slots (fun i => (T i).dinode)
        (update s.sect ((T x).addrs NDIRECT)
          (splice (s.sect ((T x).addrs NDIRECT)) (4 * (k - NDIRECT)) (toBytes 4 s.freeblock))) y =
        Fs.slots (fun i => (T i).dinode) s.sect y := by
      intro y hyx
      by_cases hy : (T y).dinode.type = .free
      · rw [Fs.slots_free hy, Fs.slots_free hy]
      · rw [Fs.slots_alloc hy, Fs.slots_alloc hy]
        exact (hother y hyx hy).1
    have hstore := htake.account.store htype htype (hk.trans (Nat.lt_succ_self _)) hword hslots hslot
    rw [update_eq_self] at hstore
    refine ⟨⟨⟨?_, ⟨_, rfl⟩, fun hT => hT, fun b hb => ?_, rfl, hother⟩, ?_⟩,
      .inr ⟨hword, rfl, hslot⟩⟩
    · rw [update_eq_self]
      refine ⟨htake.len, htake.low, htake.high, hstore, fun b hb hb' => ?_⟩
      have hne : b ≠ (T x).addrs NDIRECT := by
        have : s.freeblock + 1 ≤ b := hb
        omega
      exact (update_of_ne hne _ _).trans (htake.zero b hb hb')
    · exact update_of_ne (by omega) _ _
    · refine Fs.kept_of_slot hword hslot fun l hl c hc => update_of_ne (fun he => ?_) _ _
      rw [he] at hc
      have := (h.indirect_inj htype ha htype (hl.trans (Nat.lt_succ_self _)) hc).2
      omega
  · intro h0
    rw [wp_pure]
    refine ⟨.refl h x, .inl ⟨?_, rfl⟩⟩
    rw [hword]
    exact Fs.ptr_eq_some.2 ⟨rfl, h0⟩

/-- The number of blocks that are missing for block `k` of a file. -/
def need (D : Data) (d : Dinode) (k : Nat) : Nat :=
  (if d.slot D k = none then 1 else 0) +
    if NDIRECT ≤ k ∧ d.slot D MAXFILE = none then 1 else 0

theorem slot_none_of_indirect {D : Data} {d : Dinode} (hdir : ¬ k < NDIRECT) (hk : k < MAXFILE)
    (h : d.addrs NDIRECT = 0) : d.slot D k = none := by
  unfold Dinode.slot
  simp [hdir, hk, h]

theorem blockOf_wp (h : Work T s 0) (htype : (T x).dinode.type ≠ .free) (hk : k < MAXFILE)
    (hroom : s.freeblock + need s.sect (T x).dinode k ≤ FSSIZE) :
    wp (fun _ => False) (blockOf (T x) k) (fun r s' => Grow x T s r.1 s' ∧
      r.1.dinode.slot s'.sect k = some r.2 ∧
      s'.freeblock = s.freeblock + need s.sect (T x).dinode k ∧
      ∀ l, r.1.dinode.slot s'.sect l = none ↔
        (T x).dinode.slot s.sect l = none ∧ l ≠ k ∧ ¬ (l = MAXFILE ∧ NDIRECT ≤ k)) s := by
  have hmax : k ≠ MAXFILE := Nat.ne_of_lt hk
  unfold need at hroom ⊢
  unfold blockOf
  by_cases hdir : k < NDIRECT
  · have hge : ¬ NDIRECT ≤ k := by omega
    have hslot : (T x).dinode.slot s.sect k = Fs.ptr ((T x).addrs k) := Fs.slot_direct hdir
    simp only [hge, false_and, and_false, if_false, not_false_eq_true, and_true,
      Nat.add_zero] at hroom ⊢
    rw [if_pos hdir]
    refine wp_seq (addr_wp h htype (Nat.le_of_lt hdir) fun h0 => ?_) ?_
    · rw [hslot, h0, Fs.ptr_zero, if_pos rfl] at hroom
      omega
    rintro d1 s1 ⟨hgrow, ⟨h0, rfl, rfl⟩ | ⟨h0, hfree, haddr, hnew⟩⟩
    · have hsome : (T x).dinode.slot s1.sect k = some ((T x).addrs k) := by
        rw [hslot]
        exact Fs.ptr_eq_some.2 ⟨rfl, h0⟩
      refine ⟨hgrow, hsome, by simp [hsome], fun l => ⟨fun hl => ⟨hl, ?_⟩, fun hl => hl.1⟩⟩
      rintro rfl
      rw [hsome] at hl
      cases hl
    · have hnone : (T x).dinode.slot s.sect k = none := by
        rw [hslot, h0, Fs.ptr_zero]
      have hplace : place k = k := if_pos hdir
      rw [hplace] at hnew
      refine ⟨hgrow, ?_, ?_, fun l => ?_⟩
      · dsimp only
        rw [hnew, update_self, haddr]
      · rw [hfree, if_pos hnone]
      · dsimp only
        rw [hnew]
        by_cases hlk : l = k
        · simp [hlk]
        · simp [hlk]
  · have hge : NDIRECT ≤ k := by omega
    have hind : (T x).dinode.slot s.sect MAXFILE = Fs.ptr ((T x).addrs NDIRECT) :=
      Fs.slot_indirect _ _
    simp only [hge, true_and, and_true] at hroom ⊢
    rw [if_neg hdir]
    refine wp_seq (addr_wp h htype (Nat.le_refl _) fun h0 => ?_) ?_
    · rw [hind, h0, Fs.ptr_zero, if_pos rfl] at hroom
      omega
    rintro d1 s1 ⟨hgrow, ⟨h0, rfl, rfl⟩ | ⟨h0, hfree, haddr, hnew⟩⟩
    · -- there is an indirect block already
      have hsome : (T x).dinode.slot s1.sect MAXFILE = some ((T x).addrs NDIRECT) := by
        rw [hind]
        exact Fs.ptr_eq_some.2 ⟨rfl, h0⟩
      have hno : ((T x).dinode.slot s1.sect MAXFILE = none) = False := by simp [hsome]
      simp only [hno, if_false, Nat.add_zero] at hroom ⊢
      refine wp_seq (indirectAddr_wp h htype h0 hdir hk fun hnone => ?_) ?_
      · rw [if_pos hnone] at hroom
        omega
      rintro b s2 ⟨hgrow', ⟨hb, rfl⟩ | ⟨hnone, hfree, hnew⟩⟩
      · refine ⟨hgrow, hb, by simp [hb], fun l => ⟨fun hl => ⟨hl, ?_, ?_⟩, fun hl => hl.1⟩⟩
        · rintro rfl
          rw [hb] at hl
          cases hl
        · rintro rfl
          rw [hsome] at hl
          cases hl
      · refine ⟨hgrow', ?_, ?_, fun l => ?_⟩
        · dsimp only
          rw [hnew, update_self]
        · rw [hfree, if_pos hnone]
        · dsimp only
          rw [hnew]
          by_cases hlk : l = k
          · simp [hlk]
          · rw [update_of_ne hlk]
            refine ⟨fun hl => ⟨hl, hlk, ?_⟩, fun hl => hl.1⟩
            rintro rfl
            rw [hsome] at hl
            cases hl
    · -- the indirect block is new, and so is its entry
      have hnone : (T x).dinode.slot s.sect MAXFILE = none := by
        rw [hind, h0, Fs.ptr_zero]
      have hnone' : (T x).dinode.slot s.sect k = none := slot_none_of_indirect hdir hk h0
      have hplace : place NDIRECT = MAXFILE := if_neg (Nat.lt_irrefl _)
      rw [hplace] at hnew
      rw [if_pos hnone, if_pos hnone'] at hroom ⊢
      have hself : update T x d1 x = d1 := update_self ..
      have hslot1 : (update T x d1 x).dinode.slot s1.sect k = none := by
        rw [hself, hnew, update_of_ne hmax, hnone']
      have htype1 : (update T x d1 x).dinode.type ≠ .free := by
        rw [hself, hgrow.type]
        exact htype
      have ha1 : (update T x d1 x).addrs NDIRECT ≠ 0 := by
        rw [hself, haddr]
        have := h.low
        unfold nmeta at this
        omega
      have hwp := indirectAddr_wp hgrow.work htype1 ha1 hdir hk fun _ => by omega
      rw [hself] at hwp
      refine wp_seq hwp ?_
      rintro b s2 ⟨hgrow', ⟨hb, rfl⟩ | ⟨-, hfree', hnew'⟩⟩
      · rw [hself] at hslot1
        rw [hslot1] at hb
        cases hb
      · refine ⟨hgrow.trans hgrow', ?_, by omega, fun l => ?_⟩
        · dsimp only
          rw [hnew', update_self]
        · dsimp only
          rw [hnew', hnew]
          by_cases hlk : l = k
          · simp [hlk]
          · by_cases hlm : l = MAXFILE
            · simp [hlm, hmax.symm]
            · simp [hlk, hlm]

/-! ## Bytes -/

/-- The inode has the blocks that its bytes need and no others, and the bytes are in them. -/
structure Holds (D : Data) (d : Dinode) (l : List UInt8) : Prop where
  le : l.length ≤ MAXFILE * BSIZE
  slot : ∀ k, k < MAXFILE → (d.slot D k = none ↔ l.length ≤ k * BSIZE)
  indirect : d.slot D MAXFILE = none ↔ l.length ≤ NDIRECT * BSIZE
  byte : ∀ i, i < l.length → l[i]? = some (d.byte D i)

/-- The number of blocks of a file of `n` bytes. -/
def blocksFor (n : Nat) : Nat := (n + BSIZE - 1) / BSIZE + if NDIRECT * BSIZE < n then 1 else 0

variable {c q : List UInt8}

theorem Holds.backed {D : Data} {d : Dinode} (h : Holds D d c) : Fs.Backed D d c.length := by
  intro l hl
  have hlt : l < MAXFILE := Nat.lt_of_mul_lt_mul_right (hl.trans_le h.le)
  apply Option.ne_none_iff_exists'.1
  intro hnone
  have := (h.slot l hlt).1 hnone
  omega

/-- `need` counts the blocks between `blocksFor` of the lengths before and after. -/
theorem Holds.need_eq {D : Data} {d : Dinode} (h : Holds D d c) (hlt : c.length / BSIZE < MAXFILE)
    (hq : 0 < q.length) (hq' : q.length ≤ (c.length / BSIZE + 1) * BSIZE - c.length) :
    blocksFor (c.length + q.length) = blocksFor c.length + need D d (c.length / BSIZE) := by
  unfold need blocksFor
  rw [if_congr (h.slot _ hlt) rfl rfl, if_congr (and_congr_right fun _ => h.indirect) rfl rfl]
  unfold BSIZE NDIRECT at *
  split_ifs <;> omega

theorem Work.write (h : Work T s 0) (htype : (T x).dinode.type ≠ .free) (hk : k < MAXFILE)
    (hb : (T x).dinode.slot s.sect k = some b) (f : Buf) :
    Frame x T s (T x) (s.put b f) ∧
      (T x).dinode.slot (s.put b f).sect = (T x).dinode.slot s.sect ∧
      ∀ i, i < MAXFILE * BSIZE → (T x).dinode.byte (s.put b f).sect i =
        if i / BSIZE = k then f (i % BSIZE) else (T x).dinode.byte s.sect i := by
  have hslots : Fs.slots (fun i => (T i).dinode) s.sect x k = some b := by
    rw [Fs.slots_alloc htype]
    exact hb
  obtain ⟨hlow, hlt⟩ := h.slot_lt htype (hk.trans (Nat.lt_succ_self _)) hb
  have hind : ∀ y, Fs.slots (fun i => (T i).dinode) s.sect y MAXFILE ≠ some b := by
    intro y hy
    have := (h.account.inj (hk.trans (Nat.lt_succ_self _)) (Nat.lt_succ_self _) hslots hy).2
    omega
  refine ⟨⟨?_, ⟨_, rfl⟩, fun hT => hT, fun c hc => ?_, rfl, fun y hyx hy => ⟨?_, ?_⟩⟩, ?_, ?_⟩
  · rw [update_eq_self]
    refine ⟨h.len, h.low, h.high, h.account.set_data hind, fun c hc hc' => ?_⟩
    have hne : c ≠ b := by
      have : s.freeblock ≤ c := hc
      omega
    exact (update_of_ne hne _ _).trans (h.zero c hc hc')
  · exact update_of_ne (by omega) _ _
  · exact h.account.slot_write hk hslots f hy
  · exact h.account.kept_write hk hslots f hy hyx
  · exact h.account.slot_write hk hslots f htype
  · intro i hi
    exact h.account.byte_write hk hslots f hi

/-- The bytes of one turn of the loop are behind the others. -/
theorem Holds.append {D D' D'' : Data} {d d' : Dinode} (h : Holds D d c) (hkept : Kept D d D' d')
    (hq : 0 < q.length) (hq' : q.length ≤ (c.length / BSIZE + 1) * BSIZE - c.length)
    (hlt : c.length / BSIZE < MAXFILE) (hb : d'.slot D' (c.length / BSIZE) = some b)
    (hnone : ∀ l, d'.slot D' l = none ↔
      d.slot D l = none ∧ l ≠ c.length / BSIZE ∧ ¬ (l = MAXFILE ∧ NDIRECT ≤ c.length / BSIZE))
    (hslot : d'.slot D'' = d'.slot D')
    (hbyte : ∀ i, i < MAXFILE * BSIZE → d'.byte D'' i =
      if i / BSIZE = c.length / BSIZE then
        splice (D' b) (c.length - c.length / BSIZE * BSIZE) q (i % BSIZE)
      else d'.byte D' i) : Holds D'' d' (c ++ q) := by
  have hlen : (c ++ q).length = c.length + q.length := List.length_append
  have hle : c.length + q.length ≤ MAXFILE * BSIZE := by
    unfold BSIZE MAXFILE NINDIRECT BSIZE NDIRECT at *
    omega
  have hbyte' : ∀ i, i < c.length → d'.byte D' i = d.byte D i := fun i hi =>
    hkept.byte h.backed h.le hi
  constructor
  · rw [hlen]
    exact hle
  · intro l hl
    have hne : ¬ (l = MAXFILE ∧ NDIRECT ≤ c.length / BSIZE) := fun ⟨heq, _⟩ => hl.ne heq
    rw [hslot, hnone, h.slot l hl, hlen, and_iff_left hne]
    clear hle hlt hl hne
    unfold BSIZE at *
    omega
  · rw [hslot, hnone, h.indirect, hlen]
    unfold BSIZE NDIRECT MAXFILE NINDIRECT BSIZE NDIRECT at *
    constructor
    · rintro ⟨h1, h2, h3⟩
      omega
    · intro h1
      exact ⟨by omega, by omega, by omega⟩
  · intro i hi
    rw [hlen] at hi
    rw [hbyte i (by omega)]
    by_cases hic : i < c.length
    · rw [List.getElem?_append_left hic, h.byte i hic, ← hbyte' i hic]
      split
      · -- an old byte of the block that is written
        rename_i hdiv
        have hold : d'.byte D' i = D' b (i % BSIZE) := by
          unfold Dinode.byte
          rw [hdiv, hb]
          rfl
        rw [splice_outside, hold]
        left
        unfold BSIZE at *
        omega
      · rfl
    · have hdiv : i / BSIZE = c.length / BSIZE := by
        unfold BSIZE at *
        omega
      rw [List.getElem?_append_right (by omega), if_pos hdiv]
      have hmod : i % BSIZE = c.length - c.length / BSIZE * BSIZE + (i - c.length) := by
        unfold BSIZE at *
        omega
      rw [hmod, splice_inside (by omega)]

theorem turn_wp {α : Type} {K : Din → M α} {Q : α → State → Prop} (h : Work T s 0)
    (htype : (T x).dinode.type ≠ .free) (hd : Holds s.sect (T x).dinode c) (hq : 0 < q.length)
    (hq' : q.length ≤ (c.length / BSIZE + 1) * BSIZE - c.length) (hlt : c.length / BSIZE < MAXFILE)
    (hroom : s.freeblock + blocksFor (c.length + q.length) ≤ FSSIZE + blocksFor c.length)
    (hK : ∀ d s', Frame x T s d s' → Holds s'.sect d.dinode (c ++ q) →
      s'.freeblock + blocksFor c.length = s.freeblock + blocksFor (c.length + q.length) →
      wp (fun _ => False) (K d) Q s') :
    wp (fun _ => False) (do
      let (d, b) ← blockOf (T x) (c.length / BSIZE)
      let buf ← rsect b
      wsect b (splice buf (c.length - c.length / BSIZE * BSIZE) q)
      K d) Q s := by
  have hneed := hd.need_eq hlt hq hq'
  refine wp_seq (blockOf_wp h htype hlt (by omega)) ?_
  rintro ⟨d, b⟩ s1 ⟨hgrow, hb, hfree, hnone⟩
  dsimp only at hgrow hb hnone ⊢
  have hself : update T x d x = d := update_self ..
  have htype1 : (update T x d x).dinode.type ≠ .free := by
    rw [hself, hgrow.type]
    exact htype
  have hb1 : (update T x d x).dinode.slot s1.sect (c.length / BSIZE) = some b := by
    rwa [hself]
  obtain ⟨-, hltb⟩ := hgrow.work.slot_lt htype1 (hlt.trans (Nat.lt_succ_self _)) hb1
  have hltb : b < FSSIZE := hltb.trans_le hgrow.work.high
  obtain ⟨hframe, hslot, hbyte⟩ := hgrow.work.write htype1 hlt hb1
    (splice (s1.sect b) (c.length - c.length / BSIZE * BSIZE) q)
  rw [hself] at hslot hbyte hframe
  rw [wp_bind]
  refine rsect_total hgrow.work.len hltb ?_
  rw [wp_bind]
  refine wsect_total hgrow.work.len hltb ?_
  apply hK
  · exact hgrow.toFrame.trans hframe
  · exact hd.append hgrow.kept hq hq' hlt hb hnone hslot hbyte
  · show s1.freeblock + _ = _
    omega

theorem blocksFor_mono {m n : Nat} (h : m ≤ n) : blocksFor m ≤ blocksFor n := by
  unfold blocksFor BSIZE NDIRECT
  split_ifs <;> omega

theorem appendLoop_wp {turns : Nat} {p : List UInt8} (hturns : p.length ≤ turns) (h : Work T s 0)
    (htype : (T x).dinode.type ≠ .free) (hd : Holds s.sect (T x).dinode c)
    (hlen : c.length + p.length ≤ MAXFILE * BSIZE)
    (hroom : s.freeblock + blocksFor (c.length + p.length) ≤ FSSIZE + blocksFor c.length) :
    wp (fun _ => False) (appendLoop turns (T x) c.length p) (fun r s' => Frame x T s r.1 s' ∧
      Holds s'.sect r.1.dinode (c ++ p) ∧ r.2 = c.length + p.length ∧
      s'.freeblock + blocksFor c.length = s.freeblock + blocksFor (c.length + p.length)) s := by
  induction turns generalizing T s c p with
  | zero =>
    obtain rfl : p = [] := List.length_eq_zero_iff.1 (Nat.le_zero.1 hturns)
    rw [List.append_nil]
    exact ⟨.refl h x, hd, rfl, rfl⟩
  | succ turns ih =>
    unfold appendLoop
    rw [wp_ite]
    constructor
    · intro hp
      obtain rfl : p = [] := List.length_eq_zero_iff.1 hp
      rw [List.append_nil]
      exact ⟨.refl h x, hd, rfl, rfl⟩
    intro hp
    have hmax : c.length / BSIZE < MAXFILE := Fs.div_lt_maxfile (by omega)
    rw [wp_ite]
    refine ⟨fun _ => ?_, fun hge => absurd hmax hge⟩
    dsimp only
    have hoff : c.length < (c.length / BSIZE + 1) * BSIZE := by
      unfold BSIZE
      omega
    -- the turn takes `n` bytes of `p`
    generalize hn : min p.length ((c.length / BSIZE + 1) * BSIZE - c.length) = n
    have htake : (p.take n).length = n := by
      rw [List.length_take]
      omega
    have hdrop : (p.drop n).length = p.length - n := List.length_drop
    have hmono := blocksFor_mono (m := c.length + n) (n := c.length + p.length) (by omega)
    refine turn_wp (K := fun d => appendLoop turns d (c.length + n) (p.drop n)) h htype hd
      (by omega) (by omega) hmax (by rw [htake]; omega) ?_
    intro d s1 hframe hd1 hfree
    rw [htake] at hfree
    have hself : update T x d x = d := update_self ..
    have htype1 : d.dinode.type ≠ .free := by
      rw [hframe.type]
      exact htype
    have hsum : c.length + n + (p.drop n).length = c.length + p.length := by omega
    have hrest := @ih (update T x d) s1 (c ++ p.take n) (p.drop n)
    rw [hself, List.append_assoc, List.take_append_drop, List.length_append, htake, hsum] at hrest
    refine wp_mono (hrest (by omega) hframe.work htype1 hd1 hlen (by omega)) ?_
    intro r s2 ⟨hframe2, hd2, hr, hfree2⟩
    exact ⟨hframe.trans hframe2, hd2, hr, by omega⟩

end Laboratorio.Xv6.Mkfs
