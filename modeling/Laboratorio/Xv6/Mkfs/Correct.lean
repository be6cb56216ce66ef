import Laboratorio.Xv6.Mkfs.Build

/-!
# What is right and what is wrong with the image
-/

namespace Laboratorio.Xv6.Mkfs

open Laboratorio.Lib Bytes List
open Fs (BSIZE NDIRECT NINDIRECT MAXFILE FSSIZE ROOTINO DIRSIZ NSLOT Dinode Data Account Kept)

variable {files : List Input} {s : State} {b i k : Nat}

/-- A file of `k` full blocks. -/
def Input.filled (k : Nat) : Input where
  name := [97]
  fd := some (replicate k (replicate BSIZE 7))
  nul := by decide
  chunk := by
    rintro _ ⟨⟩ c hc
    rw [eq_of_mem_replicate hc, length_replicate]
    decide

/-- A file with no bytes. -/
def Input.empty : Input := .filled 0

theorem room_filled {n k : Nat} (hn : n + 2 ≤ NINODE) (hk : k ≤ MAXFILE)
    (hroom : blocksFor (Fs.DIRENT * (n + 2)) + n * blocksFor (k * BSIZE) ≤ nblocks) :
    Room (replicate n (.filled k)) := by
  have hlen : (Input.filled k).contents.length = k * BSIZE := by simp [Input.contents, Input.filled]
  have hmem : ∀ f ∈ replicate n (Input.filled k), f = .filled k := fun f hf => eq_of_mem_replicate hf
  refine ⟨fun f hf => ?_, fun f hf => ?_, fun f hf => ?_, ?_, ?_⟩
  · rw [hmem f hf]
    rfl
  · rw [hmem f hf]
    exact (by decide : Fs.slash ∉ [97])
  · rw [hmem f hf, hlen]
    exact Nat.mul_le_mul_right BSIZE hk
  · unfold used
    rwa [length_replicate, map_replicate, hlen, sum_replicate, smul_eq_mul]
  · rwa [length_replicate]

theorem room_empty {n : Nat} (h : n + 2 ≤ NINODE) : Room (replicate n Input.empty) := by
  have hblocks : blocksFor (Fs.DIRENT * NINODE) ≤ nblocks := by decide
  exact room_filled h (Nat.zero_le _) ((blocksFor_mono (Nat.mul_le_mul_left _ h)).trans hblocks)

/-- Three files that have an indirect block each. -/
def threeFiles : List Input := replicate 3 (.filled 20)

theorem room_threeFiles : Room threeFiles := room_filled (by decide) (by decide) (by decide)

/-! ## Too many files -/

/-- **The inodes are not bounded.**  When the program ends with status 0, every inode number is below
`NINODES`, every block is below `FSSIZE` and every write of an inode is into the inode table if and
only if there are fewer than `NINODES - 1` files. -/
theorem mkfs_limits_iff (files : List Input) (s : State) (h : mkfs files = .ok s) :
    ((∀ i ∈ s.inums, i < NINODES) ∧ (∀ b ∈ s.blocks, b < FSSIZE) ∧
      ∀ w ∈ s.iwrites, inodestart ≤ w ∧ w < bmapstart) ↔ files.length < NINODES - 1 := by
  have hl := mkfs_limits h
  have hn : NINODES = 200 := rfl
  constructor
  · rintro ⟨hin, -, -⟩
    by_contra hge
    -- the number of the file at index 198
    have hmem : 200 ∈ s.inums := by
      rw [hl.inums]
      exact mem_map.2 ⟨199, mem_range.2 (by omega), rfl⟩
    have := hin 200 hmem
    omega
  · intro hlt
    have hin : ∀ i ∈ s.inums, i < NINODES := by
      intro i hi
      rw [hl.inums] at hi
      obtain ⟨j, hj, rfl⟩ := mem_map.1 hi
      have hj := mem_range.1 hj
      show (j + 1) % 2 ^ 32 < NINODES
      omega
    refine ⟨hin, hl.blocks, fun w hw => ?_⟩
    obtain ⟨i, hi, rfl⟩ := hl.iwrites w hw
    have hi := hin i hi
    have hI : IPB = 8 := rfl
    have hb : bmapstart = inodestart + 26 := rfl
    unfold IBLOCK
    rw [hI]
    omega

theorem mkfs_limits_three : ∃ s, mkfs threeFiles = .ok s ∧ (∀ i ∈ s.inums, i < NINODES) ∧
    (∀ b ∈ s.blocks, b < FSSIZE) ∧ ∀ w ∈ s.iwrites, inodestart ≤ w ∧ w < bmapstart := by
  obtain ⟨s, hs, -⟩ := mkfs_spec room_threeFiles
  exact ⟨s, hs, (mkfs_limits_iff threeFiles s hs).2 (by decide)⟩

/-- With 199 empty files the program ends with status 0 and the last one has inode `NINODES`. -/
theorem mkfs_last_inode : ∃ s, mkfs (List.replicate 199 Input.empty) = .ok s ∧ NINODES ∈ s.inums := by
  obtain ⟨s, hs, -⟩ := mkfs_spec (room_empty (n := 199) (by decide))
  refine ⟨s, hs, ?_⟩
  rw [(mkfs_limits hs).inums, length_replicate]
  exact mem_map.2 ⟨199, mem_range.2 (by omega), rfl⟩

/-! ## The bit map -/

/-- Bit `b` of the block. -/
def bitAt (f : Buf) (b : Nat) : Bool := (f (b / 8)).toNat.testBit (b % 8)

theorem bitAt_set (f : Buf) (i b : Nat) :
    bitAt (Function.update f (i / 8) (UInt8.ofNat ((f (i / 8)).toNat ||| 1 <<< (i % 8)))) b =
      (decide (b = i) || bitAt f b) := by
  have hbyte : (f (i / 8)).toNat ||| 1 <<< (i % 8) < 256 := by
    refine Nat.or_lt_two_pow (n := 8) (f (i / 8)).toNat_lt ?_
    rw [Nat.shiftLeft_eq, Nat.one_mul]
    exact Nat.pow_lt_pow_right (by decide) (Nat.mod_lt _ (by decide))
  unfold bitAt
  by_cases hdiv : b / 8 = i / 8
  · have hmod : i % 8 = b % 8 ↔ b = i := by omega
    rw [hdiv, Function.update_self, UInt8.toNat_ofNat_of_lt' hbyte, Nat.testBit_or,
      Nat.one_shiftLeft, Nat.testBit_two_pow, Bool.or_comm]
    simp only [hmod]
  · have hne : b ≠ i := by
      rintro rfl
      exact hdiv rfl
    rw [Function.update_of_ne hdiv, decide_eq_false hne, Bool.false_or]

/-- The loop of `balloc` sets the first bits and no others. -/
theorem bitAt_bitmap (used b : Nat) : bitAt (bitmap used) b = decide (b < used) := by
  unfold bitmap
  induction used with
  | zero =>
    unfold bitAt
    simp [zeroes]
  | succ used ih =>
    rw [range_succ, foldl_append, foldl_cons, foldl_nil, bitAt_set, ih]
    by_cases hb : b = used
    · simp [hb]
    · have hlt : b < used + 1 ↔ b < used := by omega
      simp [hb, hlt]

/-! ## The blocks of the files -/

/-- The files that fit the image. -/
structure Fits (files : List Input) : Prop extends Room files where
  few : files.length < NINODES - 1

/-- The image is well-formed. -/
structure WellFormed (s : State) : Prop where
  backed : ∀ i < NINODES, (s.din i).type ≠ 0 → ∀ k < ((s.din i).size + BSIZE - 1) / BSIZE,
    k < MAXFILE ∧ (s.din i).dinode.slot s.sect k ≠ none
  inside : ∀ i < NINODES, (s.din i).type ≠ 0 → ∀ k < NSLOT, ∀ b,
    (s.din i).dinode.slot s.sect k = some b → nmeta ≤ b ∧ b < FSSIZE
  distinct : ∀ i < NINODES, (s.din i).type ≠ 0 → ∀ j < NINODES, (s.din j).type ≠ 0 →
    ∀ k < NSLOT, ∀ l < NSLOT, ∀ b, (s.din i).dinode.slot s.sect k = some b →
      (s.din j).dinode.slot s.sect l = some b → i = j ∧ k = l
  bits : ∀ b < 8 * BSIZE, bitAt (s.sect bmapstart) b = decide (b < s.freeblock)

theorem Img.node {C : Nat → Option Node} (h : Img C s) (hi : i < NINODE)
    (ht : (s.din i).type ≠ 0) : ∃ n, C i = some n ∧ Stored s.sect (s.din i) n := by
  cases hC : C i with
  | none =>
    rw [h.empty i hC hi] at ht
    exact absurd rfl ht
  | some n => exact ⟨n, rfl, (h.stored i n hC).2⟩

theorem Img.slots_eq {C : Nat → Option Node} (h : Img C s) (hi : i < NINODE)
    (ht : (s.din i).type ≠ 0) : Fs.slots (fun i => (s.table i).dinode) s.sect i =
      (s.din i).dinode.slot s.sect := by
  obtain ⟨n, -, hs⟩ := h.node hi ht
  have halloc : (s.table i).dinode.type ≠ .free := by
    rw [table_of_lt hi]
    exact hs.alloc
  rw [Fs.slots_alloc halloc, table_of_lt hi]

theorem lt_room (hi : i < NINODES) : i < NINODE := hi.trans (by decide)

theorem Final.inside (h : Final files s) (hi : i < NINODES) (ht : (s.din i).type ≠ 0)
    (hk : k < NSLOT) (hb : (s.din i).dinode.slot s.sect k = some b) : nmeta ≤ b ∧ b < FSSIZE := by
  obtain ⟨n, -, hs⟩ := h.img.node (lt_room hi) ht
  have hlt := h.img.work.slot_lt (x := i) (by rw [table_of_lt (lt_room hi)]; exact hs.alloc) hk
    (by rwa [table_of_lt (lt_room hi)])
  exact ⟨hlt.1, hlt.2.trans_le h.img.work.high⟩

/-- The blocks that the size of an inode counts are there if its bytes reach into them. -/
theorem Stored.backed_iff {D : Data} {d : Din} {n : Node} (h : Stored D d n)
    (hsize : n.size ≤ MAXFILE * BSIZE) :
    (∀ k < (d.size + BSIZE - 1) / BSIZE, k < MAXFILE ∧ d.dinode.slot D k ≠ none) ↔
      ∀ k, k * BSIZE < n.size → k * BSIZE < n.data.length := by
  obtain ⟨A, hA⟩ := h.fields
  have hd : d.size = n.size := by rw [hA]
  have hk : ∀ k, k < (n.size + BSIZE - 1) / BSIZE ↔ k * BSIZE < n.size := by
    intro k
    unfold BSIZE
    omega
  rw [hd]
  constructor
  · intro hall k hlt
    obtain ⟨hmax, hslot⟩ := hall k ((hk k).2 hlt)
    rw [Ne, h.holds.slot k hmax] at hslot
    omega
  · intro hall k hlt
    have hlt := (hk k).1 hlt
    have hmax : k < MAXFILE := Nat.lt_of_mul_lt_mul_right (hlt.trans_le hsize)
    refine ⟨hmax, ?_⟩
    rw [Ne, h.holds.slot k hmax]
    have := hall k hlt
    omega

theorem Final.root (h : Final files s) : Stored s.sect (s.din ROOTINO)
    ⟨T_DIR, ((rootData files).length / BSIZE + 1) * BSIZE, rootData files⟩ :=
  (h.img.stored ROOTINO _ (Function.update_self ..)).2

/-- The size of the root counts one block too many when its last block is full. -/
theorem Final.root_backed_iff (h : Final files s) (hfits : Fits files) :
    (∀ k < ((s.din ROOTINO).size + BSIZE - 1) / BSIZE,
      k < MAXFILE ∧ (s.din ROOTINO).dinode.slot s.sect k ≠ none) ↔ (files.length + 2) % 32 ≠ 0 := by
  have hB : BSIZE = 512 := rfl
  have hM : MAXFILE = 140 := rfl
  have hD : Fs.DIRENT = 16 := rfl
  have hN : NINODES = 200 := rfl
  have hlen := length_rootData files
  have hfew := hfits.few
  rw [hD] at hlen
  have hsize : ((rootData files).length / BSIZE + 1) * BSIZE ≤ MAXFILE * BSIZE := by
    rw [hB, hM]
    omega
  rw [h.root.backed_iff hsize]
  dsimp only
  rw [hB]
  constructor
  · intro hall
    have := hall ((rootData files).length / 512) (by omega)
    omega
  · intro hmod k hk
    omega

theorem Final.file_backed (h : Final files s) (hfits : Fits files) (hi : i < NINODES)
    (hroot : i ≠ ROOTINO) (ht : (s.din i).type ≠ 0) :
    ∀ k < ((s.din i).size + BSIZE - 1) / BSIZE,
      k < MAXFILE ∧ (s.din i).dinode.slot s.sect k ≠ none := by
  obtain ⟨n, hn, hs⟩ := h.img.node (lt_room hi) ht
  unfold final at hn
  rw [Function.update_of_ne hroot] at hn
  have hfile : n.size = n.data.length ∧ n.data.length ≤ MAXFILE * BSIZE := by
    match i, hn, hroot with
    | 1, _, hroot => exact absurd rfl hroot
    | i + 2, hn, _ =>
      obtain ⟨f, hf, rfl⟩ := Option.map_eq_some_iff.1 hn
      exact ⟨rfl, hfits.size f (mem_of_getElem? hf)⟩
  refine (hs.backed_iff ?_).2 fun k hk => ?_
  · rw [hfile.1]
    exact hfile.2
  · rwa [hfile.1] at hk

theorem Final.type_root (h : Final files s) : (s.din ROOTINO).type ≠ 0 := by
  obtain ⟨A, hA⟩ := h.root.fields
  rw [hA]
  exact Nat.one_ne_zero

theorem Final.wellFormed_iff (h : Final files s) (hfits : Fits files) :
    WellFormed s ↔ (files.length + 2) % 32 ≠ 0 := by
  constructor
  · intro hwf
    exact (h.root_backed_iff hfits).1 (hwf.backed ROOTINO (by decide) h.type_root)
  · intro hmod
    refine ⟨fun i hi ht => ?_, fun i hi ht k hk b hb => h.inside hi ht hk hb,
      fun i hi ht j hj ht' k hk l hl b hb hb' => ?_, fun b _ => ?_⟩
    · by_cases hroot : i = ROOTINO
      · subst hroot
        exact (h.root_backed_iff hfits).2 hmod
      · exact h.file_backed hfits hi hroot ht
    · rw [← h.img.slots_eq (lt_room hi) ht] at hb
      rw [← h.img.slots_eq (lt_room hj) ht'] at hb'
      exact h.img.work.account.inj hk hl hb hb'
    · rw [h.bits]
      exact bitAt_bitmap ..

/-- **The root directory may count a block that it does not have.**  For every list of files that
fits, the program ends with status 0, and the image is well-formed if and only if the entries of the
root directory do not fill its last block. -/
theorem mkfs_wellFormed_iff (files : List Input) (h : Fits files) :
    ∃ s, mkfs files = .ok s ∧ (WellFormed s ↔ (files.length + 2) % 32 ≠ 0) := by
  obtain ⟨s, hs, hfinal⟩ := mkfs_spec h.toRoom
  exact ⟨s, hs, hfinal.wellFormed_iff h⟩

theorem mkfs_wellFormed_three : ∃ s, mkfs threeFiles = .ok s ∧ WellFormed s := by
  obtain ⟨s, hs, hiff⟩ := mkfs_wellFormed_iff threeFiles ⟨room_threeFiles, by decide⟩
  exact ⟨s, hs, hiff.2 (by decide)⟩

/-- With 30 files the entries of the root fill one block, and its size says two. -/
theorem mkfs_root_unbacked : ∃ s, mkfs (List.replicate 30 Input.empty) = .ok s ∧
    (s.din ROOTINO).size = 2 * BSIZE ∧ (s.din ROOTINO).dinode.slot s.sect 1 = none := by
  obtain ⟨s, hs, h⟩ := mkfs_spec (room_empty (n := 30) (by decide))
  have hlen : (rootData (List.replicate 30 Input.empty)).length = BSIZE := by
    rw [length_rootData, length_replicate]
    rfl
  refine ⟨s, hs, ?_, ?_⟩
  · obtain ⟨A, hA⟩ := h.root.fields
    rw [hA, hlen]
    rfl
  · rw [h.root.holds.slot 1 (by decide)]
    show (rootData _).length ≤ 1 * BSIZE
    rw [hlen, Nat.one_mul]

end Laboratorio.Xv6.Mkfs
