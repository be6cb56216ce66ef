import Laboratorio.Lib.Runs
import Laboratorio.Lib.SlotMap
import Laboratorio.Xv6.Fs.Trunc
import Laboratorio.Xv6.Fs.Walk

/-!
# Directories as finite maps

The entries of a directory are a table of slots (`SlotMap`): `dirlink` takes the first empty one, and
`unlink` leaves one empty.  Names are compared and stored up to `DIRSIZ` bytes, so the keys of the
table are names that are cut there.

A directory is locked while it is changed.  When `dirlink` finds the name it gives the inode back with
`iput`, and that waits for the lock of the inode: if the entry is one for the directory itself, such
as `.`, the process waits for itself.  `unlink` refuses `.` and `..` and directories that are not
empty, and for any other name it locks the inode that it finds.
-/

namespace Laboratorio.Xv6.Fs

open Laboratorio.Lib Bytes SlotMap Function

/-! ## Names -/

/-- What of a name is compared and stored. -/
def key (name : Name) : Name := name.take DIRSIZ

theorem cstring_take_succ (q : List UInt8) (n : Nat) : cstring (q.take (n + 1)) =
    if q.headD 0 = 0 then [] else q.headD 0 :: cstring (q.tail.take n) := by
  unfold cstring
  cases q with
  | nil => rfl
  | cons b q =>
    by_cases hb : b = 0
    · simp [hb]
    · simp [hb]

theorem strncmp_eq_zero (n : Nat) : ∀ {p q : List UInt8}, 0 ∉ p →
    (strncmp p q n = 0 ↔ p.take n = cstring (q.take n)) := by
  induction n with
  | zero => simp [strncmp, cstring]
  | succ n ih =>
    intro p q hp
    have hsub : ((p.headD 0).toNat : Int) - (q.headD 0).toNat = 0 ↔ p.headD 0 = q.headD 0 := by
      rw [← UInt8.toNat_inj]
      omega
    rw [strncmp, cstring_take_succ]
    cases p with
    | nil =>
      rw [if_neg (by simp), hsub]
      show 0 = q.headD 0 ↔ [] = _
      split
      · rename_i hq
        exact iff_of_true hq.symm rfl
      · rename_i hq
        exact iff_of_false (fun h => hq h.symm) nofun
    | cons a p =>
      obtain ⟨ha, hp⟩ : a ≠ 0 ∧ 0 ∉ p := by simpa [eq_comm] using hp
      by_cases hab : a = q.headD 0
      · rw [if_pos ⟨ha, hab⟩, if_neg (hab ▸ ha), ← hab, List.take_succ_cons, List.cons.injEq]
        simpa using ih hp
      · rw [if_neg (fun h => hab h.2), hsub]
        refine iff_of_false hab fun h => ?_
        split at h
        · cases h
        · exact hab (List.cons.inj h).1

theorem cstring_strncpy (n : Nat) : ∀ {t : List UInt8}, 0 ∉ t → cstring (strncpy t n) = t.take n := by
  induction n with
  | zero => simp [strncpy, cstring]
  | succ n ih =>
    intro t ht
    cases t with
    | nil => simp [strncpy, cstring, List.replicate_succ]
    | cons a t =>
      obtain ⟨ha, ht⟩ : a ≠ 0 ∧ 0 ∉ t := by simpa [eq_comm] using ht
      have hcons : strncpy (a :: t) (n + 1) = a :: strncpy t n := by simp [strncpy, ha]
      rw [hcons, List.take_succ_cons, ← ih ht]
      simp [cstring, ha]

/-! ## The table of a directory -/

/-- What an entry says. -/
def entry (de : List UInt8) : Option (Name × Nat) :=
  if direntInum de = 0 then none else some (direntName de, direntInum de)

theorem namecmp_eq_zero {name : Name} (hname : 0 ∉ name) {de : List UInt8} (hde : de.length = DIRENT) :
    namecmp name (de.drop 2) = 0 ↔ key name = direntName de := by
  have hlen : (de.drop 2).length = DIRSIZ := by
    rw [List.length_drop, hde]
    rfl
  rw [namecmp, strncmp_eq_zero _ hname, List.take_of_length_le hlen.le]
  rfl

theorem entry_dirent {name : Name} (hname : 0 ∉ name) {inum : Nat} (hpos : 0 < inum) (hlt : inum < 2 ^ 16) :
    entry (dirent name inum) = some (key name, inum) := by
  have htake : (dirent name inum).take 2 = toBytes 2 inum := List.take_left' (length_toBytes 2 inum)
  have hdrop : (dirent name inum).drop 2 = strncpy name DIRSIZ := List.drop_left' (length_toBytes 2 inum)
  have hinum : direntInum (dirent name inum) = inum := by
    rw [direntInum, htake, ofBytes_toBytes]
    exact Nat.mod_eq_of_lt (by simpa using hlt)
  have hkey : direntName (dirent name inum) = key name := by
    rw [direntName, hdrop, cstring_strncpy _ hname]
    rfl
  rw [entry, hinum, hkey, if_neg (Nat.pos_iff_ne_zero.1 hpos)]

theorem entry_zero : entry (List.replicate DIRENT 0) = none := by decide

/-- The bytes of the entry number `k`. -/
def piece (bytes : List UInt8) (k : Nat) : List UInt8 := (bytes.drop (DIRENT * k)).take DIRENT

def dirTable (bytes : List UInt8) : Table Name Nat :=
  (List.range (bytes.length / DIRENT)).map fun k => entry (piece bytes k)

theorem getElem?_piece (bytes : List UInt8) (k i : Nat) :
    (piece bytes k)[i]? = if i < DIRENT then bytes[DIRENT * k + i]? else none := by
  rw [piece, List.getElem?_take, List.getElem?_drop]

theorem getElem?_dirTable {bytes : List UInt8} {m : Nat} (h : bytes.length = DIRENT * m) (k : Nat) :
    (dirTable bytes)[k]? = if k < m then some (entry (piece bytes k)) else none := by
  rw [dirTable, h, Nat.mul_div_cancel_left m (by decide), List.getElem?_map]
  split
  · rename_i hk
    rw [List.getElem?_range hk]
    rfl
  · rename_i hk
    rw [List.getElem?_eq_none (by simpa using hk)]
    rfl

theorem piece_put {bytes de : List UInt8} {m k : Nat} (h : bytes.length = DIRENT * m) (hk : k ≤ m)
    (hde : de.length = DIRENT) (j : Nat) :
    piece (put bytes (DIRENT * k) de) j = if j = k then de else piece bytes j := by
  have hD : DIRENT = 16 := rfl
  have hoff : DIRENT * k ≤ bytes.length := by
    rw [h]
    exact Nat.mul_le_mul_left _ hk
  refine List.ext_getElem? fun i => ?_
  rw [getElem?_piece, getElem?_put _ hoff, hde]
  by_cases hj : j = k
  · subst hj
    rw [if_pos rfl]
    split
    · rw [if_pos (by omega), Nat.add_sub_cancel_left]
    · rw [List.getElem?_eq_none (by omega)]
  · rw [if_neg hj, getElem?_piece]
    split
    · rw [if_neg]
      rw [hD] at *
      omega
    · rfl

/-- An entry is written in its place, or behind the last one. -/
theorem getElem?_dirTable_put {bytes de : List UInt8} {m k : Nat} (h : bytes.length = DIRENT * m) (hk : k ≤ m)
    (hde : de.length = DIRENT) (j : Nat) : (dirTable (put bytes (DIRENT * k) de))[j]? =
      if j = k then some (entry de) else (dirTable bytes)[j]? := by
  have hoff : DIRENT * k ≤ bytes.length := by
    rw [h]
    exact Nat.mul_le_mul_left _ hk
  have hlen : (put bytes (DIRENT * k) de).length = DIRENT * max m (k + 1) := by
    rw [length_put _ hoff, h, hde, ← Nat.mul_succ, Nat.mul_max_mul_left]
  rw [getElem?_dirTable hlen, getElem?_dirTable h, piece_put h hk hde]
  by_cases hj : j = k
  · rw [if_pos hj, if_pos hj, if_pos (by omega)]
  · rw [if_neg hj, if_neg hj]
    congr 1
    exact propext (by omega)

/-! ## Reading a directory -/

/-- The entry `dp` of the cache is for the inode `x`, a directory with the entries `l`, in a well-formed
file system whose directories consist of whole entries. -/
structure Entries (sb : Superblock) (dp : Ino) (x : Nat) (l : Table Name Nat) (s : State) : Prop where
  good : Good sb s
  whole : ∀ y, (s.dinode y).type = .T_DIR → DIRENT ∣ (s.dinode y).size
  inum : (s.inode dp).inum = x
  ref : 0 < (s.inode dp).ref
  type : (s.file dp).type = .T_DIR
  size : (s.file dp).size = DIRENT * l.length
  table : dirTable ((s.file dp).bytes s.data) = l

/-- The entries of the cache that are locked. -/
def State.locks (s : State) : Finset Ino := Finset.univ.filter fun i => (s.inode i).lock = true

/-- The directory is locked, and nothing else is.  Its names are distinct. -/
structure Dir (sb : Superblock) (dp : Ino) (x : Nat) (l : Table Name Nat) (s : State) : Prop
    extends Entries sb dp x l s where
  valid : (s.inode dp).valid = true
  lock : s.locks = {dp}
  distinct : Distinct l

variable {sb : Superblock} {dp ip : Ino} {l l' : Table Name Nat} {s s1 s' : State} {name : Name} {x inum k : Nat}
  {E : Panic → Prop}

theorem mem_locks : ip ∈ s.locks ↔ (s.inode ip).lock = true := by simp [State.locks]

theorem locks_update {i : Inode} (h : s'.inode = update s.inode ip i) :
    s'.locks = if i.lock = true then insert ip s.locks else s.locks.erase ip := by
  ext j
  rw [mem_locks, h]
  by_cases hj : j = ip
  · subst hj
    split <;> simp [*]
  · split <;> simp [hj, mem_locks]

theorem locks_same {i : Inode} (h : s'.inode = update s.inode ip i) (hlock : i.lock = (s.inode ip).lock) :
    s'.locks = s.locks := by
  rw [locks_update h, hlock]
  split
  · exact Finset.insert_eq_of_mem (mem_locks.2 ‹_›)
  · exact Finset.erase_eq_of_notMem (mt mem_locks.1 ‹_›)

theorem Dir.copy (h : Dir sb dp x l s) : (s.inode dp).copy = s.file dp := (h.good.copies dp h.ref h.valid).1

theorem Entries.alloc (h : Entries sb dp x l s) : (s.file dp).type ≠ .free := by simp [h.type]

theorem Entries.not_dev (h : Entries sb dp x l s) : (s.file dp).type ≠ .T_DEV := by simp [h.type]

theorem Entries.small (h : Entries sb dp x l s) : DIRENT * l.length ≤ MAXFILE * BSIZE := by
  rw [← h.size]
  exact h.good.small _ h.alloc

theorem Entries.length_bytes (h : Entries sb dp x l s) :
    ((s.file dp).bytes s.data).length = DIRENT * l.length := by
  rw [Dinode.bytes, length_slice, h.size]

theorem Entries.readDirent_wp (h : Entries sb dp x l s) (hvalid : (s.inode dp).valid = true) (e : Panic)
    (hk : k < l.length) :
    wp E (readDirent sb e dp (DIRENT * k))
      (fun de s' => de.length = DIRENT ∧ l[k]? = some (entry de) ∧ s' = s) s := by
  have hend : DIRENT * k + DIRENT ≤ DIRENT * l.length := Nat.mul_le_mul_left DIRENT hk
  have hM : MAXFILE * BSIZE < 2 ^ 31 := by decide
  have hsmall := h.small
  unfold readDirent
  refine wp_seq (h.good.readi_wp (n := DIRENT) h.ref hvalid h.not_dev (DIRENT * k) ?_ ?_) ?_
  · rw [h.size]
    omega
  · omega
  rintro r s1 ⟨rfl, rfl⟩
  have hlen : (piece ((s1.file dp).bytes s1.data) k).length = DIRENT := by
    rw [piece, List.length_take, List.length_drop, h.length_bytes]
    omega
  show wp E (if (piece ((s1.file dp).bytes s1.data) k).length = DIRENT then _ else _) _ s1
  rw [if_pos hlen]
  refine ⟨hlen, ?_, rfl⟩
  have hget := getElem?_dirTable h.length_bytes k
  rwa [h.table, if_pos hk] at hget

/-- The loop of `dirlookup` finds an entry with the name, if there is one. -/
theorem Dir.lookupLoop_wp (h : Dir sb dp x l s) (hname : 0 ∉ name) (n : Nat) : ∀ {k : Nat}, l.length < n + k →
    wp E (lookupLoop sb dp name (DIRENT * l.length) n (DIRENT * k)) (fun r s' => s' = s ∧
      match r with
      | none => ∀ j v, k ≤ j → l[j]? ≠ some (some (key name, v))
      | some (off, inum) => ∃ j, off = DIRENT * j ∧ l[j]? = some (some (key name, inum))) s := by
  induction n with
  | zero =>
    intro k hk
    refine ⟨rfl, fun j v hj hget => ?_⟩
    rw [List.getElem?_eq_none (by omega)] at hget
    cases hget
  | succ n ih =>
    intro k hk
    unfold lookupLoop
    by_cases hlt : k < l.length
    · have hrest := ih (k := k + 1) (by omega)
      rw [Nat.mul_succ] at hrest
      rw [if_pos (Nat.mul_lt_mul_of_pos_left hlt (by decide))]
      refine wp_seq (h.readDirent_wp h.valid _ hlt) ?_
      rintro de s1 ⟨hde, hentry, rfl⟩
      unfold entry at hentry
      -- an entry that does not match is skipped
      have hskip : (∀ v, l[k]? ≠ some (some (key name, v))) →
          wp E (lookupLoop sb dp name (DIRENT * l.length) n (DIRENT * k + DIRENT)) (fun r s' => s' = s1 ∧
            match r with
            | none => ∀ j v, k ≤ j → l[j]? ≠ some (some (key name, v))
            | some (off, inum) => ∃ j, off = DIRENT * j ∧ l[j]? = some (some (key name, inum))) s1 := by
        intro hne
        refine wp_mono hrest ?_
        rintro (_ | ⟨off, inum⟩) s2 ⟨hs2, hr⟩
        · refine ⟨hs2, fun j v hj => ?_⟩
          rcases Nat.eq_or_lt_of_le hj with rfl | hj
          · exact hne v
          · exact hr j v hj
        · exact ⟨hs2, hr⟩
      refine wp_ite.2 ⟨fun hzero => hskip fun v hv => ?_, fun hne => ?_⟩
      · rw [if_pos hzero, hv] at hentry
        cases hentry
      rw [if_neg hne] at hentry
      refine wp_ite.2 ⟨fun hcmp => ⟨rfl, k, rfl, ?_⟩, fun hcmp => hskip fun v hv => ?_⟩
      · rw [hentry, ← (namecmp_eq_zero hname hde).1 hcmp]
      · rw [hv] at hentry
        simp only [Option.some.injEq, Prod.mk.injEq] at hentry
        exact hcmp ((namecmp_eq_zero hname hde).2 hentry.1)
    · rw [if_neg (Nat.not_lt.2 (Nat.mul_le_mul_left _ (Nat.le_of_not_lt hlt)))]
      refine ⟨rfl, fun j v hj hget => ?_⟩
      rw [List.getElem?_eq_none (by omega)] at hget
      cases hget

/-- The loop of `dirlink` finds the first empty entry, or the end. -/
theorem Dir.emptyLoop_wp (h : Dir sb dp x l s) (n : Nat) : ∀ {k : Nat}, l.length < n + k → k ≤ room l →
    wp E (emptyLoop sb dp (DIRENT * l.length) n (DIRENT * k)) (fun off s' => off = DIRENT * room l ∧ s' = s) s := by
  have hroom : room l ≤ l.length := List.findIdx_le_length
  induction n with
  | zero =>
    intro k hk hle
    omega
  | succ n ih =>
    intro k hk hle
    unfold emptyLoop
    by_cases hlt : k < l.length
    · have hrest := ih (k := k + 1) (by omega)
      rw [Nat.mul_succ] at hrest
      rw [if_pos (Nat.mul_lt_mul_of_pos_left hlt (by decide))]
      refine wp_seq (h.readDirent_wp h.valid _ hlt) ?_
      rintro de s1 ⟨hde, hentry, rfl⟩
      rw [List.getElem?_eq_getElem hlt, Option.some.injEq] at hentry
      refine wp_ite.2 ⟨fun hzero => ⟨?_, rfl⟩, fun hne => hrest ?_⟩
      · have hnone : (l[k]).isNone = true := by simp [hentry, entry, hzero]
        have : room l ≤ k := by
          by_contra hgt
          have hsome := List.not_of_lt_findIdx (Nat.lt_of_not_le hgt)
          simp [hnone] at hsome
        rw [Nat.le_antisymm hle this]
      · refine Nat.lt_of_le_of_ne hle ?_
        rintro rfl
        have hsome := getElem?_room hlt
        rw [List.getElem?_eq_getElem hlt, hentry, entry, if_neg hne] at hsome
        cases hsome
    · rw [if_neg (Nat.not_lt.2 (Nat.mul_le_mul_left _ (Nat.le_of_not_lt hlt)))]
      have : k = room l := by omega
      exact ⟨by rw [this], rfl⟩

/-- The loop of `isdirempty` sees the entries behind the first `k`. -/
theorem Entries.isdiremptyLoop_wp (h : Entries sb dp x l s) (hvalid : (s.inode dp).valid = true) (n : Nat) :
    ∀ {k : Nat}, l.length < n + k → wp E (isdiremptyLoop sb dp (DIRENT * l.length) n (DIRENT * k))
      (fun r s' => r = !(l.drop k).any Option.isSome ∧ s' = s) s := by
  induction n with
  | zero =>
    intro k hk
    refine ⟨?_, rfl⟩
    rw [List.drop_of_length_le (by omega)]
    rfl
  | succ n ih =>
    intro k hk
    unfold isdiremptyLoop
    by_cases hlt : k < l.length
    · have hrest := ih (k := k + 1) (by omega)
      rw [Nat.mul_succ] at hrest
      rw [if_pos (Nat.mul_lt_mul_of_pos_left hlt (by decide))]
      refine wp_seq (h.readDirent_wp hvalid _ hlt) ?_
      rintro de s1 ⟨hde, hentry, rfl⟩
      rw [List.getElem?_eq_getElem hlt, Option.some.injEq, entry] at hentry
      rw [List.drop_eq_getElem_cons hlt, List.any_cons, hentry]
      refine wp_ite.2 ⟨fun hzero => ?_, fun hne => ?_⟩
      · rw [if_pos hzero]
        exact hrest
      · rw [if_neg hne]
        exact ⟨rfl, rfl⟩
    · rw [if_neg (Nat.not_lt.2 (Nat.mul_le_mul_left _ (Nat.le_of_not_lt hlt)))]
      refine ⟨?_, rfl⟩
      rw [List.drop_of_length_le (by omega)]
      rfl

/-- The inode is a directory with entries other than its first two. -/
def State.full (s : State) (y : Nat) : Bool :=
  decide ((s.dinode y).type = .T_DIR) && ((dirTable ((s.dinode y).bytes s.data)).drop 2).any Option.isSome

theorem isdirfull_wp (h : Good sb s) (hwhole : ∀ y, (s.dinode y).type = .T_DIR → DIRENT ∣ (s.dinode y).size)
    (href : 0 < (s.inode ip).ref) (hvalid : (s.inode ip).valid = true) :
    wp E (isdirfull sb ip) (fun r s' => r = s.full (s.inode ip).inum ∧ s' = s) s := by
  obtain ⟨hcopy, -⟩ := h.copies ip href hvalid
  change (s.inode ip).copy = s.file ip at hcopy
  unfold isdirfull isdirempty
  simp only [wp_bind, wp_get, hcopy]
  refine wp_ite.2 ⟨fun htype => ?_, fun htype => ⟨?_, rfl⟩⟩
  · obtain ⟨m, hm⟩ := hwhole _ htype
    change (s.file ip).size = DIRENT * m at hm
    obtain ⟨l, hl⟩ : ∃ l, l = dirTable ((s.file ip).bytes s.data) := ⟨_, rfl⟩
    have hlen : l.length = m := by
      rw [hl, dirTable, List.length_map, List.length_range, Dinode.bytes, length_slice, hm,
        Nat.mul_div_cancel_left m (by decide)]
    have hentries : Entries sb ip (s.inode ip).inum l s :=
      ⟨h, hwhole, rfl, href, htype, by rw [hm, hlen], hl.symm⟩
    simp only [wp_bind, wp_get, hcopy, hm]
    rw [← hlen, Nat.mul_div_cancel_left _ (by decide)]
    have hloop := hentries.isdiremptyLoop_wp (E := E) hvalid (l.length + 1) (k := 2) (by omega)
    rw [Nat.mul_comm DIRENT 2] at hloop
    refine wp_mono hloop ?_
    rintro r s1 ⟨rfl, rfl⟩
    refine ⟨?_, rfl⟩
    unfold State.full
    change _ = (decide ((s1.file ip).type = .T_DIR) && ((dirTable ((s1.file ip).bytes s1.data)).drop 2).any _)
    rw [← hl, htype, Bool.not_not]
    rfl
  · unfold State.full
    change _ = (decide ((s.file ip).type = .T_DIR) && _)
    rw [decide_eq_false htype]
    rfl

/-! ## References that are taken and given back -/

/-- Nothing has changed but entries of the cache that are not in use. -/
structure Same (s s' : State) : Prop where
  dinode : s'.dinode = s.dinode
  bit : s'.bit = s.bit
  data : s'.data = s.data
  begun : s'.begun = s.begun
  ended : s'.ended = s.ended
  ops : s'.ops = s.ops
  input : s'.input = s.input
  ref : ∀ i, (s'.inode i).ref = (s.inode i).ref
  lock : ∀ i, (s'.inode i).lock = (s.inode i).lock
  inode : ∀ i, (s.inode i).ref ≠ 0 → s'.inode i = s.inode i

theorem Same.refl (s : State) : Same s s :=
  ⟨rfl, rfl, rfl, rfl, rfl, rfl, rfl, fun _ => rfl, fun _ => rfl, fun _ _ => rfl⟩

theorem Same.of_unused {i : Inode} (hold : (s.inode ip).ref = 0) (href : i.ref = 0)
    (hlock : i.lock = (s.inode ip).lock) : Same s (s.setInode ip i) := by
  have hself : (s.setInode ip i).inode ip = i := update_self ..
  have hne : ∀ j ≠ ip, (s.setInode ip i).inode j = s.inode j := fun j hj => update_of_ne hj ..
  refine ⟨rfl, rfl, rfl, rfl, rfl, rfl, rfl, fun j => ?_, fun j => ?_, fun j hj => ?_⟩
  · by_cases hjp : j = ip
    · rw [hjp, hself, href, hold]
    · rw [hne j hjp]
  · by_cases hjp : j = ip
    · rw [hjp, hself, hlock]
    · rw [hne j hjp]
  · refine hne j ?_
    rintro rfl
    exact hj hold

theorem Same.good (h : Same s s') (hgood : Good sb s) : Good sb s' := by
  have hinode : ∀ i, 0 < (s'.inode i).ref → 0 < (s.inode i).ref ∧ s'.inode i = s.inode i := by
    intro i hi
    rw [h.ref] at hi
    exact ⟨hi, h.inode i (by omega)⟩
  refine ⟨?_, ?_, ?_, fun i hi => ?_, fun i j hi hj hij => ?_, fun i hi hv => ?_⟩
  · rw [h.dinode, h.data, h.bit]
    exact hgood.account
  · rw [h.dinode]
    exact hgood.small
  · rw [h.dinode, h.data]
    exact hgood.backed
  · obtain ⟨hlive, heq⟩ := hinode i hi
    rw [heq]
    exact hgood.dev i hlive
  · obtain ⟨hlive, heq⟩ := hinode i hi
    obtain ⟨hlive', heq'⟩ := hinode j hj
    rw [heq, heq'] at hij
    exact hgood.unique i j hlive hlive' hij
  · obtain ⟨hlive, heq⟩ := hinode i hi
    rw [heq] at hv ⊢
    rw [h.dinode]
    exact hgood.copies i hlive hv

theorem bytes_congr {d d' : Dinode} (hsize : d'.size = d.size) (haddrs : d'.addrs = d.addrs) (D : Data) :
    d'.bytes D = d.bytes D := by
  unfold Dinode.bytes Dinode.byte Dinode.slot
  rw [hsize, haddrs]

/-- The inodes on the disk keep their types and their blocks, or are freed, but not the directory. -/
theorem Entries.change (h : Entries sb dp x l s) (hgood : Good sb s')
    (hinum : (s'.inode dp).inum = (s.inode dp).inum) (href : 0 < (s'.inode dp).ref) (hdata : s'.data = s.data)
    (hdinode : ∀ y, y ≠ x ∧ (s'.dinode y).type = .free ∨ (s'.dinode y).type = (s.dinode y).type ∧
      (s'.dinode y).size = (s.dinode y).size ∧ (s'.dinode y).addrs = (s.dinode y).addrs) :
    Entries sb dp x l s' := by
  obtain ⟨htype, hsize, haddrs⟩ := (hdinode x).resolve_left fun hx => hx.1 rfl
  have hfile : s'.file dp = s'.dinode x ∧ s.file dp = s.dinode x :=
    ⟨by rw [State.file, hinum, h.inum], by rw [State.file, h.inum]⟩
  refine ⟨hgood, fun y hy => ?_, hinum.trans h.inum, href, ?_, ?_, ?_⟩
  · rcases hdinode y with ⟨-, hfree⟩ | ⟨htype, hsize, -⟩
    · rw [hfree] at hy
      cases hy
    · rw [hsize]
      exact h.whole y (htype ▸ hy)
  · rw [hfile.1, htype, ← hfile.2, h.type]
  · rw [hfile.1, hsize, ← hfile.2, h.size]
  · rw [hfile.1, hdata, bytes_congr hsize haddrs, ← hfile.2, h.table]

theorem Entries.cached (h : Entries sb dp x l s) (hgood : Good sb s')
    (hinum : (s'.inode dp).inum = (s.inode dp).inum) (href : 0 < (s'.inode dp).ref) (hdata : s'.data = s.data)
    (hdinode : s'.dinode = s.dinode) : Entries sb dp x l s' :=
  h.change hgood hinum href hdata fun y => .inr (by rw [hdinode]; exact ⟨rfl, rfl, rfl⟩)

theorem Dir.same (h : Dir sb dp x l s) (hs : Same s s') : Dir sb dp x l s' := by
  have hdp : s'.inode dp = s.inode dp := hs.inode dp (by have := h.ref; omega)
  refine ⟨h.cached (hs.good h.good) ?_ ?_ hs.data hs.dinode, ?_, ?_, h.distinct⟩
  · rw [hdp]
  · rw [hdp]
    exact h.ref
  · rw [hdp]
    exact h.valid
  · rw [← h.lock]
    simp only [State.locks, hs.lock]

/-- A reference that `iget` has just taken is given back: the inode is not freed, since either there is
another reference or the inode has not been read. -/
theorem Got.iput_wp {dev : Nat} (h : Got dev inum ip s s1) (hlock : (s.inode ip).lock = false) :
    wp E (iput ip) (fun _ s' => Same s s') s1 := by
  unfold iput acquiresleep ifree releasesleep modInode
  cases h with
  | shared hlive hdev hinum =>
    have hone : ¬ (s.inode ip).ref + 1 = 1 := by omega
    simp only [wp_bind, wp_get, wp_modify, State.setInode, update_self, update_idem, hlock]
    rw [if_neg (by simp)]
    simp only [wp_modify, update_self, update_idem]
    rw [if_neg (by simp [hone])]
    have hsame : { s.inode ip with lock := false, ref := (s.inode ip).ref + 1 - 1 } = s.inode ip := by
      rw [Int.add_sub_cancel, ← hlock]
    simp only [wp_pure, update_self, update_idem, hsame, update_eq_self]
    exact .refl s
  | fresh hfree hnew =>
    simp only [wp_bind, wp_get, wp_modify, State.setInode, update_self, update_idem, hlock]
    rw [if_neg (by simp)]
    simp only [wp_modify, update_self, update_idem]
    rw [if_neg (by simp)]
    simp only [wp_pure, update_self, update_idem]
    exact .of_unused hfree rfl hlock.symm

/-- If the inode is locked, `iput` waits forever. -/
theorem Got.iput_deadlock {dev : Nat} {Q : Unit → State → Prop} (h : Got dev inum ip s s1)
    (hlock : (s.inode ip).lock = true) : wp (· = .deadlock) (iput ip) Q s1 := by
  have hlock1 : (s1.inode ip).lock = true := by
    cases h with
    | shared => simp [State.setInode, hlock]
    | fresh => simp [State.setInode, hlock]
  unfold iput acquiresleep
  simp only [wp_bind, wp_get]
  rw [if_pos hlock1]
  exact rfl

/-! ## `dirlookup`, `dirlink` and the removal of an entry -/

theorem Dir.lookup_of_getElem? (h : Dir sb dp x l s) {i : Nat} (hi : l[i]? = some (some (key name, inum))) :
    lookup l (key name) = some inum :=
  h.distinct.lookup_eq_some.2 (List.mem_of_getElem? hi)

/-- An inode can be cached: there is an entry for it, or one that is not in use. -/
def State.Fits (s : State) (inum : Nat) : Prop :=
  (∃ i, (s.inode i).ref = 0) ∨ ∃ i, 0 < (s.inode i).ref ∧ (s.inode i).inum = inum

theorem Dir.dirlookup_wp (h : Dir sb dp x l s) (hname : 0 ∉ name)
    (hfull : ∀ inum, lookup l (key name) = some inum → ¬ s.Fits inum → E .iget) :
    wp E (dirlookup sb dp name) (fun r s' =>
      match r with
      | none => lookup l (key name) = none ∧ s' = s
      | some (ip, off) => ∃ k inum, off = DIRENT * k ∧ l[k]? = some (some (key name, inum)) ∧
          Got ROOTDEV inum ip s s') s := by
  unfold dirlookup
  simp only [wp_bind, wp_get, h.copy, h.size, h.type]
  rw [if_pos trivial, wp_bind, Nat.mul_div_cancel_left _ (by decide)]
  refine wp_mono (h.lookupLoop_wp (k := 0) hname (l.length + 1) (by omega)) ?_
  rintro (_ | ⟨off, inum⟩) s1 ⟨rfl, hr⟩
  · refine ⟨lookup_eq_none.2 fun v hv => ?_, rfl⟩
    obtain ⟨j, hj⟩ := List.getElem?_of_mem hv
    exact hr j v (Nat.zero_le j) hj
  · obtain ⟨k, rfl, hk⟩ := hr
    simp only [wp_bind, h.good.dev dp h.ref]
    refine wp_mono (iget_wp ROOTDEV inum fun hused hnew => ?_) fun ip s2 hgot => ?_
    · refine hfull inum (h.lookup_of_getElem? hk) ?_
      rintro (⟨i, hi⟩ | ⟨i, hi, hinum⟩)
      · exact hused i hi
      · exact hnew i hi (h.good.dev i hi) hinum
    · exact ⟨k, inum, rfl, hk, hgot⟩

/-- A name that is not there is not found, and no entry of the cache is needed. -/
theorem Dir.dirlookup_none (h : Dir sb dp x l s) (hname : 0 ∉ name) (hnone : lookup l (key name) = none) :
    wp E (dirlookup sb dp name) (fun r s' => r = none ∧ s' = s) s := by
  refine wp_mono (h.dirlookup_wp hname fun i hi => ?_) ?_
  · rw [hnone] at hi
    cases hi
  rintro (_ | ⟨ip, off⟩) s1 hr
  · exact ⟨rfl, hr.2⟩
  · obtain ⟨k, i, -, hk, -⟩ := hr
    rw [h.lookup_of_getElem? hk] at hnone
    cases hnone

/-- The entry that `iget` finds is the directory's own exactly if the number is. -/
theorem Dir.got_self (h : Dir sb dp x l s) (hgot : Got ROOTDEV inum ip s s1) :
    (s.inode ip).lock = true ↔ inum = x := by
  rw [← mem_locks, h.lock, Finset.mem_singleton]
  cases hgot with
  | shared hlive hdev hinum =>
    constructor
    · rintro rfl
      exact hinum.symm.trans h.inum
    · intro heq
      exact h.good.unique ip dp hlive h.ref ((hinum.trans heq).trans h.inum.symm)
  | fresh hfree hnew =>
    refine iff_of_false ?_ fun heq => ?_
    · rintro rfl
      have := h.ref
      omega
    · exact hnew dp h.ref (h.good.dev dp h.ref) (h.inum.trans heq.symm)

theorem Entries.write {de : List UInt8} {n : Nat} (h : Entries sb dp x l s) (hk : k ≤ l.length)
    (hde : de.length = DIRENT) (hw : Wrote sb dp n (DIRENT * k) de s s')
    (hl' : ∀ i : Nat, l'[i]? = if i = k then some (entry de) else l[i]?) : Entries sb dp x l' s' := by
  obtain ⟨A, hA⟩ := hw.dinode
  have hdp : s'.inode dp = { s.inode dp with copy := s'.dinode (s.inode dp).inum } := by
    rw [hw.inode, update_self]
  have hfile : s'.file dp = s'.dinode (s.inode dp).inum := by rw [State.file, hdp]
  have hlen : l'.length = max l.length (k + 1) := by
    have hlt : ∀ i, i < l'.length ↔ i < max l.length (k + 1) := by
      intro i
      have hi := hl' i
      by_cases hik : i = k
      · rw [if_pos hik] at hi
        exact iff_of_true (List.getElem?_eq_some_iff.1 hi).1 (by omega)
      · rw [if_neg hik] at hi
        have hiff : l'[i]? = none ↔ l[i]? = none := by rw [hi]
        rw [List.getElem?_eq_none_iff, List.getElem?_eq_none_iff] at hiff
        omega
    have := hlt l'.length
    have := hlt (max l.length (k + 1))
    omega
  have hsize : (s'.file dp).size = DIRENT * l'.length := by
    rw [hfile, hA, update_self]
    show max (s.file dp).size _ = _
    rw [h.size, hde, ← Nat.mul_succ, Nat.mul_max_mul_left, hlen]
  refine ⟨hw.good, fun y hy => ?_, ?_, ?_, ?_, hsize, ?_⟩
  · by_cases hyx : y = (s.inode dp).inum
    · rw [hyx, ← hfile, hsize]
      exact dvd_mul_right ..
    · rw [hA, update_of_ne hyx] at hy ⊢
      exact h.whole y hy
  · rw [hdp]
    exact h.inum
  · rw [hdp]
    exact h.ref
  · rw [hfile, hA, update_self]
    exact h.type
  · rw [hfile, hw.bytes]
    refine List.ext_getElem? fun i => ?_
    rw [getElem?_dirTable_put h.length_bytes hk hde, h.table, hl']

theorem Dir.write {de : List UInt8} {n : Nat} (h : Dir sb dp x l s) (hk : k ≤ l.length)
    (hde : de.length = DIRENT) (hw : Wrote sb dp n (DIRENT * k) de s s') (hdistinct : Distinct l')
    (hl' : ∀ i : Nat, l'[i]? = if i = k then some (entry de) else l[i]?) : Dir sb dp x l' s' := by
  refine ⟨h.toEntries.write hk hde hw hl', ?_, (locks_same hw.inode rfl).trans h.lock, hdistinct⟩
  rw [hw.inode, update_self]
  exact h.valid

/-- The number of entries of a directory of the maximal size. -/
def NENTRY : Nat := MAXFILE * BSIZE / DIRENT

theorem Dir.dirlink_wp (h : Dir sb dp x l s) (hname : 0 ∉ name) (hpos : 0 < inum) (hlt : inum < 2 ^ 16)
    (hnone : lookup l (key name) = none) (hmax : room l < NENTRY)
    (hout : freeBlocks sb s.bit < (needs s.data (s.file dp) (DIRENT * room l + DIRENT)).card →
      E .outOfBlocks) :
    wp E (dirlink sb dp name inum) (fun r s' => r = true ∧ Dir sb dp x (insert l (key name) inum) s') s := by
  have hD : DIRENT * NENTRY = MAXFILE * BSIZE := by decide
  have hend : DIRENT * room l + DIRENT ≤ DIRENT * NENTRY := Nat.mul_le_mul_left DIRENT hmax
  have hroom : room l ≤ l.length := List.findIdx_le_length
  unfold dirlink
  refine wp_seq (h.dirlookup_none hname hnone) ?_
  rintro r s1 ⟨rfl, rfl⟩
  simp only [wp_bind, wp_get, h.copy, h.size]
  rw [Nat.mul_div_cancel_left _ (by decide)]
  refine wp_mono (h.emptyLoop_wp (k := 0) (l.length + 1) (by omega) (Nat.zero_le _)) ?_
  rintro off s1 ⟨rfl, rfl⟩
  refine wp_mono (h.good.writei_wp h.ref h.valid h.not_dev (DIRENT * room l) ?_ ?_ (hend.trans_eq hD)
    hout) ?_
  · rw [h.size]
    exact Nat.mul_le_mul_left DIRENT hroom
  · rw [length_dirent]
  rintro r s2 ⟨rfl, hw⟩
  show wp E (if (dirent name inum).length = DIRENT then _ else _) _ s2
  rw [if_pos (length_dirent _ _)]
  refine ⟨rfl, h.write hroom (length_dirent _ _) hw (h.distinct.insert hnone inum) fun i => ?_⟩
  rw [getElem?_insert, entry_dirent hname hpos hlt]

theorem Dir.dirlookup_some (h : Dir sb dp x l s) (hname : 0 ∉ name) (hsome : lookup l (key name) = some inum)
    (hfull : ¬ s.Fits inum → E .iget) :
    wp E (dirlookup sb dp name) (fun r s' => ∃ ip k, r = some (ip, DIRENT * k) ∧
      l[k]? = some (some (key name, inum)) ∧ Got ROOTDEV inum ip s s') s := by
  refine wp_mono (h.dirlookup_wp hname fun j hj => ?_) ?_
  · rw [hsome, Option.some.injEq] at hj
    subst hj
    exact hfull
  rintro (_ | ⟨ip, off⟩) s1 hr
  · rw [hsome] at hr
    cases hr.1
  · obtain ⟨k, j, rfl, hk, hgot⟩ := hr
    have hj : j = inum := by simpa [hsome, eq_comm] using h.lookup_of_getElem? hk
    subst hj
    exact ⟨ip, k, rfl, hk, hgot⟩

theorem Dir.fits_self (h : Dir sb dp x l s) : s.Fits x := .inr ⟨dp, h.ref, h.inum⟩

/-- A name that is there for another inode is refused, and nothing changes. -/
theorem Dir.dirlink_refuses (h : Dir sb dp x l s) (hname : 0 ∉ name) {i : Nat}
    (hsome : lookup l (key name) = some i) (hself : i ≠ x) (hfull : ¬ s.Fits i → E .iget)
    (inum : Nat) : wp E (dirlink sb dp name inum) (fun r s' => r = false ∧ Same s s') s := by
  unfold dirlink
  refine wp_seq (h.dirlookup_some hname hsome hfull) ?_
  rintro r s1 ⟨ip, k, rfl, hk, hgot⟩
  have hlock : (s.inode ip).lock = false := by
    rw [← Bool.not_eq_true, h.got_self hgot]
    exact hself
  exact wp_seq (hgot.iput_wp hlock) fun _ _ hs => ⟨rfl, hs⟩

/-- A name that is there for the directory itself is never refused, nor accepted. -/
theorem Dir.dirlink_deadlock {Q : Bool → State → Prop} (h : Dir sb dp x l s) (hname : 0 ∉ name)
    (hsome : lookup l (key name) = some x) (inum : Nat) :
    wp (· = .deadlock) (dirlink sb dp name inum) Q s := by
  unfold dirlink
  refine wp_seq (h.dirlookup_some hname hsome fun hfull => absurd h.fits_self hfull) ?_
  rintro r s1 ⟨ip, k, rfl, hk, hgot⟩
  simp only [wp_bind]
  exact hgot.iput_deadlock ((h.got_self hgot).2 rfl)

/-! ## Removals -/

theorem Got.good {dev : Nat} (h : Got dev inum ip s s1) (hdev : dev = ROOTDEV) (hgood : Good sb s) :
    Good sb s1 := by
  cases h with
  | shared hlive _ hinum => exact hgood.sameInode (fun _ => hlive) rfl rfl fun _ => hgood.copies ip hlive
  | fresh hfree hnew =>
    exact hgood.setInode (fun _ => hdev) (fun _ j _ hj => hnew j hj (hdev ▸ hgood.dev j hj)) nofun

/-- What `iget` does to the entry it returns, and that it does nothing else. -/
theorem Got.entry {dev : Nat} (h : Got dev inum ip s s1) : ∃ i, s1 = s.setInode ip i ∧ i.inum = inum ∧
    0 < i.ref ∧ i.lock = (s.inode ip).lock := by
  cases h with
  | shared hlive _ hinum => exact ⟨_, rfl, hinum, by simp only; omega, rfl⟩
  | fresh => exact ⟨_, rfl, rfl, Int.one_pos, rfl⟩

/-- A lock and a reference are given back. -/
structure PutBack (sb : Superblock) (ip : Ino) (s s' : State) : Prop where
  put : Put sb ip (s.unlocked ip) s'
  locks : s'.locks = s.locks.erase ip
  other : ∀ i ≠ ip, s'.inode i = s.inode i

theorem Good.iunlockput_wp (h : Good sb s) (href : 0 < (s.inode ip).ref) (hlock : (s.inode ip).lock = true) :
    wp E (iunlockput ip) (fun _ s' => PutBack sb ip s s') s := by
  unfold iunlockput
  refine wp_seq (iunlock_ok href hlock) ?_
  rintro _ s1 rfl
  have hself : (s.unlocked ip).inode ip = { s.inode ip with lock := false } := setInode_self ..
  refine wp_mono (h.unlocked.iput_wp (by rwa [hself]) (by simp [hself])) fun _ s2 hput => ?_
  obtain ⟨v, c, hinode⟩ := hput.inode
  refine ⟨hput, ?_, fun i hi => ?_⟩
  · rw [locks_same hinode rfl]
    exact locks_update (show (s.unlocked ip).inode = update s.inode ip _ from rfl)
  · rw [hinode, update_of_ne hi]
    exact setInode_of_ne s _ hi

/-- Another reference to the directory remains, or the reference was to another inode. -/
theorem Entries.put (h : Entries sb dp x l s) (href : 0 < (s.inode ip).ref) (hback : PutBack sb ip s s')
    (hmore : ip = dp → 1 < (s.inode dp).ref) : Entries sb dp x l s' := by
  have hput := hback.put
  have hself : (s.unlocked ip).inode ip = { s.inode ip with lock := false } := setInode_self ..
  by_cases hip : ip = dp
  · subst hip
    have hmore := hmore rfl
    obtain ⟨v, c, hinode⟩ := hput.inode
    have hip' : (s'.inode ip).inum = (s.inode ip).inum ∧ (s'.inode ip).ref = (s.inode ip).ref - 1 := by
      simp [hinode, hself]
    refine h.cached hput.good hip'.1 (by omega) hput.data (hput.same fun hlast => ?_).1
    have hone : (s.inode ip).ref = 1 := by simpa [hself] using hlast.2.2
    omega
  · have hdp := hback.other dp (Ne.symm hip)
    refine h.change hput.good (by rw [hdp]) (by rw [hdp]; exact h.ref) hput.data fun y => ?_
    have hdinode := hput.dinode
    rw [hself] at hdinode
    change s'.dinode = s.dinode ∨ ∃ d, s'.dinode = update s.dinode (s.inode ip).inum d ∧ _ at hdinode
    rcases hdinode with heq | ⟨d, hd, hfree⟩
    · simp [heq]
    · by_cases hy : y = (s.inode ip).inum
      · refine .inl ⟨fun hyx => hip (h.good.unique ip dp href h.ref ?_), by simpa [hd, hy] using hfree⟩
        rw [← hy, hyx, h.inum]
      · simp [hd, hy]

theorem Entries.addLink_wp (h : Entries sb dp x l s) (href : 0 < (s.inode ip).ref)
    (hvalid : (s.inode ip).valid = true) (d : Int) :
    wp E (addLink ip d) (fun _ s' => Entries sb dp x l s' ∧
      ∃ c, s'.inode = update s.inode ip { s.inode ip with copy := c }) s := by
  refine wp_mono (h.good.store_wp (fun _ => ⟨rfl, rfl, rfl⟩) href hvalid) ?_
  rintro _ s1 ⟨hgood, hstored⟩
  have hdp : (s1.inode dp).inum = (s.inode dp).inum ∧ (s1.inode dp).ref = (s.inode dp).ref := by
    rw [hstored.inode]
    by_cases hip : dp = ip <;> simp [hip]
  refine ⟨h.change hgood hdp.1 (by rw [hdp.2]; exact h.ref) hstored.data fun y => .inr ?_, _, hstored.inode⟩
  rw [hstored.dinode]
  by_cases hy : y = (s.inode ip).inum <;> simp [hy, State.file]

/-- Nothing is locked. -/
structure Unlocked (sb : Superblock) (dp : Ino) (x : Nat) (l : Table Name Nat) (s : State) : Prop
    extends Entries sb dp x l s where
  free : s.locks = ∅
  distinct : Distinct l

/-- The directory is locked for the next operation. -/
theorem Unlocked.ilock_wp (h : Unlocked sb dp x l s) : wp E (ilock dp) (fun _ s' => Dir sb dp x l s') s := by
  have hfree : (s.inode dp).lock = false := by
    rw [← Bool.not_eq_true, ← mem_locks, h.free]
    exact Finset.notMem_empty dp
  refine wp_mono (h.good.ilock_wp h.ref hfree h.alloc) ?_
  rintro _ s1 rfl
  have hself := locked_inode s dp
  refine ⟨h.cached (h.good.locked h.ref h.alloc) ?_ ?_ rfl rfl, ?_, ?_, h.distinct⟩
  · rw [hself]
  · rw [hself]
    exact h.ref
  · rw [hself]
  · rw [locks_update (show (s.locked dp).inode = update s.inode dp _ from rfl), h.free]
    rfl

theorem Unlocked.end_op (h : Unlocked sb dp x l s) : Unlocked sb dp x l { s with ended := s.ended + 1 } :=
  ⟨h.cached (h.good.congr rfl rfl rfl rfl) rfl h.ref rfl rfl, h.free, h.distinct⟩

theorem Entries.unlinkBad_wp (h : Entries sb dp x l s) (hdistinct : Distinct l) (hlock : s.locks = {dp})
    (hmore : 1 < (s.inode dp).ref) :
    wp E (unlinkBad dp) (fun r s' => r = false ∧ Unlocked sb dp x l s') s := by
  unfold unlinkBad end_op
  simp only [wp_bind, wp_modify, wp_pure]
  refine wp_mono (h.good.iunlockput_wp h.ref (mem_locks.1 (by simp [hlock]))) fun _ s1 hback => ?_
  have h1 := h.put h.ref hback fun _ => hmore
  exact ⟨trivial, Unlocked.end_op ⟨h1, by rw [hback.locks, hlock, Finset.erase_singleton], hdistinct⟩⟩

/-- The zeros that are written over the entry `k` need no block. -/
theorem Entries.clear_wp (h : Entries sb dp x l s) (hdistinct : Distinct l)
    (hvalid : (s.inode dp).valid = true) (hk : l[k]? = some (some (key name, inum))) :
    wp E (writei sb dp (List.replicate DIRENT 0) (DIRENT * k)) (fun r s' => r = some DIRENT ∧
      Entries sb dp x (erase l (key name)) s' ∧
      ∃ c, s'.inode = update s.inode dp { s.inode dp with copy := c }) s := by
  have hlt : k < l.length := (List.getElem?_eq_some_iff.1 hk).1
  have hend : DIRENT * k + DIRENT ≤ DIRENT * l.length := Nat.mul_le_mul_left DIRENT hlt
  refine wp_mono (h.good.writei_wp (n := DIRENT * l.length) h.ref hvalid h.not_dev (DIRENT * k) ?_ ?_
    h.small fun hout => ?_) ?_
  · rw [h.size]
    omega
  · rw [List.length_replicate]
    exact hend
  · have hback := h.good.backed _ h.alloc
    change Backed s.data (s.file dp) (s.file dp).size at hback
    rw [h.size] at hback
    rw [hback.needs] at hout
    exact absurd hout (Nat.not_lt_zero _)
  rintro r s1 ⟨rfl, hw⟩
  refine ⟨by rw [List.length_replicate], ?_, _, hw.inode⟩
  refine h.write hlt.le List.length_replicate hw fun i => ?_
  rw [← hdistinct.set_none hk, entry_zero]
  by_cases hi : i = k
  · rw [if_pos hi, hi, List.getElem?_set_self hlt]
  · rw [if_neg hi, List.getElem?_set_ne (Ne.symm hi)]

theorem Entries.unlinkParent_wp (h : Entries sb dp x l s) (hvalid : (s.inode dp).valid = true) :
    wp E (unlinkParent dp ip) (fun _ s' => Entries sb dp x l s' ∧
      ∃ c, s'.inode = update s.inode dp { s.inode dp with copy := c }) s := by
  unfold unlinkParent
  simp only [wp_bind, wp_get]
  exact wp_ite.2 ⟨fun _ => h.addLink_wp h.ref hvalid (-1), fun _ => ⟨h, _, (update_eq_self _ _).symm⟩⟩

/-- The entry `k` is removed, and the inode of `ip`, for which it is, loses a link. -/
theorem Entries.unlinkEntry_wp (h : Entries sb dp x l s) (hdistinct : Distinct l) (hne : ip ≠ dp)
    (href : 0 < (s.inode ip).ref) (hvalid : (s.inode dp).valid = true ∧ (s.inode ip).valid = true)
    (hlock : s.locks = {dp, ip}) (hmore : 1 < (s.inode dp).ref)
    (hk : l[k]? = some (some (key name, inum))) :
    wp E (unlinkEntry sb dp ip (DIRENT * k))
      (fun r s' => r = true ∧ Unlocked sb dp x (erase l (key name)) s') s := by
  unfold unlinkEntry end_op
  refine wp_seq (h.clear_wp hdistinct hvalid.1 hk) ?_
  rintro r s1 ⟨rfl, h1, c1, hinode1⟩
  simp only [if_true, wp_bind, wp_modify, wp_pure]
  -- from here on the table stays
  refine wp_mono (h1.unlinkParent_wp (by simpa [hinode1] using hvalid.1)) ?_
  rintro _ s2 ⟨h2, c, hinode2⟩
  rw [hinode1, update_idem, update_self] at hinode2
  have hlocks2 : s2.locks = {dp, ip} := (locks_same hinode2 rfl).trans hlock
  have hip2 : s2.inode ip = s.inode ip := by rw [hinode2, update_of_ne hne]
  refine wp_mono (h2.good.iunlockput_wp h2.ref (mem_locks.1 (by simp [hlocks2]))) fun _ s3 hback3 => ?_
  have h3 := h2.put h2.ref hback3 fun _ => by simpa [hinode2] using hmore
  have hip3 : s3.inode ip = s.inode ip := (hback3.other ip hne).trans hip2
  have href3 : 0 < (s3.inode ip).ref := by rwa [hip3]
  have hvalid3 : (s3.inode ip).valid = true := by rw [hip3]; exact hvalid.2
  refine wp_mono (h3.addLink_wp href3 hvalid3 (-1)) ?_
  rintro _ s4 ⟨h4, c', hinode4⟩
  have hlocks4 : s4.locks = {ip} := by
    rw [locks_same hinode4 rfl, hback3.locks, hlocks2, Finset.erase_insert (by simpa using hne.symm)]
  have href4 : 0 < (s4.inode ip).ref := by simpa [hinode4, hip3] using href
  refine wp_mono (h4.good.iunlockput_wp href4 (mem_locks.1 (by simp [hlocks4]))) fun _ s5 hback5 => ?_
  have h5 := h4.put href4 hback5 fun hself => absurd hself hne
  exact ⟨trivial, Unlocked.end_op
    ⟨h5, by rw [hback5.locks, hlocks4, Finset.erase_singleton], hdistinct.erase _⟩⟩

/-- A removal as `sys_unlink` does it from the locked directory on.  Its caller has another reference to
the directory, and locks it again. -/
def removeEntry (sb : Superblock) (dp : Ino) (name : Name) : F Bool := do
  begin_op
  let _ ← idup dp
  let r ← unlinkLocked sb dp name
  ilock dp
  pure r

/-- The state in which `unlinkLocked` starts. -/
def State.taken (s : State) (dp : Ino) : State :=
  { s with begun := s.begun + 1, ops := [] :: s.ops }.setInode dp
    { s.inode dp with ref := (s.inode dp).ref + 1 }

theorem Dir.taken (h : Dir sb dp x l s) : Dir sb dp x l (s.taken dp) ∧ 1 < ((s.taken dp).inode dp).ref := by
  have hself : (s.taken dp).inode dp = { s.inode dp with ref := (s.inode dp).ref + 1 } := setInode_self ..
  have href := h.ref
  have href' : 1 < ((s.taken dp).inode dp).ref := by
    rw [hself]
    dsimp only
    omega
  have hgood : Good sb { s with begun := s.begun + 1, ops := [] :: s.ops } := h.good.congr rfl rfl rfl rfl
  have hlocks : (s.taken dp).locks = s.locks :=
    locks_same (show (s.taken dp).inode = update s.inode dp _ from rfl) rfl
  refine ⟨⟨h.cached (hgood.sameInode (fun _ => href) rfl rfl fun _ => h.good.copies dp href) ?_
    (by omega) rfl rfl, ?_, hlocks.trans h.lock, h.distinct⟩, href'⟩
  · rw [hself]
  · rw [hself]
    exact h.valid

theorem removeEntry_wp {r : Bool}
    (h : wp E (unlinkLocked sb dp name) (fun r' s' => r' = r ∧ Unlocked sb dp x l s') (s.taken dp)) :
    wp E (removeEntry sb dp name) (fun r' s' => r' = r ∧ Dir sb dp x l s') s := by
  unfold removeEntry begin_op idup modInode
  simp only [wp_bind, wp_modify, wp_pure]
  refine wp_mono h ?_
  rintro _ s1 ⟨rfl, h1⟩
  exact wp_mono h1.ilock_wp fun _ _ hdir => ⟨rfl, hdir⟩

/-- `sys_unlink` does not remove these. -/
def IsDot (name : Name) : Prop := key name = dot ∨ key name = dotdot

instance (name : Name) : Decidable (IsDot name) := inferInstanceAs (Decidable (_ ∨ _))

theorem isDot_iff (hname : 0 ∉ name) : namecmp name dot = 0 ∨ namecmp name dotdot = 0 ↔ IsDot name := by
  unfold namecmp IsDot
  rw [strncmp_eq_zero _ hname, strncmp_eq_zero _ hname]
  exact Iff.rfl

theorem Dir.remove_refused (h : Dir sb dp x l s) (hname : 0 ∉ name)
    (hno : IsDot name ∨ lookup l (key name) = none) :
    wp E (removeEntry sb dp name) (fun r s' => r = false ∧ Dir sb dp x l s') s := by
  obtain ⟨h1, hmore⟩ := h.taken
  have hbad := h1.unlinkBad_wp (E := E) h1.distinct h1.lock hmore
  refine removeEntry_wp ?_
  unfold unlinkLocked
  by_cases hdot : IsDot name
  · rwa [if_pos ((isDot_iff hname).2 hdot)]
  · rw [if_neg (mt (isDot_iff hname).1 hdot)]
    refine wp_seq (h1.dirlookup_none hname (hno.resolve_left hdot)) ?_
    rintro r s1 ⟨rfl, rfl⟩
    exact hbad

/-- The entry has been found, for the inode `inum`. -/
structure Found (sb : Superblock) (dp ip : Ino) (inum : Nat) (i : Inode) (s : State) : Prop where
  good : Good sb ((s.taken dp).setInode ip i)
  ref : 0 < i.ref
  lock : i.lock = true ↔ inum = (s.inode dp).inum
  self : ip = dp ↔ inum = (s.inode dp).inum
  inum : i.inum = inum

theorem Dir.found (h : Dir sb dp x l s) (hname : 0 ∉ name) (hsome : lookup l (key name) = some inum)
    (hfull : E .iget) : wp E (dirlookup sb dp name) (fun r s' => ∃ ip k i, r = some (ip, DIRENT * k) ∧
      l[k]? = some (some (key name, inum)) ∧ s' = (s.taken dp).setInode ip i ∧ Found sb dp ip inum i s)
      (s.taken dp) := by
  obtain ⟨h1, -⟩ := h.taken
  refine wp_mono (h1.dirlookup_some hname hsome fun _ => hfull) ?_
  rintro r s2 ⟨ip, k, rfl, hk, hgot⟩
  have hgood := hgot.good rfl h1.good
  have hself := h1.got_self hgot
  obtain ⟨i, rfl, hinum, href, hlock⟩ := hgot.entry
  rw [← h.inum, ← hlock] at hself
  refine ⟨ip, k, i, rfl, hk, rfl, hgood, href, hself, ?_, hinum⟩
  rw [← hself, hlock, ← mem_locks, h1.lock, Finset.mem_singleton]

/-- The inode of the entry is locked and read. -/
theorem Found.ilock_wp {i : Inode} (hfound : Found sb dp ip inum i s) (hne : ip ≠ dp)
    (hlock : (s.taken dp).locks = {dp}) (htype : (s.dinode inum).type ≠ .free) :
    wp E (ilock ip) (fun _ s' => Good sb s' ∧ s'.dinode = s.dinode ∧ s'.data = s.data ∧
      s'.inode ip = { i with lock := true, copy := s.dinode inum, valid := true } ∧
      s'.inode dp = (s.taken dp).inode dp ∧ s'.locks = {dp, ip}) ((s.taken dp).setInode ip i) := by
  have hself : inum ≠ (s.inode dp).inum := mt hfound.self.2 hne
  have hip : ((s.taken dp).setInode ip i).inode ip = i := setInode_self ..
  have hfile : ((s.taken dp).setInode ip i).file ip = s.dinode inum := by
    rw [State.file, hip, hfound.inum]
    rfl
  have href : 0 < (((s.taken dp).setInode ip i).inode ip).ref := by
    rw [hip]
    exact hfound.ref
  have halloc : (((s.taken dp).setInode ip i).file ip).type ≠ .free := hfile ▸ htype
  refine wp_mono (hfound.good.ilock_wp href ?_ halloc) ?_
  · rw [hip, ← Bool.not_eq_true, hfound.lock]
    exact hself
  rintro _ s' rfl
  refine ⟨hfound.good.locked href halloc, rfl, rfl, ?_, ?_, ?_⟩
  · rw [locked_inode, hip, hfile]
  · exact (setInode_of_ne _ _ hne.symm).trans (setInode_of_ne _ _ hne.symm)
  · have hlock2 : ((s.taken dp).setInode ip i).locks = {dp} := by
      rw [locks_update (s := s.taken dp) rfl, hlock, if_neg (mt hfound.lock.1 hself)]
      exact Finset.erase_eq_of_notMem (by simpa using hne)
    rw [locks_update rfl, hlock2]
    exact Finset.pair_comm ip dp

/-- The entry for an inode in use is removed, unless it is for a directory that is not empty. -/
theorem Dir.remove_wp (h : Dir sb dp x l s) (hname : 0 ∉ name) (hdot : ¬ IsDot name)
    (hsome : lookup l (key name) = some inum) (hself : inum ≠ x) (htype : (s.dinode inum).type ≠ .free)
    (hlinks : 1 ≤ (s.dinode inum).nlink) (hfull : E .iget) :
    wp E (removeEntry sb dp name) (fun r s' => r = !s.full inum ∧
      Dir sb dp x (if s.full inum then l else erase l (key name)) s') s := by
  obtain ⟨h1, hmore⟩ := h.taken
  refine removeEntry_wp ?_
  unfold unlinkLocked
  rw [if_neg (mt (isDot_iff hname).1 hdot)]
  refine wp_seq (h.found hname hsome hfull) ?_
  rintro r s2 ⟨ip, k, i, rfl, hk, rfl, hfound⟩
  rw [← h.inum] at hself
  have hne : ip ≠ dp := mt hfound.self.1 hself
  refine wp_seq (hfound.ilock_wp hne h1.lock htype) ?_
  rintro _ s3 ⟨hgood3, hdinode, hdata, hip3, hdp3, hlocks3⟩
  have h3 : Entries sb dp x l s3 :=
    h1.cached hgood3 (by rw [hdp3]) (by rw [hdp3]; exact h1.ref) hdata hdinode
  have href3 : 0 < (s3.inode ip).ref := by rw [hip3]; exact hfound.ref
  simp only [wp_bind, wp_get]
  rw [if_neg (by rw [hip3]; dsimp only; omega)]
  refine wp_seq (isdirfull_wp h3.good h3.whole href3 (by rw [hip3])) ?_
  rintro full s4 ⟨hfull4, rfl⟩
  have hfulls : full = s.full inum := by
    rw [hfull4, hip3]
    unfold State.full
    rw [hdinode, hdata, hfound.inum]
  rw [← hfulls]
  cases full with
  | false =>
    exact h3.unlinkEntry_wp h.distinct hne href3 ⟨by rw [hdp3]; exact h1.valid, by rw [hip3]⟩ hlocks3
      (by rwa [hdp3]) hk
  | true =>
    refine wp_seq (h3.good.iunlockput_wp href3 (by rw [hip3])) fun _ s5 hback => ?_
    refine (h3.put href3 hback fun hself => absurd hself hne).unlinkBad_wp h.distinct ?_ ?_
    · rw [hback.locks, hlocks3, Finset.pair_comm, Finset.erase_insert (by simpa using hne)]
    · rwa [hback.other dp hne.symm, hdp3]

/-- An entry for the directory itself, or for an inode that is not in use, is not removed. -/
theorem Dir.remove_stuck {Q : Bool → State → Prop} (h : Dir sb dp x l s) (hname : 0 ∉ name)
    (hdot : ¬ IsDot name) (hsome : lookup l (key name) = some inum)
    (hno : ¬ (inum ≠ x ∧ (s.dinode inum).type ≠ .free ∧ 1 ≤ (s.dinode inum).nlink)) :
    wp (fun _ => True) (removeEntry sb dp name) Q s := by
  unfold removeEntry begin_op idup modInode unlinkLocked
  rw [if_neg (mt (isDot_iff hname).1 hdot)]
  simp only [wp_bind, wp_modify, wp_pure]
  refine wp_mono (h.found hname hsome trivial) ?_
  rintro r s2 ⟨ip, k, i, rfl, hk, rfl, hfound⟩
  have hip2 : ((s.taken dp).setInode ip i).inode ip = i := setInode_self ..
  have hdinode : ((s.taken dp).setInode ip i).dinode = s.dinode := rfl
  have href := hfound.ref
  simp only [wp_bind]
  rw [ilock_wp, hip2, hdinode, hfound.inum, if_neg (by omega)]
  by_cases hlocked : i.lock = true
  · rw [if_pos hlocked]
    trivial
  rw [if_neg hlocked]
  -- the copy in the cache is the one on the disk
  have hlinks : (s.dinode inum).type ≠ .free → (s.dinode inum).nlink < 1 := by
    intro htype
    by_contra hge
    exact hno ⟨fun hx => hlocked (hfound.lock.2 (hx.trans h.inum.symm)), htype, by omega⟩
  split
  · rename_i hvalid
    obtain ⟨hcopy, htype⟩ := hfound.good.copies ip (by rwa [hip2]) (by rwa [hip2])
    rw [hip2, hfound.inum] at hcopy
    rw [hip2, hcopy, hdinode] at htype
    simp only [wp_get, setInode_self, hcopy, hdinode]
    rw [if_pos (hlinks htype)]
    trivial
  · split
    · trivial
    · rename_i htype
      simp only [wp_get, setInode_self]
      rw [if_pos (hlinks htype)]
      trivial

/-! ## Runs -/

/-- A change of a directory. -/
inductive DirOp where
  | link (name : Name) (inum : Nat)
  | remove (name : Name)
  deriving DecidableEq, Repr

namespace DirOp

/-- The name is a C string that is not empty, and the number one that an entry can hold. -/
def Valid : DirOp → Prop
  | link name inum => 0 ∉ name ∧ name ≠ [] ∧ 1 ≤ inum ∧ inum < 2 ^ 16
  | remove name => 0 ∉ name ∧ name ≠ []

instance (op : DirOp) : Decidable op.Valid :=
  match op with
  | link name inum => inferInstanceAs (Decidable (0 ∉ name ∧ name ≠ [] ∧ 1 ≤ inum ∧ inum < 2 ^ 16))
  | remove name => inferInstanceAs (Decidable (0 ∉ name ∧ name ≠ []))

/-- What the kernel does; true for success. -/
def run (sb : Superblock) (dp : Ino) : DirOp → F Bool
  | link name inum => dirlink sb dp name inum
  | remove name => removeEntry sb dp name

/-- What it is on a finite map from names to numbers; `full` are the directories that are not empty. -/
def onMap (full : Nat → Bool) (m : Name → Option Nat) : DirOp → Bool × (Name → Option Nat)
  | link name inum =>
    if m (key name) = none then (true, update m (key name) (some inum)) else (false, m)
  | remove name =>
    match m (key name) with
    | none => (false, m)
    | some i => if IsDot name ∨ full i then (false, m) else (true, update m (key name) none)

/-- What it is on a table. -/
def onTable (full : Nat → Bool) (l : Table Name Nat) : DirOp → Bool × Table Name Nat
  | link name inum =>
    if lookup l (key name) = none then (true, insert l (key name) inum) else (false, l)
  | remove name =>
    match lookup l (key name) with
    | none => (false, l)
    | some i => if IsDot name ∨ full i then (false, l) else (true, erase l (key name))

theorem onTable_onMap (full : Nat → Bool) (h : Distinct l) (op : DirOp) :
    ((op.onTable full l).1, lookup (op.onTable full l).2) = op.onMap full (lookup l) ∧
      Distinct (op.onTable full l).2 := by
  cases op with
  | link name inum =>
    simp only [onTable, onMap]
    split
    · rename_i hnone
      exact ⟨by rw [h.lookup_insert hnone], h.insert hnone inum⟩
    · exact ⟨rfl, h⟩
  | remove name =>
    simp only [onTable, onMap]
    cases lookup l (key name) with
    | none => exact ⟨rfl, h⟩
    | some i =>
      dsimp only
      split
      · exact ⟨rfl, h⟩
      · exact ⟨by rw [h.lookup_erase], h.erase _⟩

/-- The directory does not grow while it has an empty entry. -/
theorem length_onTable (full : Nat → Bool) (op : DirOp) (h : none ∈ l) :
    (op.onTable full l).2.length = l.length := by
  cases op with
  | link name inum =>
    simp only [onTable]
    split
    · exact length_insert_of_mem h _ _
    · rfl
  | remove name =>
    simp only [onTable]
    cases lookup l (key name) with
    | none => rfl
    | some i =>
      dsimp only
      split
      · rfl
      · exact List.length_map ..

/-- The operation is one with names and numbers as they should be, on a directory below its maximal
size. -/
def Allowed (dp : Ino) (s : State) (op : DirOp) : Prop := op.Valid ∧ (s.file dp).size < MAXFILE * BSIZE

/-- A `dirlink` does not find the name with an entry for the directory itself, and a removal, other than of
`.` and `..`, does not find it with one, nor with an entry for an inode that is not in use. -/
def Clear (dp : Ino) (s : State) : DirOp → Prop
  | link name _ => lookup (dirTable ((s.file dp).bytes s.data)) (key name) ≠ some (s.inode dp).inum
  | remove name => ¬ IsDot name → ∀ i ∈ lookup (dirTable ((s.file dp).bytes s.data)) (key name),
    i ≠ (s.inode dp).inum ∧ (s.dinode i).type ≠ .free ∧ 1 ≤ (s.dinode i).nlink

instance (dp : Ino) (s : State) (op : DirOp) : Decidable (op.Allowed dp s) :=
  inferInstanceAs (Decidable (_ ∧ _))

instance (dp : Ino) (s : State) : ∀ op : DirOp, Decidable (op.Clear dp s)
  | link .. => inferInstanceAs (Decidable (_ ≠ _))
  | remove _ => inferInstanceAs (Decidable (_ → ∀ _ ∈ _, _))

/-- The operation as a step of the file system. -/
def step (sb : Superblock) (dp : Ino) (s : State) (op : DirOp) : Except Panic State :=
  (op.run sb dp s).map (·.2)

end DirOp

/-- What a call stops with when the cache or the disk is full. -/
def Exhausted (e : Panic) : Prop := e = .iget ∨ e = .outOfBlocks

theorem Dir.step (h : Dir sb dp x l s) {op : DirOp} (hallowed : op.Allowed dp s) (hclear : op.Clear dp s) :
    wp Exhausted (op.run sb dp) (fun r s' => r = (op.onTable s.full l).1 ∧
      Dir sb dp x (op.onTable s.full l).2 s') s := by
  obtain ⟨hvalid, hbelow⟩ := hallowed
  have hmax : l.length < NENTRY := by
    have hD : DIRENT * NENTRY = MAXFILE * BSIZE := by decide
    rw [h.size, ← hD] at hbelow
    exact Nat.lt_of_mul_lt_mul_left hbelow
  cases op with
  | link name inum =>
    obtain ⟨hname, -, hpos, hlt⟩ := hvalid
    simp only [DirOp.Clear, h.table, h.inum] at hclear
    simp only [DirOp.onTable]
    cases hlook : lookup l (key name) with
    | none =>
      have hroom : room l < NENTRY := Nat.lt_of_le_of_lt List.findIdx_le_length hmax
      exact h.dirlink_wp hname hpos hlt hlook hroom fun _ => .inr rfl
    | some i =>
      have hself : i ≠ x := fun hi => hclear (by rw [← hi]; exact hlook)
      refine wp_mono (h.dirlink_refuses hname hlook hself (fun _ => .inl rfl) inum) ?_
      rintro r s1 ⟨rfl, hs⟩
      exact ⟨rfl, h.same hs⟩
  | remove name =>
    obtain ⟨hname, -⟩ := hvalid
    simp only [DirOp.Clear, h.table, h.inum] at hclear
    simp only [DirOp.onTable]
    cases hlook : lookup l (key name) with
    | none => exact h.remove_refused hname (.inr hlook)
    | some i =>
      by_cases hdot : IsDot name
      · simp only [hdot, true_or, if_true]
        exact h.remove_refused hname (.inl hdot)
      · obtain ⟨hself, htype, hlinks⟩ := hclear hdot i hlook
        refine wp_mono (h.remove_wp hname hdot hlook hself htype hlinks (.inl rfl)) ?_
        rintro r s1 ⟨rfl, h1⟩
        cases hfull : s.full i with
        | false => simpa [hdot, hfull] using h1
        | true => simpa [hdot, hfull] using h1

theorem Dir.stuck {Q : Bool → State → Prop} (h : Dir sb dp x l s) {op : DirOp} (hvalid : op.Valid)
    (hclear : ¬ op.Clear dp s) : wp (fun _ => True) (op.run sb dp) Q s := by
  cases op with
  | link name inum =>
    simp only [DirOp.Clear, h.table, h.inum, not_not] at hclear
    exact wp_weaken (h.dirlink_deadlock hvalid.1 hclear inum) (fun _ _ hQ => hQ) fun _ _ => trivial
  | remove name =>
    simp only [DirOp.Clear, h.table, h.inum, Option.mem_def, Classical.not_imp, not_forall] at hclear
    obtain ⟨hdot, i, hsome, hno⟩ := hclear
    exact h.remove_stuck hvalid.1 hdot hsome hno

/-- Changes of a directory, one after the other: which directories were not empty before each of them,
and whether it has succeeded. -/
def runOps (sb : Superblock) (dp : Ino) : List DirOp → F (List ((Nat → Bool) × Bool))
  | [] => pure []
  | op :: ops => do
    let s ← get
    let r ← op.run sb dp
    let rs ← runOps sb dp ops
    pure ((s.full, r) :: rs)

def mapOps (m : Name → Option Nat) : List DirOp → List (Nat → Bool) → List Bool × (Name → Option Nat)
  | op :: ops, full :: fulls => ((op.onMap full m).1 :: (mapOps (op.onMap full m).2 ops fulls).1,
      (mapOps (op.onMap full m).2 ops fulls).2)
  | _, _ => ([], m)

def tableOps (l : Table Name Nat) : List DirOp → List (Nat → Bool) → Table Name Nat
  | op :: ops, full :: fulls => tableOps (op.onTable full l).2 ops fulls
  | _, _ => l

theorem tableOps_mapOps (ops : List DirOp) : ∀ {l : Table Name Nat} {fulls : List (Nat → Bool)}, Distinct l →
    lookup (tableOps l ops fulls) = (mapOps (lookup l) ops fulls).2 := by
  induction ops with
  | nil => exact fun _ => rfl
  | cons op ops ih =>
    intro l fulls h
    cases fulls with
    | nil => rfl
    | cons full fulls =>
      obtain ⟨heq, hdistinct⟩ := op.onTable_onMap full h
      show lookup (tableOps (op.onTable full l).2 ops fulls) = (mapOps (op.onMap full (lookup l)).2 ops fulls).2
      rw [ih hdistinct, ← heq]

theorem Dir.runOps_wp (ops : List DirOp) : ∀ {l : Table Name Nat} {s : State}, Dir sb dp x l s →
    Meets (DirOp.step sb dp) s (fun s op => op.Allowed dp s) ops →
    Meets (DirOp.step sb dp) s (fun s op => op.Clear dp s) ops →
    wp Exhausted (runOps sb dp ops) (fun rs s' =>
      rs.map (·.2) = (mapOps (lookup l) ops (rs.map (·.1))).1 ∧
      Dir sb dp x (tableOps l ops (rs.map (·.1))) s') s := by
  induction ops with
  | nil => exact fun h _ _ => ⟨rfl, h⟩
  | cons op ops ih =>
    intro l s h hallowed hclear
    obtain ⟨hop, hallowed⟩ := meets_cons.1 hallowed
    obtain ⟨hop', hclear⟩ := meets_cons.1 hclear
    obtain ⟨heq, -⟩ := op.onTable_onMap s.full h.distinct
    have hwp := h.step hop hop'
    unfold runOps
    simp only [wp_bind, wp_get, wp_pure]
    unfold wp at hwp ⊢
    split
    · rename_i r s1 hrun
      rw [hrun] at hwp
      obtain ⟨rfl, h1⟩ := hwp
      have hstep : op.step sb dp s = .ok s1 := by rw [DirOp.step, hrun]; rfl
      refine wp_mono (ih h1 (hallowed s1 hstep) (hclear s1 hstep)) ?_
      rintro rs s2 ⟨hrs, h2⟩
      refine ⟨?_, h2⟩
      show _ :: rs.map (·.2) = (op.onMap s.full (lookup l)).1 ::
        (mapOps (op.onMap s.full (lookup l)).2 ops (rs.map (·.1))).1
      rw [← heq, hrs]
    · rename_i e hrun
      rw [hrun] at hwp
      exact hwp

/-- A run with an operation that does not come back does not end. -/
theorem Dir.runOps_stuck (ops : List DirOp) : ∀ {l : Table Name Nat} {s : State}, Dir sb dp x l s →
    Meets (DirOp.step sb dp) s (fun s op => op.Allowed dp s) ops →
    ¬ Meets (DirOp.step sb dp) s (fun s op => op.Clear dp s) ops →
    wp (fun _ => True) (runOps sb dp ops) (fun _ _ => False) s := by
  induction ops with
  | nil => exact fun _ _ hclear => (hclear fun pre a hpre => by simp at hpre).elim
  | cons op ops ih =>
    intro l s h hallowed hclear
    obtain ⟨hop, hallowed⟩ := meets_cons.1 hallowed
    unfold runOps
    simp only [wp_bind, wp_get, wp_pure]
    by_cases hfirst : op.Clear dp s
    · have hwp := h.step hop hfirst
      unfold wp at hwp ⊢
      split
      · rename_i r s1 hrun
        rw [hrun] at hwp
        have hstep : op.step sb dp s = .ok s1 := by rw [DirOp.step, hrun]; rfl
        refine wp_mono (ih hwp.2 (hallowed s1 hstep) fun hrest => hclear ?_) fun _ _ hfalse => hfalse
        refine meets_cons.2 ⟨hfirst, fun u hu => ?_⟩
        cases hstep.symm.trans hu
        exact hrest
      · trivial
    · exact h.stuck hop.1 hfirst

/-- `dirlookup` finds what is in the map. -/
theorem Dir.dirlookup_map (h : Dir sb dp x l s) (hname : 0 ∉ name) :
    wp (· = .iget) (dirlookup sb dp name)
      (fun r s' => r.map (fun p => (s'.inode p.1).inum) = lookup l (key name)) s := by
  refine wp_mono (h.dirlookup_wp hname fun _ _ _ => rfl) ?_
  rintro (_ | ⟨ip, off⟩) s1 hr
  · exact hr.1.symm
  · obtain ⟨k, inum, -, hk, hgot⟩ := hr
    rw [h.lookup_of_getElem? hk]
    cases hgot with
    | shared hlive hdev hinum => simp [State.setInode, hinum]
    | fresh hfree hnew => simp [State.setInode]

/-- Directories are finite maps from names, cut to `DIRSIZ` bytes, to inode numbers, as long as no
operation is on a name whose entry is one for the directory itself, and no removal on one whose entry is
for an inode that is not in use; otherwise the operation does not come back.  `.` and `..` can always be
looked up for a removal, and stay. -/
theorem directory_is_map (h : Dir sb dp x l s) :
    (∀ ops : List DirOp, Meets (DirOp.step sb dp) s (fun s op => op.Allowed dp s) ops →
      (Meets (DirOp.step sb dp) s (fun s op => op.Clear dp s) ops →
        wp Exhausted (runOps sb dp ops) (fun rs s' =>
          rs.map (·.2) = (mapOps (lookup l) ops (rs.map (·.1))).1 ∧
          Dir sb dp x (tableOps l ops (rs.map (·.1))) s' ∧
          ∀ name, 0 ∉ name → wp (· = .iget) (dirlookup sb dp name) (fun r s'' =>
            r.map (fun p => (s''.inode p.1).inum) =
              (mapOps (lookup l) ops (rs.map (·.1))).2 (key name)) s') s) ∧
      (¬ Meets (DirOp.step sb dp) s (fun s op => op.Clear dp s) ops →
        ∀ rs s', runOps sb dp ops s ≠ .ok (rs, s'))) ∧
    (∀ name inum, 0 ∉ name → lookup l (key name) ≠ none →
      (wp (· = .iget) (dirlink sb dp name inum) (fun r s' => r = false ∧ Same s s') s ↔
        lookup l (key name) ≠ some x)) ∧
    ∀ (full : Nat → Bool) (op : DirOp), none ∈ l → (op.onTable full l).2.length = l.length := by
  refine ⟨fun ops hallowed => ⟨fun hclear => ?_, fun hclear rs s' hrun => ?_⟩,
    fun name inum hname hne => ⟨fun hwp hself => ?_, fun hself => ?_⟩, fun full op => op.length_onTable full⟩
  · refine wp_mono (h.runOps_wp ops hallowed hclear) ?_
    rintro rs s' ⟨hrs, h'⟩
    refine ⟨hrs, h', fun name hname => ?_⟩
    have hlook := h'.dirlookup_map hname
    rwa [tableOps_mapOps ops h.distinct] at hlook
  · exact (h.runOps_stuck ops hallowed hclear).of_ok hrun
  · -- the outcome is a deadlock, which is neither
    have hdead := h.dirlink_deadlock (Q := fun _ _ => False) hname hself inum
    cases hrun : dirlink sb dp name inum s with
    | ok r => exact hdead.of_ok hrun
    | error e =>
      have h₁ := hdead.of_error hrun
      have h₂ := hwp.of_error hrun
      rw [h₁] at h₂
      cases h₂
  · obtain ⟨i, hi⟩ := Option.ne_none_iff_exists'.1 hne
    have hix : i ≠ x := by
      rintro rfl
      exact hself hi
    exact h.dirlink_refuses (E := (· = .iget)) hname hi hix (fun _ => rfl) inum

/-- The root directory that `mkfs` makes, locked. -/
def rootLocked : State :=
  State.mkfsFile.setInode 0 ⟨ROOTDEV, ROOTINO, 1, true, true, State.mkfs.dinode ROOTINO⟩

def rootTable : Table Name Nat :=
  some (dot, ROOTINO) :: some (dotdot, ROOTINO) :: List.replicate 30 none

theorem dir_rootLocked : Dir .mkfs 0 ROOTINO rootTable rootLocked where
  good := by
    refine Good.mkfsFile.setInode (fun _ => rfl) (fun _ _ _ hlive => absurd hlive (Int.lt_irrefl 0)) fun _ _ => ?_
    exact ⟨rfl, by decide⟩
  whole := by
    intro y hy
    by_cases hroot : y = ROOTINO
    · subst hroot
      decide
    · have hfree : (rootLocked.dinode y).type ≠ .T_DIR := by
        by_cases hfile : y = 2
        · subst hfile
          decide
        · show (update (update (fun _ => Dinode.zero) ROOTINO _) 2 _ y).type ≠ _
          rw [update_of_ne hfile, update_of_ne hroot]
          decide
      exact absurd hy hfree
  inum := rfl
  ref := by decide
  valid := rfl
  lock := by decide
  type := rfl
  size := by decide
  table := by decide +kernel
  distinct := by
    have hname : ∀ (i : Nat) k v, rootTable[i]? = some (some (k, v)) →
        i = 0 ∧ k = dot ∨ i = 1 ∧ k = dotdot := by
      intro i k v hi
      rcases i with _ | _ | i
      · cases hi
        exact .inl ⟨rfl, rfl⟩
      · cases hi
        exact .inr ⟨rfl, rfl⟩
      · have hmem : some (k, v) ∈ List.replicate 30 none := List.mem_of_getElem? hi
        cases List.eq_of_mem_replicate hmem
    intro i j k v w hi hj
    obtain ⟨rfl, hdot⟩ | ⟨rfl, hdotdot⟩ := hname i k v hi
    · obtain ⟨rfl, -⟩ | ⟨rfl, hdotdot⟩ := hname j k w hj
      · rfl
      · exact absurd (hdot.symm.trans hdotdot) (by decide)
    · obtain ⟨rfl, hdot⟩ | ⟨rfl, -⟩ := hname j k w hj
      · exact absurd (hdot.symm.trans hdotdot) (by decide)
      · rfl

/-- A name is entered, found to be there, and removed with its file; `.` is not removed. -/
def rootOps : List DirOp := [.link [97] 2, .link [97] 3, .remove [97], .remove [46], .link [98] 5]

theorem directory_is_map_root : Dir .mkfs 0 ROOTINO rootTable rootLocked ∧
    wp Exhausted (runOps .mkfs 0 rootOps) (fun rs _ => rs.map (·.2) = [true, false, true, false, true] ∧
      (mapOps (lookup rootTable) rootOps (rs.map (·.1))).1 = [true, false, true, false, true]) rootLocked := by
  have hrun : (match runOps .mkfs 0 rootOps rootLocked with
      | .ok (rs, _) => decide (rs.map (·.2) = [true, false, true, false, true])
      | .error _ => true) = true := by decide +kernel
  have hmap := ((directory_is_map dir_rootLocked).1 rootOps (meets_of_meetsB (by decide +kernel))).1
    (meets_of_meetsB (by decide +kernel))
  refine ⟨dir_rootLocked, ?_⟩
  unfold wp at hmap ⊢
  split
  · rename_i rs s' hok
    rw [hok] at hmap hrun
    have hresults := of_decide_eq_true hrun
    exact ⟨hresults, hmap.1 ▸ hresults⟩
  · rename_i e herror
    rwa [herror] at hmap

/-- `link("/a", "/.")` does not return: `dirlink` finds the entry `.` of the root, and gives the root back
while it holds its lock. -/
theorem link_dot_deadlocks : ∃ s, withFile .mkfs = .ok ((), s) ∧
    link .mkfs 0 [slash, 97] [slash, 46] s = .error .deadlock := by
  decide +kernel

end Laboratorio.Xv6.Fs
