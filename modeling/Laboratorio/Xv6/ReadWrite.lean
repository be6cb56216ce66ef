import Laboratorio.Xv6.Kernel
import Laboratorio.Xv6.Fs.Good

/-!
# Reading and writing an open file

`filewrite` cuts what it writes into chunks, each of them an operation of its own, and `writei` cuts
these into blocks; `put` is what all of that does to the bytes of the file.  `fileread` in the model of
the kernel only returns how many bytes it has read; `filereadBytes` also returns the bytes.
-/

namespace Laboratorio.Xv6.Kernel

open Laboratorio.Lib Bytes Function
open scoped Fs
open Fs (Ino Superblock Good Wrote freeBlocks needs MAXFILE BSIZE)

variable {sb : Superblock} {s s1 s2 : State} {f : FileIx} {n : Nat} {src : List UInt8} {E : Stop → Prop}

/-- The inode on the disk of an open file. -/
def State.dinodeOf (s : State) (f : FileIx) : Fs.Dinode := s.fs.file (s.file f).ip

/-- The bytes of an open file. -/
def State.contents (s : State) (f : FileIx) : List UInt8 := (s.dinodeOf f).bytes s.fs.data

theorem length_contents (s : State) (f : FileIx) : (s.contents f).length = (s.dinodeOf f).size :=
  length_slice ..

/-- In a well-formed file system, `f` is an open regular file. -/
structure Opened (sb : Superblock) (f : FileIx) (s : State) : Prop where
  good : Good sb s.fs
  type : (s.file f).type = .FD_INODE
  ref : 0 < (s.fs.inode (s.file f).ip).ref
  lock : (s.fs.inode (s.file f).ip).lock = false
  regular : (s.dinodeOf f).type = .T_FILE
  off : (s.file f).off ≤ (s.dinodeOf f).size

theorem Opened.alloc (h : Opened sb f s) : (s.dinodeOf f).type ≠ .free := by simp [h.regular]

theorem Opened.small (h : Opened sb f s) : (s.dinodeOf f).size ≤ MAXFILE * BSIZE := h.good.small _ h.alloc

/-- The file system has changed, and the entry in the cache and the offset with it. -/
structure Stepped (f : FileIx) (i : Fs.Inode) (m : Nat) (s s' : State) : Prop where
  file : s'.file = update s.file f { s.file f with off := (s.file f).off + m }
  inode : s'.fs.inode = update s.fs.inode (s.file f).ip i
  inum : i.inum = (s.fs.inode (s.file f).ip).inum
  ref : 0 < i.ref
  lock : i.lock = false

section Stepped

variable {i : Fs.Inode} {m : Nat}

theorem Stepped.self (h : Stepped f i m s s1) : s1.fs.inode (s1.file f).ip = i := by
  rw [h.file, update_self, h.inode]
  exact update_self ..

theorem Stepped.inums (h : Stepped f i m s s1) (j : Ino) :
    (s1.fs.inode j).inum = (s.fs.inode j).inum := by
  rw [h.inode]
  by_cases hj : j = (s.file f).ip
  · rw [hj, update_self, h.inum]
  · rw [update_of_ne hj]

theorem Stepped.dinodeOf (h : Stepped f i m s s1) :
    s1.dinodeOf f = s1.fs.dinode (s.fs.inode (s.file f).ip).inum := by
  unfold State.dinodeOf Fs.State.file
  rw [h.self, h.inum]

theorem Stepped.opened (h : Stepped f i m s s1) (hopen : Opened sb f s) (hgood : Good sb s1.fs)
    (hregular : (s1.dinodeOf f).type = .T_FILE) (hoff : (s.file f).off + m ≤ (s1.dinodeOf f).size) :
    Opened sb f s1 := by
  have hself := h.self
  have hfile : s1.file f = { s.file f with off := (s.file f).off + m } := by
    rw [h.file, update_self]
  refine ⟨hgood, ?_, ?_, ?_, hregular, ?_⟩
  · rw [hfile]
    exact hopen.type
  · rw [hself]
    exact h.ref
  · rw [hself]
    exact h.lock
  · rw [hfile]
    exact hoff

end Stepped

/-! ## Writing -/

/-- The bytes `src` have been written to `f` at its offset. -/
structure FileWritten (sb : Superblock) (f : FileIx) (n : Nat) (src : List UInt8) (s s' : State) :
    Prop where
  opened : Opened sb f s'
  file : s'.file = update s.file f { s.file f with off := (s.file f).off + src.length }
  inum : ∀ i, (s'.fs.inode i).inum = (s.fs.inode i).inum
  contents : s'.contents f = put (s.contents f) (s.file f).off src
  others : ∀ y ≠ (s.fs.inode (s.file f).ip).inum, (s.fs.dinode y).type ≠ .free →
    s'.fs.dinode y = s.fs.dinode y ∧
    (s'.fs.dinode y).bytes s'.fs.data = (s.fs.dinode y).bytes s.fs.data
  balance : freeBlocks sb s'.fs.bit + (needs s.fs.data (s.dinodeOf f) n).card =
    freeBlocks sb s.fs.bit + (needs s'.fs.data (s'.dinodeOf f) n).card

theorem FileWritten.ip (h : FileWritten sb f n src s s1) :
    (s1.file f).ip = (s.file f).ip ∧ (s1.file f).off = (s.file f).off + src.length := by
  rw [h.file, update_self]
  exact ⟨rfl, rfl⟩

theorem FileWritten.nil (h : Opened sb f s) : FileWritten sb f n [] s s where
  opened := h
  file := (update_eq_self f s.file).symm
  inum _ := rfl
  contents := (put_nil _ _).symm
  others _ _ _ := ⟨rfl, rfl⟩
  balance := rfl

theorem FileWritten.trans {a b : List UInt8} (hopen : Opened sb f s) (h : FileWritten sb f n a s s1)
    (h' : FileWritten sb f n b s1 s2) : FileWritten sb f n (a ++ b) s s2 := by
  obtain ⟨hip, hoff⟩ := h.ip
  refine ⟨h'.opened, ?_, fun i => (h'.inum i).trans (h.inum i), ?_, fun y hy hyt => ?_, ?_⟩
  · rw [h'.file, hoff, h.file, update_idem, update_self, List.length_append,
      Nat.add_assoc]
  · rw [h'.contents, h.contents, hoff, put_append]
    rw [length_contents]
    exact hopen.off
  · obtain ⟨hd, hbytes⟩ := h.others y hy hyt
    have hy1 : y ≠ (s1.fs.inode (s1.file f).ip).inum := by rwa [hip, h.inum]
    obtain ⟨hd', hbytes'⟩ := h'.others y hy1 (by rwa [hd])
    exact ⟨hd'.trans hd, hbytes'.trans hbytes⟩
  · have := h.balance
    have := h'.balance
    omega

/-- What is known about the file system after a write, and the offset, say it all. -/
theorem FileWritten.of_fs {i : Fs.Inode} {A : Nat → Nat} (h : Opened sb f s)
    (hstep : Stepped f i src.length s s1) (hgood : Good sb s1.fs)
    (hdinode : s1.fs.dinode = update s.fs.dinode (s.fs.inode (s.file f).ip).inum
      { s.dinodeOf f with
        size := max (s.dinodeOf f).size ((s.file f).off + src.length), addrs := A })
    (hothers : ∀ y ≠ (s.fs.inode (s.file f).ip).inum, (s.fs.dinode y).type ≠ .free →
      Fs.Kept s.fs.data (s.fs.dinode y) s1.fs.data (s.fs.dinode y))
    (hbytes : (s1.dinodeOf f).bytes s1.fs.data = put (s.contents f) (s.file f).off src)
    (hbalance : freeBlocks sb s1.fs.bit + (needs s.fs.data (s.dinodeOf f) n).card =
      freeBlocks sb s.fs.bit + (needs s1.fs.data (s1.dinodeOf f) n).card) :
    FileWritten sb f n src s s1 := by
  have hd : s1.dinodeOf f = { s.dinodeOf f with
      size := max (s.dinodeOf f).size ((s.file f).off + src.length), addrs := A } := by
    rw [hstep.dinodeOf, hdinode, update_self]
  refine ⟨hstep.opened h hgood ?_ ?_, hstep.file, hstep.inums, hbytes, fun y hy hyt => ?_, hbalance⟩
  · rw [hd]
    exact h.regular
  · rw [hd]
    exact Nat.le_max_right ..
  · rw [hdinode, update_of_ne hy]
    exact ⟨rfl, (hothers y hy hyt).bytes (h.good.backed y hyt) (h.good.small y hyt) rfl⟩

theorem writeChunk_wp (h : Opened sb f s) (hsrc : (s.file f).off + src.length ≤ n)
    (hn : n ≤ MAXFILE * BSIZE)
    (henough : (needs s.fs.data (s.dinodeOf f) n).card ≤ freeBlocks sb s.fs.bit) :
    wp E (writeChunk sb f src) (fun r s' => r = some src.length ∧ FileWritten sb f n src s s') s := by
  obtain ⟨ip, hip⟩ : ∃ ip, ip = (s.file f).ip := ⟨_, rfl⟩
  have hgood : Good sb { s.fs with begun := s.fs.begun + 1, ops := [] :: s.fs.ops } :=
    h.good.congr rfl rfl rfl rfl
  unfold writeChunk fs
  simp only [wp_bind, wp_get, wp_zoom, Fs.begin_op, wp_modify, ← hip]
  have href := h.ref
  have hlock := h.lock
  have halloc := h.alloc
  have hoff := h.off
  have hregular := h.regular
  simp only [State.dinodeOf, ← hip] at href hlock halloc hoff hregular henough
  refine wp_mono (hgood.ilock_wp href hlock halloc) ?_
  rintro _ F1 rfl
  have hgood1 := hgood.locked href halloc
  refine wp_mono (hgood1.writei_wp (n := n) ?_ ?_ ?_ (s.file f).off ?_ hsrc hn ?_) ?_
  · rwa [Fs.locked_inode]
  · rw [Fs.locked_inode]
  · rw [Fs.locked_file]
    show (s.fs.file ip).type ≠ .T_DEV
    simp [hregular]
  · rw [Fs.locked_file]
    exact hoff
  · rw [Fs.locked_file]
    exact fun hlt => absurd henough (Nat.not_le.2 hlt)
  rintro r F2 ⟨rfl, hw⟩
  -- what is known about the file system, in terms of the one before the operation
  have hinode : F2.inode = update s.fs.inode ip { s.fs.inode ip with
      lock := true, valid := true, copy := F2.dinode (s.fs.inode ip).inum } := by
    rw [hw.inode, Fs.locked_inode]
    exact update_idem ..
  obtain ⟨A, hA⟩ := hw.dinode
  have hbytes := hw.bytes
  have hothers := hw.others
  have hbalance := hw.balance
  rw [Fs.locked_inode, Fs.locked_file] at hA hbytes hbalance
  rw [Fs.locked_inode] at hothers
  simp only [modFile, wp_bind, wp_modify, wp_zoom, Fs.end_op, wp_pure]
  refine wp_mono (Fs.iunlock_ok ?_ ?_) ?_
  · rw [hinode, update_self]
    exact href
  · rw [hinode, update_self]
  rintro _ F3 rfl
  have hmod : ((s.file f).off + src.length) % 2 ^ 32 = (s.file f).off + src.length := by
    have hM : MAXFILE * BSIZE < 2 ^ 32 := by decide
    exact Nat.mod_eq_of_lt (by omega)
  refine ⟨trivial, ?_⟩
  rw [hmod]
  subst hip
  obtain ⟨s', hs'⟩ : ∃ s' : State, s' = { s with
      fs := { F2.unlocked (s.file f).ip with ended := (F2.unlocked (s.file f).ip).ended + 1 }
      file := update s.file f { s.file f with off := (s.file f).off + src.length } } := ⟨_, rfl⟩
  have hstep : Stepped f { s.fs.inode (s.file f).ip with
      lock := false, valid := true, copy := F2.dinode (s.fs.inode (s.file f).ip).inum }
      src.length s s' := by
    refine ⟨by rw [hs'], ?_, rfl, href, rfl⟩
    rw [hs']
    show update F2.inode (s.file f).ip _ = _
    rw [hinode, update_idem, update_self]
  have hdinode : s'.fs.dinode = F2.dinode := by rw [hs']; rfl
  have hdata : s'.fs.data = F2.data := by rw [hs']; rfl
  have hbit : s'.fs.bit = F2.bit := by rw [hs']; rfl
  have hgood2 : Good sb (F2.unlocked (s.file f).ip) := hw.good.unlocked
  rw [← hs']
  refine FileWritten.of_fs (A := A) h hstep (hgood2.congr hdinode hdata hbit (by rw [hs'])) ?_ ?_ ?_ ?_
  · rw [hdinode]
    exact hA
  · rw [hdata]
    exact hothers
  · rw [hstep.dinodeOf, hdinode, hdata]
    exact hbytes
  · rw [hstep.dinodeOf, hdinode, hdata, hbit]
    exact hbalance

/-- The loop of `filewrite`: the chunks are written one behind the other. -/
theorem writeFile_wp (hn : n ≤ MAXFILE * BSIZE) (turns : Nat) : ∀ {src : List UInt8} {s : State},
    src.length ≤ turns → Opened sb f s → (s.file f).off + src.length ≤ n →
    (needs s.fs.data (s.dinodeOf f) n).card ≤ freeBlocks sb s.fs.bit →
    wp E (writeFile sb f turns src) (fun r s' => r = true ∧ FileWritten sb f n src s s') s := by
  induction turns with
  | zero =>
    intro src s hlen h _ _
    obtain rfl : src = [] := List.eq_nil_of_length_eq_zero (by omega)
    exact ⟨rfl, .nil h⟩
  | succ turns ih =>
    intro src s hlen h hsrc henough
    unfold writeFile
    refine wp_ite.2 ⟨fun hnil => ?_, fun hne => ?_⟩
    · subst hnil
      exact ⟨rfl, .nil h⟩
    have hpos : 0 < src.length := List.length_pos_iff.2 hne
    have hchunk : 0 < chunk := by decide
    have htake : (src.take chunk).length = min chunk src.length := List.length_take ..
    have hdrop : (src.drop chunk).length = src.length - chunk := List.length_drop ..
    refine wp_seq (writeChunk_wp h (by omega) hn henough) ?_
    rintro r s1 ⟨rfl, h1⟩
    have hoff := h1.ip.2
    have hbalance := h1.balance
    simp only [if_pos]
    refine wp_mono (ih (by omega) h1.opened (by omega) (by omega)) ?_
    rintro r s2 ⟨rfl, h2⟩
    have htrans := h1.trans h h2
    rw [List.take_append_drop] at htrans
    exact ⟨rfl, htrans⟩

theorem filewrite_wp (h : Opened sb f s) (hwritable : (s.file f).writable = true)
    (hsrc : (s.file f).off + src.length ≤ n) (hn : n ≤ MAXFILE * BSIZE)
    (henough : (needs s.fs.data (s.dinodeOf f) n).card ≤ freeBlocks sb s.fs.bit) :
    wp E (filewrite sb f src) (fun r s' => r = src.length ∧ FileWritten sb f n src s s') s := by
  unfold filewrite
  simp only [wp_bind, wp_get, hwritable, h.type]
  rw [if_pos trivial]
  refine wp_seq (writeFile_wp hn _ le_rfl h hsrc henough) ?_
  rintro ok s1 ⟨rfl, h1⟩
  exact ⟨rfl, h1⟩

/-! ## Reading -/

/-- `fileread` of an inode, with the bytes that it puts at `addr`. -/
def readFileBytes (sb : Superblock) (f : FileIx) (n : Nat) : K (Option (List UInt8)) := do
  let s ← get
  let ff := s.file f
  fs (Fs.ilock ff.ip)
  match ← fs (Fs.readi sb ff.ip ff.off n) with
  | none => do
    fs (Fs.iunlock ff.ip)
    pure none
  | some bytes => do
    modFile f fun h => { h with off := (h.off + bytes.length) % 2 ^ 32 }
    fs (Fs.iunlock ff.ip)
    pure (some bytes)

/-- `fileread`, with the bytes that it puts at `addr`. -/
def filereadBytes (sb : Superblock) (f : FileIx) (n : Nat) : K (Option (List UInt8)) := do
  let s ← get
  if (s.file f).readable then
    match (s.file f).type with
    | .FD_PIPE => pure (some [])
    | .FD_INODE => readFileBytes sb f n
    | .FD_NONE => throw .fileread
  else pure none

/-- What a call returns that has read these bytes. -/
def count (r : Option (List UInt8)) : Int := r.elim (-1) fun bytes => bytes.length

theorem readFile_eq (sb : Superblock) (f : FileIx) (n : Nat) :
    readFile sb f n = count <$> readFileBytes sb f n := by
  unfold readFile readFileBytes
  simp only [map_bind]
  refine bind_congr fun s => bind_congr fun _ => bind_congr fun r => ?_
  cases r with
  | none => simp [count]
  | some bytes => simp [count]

theorem fileread_eq (sb : Superblock) (f : FileIx) (n : Nat) :
    fileread sb f n = count <$> filereadBytes sb f n := by
  unfold fileread filereadBytes
  simp only [map_bind]
  refine bind_congr fun s => ?_
  split
  · cases (s.file f).type with
    | FD_PIPE => simp [count]
    | FD_INODE => exact readFile_eq sb f n
    | FD_NONE => rfl
  · simp [count]

/-- `m` bytes have been read from `f`, and nothing has been written. -/
structure FileRead (sb : Superblock) (f : FileIx) (m : Nat) (s s' : State) : Prop where
  opened : Opened sb f s'
  file : s'.file = update s.file f { s.file f with off := (s.file f).off + m }
  inum : ∀ i, (s'.fs.inode i).inum = (s.fs.inode i).inum
  dinode : s'.fs.dinode = s.fs.dinode
  data : s'.fs.data = s.fs.data

theorem FileRead.refl (h : Opened sb f s) : FileRead sb f 0 s s where
  opened := h
  file := (update_eq_self f s.file).symm
  inum _ := rfl
  dinode := rfl
  data := rfl

theorem FileRead.trans {m m' : Nat} (h : FileRead sb f m s s1) (h' : FileRead sb f m' s1 s2) :
    FileRead sb f (m + m') s s2 where
  opened := h'.opened
  file := by
    rw [h'.file, h.file, update_idem, update_self, Nat.add_assoc]
  inum i := (h'.inum i).trans (h.inum i)
  dinode := h'.dinode.trans h.dinode
  data := h'.data.trans h.data

theorem FileRead.contents {m : Nat} (h : FileRead sb f m s s1) : s1.contents f = s.contents f := by
  unfold State.contents State.dinodeOf Fs.State.file
  rw [h.dinode, h.data, h.inum, h.file, update_self]

theorem filereadBytes_wp (h : Opened sb f s) (hreadable : (s.file f).readable = true) (hn : n < 2 ^ 31) :
    wp E (filereadBytes sb f n) (fun r s' => r = some (((s.contents f).drop (s.file f).off).take n) ∧
      FileRead sb f (((s.contents f).drop (s.file f).off).take n).length s s') s := by
  obtain ⟨bytes, hbytes⟩ : ∃ bytes, bytes = ((s.contents f).drop (s.file f).off).take n := ⟨_, rfl⟩
  have hM : MAXFILE * BSIZE < 2 ^ 31 := by decide
  have hoff := h.off
  have hsmall := h.small
  have hlen : (s.file f).off + bytes.length ≤ (s.dinodeOf f).size := by
    rw [hbytes, List.length_take, List.length_drop, length_contents]
    omega
  have hmod : ((s.file f).off + bytes.length) % 2 ^ 32 = (s.file f).off + bytes.length :=
    Nat.mod_eq_of_lt (by omega)
  rw [← hbytes]
  unfold filereadBytes readFileBytes fs
  simp only [wp_bind, wp_get, hreadable, h.type]
  rw [if_pos trivial]
  simp only [wp_bind, wp_get, wp_zoom]
  refine wp_mono (h.good.ilock_wp h.ref h.lock h.alloc) ?_
  rintro _ F1 rfl
  have hgood1 := h.good.locked h.ref h.alloc
  refine wp_mono (hgood1.readi_wp (n := n) ?_ ?_ ?_ (s.file f).off ?_ (by omega)) ?_
  · rw [Fs.locked_inode]
    exact h.ref
  · rw [Fs.locked_inode]
  · rw [Fs.locked_file]
    exact fun hdev => by cases h.regular.symm.trans hdev
  · rw [Fs.locked_file]
    exact hoff
  rintro r F2 ⟨rfl, rfl⟩
  rw [Fs.locked_file]
  have hread : (((s.fs.file (s.file f).ip).bytes (s.fs.locked (s.file f).ip).data).drop
      (s.file f).off).take n = bytes := hbytes.symm
  rw [hread]
  simp only [modFile, wp_bind, wp_modify, wp_zoom, wp_pure]
  refine wp_mono (Fs.iunlock_ok ?_ ?_) ?_
  · rw [Fs.locked_inode]
    exact h.ref
  · rw [Fs.locked_inode]
  rintro _ F2 rfl
  rw [hmod]
  obtain ⟨s', hs'⟩ : ∃ s' : State, s' = { s with
      fs := (s.fs.locked (s.file f).ip).unlocked (s.file f).ip
      file := update s.file f { s.file f with off := (s.file f).off + bytes.length } } := ⟨_, rfl⟩
  have hstep : Stepped f { s.fs.inode (s.file f).ip with
      lock := false, valid := true, copy := s.dinodeOf f } bytes.length s s' := by
    refine ⟨by rw [hs'], ?_, rfl, h.ref, rfl⟩
    rw [hs']
    show update (update _ _ _) _ _ = _
    rw [update_idem, Fs.locked_inode]
    rfl
  have hdinode : s'.fs.dinode = s.fs.dinode := by rw [hs']; rfl
  have hd : s'.dinodeOf f = s.dinodeOf f := by
    rw [hstep.dinodeOf, hdinode]
    rfl
  rw [← hs']
  refine ⟨trivial, hstep.opened h ?_ ?_ ?_, hstep.file, hstep.inums, hdinode, by rw [hs']; rfl⟩
  · rw [hs']
    exact hgood1.unlocked
  · rw [hd]
    exact h.regular
  · rw [hd]
    exact hlen

/-- Pieces of a list, one behind the other, of at most these lengths. -/
def consecutive : List Nat → List UInt8 → List (List UInt8)
  | [], _ => []
  | n :: ns, l => l.take n :: consecutive ns (l.drop n)

/-- The calls of `fileread` with these sizes, one after the other. -/
def filereads (sb : Superblock) (f : FileIx) : List Nat → K (List (Option (List UInt8)))
  | [] => pure []
  | n :: ns => do
    let r ← filereadBytes sb f n
    let rs ← filereads sb f ns
    pure (r :: rs)

theorem filereads_wp (ns : List Nat) : ∀ {s : State}, Opened sb f s → (s.file f).readable = true →
    (∀ n ∈ ns, n < 2 ^ 31) →
    wp E (filereads sb f ns) (fun rs s' =>
      rs = (consecutive ns ((s.contents f).drop (s.file f).off)).map some ∧
      FileRead sb f (consecutive ns ((s.contents f).drop (s.file f).off)).flatten.length s s') s := by
  induction ns with
  | nil => exact fun h _ _ => ⟨rfl, .refl h⟩
  | cons n ns ih =>
    intro s h hreadable hns
    unfold filereads
    refine wp_seq (filereadBytes_wp h hreadable (hns n List.mem_cons_self)) ?_
    rintro r s1 ⟨rfl, h1⟩
    have hreadable1 : (s1.file f).readable = true := by
      rw [h1.file, update_self]
      exact hreadable
    refine wp_seq (ih h1.opened hreadable1 fun m hm => hns m (List.mem_cons_of_mem n hm)) ?_
    rintro rs s2 ⟨rfl, h2⟩
    have hoff : (s1.file f).off = (s.file f).off +
        (((s.contents f).drop (s.file f).off).take n).length := by
      rw [h1.file, update_self]
    have hrest : (s1.contents f).drop (s1.file f).off = ((s.contents f).drop (s.file f).off).drop n := by
      rw [h1.contents, hoff, ← List.drop_drop, List.length_take]
      by_cases hle : n ≤ ((s.contents f).drop (s.file f).off).length
      · rw [Nat.min_eq_left hle]
      · rw [Nat.min_eq_right (by omega), List.drop_length, List.drop_of_length_le (by omega)]
    rw [hrest] at h2 ⊢
    refine ⟨rfl, ?_⟩
    have htrans := h1.trans h2
    rwa [← List.length_append] at htrans

/-- Reading and writing a regular file: a write returns what it was given, moves the offset and puts the
bytes into the file, and no other file changes; reads return the bytes of the file piece by piece. -/
theorem file_read_write (h : Opened sb f s) :
    (∀ src : List UInt8, (s.file f).writable = true → (s.file f).off + src.length ≤ MAXFILE * BSIZE →
      (needs s.fs.data (s.dinodeOf f) ((s.file f).off + src.length)).card ≤ freeBlocks sb s.fs.bit →
      ∃ s', filewrite sb f src s = .ok (src.length, s') ∧
        (s'.file f).off = (s.file f).off + src.length ∧
        s'.contents f = put (s.contents f) (s.file f).off src ∧
        (s'.dinodeOf f).size = max (s.dinodeOf f).size ((s.file f).off + src.length) ∧
        (∀ y ≠ (s.fs.inode (s.file f).ip).inum, (s.fs.dinode y).type ≠ .free →
          s'.fs.dinode y = s.fs.dinode y ∧
          (s'.fs.dinode y).bytes s'.fs.data = (s.fs.dinode y).bytes s.fs.data) ∧
        Opened sb f s') ∧
    (∀ ns : List Nat, (s.file f).readable = true → (∀ n ∈ ns, n < 2 ^ 31) →
      ∃ s', filereads sb f ns s =
          .ok ((consecutive ns ((s.contents f).drop (s.file f).off)).map some, s') ∧
        s'.contents f = s.contents f ∧ Opened sb f s') := by
  refine ⟨fun src hwritable hsrc henough => ?_, fun ns hreadable hns => ?_⟩
  · obtain ⟨r, s', hrun, rfl, hw⟩ := (filewrite_wp h hwritable le_rfl hsrc henough).total
    refine ⟨s', hrun, hw.ip.2, hw.contents, ?_, hw.others, hw.opened⟩
    rw [← length_contents, hw.contents, length_put src, length_contents]
    rw [length_contents]
    exact h.off
  · obtain ⟨rs, s', hrun, rfl, hr⟩ := (filereads_wp ns h hreadable hns).total
    exact ⟨s', hrun, hr.contents, hr.opened⟩

/-- A disk with one empty file, which is open. -/
def emptyFile : State where
  __ := start .mkfs []
  fs := Fs.State.mkfsFile.setInode 0 ⟨Fs.ROOTDEV, 2, 1, false, false, .zero⟩
  file := fun _ => ⟨.FD_INODE, 1, true, true, 0, 0, 0⟩

theorem opened_emptyFile : Opened .mkfs 0 emptyFile where
  good := Good.mkfsFile.setInode (fun _ => rfl) (fun _ _ _ hlive => absurd hlive (Int.lt_irrefl 0)) nofun
  type := rfl
  ref := by decide
  lock := rfl
  regular := rfl
  off := by decide

/-- Bytes for five calls of `writei`, in blocks that are direct and indirect ones. -/
def longText : List UInt8 := (List.range 7000).map UInt8.ofNat

theorem file_read_write_long : Opened .mkfs 0 emptyFile ∧
    ∃ s', filewrite .mkfs 0 longText emptyFile = .ok (7000, s') ∧ s'.contents 0 = longText := by
  have hlen : longText.length = 7000 := by simp [longText]
  obtain ⟨s', hrun, -, hcontents, -⟩ := (file_read_write opened_emptyFile).1 longText rfl
    (by rw [hlen]; decide) (by rw [hlen]; decide +kernel)
  rw [hlen] at hrun
  rw [show emptyFile.contents 0 = [] from rfl] at hcontents
  exact ⟨opened_emptyFile, s', hrun, hcontents.trans (by simp [put])⟩

end Laboratorio.Xv6.Kernel
