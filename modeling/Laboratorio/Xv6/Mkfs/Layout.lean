import Laboratorio.Xv6.Fs.Files
import Laboratorio.Xv6.Mkfs.Image

/-!
# Inodes on the disk

`Din.bytes` and `Din.read` are inverse to each other, `Din.dinode` is how the kernel reads the same
bytes.  The table of inodes takes the blocks from `inodestart` to `bmapstart`, in which there is room
for `NINODE` of them, a few more than `NINODES`.
-/

namespace Laboratorio.Xv6.Mkfs

open Laboratorio.Lib Bytes
open Fs (BSIZE NDIRECT NINDIRECT MAXFILE FSSIZE FType Dinode)

/-! ## A dinode in a sector -/

/-- The numbers fit into their fields, and there are no more than `NDIRECT + 1` addresses. -/
structure Din.Fits (d : Din) : Prop where
  type : d.type < 2 ^ 16
  major : d.major < 2 ^ 16
  minor : d.minor < 2 ^ 16
  nlink : d.nlink < 2 ^ 16
  size : d.size < 2 ^ 32
  addrs : ∀ i, d.addrs i < 2 ^ 32
  beyond : ∀ i, NDIRECT < i → d.addrs i = 0

theorem fits_zero : Din.zero.Fits :=
  ⟨by decide, by decide, by decide, by decide, by decide, fun _ => Nat.two_pow_pos 32, fun _ _ => rfl⟩

theorem length_bytes (d : Din) : d.bytes.length = DINODE := by
  have hlen : ∀ l : List Nat, (l.flatMap fun i => toBytes 4 (d.addrs i)).length = 4 * l.length := by
    intro l
    induction l with
    | nil => rfl
    | cons i l ih =>
      rw [List.flatMap_cons, List.length_append, ih, length_toBytes, List.length_cons]
      omega
  simp only [Din.bytes, List.length_append, length_toBytes, hlen, List.length_range]
  rfl

/-- A part of what has been written. -/
theorem slice_splice_part (f : Buf) (o j n : Nat) (l : List UInt8) (h : j + n ≤ l.length) :
    slice (splice f o l) (o + j) n = (l.drop j).take n := by
  have hlen : ((l.drop j).take n).length = n := by
    rw [List.length_take, List.length_drop]
    omega
  have hslice : slice (splice f o l) (o + j) ((l.drop j).take n).length = (l.drop j).take n := by
    refine slice_eq fun i hi => ?_
    rw [hlen] at hi
    rw [List.getElem?_take_of_lt hi, List.getElem?_drop, Nat.add_assoc,
      splice_inside (show j + i < l.length by omega)]
  rwa [hlen] at hslice

theorem ofBytes_toBytes_of_lt {n x : Nat} (h : x < 256 ^ n) : ofBytes (toBytes n x) = x := by
  rw [ofBytes_toBytes, Nat.mod_eq_of_lt h]

theorem read_splice_self {d : Din} (f : Buf) (o : Nat) (hd : d.Fits) :
    Din.read (splice f o d.bytes) o = d := by
  have hpart : ∀ j n, j + n ≤ DINODE →
      slice (splice f o d.bytes) (o + j) n = (d.bytes.drop j).take n := by
    intro j n h
    exact slice_splice_part f o j n d.bytes (by rwa [length_bytes])
  have htype : ofBytes (slice (splice f o d.bytes) o 2) = d.type := by
    have := hpart 0 2 (by decide)
    rw [Nat.add_zero] at this
    rw [this]
    exact ofBytes_toBytes_of_lt (n := 2) hd.type
  have hmajor : ofBytes (slice (splice f o d.bytes) (o + 2) 2) = d.major := by
    rw [hpart 2 2 (by decide)]
    exact ofBytes_toBytes_of_lt (n := 2) hd.major
  have hminor : ofBytes (slice (splice f o d.bytes) (o + 4) 2) = d.minor := by
    rw [hpart 4 2 (by decide)]
    exact ofBytes_toBytes_of_lt (n := 2) hd.minor
  have hnlink : ofBytes (slice (splice f o d.bytes) (o + 6) 2) = d.nlink := by
    rw [hpart 6 2 (by decide)]
    exact ofBytes_toBytes_of_lt (n := 2) hd.nlink
  have hsize : ofBytes (slice (splice f o d.bytes) (o + 8) 4) = d.size := by
    rw [hpart 8 4 (by decide)]
    exact ofBytes_toBytes_of_lt (n := 4) hd.size
  have haddrs : (fun i => if i ≤ NDIRECT then ofBytes (slice (splice f o d.bytes) (o + 12 + 4 * i) 4)
      else 0) = d.addrs := by
    funext i
    split
    · rename_i hi
      have hbytes : (d.bytes.drop (12 + 4 * i)).take 4 = toBytes 4 (d.addrs i) := by
        unfold NDIRECT at hi
        interval_cases i <;> rfl
      rw [Nat.add_assoc, hpart (12 + 4 * i) 4 (by unfold NDIRECT at hi; unfold DINODE; omega), hbytes]
      exact ofBytes_toBytes_of_lt (n := 4) (hd.addrs i)
    · rename_i hi
      exact (hd.beyond i (by omega)).symm
  unfold Din.read
  rw [htype, hmajor, hminor, hnlink, hsize, haddrs]

theorem read_congr {f g : Buf} {o : Nat} (h : ∀ i < DINODE, f (o + i) = g (o + i)) :
    Din.read f o = Din.read g o := by
  have hslice : ∀ j n, j + n ≤ DINODE → slice f (o + j) n = slice g (o + j) n := by
    intro j n hjn
    refine slice_congr fun i hi => ?_
    rw [Nat.add_assoc]
    exact h (j + i) (by omega)
  have haddrs : ∀ i, (if i ≤ NDIRECT then ofBytes (slice f (o + 12 + 4 * i) 4) else 0) =
      if i ≤ NDIRECT then ofBytes (slice g (o + 12 + 4 * i) 4) else 0 := by
    intro i
    split
    · rename_i hi
      unfold NDIRECT at hi
      rw [Nat.add_assoc, hslice (12 + 4 * i) 4 (by unfold DINODE; omega)]
    · rfl
  unfold Din.read
  have h0 := hslice 0 2 (by decide)
  rw [Nat.add_zero] at h0
  rw [h0, hslice 2 2 (by decide), hslice 4 2 (by decide), hslice 6 2 (by decide),
    hslice 8 4 (by decide), funext haddrs]

/-! ## The table -/

/-- The inodes for which there is room in the table. -/
def NINODE : Nat := ninodeblocks * IPB

def State.din (s : State) (i : Nat) : Din := Din.read (s.sect (IBLOCK i)) (i % IPB * DINODE)

/-- A sector inside of the image is written. -/
def State.put (s : State) (b : Nat) (buf : Buf) : State :=
  { s with sect := Function.update s.sect b buf }

variable {s : State} {i j b : Nat} {d : Din} {buf : Buf}

theorem iblock_lt (hi : i < NINODE) : IBLOCK i < bmapstart := by
  have hI : IPB = 8 := rfl
  have hn : NINODE = 208 := rfl
  have hb : bmapstart = inodestart + 26 := rfl
  unfold IBLOCK
  rw [hI]
  omega

/-- A block that is not in the table. -/
theorem din_update (hb : bmapstart ≤ b) (hi : i < NINODE) :
    (s.put b buf).din i = s.din i := by
  have hne : IBLOCK i ≠ b := by
    have := iblock_lt hi
    omega
  unfold State.din State.put
  dsimp only
  rw [Function.update_of_ne hne]

theorem din_winode_self (hd : d.Fits) :
    (s.put (IBLOCK i) (splice (s.sect (IBLOCK i)) (i % IPB * DINODE) d.bytes)).din i = d := by
  unfold State.din State.put
  dsimp only
  rw [Function.update_self]
  exact read_splice_self _ _ hd

theorem din_winode_of_ne (hij : j ≠ i) :
    (s.put (IBLOCK i) (splice (s.sect (IBLOCK i)) (i % IPB * DINODE) d.bytes)).din j = s.din j := by
  have hI : IPB = 8 := rfl
  have hD : DINODE = 64 := rfl
  unfold State.din State.put
  dsimp only
  by_cases hblock : IBLOCK j = IBLOCK i
  · rw [hblock, Function.update_self]
    refine read_congr fun t ht => splice_outside ?_
    unfold IBLOCK at hblock
    rw [length_bytes]
    rw [hI] at hblock ⊢
    rw [hD] at ht ⊢
    omega
  · rw [Function.update_of_ne hblock]

/-! ## The inode in the kernel -/

/-- A `short` that is a file type; numbers that are none do not occur. -/
def ftype : Nat → FType
  | 1 => .T_DIR
  | 2 => .T_FILE
  | 3 => .T_DEV
  | _ => .free

/-- The `short` with these two bytes. -/
@[irreducible] def short (x : Nat) : Int := (x : Int).bmod (2 ^ 16)

def Din.dinode (d : Din) : Dinode where
  type := ftype d.type
  major := short d.major
  minor := short d.minor
  nlink := short d.nlink
  size := d.size
  addrs := d.addrs

end Laboratorio.Xv6.Mkfs
