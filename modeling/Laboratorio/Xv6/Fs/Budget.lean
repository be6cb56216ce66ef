import Laboratorio.Xv6.Fs.Held

/-!
# What an operation gives to `log_write`

`Paid sb o M k` is `Held` together with an account of the open operation: besides blocks of the bit
map, at most `k` different blocks have been given to `log_write`, counting the inode blocks of the
entries in `M`, whether they have been written or not.  An inode is paid for once, however often it
is written afterwards, and freeing it costs nothing more.

Looking up a path costs nothing: an inode without links that `iput` could free is in use already,
`Covered`, so that the reference of the walk is not the last one.
-/

namespace Laboratorio.Xv6.Fs

open Laboratorio.Lib TwoLevel Multiset

structure Paid (sb : Superblock) (o : List (List LogBlock)) (M : List Ino) (k : Nat) (L : Multiset Ino)
    (n : Nat) (E : Multiset Ino) (s : State) : Prop where
  held : Held sb L n E s
  mem : ∀ i ∈ M, i ∈ E
  logged : ∃ B : Finset LogBlock, B.card ≤ k ∧ (∀ i ∈ M, .inodes ((s.inode i).inum / IPB) ∈ B) ∧
    ∃ l, s.ops = l :: o ∧ ∀ b ∈ l, Within sb B b

variable {sb : Superblock} {o : List (List LogBlock)} {M M' : List Ino} {k k' n : Nat}
  {L L' E E' : Multiset Ino} {s s' : State} {ip dp cwd : Ino} {name : Name}

theorem Paid.start (h : Held sb L n E s) (hops : s.ops = [] :: o) : Paid sb o [] 0 L n E s :=
  ⟨h, nofun, ∅, le_rfl, nofun, [], hops, nofun⟩

theorem Paid.forget (h : Paid sb o M k L n E s) (hM : ∀ i ∈ M', i ∈ M) (hk : k ≤ k') :
    Paid sb o M' k' L n E s := by
  obtain ⟨B, hB, hmem, hl⟩ := h.logged
  exact ⟨h.held, fun i hi => h.mem i (hM i hi), B, hB.trans hk, fun i hi => hmem i (hM i hi), hl⟩

theorem Paid.charge (h : Paid sb o M k L n E s) (hip : ip ∈ E) : Paid sb o (ip :: M) (k + 1) L n E s := by
  obtain ⟨B, hB, hmem, l, hl, hwithin⟩ := h.logged
  refine ⟨h.held, fun i hi => ?_, insert (.inodes ((s.inode ip).inum / IPB)) B,
    (Finset.card_insert_le ..).trans (Nat.succ_le_succ hB), fun i hi => ?_, l, hl, fun b hb => ?_⟩
  · rcases List.mem_cons.1 hi with rfl | hi
    · exact hip
    · exact h.mem i hi
  · rcases List.mem_cons.1 hi with rfl | hi
    · exact Finset.mem_insert_self ..
    · exact Finset.mem_insert_of_mem (hmem i hi)
  · exact (hwithin b hb).imp_right Finset.mem_insert_of_mem

theorem Paid.quiet (h : Paid sb o M k L n E s) (h' : Held sb L' n E' s') (hquiet : Quiet E s s')
    (hE : ∀ i ∈ M, i ∈ E') : Paid sb o M k L' n E' s' := by
  obtain ⟨B, hB, hmem, hl⟩ := h.logged
  refine ⟨h', hE, B, hB, fun i hi => ?_, ?_⟩
  · rw [(hquiet.names i (h.mem i hi)).1]
    exact hmem i hi
  · rwa [hquiet.ops]

theorem Paid.write {A : Finset LogBlock} (h : Paid sb o M k L n E s) (hip : ip ∈ M)
    (h' : Held sb L' n E' s') (hnames : Names E' s s') (hM : ∀ i ∈ M', i ∈ M ∧ i ∈ E')
    (hlogs : Logs (Within sb (insert (.inodes ((s.inode ip).inum / IPB)) A)) s.ops s'.ops) :
    Paid sb o M' (k + A.card) L' n E' s' := by
  obtain ⟨B, hB, hmem, l, hl, hwithin⟩ := h.logged
  obtain ⟨l', hl', hops⟩ := hlogs
  refine ⟨h', fun i hi => (hM i hi).2, B ∪ A, (Finset.card_union_le ..).trans (Nat.add_le_add_right hB _),
    fun i hi => ?_, l' ++ l, ?_, fun b hb => ?_⟩
  · rw [(hnames i (hM i hi).2).1]
    exact Finset.mem_union_left _ (hmem i (hM i hi).1)
  · rw [hops, hl]
    rfl
  · rcases List.mem_append.1 hb with hb | hb
    · refine (hl' b hb).imp_right fun hb => ?_
      rcases Finset.mem_insert.1 hb with rfl | hb
      · exact Finset.mem_union_left _ (hmem ip hip)
      · exact Finset.mem_union_right _ hb
    · exact (hwithin b hb).imp_right (Finset.mem_union_left _)

/-- With one block of the bit map, one block is added to those that are paid for. -/
theorem Paid.card_le (h : Paid sb o M k L n E s) (hsize : sb.size ≤ BPB) :
    ∃ l, s.ops = l :: o ∧ l.toFinset.card ≤ k + 1 := by
  obtain ⟨B, hB, -, l, hl, hwithin⟩ := h.logged
  refine ⟨l, hl, ?_⟩
  have hsub : l.toFinset ⊆ insert (.bitmap 0) B := by
    intro b hb
    rcases hwithin b (List.mem_toFinset.1 hb) with ⟨c, hc, rfl⟩ | hb
    · rw [Nat.div_eq_of_lt (hc.trans_le hsize)]
      exact Finset.mem_insert_self ..
    · exact Finset.mem_insert_of_mem hb
  exact (Finset.card_le_card hsub).trans ((Finset.card_insert_le ..).trans (Nat.succ_le_succ hB))

/-! ## Functions on one inode

A panic ends the operation, so the rules allow all of them. -/

theorem Paid.end_op (h : Paid sb o M k L (n + 1) E s) :
    wp (fun _ => True) end_op (fun _ s' => Paid sb o M k L n E s') s := by
  refine wp_mono (end_op_held h.held) ?_
  rintro _ s1 ⟨h1, hquiet⟩
  obtain ⟨B, hB, hmem, hl⟩ := h.logged
  refine ⟨h1, h.mem, B, hB, fun i hi => ?_, ?_⟩
  · rw [(hquiet.names i (h.mem i hi)).1]
    exact hmem i hi
  · rwa [hquiet.ops]

theorem Paid.ilock (h : Paid sb o M k L n E s) (hip : ip ∈ E) :
    wp (fun _ => True) (ilock ip) (fun _ s' => Paid sb o M k (ip ::ₘ L) n E s') s := by
  refine wp_mono (ilock_held (fun _ _ => trivial) h.held hip) ?_
  rintro _ s1 ⟨h1, hquiet⟩
  exact h.quiet h1 hquiet h.mem

theorem Paid.iunlock (h : Paid sb o M k (ip ::ₘ L) n E s) :
    wp (fun _ => True) (iunlock ip) (fun _ s' => Paid sb o M k L n E s') s := by
  refine wp_mono (iunlock_held h.held) ?_
  rintro _ s1 ⟨h1, hquiet⟩
  exact h.quiet h1 hquiet h.mem

theorem Paid.iput (h : Paid sb o M k L n (ip ::ₘ E) s) (M' : List Ino) (hip : ip ∈ M)
    (hM : ∀ i ∈ M', i ∈ M ∧ i ∈ E) :
    wp (fun _ => True) (iput ip) (fun _ s' => Paid sb o M' k L n E s') s := by
  refine wp_mono (iput_held trivial h.held) ?_
  rintro _ s1 ⟨h1, hnames, hlogs, -⟩
  refine h.write (A := ∅) hip h1 hnames hM (hlogs.mono fun b hb => hb.imp_right fun hb => ?_)
  rw [hb]
  exact Finset.mem_insert_self ..

theorem Paid.iunlockput (h : Paid sb o M k (ip ::ₘ L) n (ip ::ₘ E) s) (M' : List Ino) (hip : ip ∈ M)
    (hM : ∀ i ∈ M', i ∈ M ∧ i ∈ E) :
    wp (fun _ => True) (iunlockput ip) (fun _ s' => Paid sb o M' k L n E s') s := by
  unfold Fs.iunlockput
  exact wp_seq h.iunlock fun _ _ h1 => h1.iput M' hip hM

theorem Paid.store {f : Dinode → Dinode}
    (hf : ∀ c, (f c).type = c.type ∧ (f c).size = c.size ∧ (f c).addrs = c.addrs)
    (h : Paid sb o M k L n E s) (hip : ip ∈ M) (hlock : ip ∈ L) :
    wp (fun _ => True) (do modCopy ip f; iupdate ip) (fun _ s' => Paid sb o M k L n E s') s := by
  refine wp_mono (store_held hf h.held hlock) ?_
  rintro _ s1 ⟨h1, hnames, hstored⟩
  refine h.write (A := ∅) hip h1 hnames (fun i hi => ⟨hi, h.mem i hi⟩) ?_
  rw [hstored.ops]
  exact (Logs.refl _ _).write (.inr (Finset.mem_insert_self ..))

theorem Paid.addLink (h : Paid sb o M k L n E s) (hip : ip ∈ M) (hlock : ip ∈ L) (d : Int) :
    wp (fun _ => True) (addLink ip d) (fun _ s' => Paid sb o M k L n E s') s :=
  h.store (fun _ => ⟨rfl, rfl, rfl⟩) hip hlock

theorem Paid.writei {c off : Nat} {src : List UInt8} (h : Paid sb o M k L n E s) (hip : ip ∈ M)
    (hlock : ip ∈ L) (hspan : (span off src.length).card ≤ c) :
    wp (fun _ => True) (writei sb ip src off) (fun _ s' => Paid sb o M (k + c) L n E s') s := by
  refine wp_mono (writei_held trivial h.held hlock src off) ?_
  rintro _ s1 ⟨h1, hnames, -, A, hA, hlogs⟩
  have h2 := h.write hip h1 hnames (fun i hi => ⟨hi, h.mem i hi⟩) hlogs
  exact h2.forget (fun _ hi => hi) (Nat.add_le_add_left (hA.trans hspan) k)

theorem Paid.ialloc {type : FType} (htype : type ≠ .free) (h : Paid sb o M k L n E s) :
    wp (fun _ => True) (ialloc sb ROOTDEV type)
      (fun ip s' => Paid sb o (ip :: M) (k + 1) L n (ip ::ₘ E) s') s := by
  refine wp_mono (ialloc_held (fun _ _ => trivial) htype h.held) ?_
  rintro ip s1 ⟨h1, hnames, -, hops⟩
  obtain ⟨B, hB, hmem, l, hl, hwithin⟩ := h.logged
  refine ⟨h1, fun i hi => ?_, insert (.inodes ((s1.inode ip).inum / IPB)) B,
    (Finset.card_insert_le ..).trans (Nat.succ_le_succ hB), fun i hi => ?_,
    .inodes ((s1.inode ip).inum / IPB) :: l, by rw [hops, hl]; rfl, fun b hb => ?_⟩
  · exact mem_cons.2 ((List.mem_cons.1 hi).imp_right (h.mem i))
  · rcases List.mem_cons.1 hi with rfl | hi
    · exact Finset.mem_insert_self ..
    · rw [(hnames i (h.mem i hi)).1]
      exact Finset.mem_insert_of_mem (hmem i hi)
  · rcases List.mem_cons.1 hb with rfl | hb
    · exact .inr (Finset.mem_insert_self ..)
    · exact (hwithin b hb).imp_right Finset.mem_insert_of_mem

/-! ## Directories -/

/-- An entry lies in one block. -/
theorem card_span_dirent {off : Nat} (h : DIRENT ∣ off) : (span off DIRENT).card ≤ 2 := by
  refine card_span_le (c := 0) ?_
  obtain ⟨m, rfl⟩ := h
  have hD : DIRENT = 16 := rfl
  have hB : BSIZE = 512 := rfl
  rw [hD, hB]
  omega

theorem Paid.dirlookup (h : Paid sb o M k L n E s) (hdp : dp ∈ L) (name : Name) :
    wp (fun _ => True) (dirlookup sb dp name) (fun r s' => Paid sb o M k L n (found r + E) s' ∧
      ∀ x, r = some x → DIRENT ∣ x.2) s := by
  refine wp_mono (dirlookup_held (fun _ _ => trivial) name h.held hdp) ?_
  rintro r s1 ⟨h1, hquiet, hoff⟩
  exact ⟨h.quiet h1 hquiet fun i hi => mem_add.2 (.inr (h.mem i hi)), hoff⟩

theorem Paid.reads (hdp : dp ∈ L) : Reads sb (fun _ => True) dp fun s => Paid sb o M k L n E s := by
  intro off m s h
  refine wp_mono (readi_held h.held hdp off m) ?_
  rintro _ s1 ⟨h1, hquiet⟩
  exact h.quiet h1 hquiet h.mem

/-- A new entry costs its block and the indirect block, a name that is there the inode it is for. -/
theorem Paid.dirlink (h : Paid sb o M k L n E s) (hdp : dp ∈ M) (hlock : dp ∈ L) (name : Name)
    (inum : Nat) :
    wp (fun _ => True) (dirlink sb dp name inum)
      (fun r s' => Paid sb o M (k + if r then 2 else 1) L n E s') s := by
  unfold Fs.dirlink
  refine wp_seq (h.dirlookup hlock name) ?_
  rintro (_ | ⟨ip, off⟩) s1 ⟨h1, -⟩
  · simp only [found_none, zero_add, wp_bind, wp_get] at h1 ⊢
    refine wp_mono ((Paid.reads hlock).emptyLoop trivial _ _ (dvd_zero _) h1) ?_
    rintro off s2 ⟨h2, hoff⟩
    have hspan : (span off (dirent name inum).length).card ≤ 2 := by
      rw [length_dirent]
      exact card_span_dirent hoff
    refine wp_mono (h2.writei hdp hlock hspan) ?_
    rintro (_ | m) s3 h3
    · trivial
    · exact wp_ite.2 ⟨fun _ => h3, fun _ => trivial⟩
  · simp only [found_some, singleton_add, wp_bind] at h1 ⊢
    have h2 := h1.charge (mem_cons_self ip E)
    refine wp_mono (h2.iput M List.mem_cons_self fun i hi => ?_) fun _ _ h3 => h3
    exact ⟨List.mem_cons_of_mem _ hi, h.mem i hi⟩

/-! ## Paths -/

/-- Every inode that `iput` could free, since it has no links, is referenced in `E`. -/
def Covered (E : Multiset Ino) (s : State) : Prop :=
  ∀ x, (s.dinode x).type ≠ .free → (s.dinode x).nlink = 0 → ∃ i ∈ E, (s.inode i).inum = x

/-- A reference next to those in `E` is not the last one to an inode without links. -/
theorem Covered.not_last {X : Multiset Ino} (hcov : Covered E s) (hquiet : Quiet E s s')
    (h : Held sb L n (ip ::ₘ X + E) s') : ¬ LastPut s' ip := by
  rintro ⟨hvalid, hnlink, href⟩
  have hip : ip ∈ ip ::ₘ X + E := mem_add.2 (.inl (mem_cons_self ip X))
  have hpos := h.ref_pos hip
  obtain ⟨hcopy, htype⟩ := h.good.copies ip hpos hvalid
  rw [hcopy, hquiet.dinode] at hnlink htype
  obtain ⟨i, hi, hinum⟩ := hcov _ htype hnlink
  have hi' : i ∈ ip ::ₘ X + E := mem_add.2 (.inr hi)
  obtain rfl : i = ip := by
    refine h.good.unique i ip (h.ref_pos hi') hpos ?_
    rw [(hquiet.names i hi).1, hinum]
  have hcount := h.refs.ref i
  have hE := count_pos.2 hi
  rw [href, Multiset.count_add, count_cons_self] at hcount
  omega

theorem Quiet.right {X : Multiset Ino} (h : Quiet (X + E) s s') : Quiet E s s' :=
  h.mono fun _ hi => mem_add.2 (.inr hi)

/-- A walk gives nothing to `log_write`. -/
theorem walk_rules (hcov : Covered E s) (hcwd : cwd ∈ E) : PathRules sb (fun _ => True) cwd
    fun L X s' => Held sb L n (X + E) s' ∧ Quiet E s s' where
  root := by
    rintro L X s1 ⟨h1, hquiet⟩
    refine wp_mono (iget_held trivial ROOTINO h1) ?_
    rintro ip s2 ⟨h2, hquiet', -⟩
    exact ⟨by rwa [cons_add], hquiet.trans hquiet'.right⟩
  cwd := by
    rintro L X s1 ⟨h1, hquiet⟩
    refine wp_mono (idup_held h1 (mem_add.2 (.inr hcwd))) ?_
    rintro ip s2 ⟨rfl, h2, hquiet'⟩
    exact ⟨by rwa [cons_add], hquiet.trans hquiet'.right⟩
  iput := by
    rintro L X s1 ip ⟨h1, hquiet⟩
    have hlast := hcov.not_last hquiet h1
    rw [cons_add] at h1
    refine wp_mono (iput_held trivial h1) ?_
    rintro _ s2 ⟨h2, -, -, hquiet'⟩
    exact ⟨h2, hquiet.trans (hquiet' hlast).right⟩
  ilock := by
    rintro L X s1 ip hip ⟨h1, hquiet⟩
    refine wp_mono (ilock_held (fun _ _ => trivial) h1 (mem_add.2 (.inl hip))) ?_
    rintro _ s2 ⟨h2, hquiet'⟩
    exact ⟨h2, hquiet.trans hquiet'.right⟩
  iunlock := by
    rintro L X s1 ip ⟨h1, hquiet⟩
    refine wp_mono (iunlock_held h1) ?_
    rintro _ s2 ⟨h2, hquiet'⟩
    exact ⟨h2, hquiet.trans hquiet'.right⟩
  dirlookup := by
    rintro L X s1 dp name hdp ⟨h1, hquiet⟩
    refine wp_mono (dirlookup_held (fun _ _ => trivial) name h1 hdp) ?_
    rintro r s2 ⟨h2, hquiet', -⟩
    exact ⟨by rwa [add_assoc], hquiet.trans hquiet'.right⟩

theorem Covered.quiet (hcov : Covered E s) (hquiet : Quiet E s s') : Covered E s' := by
  intro x htype hnlink
  rw [hquiet.dinode] at htype hnlink
  obtain ⟨i, hi, hinum⟩ := hcov x htype hnlink
  exact ⟨i, hi, (hquiet.names i hi).1.trans hinum⟩

/-- An inode may lose its links while it is referenced. -/
theorem Covered.stored {f : Dinode → Dinode} (hcov : Covered E s) (hnames : Names (ip ::ₘ E) s s')
    (hstored : Stored ip f s s') : Covered (ip ::ₘ E) s' := by
  intro x htype hnlink
  by_cases hx : x = (s.inode ip).inum
  · exact ⟨ip, mem_cons_self ip E, (hnames ip (mem_cons_self ip E)).1.trans hx.symm⟩
  · rw [hstored.dinode, Function.update_of_ne hx] at htype hnlink
    obtain ⟨i, hi, hinum⟩ := hcov x htype hnlink
    exact ⟨i, mem_cons_of_mem hi, (hnames i (mem_cons_of_mem hi)).1.trans hinum⟩

theorem Paid.namex (h : Paid sb o M k L n E s) (hcov : Covered E s) (hcwd : cwd ∈ E) (path : Path)
    (parent : Bool) : wp (fun _ => True) (namex sb cwd path parent)
      (fun r s' => Paid sb o M k L n (found r + E) s' ∧ Covered E s') s := by
  have hrules : PathRules sb (fun _ => True) cwd fun L X s' => Held sb L n (X + E) s' ∧ Quiet E s s' :=
    walk_rules hcov hcwd
  have hheld : Held sb L n (0 + E) s := by
    rw [zero_add]
    exact h.held
  refine wp_mono (hrules.namex path parent ⟨hheld, .refl E s⟩) ?_
  rintro r s1 ⟨h1, hquiet⟩
  rw [add_zero] at h1
  exact ⟨h.quiet h1 hquiet fun i hi => mem_add.2 (.inr (h.mem i hi)), hcov.quiet hquiet⟩

theorem Paid.namei (h : Paid sb o M k L n E s) (hcov : Covered E s) (hcwd : cwd ∈ E) (path : Path) :
    wp (fun _ => True) (namei sb cwd path)
      (fun r s' => Paid sb o M k L n (target r + E) s' ∧ Covered E s') s := by
  unfold Fs.namei
  refine wp_seq (h.namex hcov hcwd path false) ?_
  rintro (_ | ⟨ip, name⟩) s1 h1
  · exact h1
  · exact h1

theorem begin_op_paid (h : Held sb L n E s) (hcov : Covered E s) :
    wp (fun _ => True) begin_op (fun _ s' => Paid sb s.ops [] 0 L (n + 1) E s' ∧ Covered E s') s := by
  refine wp_mono (begin_op_held h) ?_
  rintro _ s1 ⟨h1, hinode, hdinode, hops⟩
  refine ⟨.start h1 hops, ?_⟩
  unfold Covered
  rwa [hinode, hdinode]

/-! ## Inodes without links

What the calls keep is more than `Covered`: `iput` frees an inode only if its entry has been read. -/

/-- Every inode without links is referenced in `E` by an entry that has been read. -/
def Pinned (E : Multiset Ino) (s : State) : Prop :=
  ∀ x, (s.dinode x).type ≠ .free → (s.dinode x).nlink = 0 →
    ∃ i ∈ E, (s.inode i).inum = x ∧ (s.inode i).valid = true

theorem Pinned.covered (h : Pinned E s) : Covered E s := by
  intro x htype hnlink
  obtain ⟨i, hi, hinum, -⟩ := h x htype hnlink
  exact ⟨i, hi, hinum⟩

/-- What has changed on the disk is an inode whose entry has been read. -/
theorem Pinned.change (h : Pinned E s) (hnames : Names E s s') (hE : ∀ i ∈ E, i ∈ E')
    (hnew : ∀ x, s'.dinode x = s.dinode x ∨
      ∃ i ∈ E', (s'.inode i).inum = x ∧ (s'.inode i).valid = true) : Pinned E' s' := by
  intro x htype hnlink
  rcases hnew x with hsame | hpinned
  · rw [hsame] at htype hnlink
    obtain ⟨i, hi, hinum, hvalid⟩ := h x htype hnlink
    exact ⟨i, hE i hi, (hnames i hi).1.trans hinum, (hnames i hi).2 hvalid⟩
  · exact hpinned

theorem Pinned.quiet (h : Pinned E s) (hquiet : Quiet E s s') (hE : ∀ i ∈ E, i ∈ E') : Pinned E' s' :=
  h.change hquiet.names hE fun _ => .inl (by rw [hquiet.dinode])

/-- The inode of a locked entry may be new, or lose its links. -/
theorem Pinned.locked (h : Pinned E s) (h' : Held sb L n E' s') (hip : ip ∈ L) (hE : ∀ i ∈ E, i ∈ E')
    (hnames : Names E s s') (honly : OnlyInode (s'.inode ip).inum s s') : Pinned E' s' := by
  refine h.change hnames hE fun x => ?_
  by_cases hx : x = (s'.inode ip).inum
  · obtain ⟨hmem, hvalid, -⟩ := h'.lock ip hip
    exact .inr ⟨ip, hmem, hx.symm, hvalid⟩
  · exact .inl (honly x hx)

theorem Pinned.put (h : Pinned (ip ::ₘ E) s) (hheld : Held sb L n (ip ::ₘ E) s) (hnames : Names E s s')
    (hput : Put sb ip s s') : Pinned E s' := by
  intro x htype hnlink
  have hsame : s'.dinode x = s.dinode x := by
    rcases hput.dinode with heq | ⟨d, hd, hfree⟩
    · rw [heq]
    · rw [hd] at htype ⊢
      refine Function.update_of_ne (fun hx => htype ?_) ..
      rw [hx, Function.update_self, hfree]
  have hnlink' := hnlink
  rw [hsame] at hnlink'
  obtain ⟨i, hi, hinum, hvalid⟩ := h x (hsame ▸ htype) hnlink'
  have hiE : i ∈ E := by
    -- otherwise this was the last reference, and the inode is gone
    by_contra hout
    obtain rfl := (mem_cons.1 hi).resolve_right hout
    have href := hheld.refs.ref i
    rw [count_cons_self, count_eq_zero.2 hout] at href
    obtain ⟨hcopy, -⟩ := hheld.good.copies i (hheld.ref_pos hi) hvalid
    have hlinks : (s.inode i).copy.nlink = 0 := by rw [hcopy, hinum, hnlink']
    exact htype (hinum ▸ hput.last ⟨hvalid, hlinks, href⟩)
  exact ⟨i, hiE, (hnames i hiE).1.trans hinum, (hnames i hiE).2 hvalid⟩

theorem Pinned.stored {f : Dinode → Dinode} (h : Pinned E s) (h' : Held sb L n E s') (hip : ip ∈ L)
    (hnames : Names E s s') (hstored : Stored ip f s s') : Pinned E s' := by
  refine h.locked h' hip (fun _ hi => hi) hnames fun y hy => ?_
  rw [(hnames ip (h'.lock ip hip).1).1] at hy
  rw [hstored.dinode, Function.update_of_ne hy]

theorem Pinned.rules : Rules sb (· ≠ .freeingFreeBlock) fun L n E s => Held sb L n E s ∧ Pinned E s where
  other _ he _ := he
  begin_op h := wp_mono (begin_op_held h.1) fun _ _ h1 => by
    refine ⟨h1.1, ?_⟩
    unfold Pinned
    rw [h1.2.1, h1.2.2.1]
    exact h.2
  end_op h := wp_mono (end_op_held h.1) fun _ _ h1 => ⟨h1.1, h.2.quiet h1.2 fun _ hi => hi⟩
  root h := wp_mono (iget_held (by simp) ROOTINO h.1) fun _ _ h1 =>
    ⟨h1.1, h.2.quiet h1.2.1 fun _ => mem_cons_of_mem⟩
  idup hip h := wp_mono (idup_held h.1 hip) fun _ _ h1 =>
    ⟨h1.1, h1.2.1, h.2.quiet h1.2.2 fun _ => mem_cons_of_mem⟩
  iput h := by
    have hpos := h.1.ref_pos (mem_cons_self _ _)
    refine wp_mono (wp_and (iput_held (by simp) h.1) (h.1.good.iput_wp hpos (by simp))) ?_
    rintro _ s1 ⟨⟨h1, hnames, -⟩, hput⟩
    exact ⟨h1, h.2.put h.1 hnames hput⟩
  ilock hip h := wp_mono (ilock_held (fun _ he => he) h.1 hip) fun _ _ h1 =>
    ⟨h1.1, h.2.quiet h1.2 fun _ hi => hi⟩
  iunlock h := wp_mono (iunlock_held h.1) fun _ _ h1 => ⟨h1.1, h.2.quiet h1.2 fun _ hi => hi⟩
  readi off k hip h := wp_mono (readi_held h.1 hip off k) fun _ _ h1 =>
    ⟨h1.1, h.2.quiet h1.2 fun _ hi => hi⟩
  writei src off hip h := by
    refine wp_mono (writei_held (by simp) h.1 hip src off) ?_
    rintro _ s1 ⟨h1, hnames, honly, -⟩
    refine ⟨h1, h.2.locked h1 hip (fun _ hi => hi) hnames ?_⟩
    rwa [(hnames _ (h1.lock _ hip).1).1]
  dirlookup name hdp h := wp_mono (dirlookup_held (fun _ he => he) name h.1 hdp) fun _ _ h1 =>
    ⟨h1.1, h.2.quiet h1.2.1 fun _ hi => mem_add.2 (.inr hi)⟩
  addLink d hip h := wp_mono (addLink_held d h.1 hip) fun _ _ h1 =>
    ⟨h1.1, h.2.stored h1.1 hip h1.2.1 h1.2.2⟩
  fresh htype hdp h := by
    rw [h.1.good.dev _ (h.1.lock_pos hdp)]
    refine wp_seq (ialloc_held (fun _ he => he) htype h.1) ?_
    rintro ip s1 ⟨h1, hnames, honly, -⟩
    have hip := mem_cons_self ip
    refine wp_seq (ilock_held (fun _ he => he) h1 (hip _)) ?_
    rintro _ s2 ⟨h2, hquiet⟩
    refine ⟨h2, h.2.locked h2 (hip _) (fun _ => mem_cons_of_mem)
      (hnames.trans (hquiet.names.mono fun _ => mem_cons_of_mem)) ?_⟩
    unfold OnlyInode
    rwa [(hquiet.names ip (hip _)).1, hquiet.dinode]
  fill _ _ hip h := wp_mono (store_held (fun _ => ⟨rfl, rfl, rfl⟩) h.1 hip) fun _ _ h1 =>
    ⟨h1.1, h.2.stored h1.1 hip h1.2.1 h1.2.2⟩

/-! ## `link`, `unlink` and `create` -/

theorem Paid.unlinkBack (h : Paid sb o M k L (n + 1) (ip ::ₘ E) s) (hip : ip ∈ M) :
    wp (fun _ => True) (unlinkBack ip) (fun _ s' => Paid sb o [] k L n E s') s := by
  unfold Fs.unlinkBack
  refine wp_seq (h.ilock (mem_cons_self ip E)) fun _ s1 h1 => ?_
  refine wp_seq (h1.addLink hip (mem_cons_self ip L) _) fun _ s2 h2 => ?_
  refine wp_seq (h2.iunlockput [] hip nofun) fun _ s3 h3 => ?_
  exact wp_seq h3.end_op fun _ _ h4 => h4

/-- `link` up to the second path: the old name's inode has one link more and is paid for. -/
theorem Paid.addLink_covered (h : Paid sb o [] 0 L n (ip ::ₘ E) s) (hcov : Covered E s) (hip : ip ∈ L)
    (d : Int) : wp (fun _ => True) (Fs.addLink ip d)
      (fun _ s' => Paid sb o [ip] 1 L n (ip ::ₘ E) s' ∧ Covered (ip ::ₘ E) s') s := by
  have h1 := h.charge (mem_cons_self ip E)
  refine wp_mono (wp_and (h1.addLink List.mem_cons_self hip d) (addLink_held d h.held hip)) ?_
  rintro _ s2 ⟨h2, -, hnames, hstored⟩
  exact ⟨h2, hcov.stored hnames hstored⟩

theorem link_paid (old new : Path) (hcwd : cwd ∈ E) (h : Held sb L n E s) (hcov : Covered E s) :
    wp (fun _ => True) (link sb cwd old new) (fun _ s' => Paid sb s.ops [] 4 L n E s') s := by
  unfold link
  refine wp_seq (begin_op_paid h hcov) ?_
  rintro _ s1 ⟨h1, hcov1⟩
  refine wp_seq (h1.namei hcov1 hcwd old) ?_
  rintro (_ | ip) s2 ⟨h2, hcov2⟩
  · simp only [target_none, zero_add, wp_bind] at h2 ⊢
    exact wp_mono h2.end_op fun _ _ h3 => h3.forget (by simp) (by omega)
  simp only [target_some, singleton_add, wp_bind] at h2 ⊢
  have hip : ip ∈ ip ::ₘ E := mem_cons_self ip E
  refine wp_mono (wp_and (h2.ilock hip) (ilock_held (fun _ _ => trivial) h2.held hip)) ?_
  rintro _ s3 ⟨h3, -, hquiet3⟩
  have hcov3 := hcov2.quiet (hquiet3.mono fun i hi => mem_cons_of_mem hi)
  rw [wp_get]
  refine wp_ite.2 ⟨fun _ => ?_, fun _ => ?_⟩
  · refine wp_seq ((h3.charge hip).iunlockput [] List.mem_cons_self (by simp)) fun _ s4 h4 => ?_
    exact wp_seq h4.end_op fun _ _ h5 => h5.forget (by simp) (by omega)
  refine wp_seq (h3.addLink_covered hcov3 (mem_cons_self ip L) 1) ?_
  rintro _ s4 ⟨h4, hcov4⟩
  refine wp_seq (wp_and h4.iunlock (iunlock_held h4.held)) ?_
  rintro _ s5 ⟨h5, -, hquiet5⟩
  refine wp_seq (h5.namex (hcov4.quiet hquiet5) (mem_cons_of_mem hcwd) new true) ?_
  rintro (_ | ⟨dp, name⟩) s6 ⟨h6, -⟩
  · rw [found_none, zero_add] at h6
    exact wp_mono (h6.unlinkBack List.mem_cons_self) fun _ _ h7 => h7.forget (by simp) (by omega)
  simp only [found_some, singleton_add, wp_bind] at h6 ⊢
  have hdp := mem_cons_self dp (ip ::ₘ E)
  have hrest : ∀ i ∈ [ip], i ∈ [dp, ip] ∧ i ∈ ip ::ₘ E := by
    simp
  refine wp_mono ((h6.charge hdp).ilock hdp) fun _ s7 h7 => ?_
  rw [wp_get]
  refine wp_ite.2 ⟨fun _ => ?_, fun _ => ?_⟩
  · refine wp_seq (h7.iunlockput [ip] List.mem_cons_self hrest) fun _ s8 h8 => ?_
    exact wp_mono (h8.unlinkBack List.mem_cons_self) fun _ _ h9 => h9.forget (by simp) (by omega)
  refine wp_seq (h7.dirlink List.mem_cons_self (mem_cons_self dp L) name _) ?_
  rintro (_ | _) s8 h8
  · simp only [Bool.false_eq_true, if_false, wp_bind] at h8 ⊢
    refine wp_mono (h8.iunlockput [ip] List.mem_cons_self hrest) fun _ s9 h9 => ?_
    exact wp_mono (h9.unlinkBack List.mem_cons_self) fun _ _ h10 => h10.forget (by simp) (by omega)
  · simp only [if_true, wp_bind] at h8 ⊢
    refine wp_mono (h8.iunlockput [ip] List.mem_cons_self hrest) fun _ s9 h9 => ?_
    refine wp_mono (h9.iput [] List.mem_cons_self (by simp)) fun _ s10 h10 => ?_
    exact wp_mono h10.end_op fun _ _ h11 => h11

theorem Paid.unlinkBad (h : Paid sb o M k (dp ::ₘ L) (n + 1) (dp ::ₘ E) s) (hdp : dp ∈ M) :
    wp (fun _ => True) (unlinkBad dp) (fun _ s' => Paid sb o [] k L n E s') s := by
  unfold Fs.unlinkBad
  refine wp_seq (h.iunlockput [] hdp nofun) fun _ s1 h1 => ?_
  exact wp_seq h1.end_op fun _ _ h2 => h2

theorem Paid.unlinkEntry {off : Nat} (hoff : DIRENT ∣ off)
    (h : Paid sb o [ip, dp] k (ip ::ₘ dp ::ₘ L) (n + 1) (ip ::ₘ dp ::ₘ E) s) :
    wp (fun _ => True) (unlinkEntry sb dp ip off) (fun _ s' => Paid sb o [] (k + 2) L n E s') s := by
  have hdp : dp ∈ ip ::ₘ dp ::ₘ L := mem_cons_of_mem (mem_cons_self dp L)
  have hspan : (span off (List.replicate DIRENT (0 : UInt8)).length).card ≤ 2 := by
    rw [List.length_replicate]
    exact card_span_dirent hoff
  unfold Fs.unlinkEntry unlinkParent
  refine wp_seq (h.writei (by simp) hdp hspan) ?_
  rintro (_ | m) s1 h1
  · trivial
  refine wp_ite.2 ⟨fun _ => ?_, fun _ => trivial⟩
  simp only [wp_bind, wp_get]
  have hparent : wp (fun _ => True)
      (if (s1.inode ip).copy.type = .T_DIR then Fs.addLink dp (-1) else pure ())
      (fun _ s' => Paid sb o [ip, dp] (k + 2) (ip ::ₘ dp ::ₘ L) (n + 1) (ip ::ₘ dp ::ₘ E) s') s1 :=
    wp_ite.2 ⟨fun _ => h1.addLink (by simp) hdp (-1), fun _ => h1⟩
  refine wp_mono hparent fun _ s2 h2 => ?_
  rw [cons_swap ip dp L, cons_swap ip dp E] at h2
  refine wp_mono (h2.iunlockput [ip] (by simp) (by simp)) fun _ s3 h3 => ?_
  refine wp_mono (h3.addLink List.mem_cons_self (mem_cons_self ip L) _) fun _ s4 h4 => ?_
  refine wp_mono (h4.iunlockput [] List.mem_cons_self (by simp)) fun _ s5 h5 => ?_
  exact wp_mono h5.end_op fun _ _ h6 => h6

theorem unlink_paid (path : Path) (hcwd : cwd ∈ E) (h : Held sb L n E s) (hcov : Covered E s) :
    wp (fun _ => True) (unlink sb cwd path) (fun _ s' => Paid sb s.ops [] 4 L n E s') s := by
  unfold unlink unlinkLocked
  refine wp_seq (begin_op_paid h hcov) ?_
  rintro _ s1 ⟨h1, hcov1⟩
  refine wp_seq (h1.namex hcov1 hcwd path true) ?_
  rintro (_ | ⟨dp, name⟩) s2 ⟨h2, -⟩
  · simp only [found_none, zero_add, wp_bind] at h2 ⊢
    exact wp_mono h2.end_op fun _ _ h3 => h3.forget (by simp) (by omega)
  simp only [found_some, singleton_add, wp_bind] at h2 ⊢
  have hdp := mem_cons_self dp E
  have hbad : ∀ {m : Nat} {s0 : State}, Paid sb s.ops [dp] m (dp ::ₘ L) (n + 1) (dp ::ₘ E) s0 → m ≤ 4 →
      wp (fun _ => True) (unlinkBad dp) (fun _ s' => Paid sb s.ops [] 4 L n E s') s0 :=
    fun h hm => wp_mono (h.unlinkBad List.mem_cons_self) fun _ _ h' => h'.forget (by simp) hm
  refine wp_mono ((h2.charge hdp).ilock hdp) fun _ s3 h3 => ?_
  refine wp_ite.2 ⟨fun _ => hbad h3 (by omega), fun _ => ?_⟩
  refine wp_seq (h3.dirlookup (mem_cons_self dp L) name) ?_
  rintro (_ | ⟨ip, off⟩) s4 ⟨h4, hoff⟩
  · simp only [found_none, zero_add] at h4
    exact hbad h4 (by omega)
  simp only [found_some, singleton_add, wp_bind] at h4 ⊢
  have hip := mem_cons_self ip (dp ::ₘ E)
  refine wp_mono ((h4.charge hip).ilock hip) fun _ s5 h5 => ?_
  rw [wp_get]
  refine wp_ite.2 ⟨fun _ => trivial, fun _ => ?_⟩
  refine wp_seq ((Paid.reads (mem_cons_self ip _)).isdirfull trivial h5) fun full s6 h6 => ?_
  refine wp_ite.2 ⟨fun _ => ?_, fun _ => h6.unlinkEntry (hoff _ rfl)⟩
  refine wp_seq (h6.iunlockput [dp] List.mem_cons_self (by simp)) fun _ s7 h7 => ?_
  exact hbad h7 (by omega)

theorem Paid.createDir (h : Paid sb o [ip, dp] k L n E s) (hdp : dp ∈ L) (hip : ip ∈ L) (type : FType) :
    wp (fun _ => True) (createDir sb dp ip type) (fun _ s' => Paid sb o [ip, dp] (k + 4) L n E s') s := by
  unfold Fs.createDir createDots
  refine wp_ite.2 ⟨fun _ => ?_, fun _ => h.forget (fun _ hi => hi) (by omega)⟩
  simp only [wp_bind, wp_get]
  refine wp_mono (h.addLink (by simp) hdp 1) fun _ s1 h1 => ?_
  refine wp_mono (h1.dirlink (by simp) hip dot _) ?_
  rintro (_ | _) s2 h2
  · trivial
  simp only [if_true, wp_bind] at h2 ⊢
  refine wp_mono (h2.dirlink (by simp) hip dotdot _) ?_
  rintro (_ | _) s3 h3
  · trivial
  · exact h3

/-- The new inode, its parent, and three entries with an indirect block each. -/
theorem Paid.createNew {type : FType} (htype : type ≠ .free)
    (h : Paid sb o [dp] k (dp ::ₘ L) n (dp ::ₘ E) s) (name : Name) (major minor : Int) :
    wp (fun _ => True) (createNew sb dp name type major minor)
      (fun ip s' => Paid sb o [ip] (k + 7) (ip ::ₘ L) n (ip ::ₘ E) s') s := by
  unfold Fs.createNew
  simp only [wp_bind, wp_get]
  rw [h.held.good.dev dp (h.held.lock_pos (mem_cons_self dp L))]
  refine wp_mono (h.ialloc htype) fun ip s1 h1 => ?_
  have hip : ip ∈ ip ::ₘ dp ::ₘ L := mem_cons_self ip _
  have hdp : dp ∈ ip ::ₘ dp ::ₘ L := mem_cons_of_mem (mem_cons_self dp L)
  refine wp_mono (h1.ilock (mem_cons_self ip _)) fun _ s2 h2 => ?_
  have hfill := h2.store (f := fun c => { c with major := major, minor := minor, nlink := 1 })
    (fun _ => ⟨rfl, rfl, rfl⟩) List.mem_cons_self hip
  rw [wp_bind] at hfill
  refine wp_mono hfill fun _ s3 h3 => wp_mono h3 fun _ s4 h4 => ?_
  refine wp_mono (h4.createDir hdp hip type) fun _ s5 h5 => ?_
  refine wp_mono (h5.dirlink (by simp) hdp name _) ?_
  rintro (_ | _) s6 h6
  · trivial
  simp only [if_true, wp_bind] at h6 ⊢
  rw [cons_swap ip dp L, cons_swap ip dp E] at h6
  exact wp_mono (h6.iunlockput [ip] (by simp) (by simp)) fun _ _ h7 => h7

theorem Paid.create {type : FType} (htype : type ≠ .free) (h : Paid sb o [] 0 L n E s)
    (hcov : Covered E s) (hcwd : cwd ∈ E) (path : Path) (major minor : Int) :
    wp (fun _ => True) (create sb cwd path type major minor)
      (fun r s' => Paid sb o r.toList 8 (target r + L) n (target r + E) s') s := by
  unfold Fs.create
  refine wp_seq (h.namex hcov hcwd path true) ?_
  rintro (_ | ⟨dp, name⟩) s1 ⟨h1, -⟩
  · rw [found_none, zero_add] at h1
    simpa using h1.forget (fun _ hi => hi) (Nat.zero_le 8)
  simp only [found_some, singleton_add, wp_bind] at h1 ⊢
  have hdp := mem_cons_self dp E
  refine wp_mono ((h1.charge hdp).ilock hdp) fun _ s2 h2 => ?_
  refine wp_mono (h2.dirlookup (mem_cons_self dp L) name) ?_
  rintro (_ | ⟨ip, off⟩) s3 ⟨h3, -⟩
  · simp only [found_none, zero_add, wp_bind] at h3 ⊢
    exact wp_mono (h3.createNew htype name major minor) fun ip s4 h4 => h4
  · simp only [found_some, singleton_add, wp_bind] at h3 ⊢
    have h4 := h3.charge (mem_cons_self ip _)
    rw [cons_swap] at h4
    refine wp_mono (h4.iunlockput [ip] (by simp) (by simp)) fun _ s5 h5 => ?_
    refine wp_mono (h5.ilock (mem_cons_self ip E)) fun _ s6 h6 => ?_
    rw [wp_get]
    refine wp_ite.2 ⟨fun _ => h6.forget (fun _ hi => hi) (by omega), fun _ => ?_⟩
    refine wp_seq (h6.iunlockput [] List.mem_cons_self (by simp)) fun _ _ h7 => ?_
    simpa using h7.forget (fun _ hi => hi) (by omega)

end Laboratorio.Xv6.Fs
