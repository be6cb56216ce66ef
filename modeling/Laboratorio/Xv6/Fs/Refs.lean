import Laboratorio.Xv6.Fs.Rules

/-!
# References to cached inodes

`Refs E n s` says that the references to the cache entries are those in `E`, that no inode has two
entries, and that `n` operations have begun and not ended.  Functions that only look at the disk or
at the content of entries take no references, since they leave `State.refs` as it is; the others say
which references they take and which they give back.
-/

namespace Laboratorio.Xv6.Fs

open Laboratorio.Lib Bytes TwoLevel

/-- What the references are about: who an entry is for and how often it is referenced. -/
def State.refs (s : State) : (Ino → Nat × Nat × Int) × Nat × Nat :=
  (fun i => ((s.inode i).dev, (s.inode i).inum, (s.inode i).ref), s.begun, s.ended)

structure Refs (E : Multiset Ino) (n : Nat) (s : State) : Prop where
  ref : ∀ i, (s.inode i).ref = E.count i
  unique : ∀ i j, 0 < (s.inode i).ref → 0 < (s.inode j).ref → (s.inode i).dev = (s.inode j).dev →
    (s.inode i).inum = (s.inode j).inum → i = j
  ops : s.begun = s.ended + n

variable {α : Type} {sb : Superblock} {E : Multiset Ino} {n : Nat} {s s' : State} {ip dp : Ino}

theorem Refs.of_refs (h : Refs E n s) (hs : s'.refs = s.refs) : Refs E n s' := by
  unfold State.refs at hs
  simp only [Prod.mk.injEq, funext_iff] at hs
  obtain ⟨hinode, hbegun, hended⟩ := hs
  refine ⟨fun i => ?_, fun i j hi hj hdev hinum => ?_, ?_⟩
  · rw [(hinode i).2.2]
    exact h.ref i
  · rw [(hinode i).2.2] at hi
    rw [(hinode j).2.2] at hj
    rw [(hinode i).1, (hinode j).1] at hdev
    rw [(hinode i).2.1, (hinode j).2.1] at hinum
    exact h.unique i j hi hj hdev hinum
  · rw [hbegun, hended]
    exact h.ops

/-- A program without a rule of its own takes no references. -/
theorem Refs.fixes {x : F α} (h : Refs E n s) (hx : Fixes State.refs x) :
    wp (fun _ => True) x (fun _ s' => Refs E n s') s :=
  wp_mono (hx s) fun _ _ hs => h.of_refs hs

/-! ## Programs that leave the references alone -/

theorem modInode_refs (ip : Ino) {f : Inode → Inode}
    (hf : ∀ i, (f i).dev = i.dev ∧ (f i).inum = i.inum ∧ (f i).ref = i.ref) :
    Fixes State.refs (modInode ip f) := by
  refine .modify fun s => ?_
  simp only [State.refs, Prod.mk.injEq, and_true]
  funext i
  by_cases hi : i = ip
  · subst hi
    simp [hf]
  · simp [hi]

theorem modCopy_refs (ip : Ino) (f : Dinode → Dinode) : Fixes State.refs (modCopy ip f) :=
  modInode_refs ip fun _ => ⟨rfl, rfl, rfl⟩

theorem log_write_refs (b : LogBlock) : Fixes State.refs (log_write b) := .modify fun _ => rfl

theorem iupdate_refs (ip : Ino) : Fixes State.refs (iupdate ip) := .modify fun _ => rfl

theorem balloc_refs : Fixes State.refs (balloc sb) := by
  refine .get_bind fun s => ?_
  split
  · trivial
  · exact rfl

theorem bfree_refs (b : Nat) : Fixes State.refs (bfree b) := by
  refine .get_bind fun s => ?_
  split
  · exact rfl
  · trivial

theorem acquiresleep_refs (ip : Ino) : Fixes State.refs (acquiresleep ip) := by
  refine .bind .get fun s => ?_
  split
  · exact .throw _
  · exact modInode_refs ip fun _ => ⟨rfl, rfl, rfl⟩

theorem releasesleep_refs (ip : Ino) : Fixes State.refs (releasesleep ip) :=
  modInode_refs ip fun _ => ⟨rfl, rfl, rfl⟩

theorem ilock_refs (ip : Ino) : Fixes State.refs (ilock ip) := by
  refine .bind .get fun s => ?_
  split
  · exact .throw _
  · refine .bind (acquiresleep_refs ip) fun _ => ?_
    split
    · exact .pure _
    · refine .bind (modInode_refs ip fun _ => ⟨rfl, rfl, rfl⟩) fun _ => ?_
      split
      · exact .throw _
      · exact .pure _

theorem iunlock_refs (ip : Ino) : Fixes State.refs (iunlock ip) := by
  refine .bind .get fun s => ?_
  split
  · exact .throw _
  · exact releasesleep_refs ip

theorem truncDirect_refs (ip : Ino) (n : Nat) : ∀ i, Fixes State.refs (truncDirect ip n i) := by
  induction n with
  | zero => exact fun _ => .pure _
  | succ n ih =>
    intro i
    unfold truncDirect
    refine .bind .get fun s => ?_
    split
    · exact ih _
    · exact .bind (bfree_refs _) fun _ => .bind (modCopy_refs ip _) fun _ => ih _

theorem truncIndirect_refs (b n : Nat) : ∀ j, Fixes State.refs (truncIndirect b n j) := by
  induction n with
  | zero => exact fun _ => .pure _
  | succ n ih =>
    intro j
    unfold truncIndirect
    refine .bind .get fun s => ?_
    split
    · exact ih _
    · exact .bind (bfree_refs _) fun _ => ih _

theorem truncLast_refs (ip : Ino) : Fixes State.refs (truncLast ip) := by
  refine .bind .get fun s => ?_
  dsimp only
  split
  · exact .pure _
  · exact .bind (truncIndirect_refs _ _ _) fun _ => .bind (bfree_refs _) fun _ => modCopy_refs ip _

theorem itrunc_refs (ip : Ino) : Fixes State.refs (itrunc ip) :=
  .bind (truncDirect_refs ip _ _) fun _ => .bind (truncLast_refs ip) fun _ =>
    .bind (modCopy_refs ip _) fun _ => iupdate_refs ip

theorem ifree_refs (ip : Ino) : Fixes State.refs (ifree ip) := by
  refine .bind .get fun s => ?_
  split
  · exact .bind (itrunc_refs ip) fun _ => .bind (modCopy_refs ip _) fun _ =>
      .bind (iupdate_refs ip) fun _ => modInode_refs ip fun _ => ⟨rfl, rfl, rfl⟩
  · exact .pure _

theorem addrAlloc_refs (ip : Ino) (k : Nat) : Fixes State.refs (addrAlloc sb ip k) := by
  refine .bind .get fun s => ?_
  split
  · exact .bind balloc_refs fun _ => .bind (modCopy_refs ip _) fun _ => .pure _
  · exact .pure _

theorem bmap_refs (ip : Ino) (bn : Nat) : Fixes State.refs (bmap sb ip bn) := by
  unfold bmap
  split
  · exact addrAlloc_refs ip bn
  split
  · refine .bind (addrAlloc_refs ip _) fun a => .bind .get fun s => ?_
    split
    · refine .bind balloc_refs fun _ => .bind (.modify fun _ => rfl) fun _ => ?_
      exact .bind (log_write_refs _) fun _ => .pure _
    · exact .pure _
  · exact .throw _

theorem readLoop_refs (ip : Ino) (turns : Nat) :
    ∀ off n, Fixes State.refs (readLoop sb ip turns off n) := by
  induction turns with
  | zero => exact fun _ _ => .pure _
  | succ turns ih =>
    intro off n
    unfold readLoop
    split
    · exact .pure _
    · exact .bind (bmap_refs ip _) fun _ => .bind .get fun _ => .bind (ih _ _) fun _ => .pure _

theorem readi_refs (ip : Ino) (off n : Nat) : Fixes State.refs (readi sb ip off n) := by
  refine .get_bind fun s => ?_
  dsimp only
  split
  · split
    · exact rfl
    · exact rfl
  split
  · exact rfl
  · exact Fixes.bind (readLoop_refs ip _ _ _) (fun _ => .pure _) s

theorem writeLoop_refs (ip : Ino) (turns : Nat) :
    ∀ off src, Fixes State.refs (writeLoop sb ip turns off src) := by
  induction turns with
  | zero => exact fun _ _ => .pure _
  | succ turns ih =>
    intro off src
    unfold writeLoop
    split
    · exact .pure _
    · refine .bind (bmap_refs ip _) fun _ => .bind (.modify fun _ => rfl) fun _ => ?_
      exact .bind (log_write_refs _) fun _ => ih _ _

theorem writei_refs (ip : Ino) (src : List UInt8) (off : Nat) :
    Fixes State.refs (writei sb ip src off) := by
  refine .bind .get fun s => ?_
  dsimp only
  split
  · split
    · exact .pure _
    · exact .pure _
  split
  · exact .pure _
  split
  · exact .pure _
  · refine .bind (writeLoop_refs ip _ _ _) fun _ => .bind ?_ fun _ => .pure _
    refine .bind .get fun s => ?_
    split
    · exact .bind (modCopy_refs ip _) fun _ => iupdate_refs ip
    · exact .pure _

theorem readDirent_refs (e : Panic) (dp : Ino) (off : Nat) :
    Fixes State.refs (readDirent sb e dp off) := by
  refine .bind (readi_refs dp off _) fun r => ?_
  split
  · split
    · exact .pure _
    · exact .throw _
  · exact .throw _

theorem lookupLoop_refs (dp : Ino) (name : Name) (size n : Nat) :
    ∀ off, Fixes State.refs (lookupLoop sb dp name size n off) := by
  induction n with
  | zero => exact fun _ => .pure _
  | succ n ih =>
    intro off
    unfold lookupLoop
    split
    · refine .bind (readDirent_refs _ dp off) fun de => ?_
      split
      · exact ih _
      split
      · exact .pure _
      · exact ih _
    · exact .pure _

theorem addLink_refs (ip : Ino) (d : Int) : Fixes State.refs (addLink ip d) :=
  .bind (modCopy_refs ip _) fun _ => iupdate_refs ip

/-! ## Taking and giving back references -/

protected theorem Refs.update (h : Refs E n s) {x : Inode} {E' : Multiset Ino}
    (hx : x.ref = E'.count ip) (hE : ∀ i ≠ ip, E'.count i = E.count i)
    (hunique : 0 < x.ref → ∀ i ≠ ip, 0 < (s.inode i).ref → x.dev = (s.inode i).dev →
      x.inum ≠ (s.inode i).inum) :
    Refs E' n { s with inode := Function.update s.inode ip x } := by
  refine ⟨fun i => ?_, fun i j => ?_, h.ops⟩
  · by_cases hi : i = ip
    · subst hi
      rw [← hx]
      simp
    · simp [hi, hE i hi, h.ref i]
  · by_cases hi : i = ip
    · by_cases hj : j = ip
      · simp [hi, hj]
      · subst hi
        simp only [Function.update_self, Function.update_of_ne hj]
        intro hx hj' hdev hinum
        exact absurd hinum (hunique hx j hj hj' hdev)
    · by_cases hj : j = ip
      · subst hj
        simp only [Function.update_self, Function.update_of_ne hi]
        intro hi' hx hdev hinum
        exact absurd hinum.symm (hunique hx i hi hi' hdev.symm)
      · simp only [Function.update_of_ne hi, Function.update_of_ne hj]
        exact h.unique i j

theorem iget_refs (dev inum : Nat) (h : Refs E n s) :
    wp (fun _ => True) (iget dev inum) (fun ip s' => Refs (ip ::ₘ E) n s') s := by
  refine wp_mono (iget_wp dev inum fun _ _ => trivial) ?_
  rintro ip _ (⟨hlive, -, -⟩ | ⟨hfree, hnew⟩)
  · refine h.update ?_ (fun i hi => ?_) fun _ i hi hpos hdev hinum => ?_
    · simp [h.ref ip]
    · simp [hi]
    · exact hi (h.unique i ip hpos hlive hdev.symm hinum.symm)
  · refine h.update ?_ (fun i hi => ?_) fun _ i _ hpos hdev hinum => ?_
    · have := h.ref ip
      rw [hfree] at this
      simp [← this]
    · simp [hi]
    · exact hnew i hpos hdev.symm hinum.symm

theorem idup_refs (h : Refs E n s) (hip : ip ∈ E) :
    wp (fun _ => True) (idup ip) (fun r s' => r = ip ∧ Refs (ip ::ₘ E) n s') s := by
  have hpos : 0 < (s.inode ip).ref := by
    rw [h.ref ip]
    exact_mod_cast Multiset.count_pos.2 hip
  refine ⟨rfl, h.update ?_ (fun i hi => ?_) fun _ i hi hpos' hdev hinum => ?_⟩
  · simp [h.ref ip]
  · simp [hi]
  · exact hi (h.unique i ip hpos' hpos hdev.symm hinum.symm)

theorem iput_refs (h : Refs (ip ::ₘ E) n s) :
    wp (fun _ => True) (iput ip) (fun _ s' => Refs E n s') s := by
  unfold iput
  refine wp_seq (h.fixes (acquiresleep_refs ip)) ?_
  rintro - s1 h1
  refine wp_seq (h1.fixes (ifree_refs ip)) ?_
  rintro - s2 h2
  refine wp_seq (h2.fixes (releasesleep_refs ip)) ?_
  rintro - s3 h3
  have hpos : 0 < (s3.inode ip).ref := by
    rw [h3.ref ip]
    simp
  refine h3.update ?_ (fun i hi => ?_) fun _ i hi hpos' hdev hinum => ?_
  · simp [h3.ref ip]
  · simp [hi]
  · exact hi (h3.unique i ip hpos' hpos hdev.symm hinum.symm)

theorem begin_op_refs (h : Refs E n s) :
    wp (fun _ => True) begin_op (fun _ s' => Refs E (n + 1) s') s := by
  refine ⟨h.ref, h.unique, ?_⟩
  have := h.ops
  show s.begun + 1 = s.ended + (n + 1)
  omega

theorem end_op_refs (h : Refs E (n + 1) s) :
    wp (fun _ => True) end_op (fun _ s' => Refs E n s') s := by
  refine ⟨h.ref, h.unique, ?_⟩
  have := h.ops
  show s.begun = s.ended + 1 + n
  omega

theorem ialloc_refs (dev : Nat) (type : FType) (h : Refs E n s) :
    wp (fun _ => True) (ialloc sb dev type) (fun ip s' => Refs (ip ::ₘ E) n s') s := by
  unfold ialloc
  simp only [wp_bind, wp_get]
  split
  · trivial
  · exact iget_refs dev _ (h.of_refs rfl)

theorem dirlookup_refs (dp : Ino) (name : Name) (h : Refs E n s) :
    wp (fun _ => True) (dirlookup sb dp name) (fun r s' => Refs (found r + E) n s') s := by
  unfold dirlookup
  simp only [wp_bind, wp_get]
  split
  · refine wp_seq (h.fixes (lookupLoop_refs dp name _ _ _)) ?_
    rintro (_ | ⟨off, inum⟩) s1 h1
    · simpa using h1
    · refine wp_seq (iget_refs _ inum h1) ?_
      intro ip s2 h2
      simpa using h2
  · trivial

theorem Refs.rules : Rules sb (fun _ => True) fun _ n E s => Refs E n s where
  other _ _ _ := trivial
  begin_op := begin_op_refs
  end_op := end_op_refs
  root := iget_refs _ _
  idup hip h := idup_refs h hip
  iput := iput_refs
  ilock _ h := h.fixes (ilock_refs _)
  iunlock h := h.fixes (iunlock_refs _)
  readi _ _ _ h := h.fixes (readi_refs _ _ _)
  writei _ _ _ h := h.fixes (writei_refs _ _ _)
  dirlookup name _ h := dirlookup_refs _ name h
  addLink d _ h := h.fixes (addLink_refs _ d)
  fresh _ _ h := wp_seq (ialloc_refs _ _ h) fun _ _ h1 =>
    wp_seq (h1.fixes (ilock_refs _)) fun _ _ h2 => h2
  fill _ _ _ h := h.fixes (.bind (modCopy_refs _ _) fun _ => iupdate_refs _)

end Laboratorio.Xv6.Fs
