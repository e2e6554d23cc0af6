import Os20.Ssufs.Lookup

/-!
# `ssufs_delete`

Deleting a file frees its inode and its blocks, and nothing else.  `ssufs_freeInode` has a
superblock of its own; it stores it before every call of `ssufs_freeDataBlock`, which changes
the one on the disk, and reads it again after, so that no mark is lost.
-/

namespace Os20.Ssufs

variable {α β γ : Type} {fs fs' : Fs}

/-! ## Frames -/

def Keeps (g : Fs → γ) (x : M α) : Prop := ∀ fs r fs', x fs = .ok r fs' → g fs' = g fs

namespace Keeps

variable {g : Fs → γ}

theorem pure (r : α) : Keeps g (Pure.pure r : M α) := by
  intro fs r fs' hrun
  cases hrun
  rfl

theorem bind {x : M α} {f : α → M β} (hx : Keeps g x) (hf : ∀ r, Keeps g (f r)) :
    Keeps g (x >>= f) := by
  intro fs r fs' hrun
  change EStateM.bind x f fs = _ at hrun
  unfold EStateM.bind at hrun
  split at hrun
  · next a fs₁ hrun₁ => exact (hf a fs₁ r fs' hrun).trans (hx fs a fs₁ hrun₁)
  · cases hrun

theorem ite {p : Prop} [Decidable p] {x y : M α} (hx : Keeps g x) (hy : Keeps g y) :
    Keeps g (if p then x else y) := by
  split
  · exact hx
  · exact hy

theorem of_eq {x : M α} (hx : ∀ fs r fs', x fs = .ok r fs' → fs' = fs) : Keeps g x :=
  fun fs r fs' hrun => congrArg g (hx fs r fs' hrun)

theorem check (p : Prop) [Decidable p] (a : Abort) : Keeps g (Ssufs.check p a) := by
  refine of_eq fun fs r fs' hrun => ?_
  unfold Ssufs.check at hrun
  split at hrun
  · cases hrun
    rfl
  · cases hrun

theorem index (n : Int) (bound : Nat) : Keeps g (Ssufs.index n bound) := by
  refine of_eq fun fs r fs' hrun => ?_
  unfold Ssufs.index at hrun
  split at hrun
  · cases hrun
    rfl
  · cases hrun

theorem readAt (off : Int) (n : Nat) : Keeps g (Ssufs.readAt off n) := by
  refine of_eq fun fs r fs' hrun => ?_
  unfold Ssufs.readAt at hrun
  split at hrun
  · cases hrun
  · dsimp only at hrun
    split at hrun
    · cases hrun
      rfl
    · cases hrun

theorem readSuperBlock : Keeps g Ssufs.readSuperBlock :=
  (readAt _ _).bind fun _ => pure _

theorem readInode (n : Int) : Keeps g (Ssufs.readInode n) :=
  (check _ _).bind fun _ => (readAt _ _).bind fun _ => pure _

end Keeps

/-! ## Data blocks -/

theorem keeps_block_writeSuperBlock (superblock : Superblock) :
    Keeps Fs.block (writeSuperBlock superblock) := by
  intro fs r fs' hrun
  rw [writeSuperBlock_run] at hrun
  cases hrun
  exact Fs.block_putSuper superblock

theorem keeps_block_freeDataBlock (n : Int) : Keeps Fs.block (freeDataBlock n) :=
  Keeps.readSuperBlock.bind fun _ => (Keeps.index n _).bind fun _ =>
    (Keeps.check _ _).bind fun _ => keeps_block_writeSuperBlock _

theorem keeps_block_freeDirectBlocks (ks : List (Fin maxFileSize)) (superblock : Superblock)
    (inode : Inode) : Keeps Fs.block (freeDirectBlocks ks superblock inode) := by
  induction ks generalizing superblock inode with
  | nil => exact Keeps.pure _
  | cons k ks ih =>
      unfold freeDirectBlocks
      apply Keeps.ite
      · exact (keeps_block_writeSuperBlock _).bind fun _ => (keeps_block_freeDataBlock _).bind
          fun _ => Keeps.readSuperBlock.bind fun _ => ih _ _
      · exact ih _ _

theorem keeps_block_freeInode (i : Fin numInodes) : Keeps Fs.block (freeInode i.val) := by
  refine (Keeps.check _ _).bind fun _ => Keeps.readSuperBlock.bind fun _ =>
    (Keeps.readInode _).bind fun _ => (Keeps.index _ _).bind fun _ =>
    (Keeps.check _ _).bind fun _ => (keeps_block_freeDirectBlocks _ _ _).bind ?_
  rintro ⟨superblock, inode⟩
  refine (keeps_block_writeSuperBlock _).bind fun _ fs r fs' hrun => ?_
  rw [writeInode_run _ rfl] at hrun
  cases hrun
  exact Fs.block_putInode

/-! ## Deletion -/

/-- The entries of the inodes are blocks that are marked, each of them once. -/
structure Marked (fs : Fs) : Prop where
  entry : ∀ i k, (fs.inode i).directBlocks k = -1 ∨
    ∃ b : Fin numDataBlocks, (fs.inode i).directBlocks k = b.val ∧ fs.Used b
  single : ∀ i k i' k', (fs.inode i).directBlocks k ≠ -1 →
    (fs.inode i).directBlocks k = (fs.inode i').directBlocks k' → i = i' ∧ k = k'

theorem Marked.freeable (hm : Marked fs) (i : Fin numInodes) :
    Freeable (fs.inode i).directBlocks (List.finRange maxFileSize)
      fs.super.datablockFreelist where
  marked k _ := hm.entry i k
  single k _ k' _ hne heq := (hm.single i k i k' hne heq).2

theorem Sound.marked (hs : Sound fs) : Marked fs where
  entry i k := (hs.entry i k).imp_right fun ⟨b, hb⟩ => ⟨b, hb, hs.referenced i k b hb⟩
  single i k i' k' hne heq := by
    obtain ⟨b, hb⟩ := (hs.entry i k).resolve_left hne
    exact hs.single i k i' k' b hb (heq ▸ hb)

/-- The file in inode `i` is gone, and nothing else has changed. -/
structure Deleted (fs : Fs) (i : Fin numInodes) (fs' : Fs) : Prop where
  mark : fs'.super.inodeFreelist i = free
  status : (fs'.inode i).status = free.toNat
  fileSize : (fs'.inode i).fileSize = 0
  directBlocks : ∀ k, (fs'.inode i).directBlocks k = -1
  freed : ∀ b : Fin numDataBlocks, (∃ k, (fs.inode i).directBlocks k = b.val) →
    fs.Used b ∧ fs'.Free b
  kept : ∀ b : Fin numDataBlocks, (∀ k, (fs.inode i).directBlocks k ≠ b.val) →
    fs'.super.datablockFreelist b = fs.super.datablockFreelist b
  otherMarks : ∀ j, j ≠ i → fs'.super.inodeFreelist j = fs.super.inodeFreelist j
  otherInodes : ∀ j, j ≠ i → fs'.inode j = fs.inode j
  block : fs'.block = fs.block
  handles : fs'.handles = fs.handles

theorem Freed.deleted {i : Fin numInodes} (hfreed : Freed fs i fs') (hm : Marked fs)
    (hblock : fs'.block = fs.block) : Deleted fs i fs' where
  mark := by rw [hfreed.inodeFreelist, Function.update_self]
  status := by rw [hfreed.inode_self]; rfl
  fileSize := by rw [hfreed.inode_self]; rfl
  directBlocks k := by rw [hfreed.inode_self]; rfl
  freed b hb := by
    refine ⟨?_, ?_⟩
    · obtain ⟨k, hk⟩ := hb
      obtain ⟨c, hc, hused⟩ := (hm.entry i k).resolve_left (by omega)
      obtain rfl : b = c := Fin.ext (by omega)
      exact hused
    · rw [Fs.Free, hfreed.datablockFreelist, if_pos hb]
  kept b hb := by rw [hfreed.datablockFreelist, if_neg (not_exists.mpr hb)]
  otherMarks j hj := by rw [hfreed.inodeFreelist, Function.update_of_ne hj]
  otherInodes j hj := hfreed.inode_of_ne hj
  block := hblock
  handles := hfreed.handles

/-- `ssufs_delete` returns, and has deleted what `open_namei` finds; when it finds nothing,
nothing has changed. -/
theorem delete_deletes (hm : Marked fs) (filename : Filename) :
    (∃ i : Fin numInodes, openNamei filename.bytes fs = .ok i.val fs ∧
      ∃ fs', delete filename fs = .ok () fs' ∧ Deleted fs i fs') ∨
    openNamei filename.bytes fs = .ok (-1) fs ∧ delete filename fs = .ok () fs := by
  have hopen : openNamei filename.bytes fs = .ok (number (fs.namei filename.bytes)) fs :=
    openNamei_run filename.bytes
  unfold delete
  cases hfound : fs.namei filename.bytes with
  | some i =>
      rw [hfound] at hopen
      obtain ⟨-, huse, -⟩ := namei_inUse hfound
      obtain ⟨fs', hrun, hfreed⟩ := freeInode_run huse (hm.freeable i)
      refine .inl ⟨i, hopen, fs', ?_, hfreed.deleted hm (keeps_block_freeInode i fs () fs' hrun)⟩
      rw [bind_ok hopen, number, if_neg (by omega), hrun]
  | none =>
      rw [hfound] at hopen
      refine .inr ⟨hopen, ?_⟩
      rw [bind_ok hopen, number, if_pos rfl]
      rfl

/-- A file of two blocks. -/
theorem delete_twoBlocks :
    ∃ fs fs', (fs.inode 0).directBlocks 1 = 1 ∧ delete fileA fs = .ok () fs' ∧
      Deleted fs 0 fs' := by
  obtain ⟨fs, hreach, htest⟩ := system.exists_reachable_of_run
    [.create fileA, .open fileA,
      .write 0 fourBlocks 128 (by rw [fourBlocks, List.length_replicate]; decide)]
    (fun fs => decide ((fs.inode 0).directBlocks 1 = 1 ∧ fs.namei fileA.bytes = some 0))
    ⟨fun _ => 0, rfl⟩ (by decide +kernel)
  obtain ⟨hblock, hfound⟩ := of_decide_eq_true htest
  have hopen : openNamei fileA.bytes fs = .ok 0 fs := by
    rw [openNamei_run, hfound]
    rfl
  rcases delete_deletes (sound hreach).marked fileA with ⟨i, hi, fs', hrun, hdeleted⟩ | ⟨hnone, -⟩
  · have hnum := (EStateM.Result.ok.inj (hopen.symm.trans hi)).1
    obtain rfl : i = 0 := Fin.ext (Int.ofNat.inj hnum.symm)
    exact ⟨fs, fs', hblock, hrun, hdeleted⟩
  · have hnum := (EStateM.Result.ok.inj (hopen.symm.trans hnone)).1
    exact absurd hnum (by decide)

end Os20.Ssufs
