import Os20.Ssufs.CrossLinks

/-!
# Leaked space

`ssufs_write` marks the blocks it allocates before they belong to a file, and does not
unmark them when it gives up.  Through a handle whose inode is free it even hands them to
a file that does not exist.
-/

namespace Os20.Ssufs

open Os20.Lib.Transition

def Fs.freeBlocks (fs : Fs) : Finset (Fin numDataBlocks) := Finset.univ.filter fun b => fs.Free b

/-- The entries of inode `i` that a write of `nbytes` through `h` has to allocate. -/
def Fs.missing (fs : Fs) (h : Handle) (i : Fin numInodes) (nbytes : Int) :
    Finset (Fin maxFileSize) :=
  Finset.univ.filter fun k => Touches (fs.handles h).offset (fs.stop h nbytes) k ∧
    (fs.inode i).directBlocks k = -1

@[simp] theorem Fs.mem_freeBlocks {fs : Fs} {b : Fin numDataBlocks} :
    b ∈ fs.freeBlocks ↔ fs.Free b := by
  simp [Fs.freeBlocks]

@[simp] theorem Fs.mem_missing {fs : Fs} {h : Handle} {i : Fin numInodes} {nbytes : Int}
    {k : Fin maxFileSize} : k ∈ fs.missing h i nbytes ↔
      Touches (fs.handles h).offset (fs.stop h nbytes) k ∧
        (fs.inode i).directBlocks k = -1 := by
  simp [Fs.missing]

/-- Every marked block belongs to a file, and free inodes are empty. -/
structure NoLeaks (fs : Fs) : Prop where
  referenced : ∀ b : Fin numDataBlocks, fs.Used b → ∃ i k, fs.InUse i ∧
    (fs.inode i).status = used.toNat ∧ (fs.inode i).directBlocks k = b.val
  vacant : ∀ i, fs.super.inodeFreelist i = free →
    (fs.inode i).fileSize = 0 ∧ ∀ k, (fs.inode i).directBlocks k = -1
  /-- The superblock and the inode say the same. -/
  agree : ∀ i, fs.InUse i ∧ (fs.inode i).status = used.toNat ∨
    fs.super.inodeFreelist i = free ∧ (fs.inode i).status = free.toNat

/-- A write that has to allocate finds either no block at all, or all it needs and an inode
in use. -/
def allocatesWhole (fs : Fs) : Call → Prop
  | .write h _ nbytes _ => ∀ i, fs.Admits h i nbytes →
      fs.missing h i nbytes = ∅ ∨ fs.freeBlocks = ∅ ∨
        (fs.missing h i nbytes).card ≤ fs.freeBlocks.card ∧ fs.InUse i
  | _ => True

instance (fs : Fs) : ∀ c, Decidable (allocatesWhole fs c)
  | .write h _ nbytes _ => inferInstanceAs (Decidable (∀ i, fs.Admits h i nbytes →
      fs.missing h i nbytes = ∅ ∨ fs.freeBlocks = ∅ ∨
        (fs.missing h i nbytes).card ≤ fs.freeBlocks.card ∧ fs.InUse i))
  | .create _ | .delete _ | .open _ | .close _ | .read _ _ | .lseek _ _ =>
      inferInstanceAs (Decidable True)

variable {fs₀ fs fs' : Fs} {h : Handle} {i : Fin numInodes} {o stop nbytes : Int} {ino : Inode}

/-! ## Writes that allocate nothing -/

theorem Writing.eq_of_kept (hs : Sound fs₀) (hw : Writing fs₀ h i o ino fs)
    (hkept : ∀ k, (fs₀.inode i).directBlocks k = -1 → ino.directBlocks k = -1) :
    ino = fs₀.inode i ∧ fs.super.datablockFreelist = fs₀.super.datablockFreelist := by
  have hblocks : ino.directBlocks = (fs₀.inode i).directBlocks := by
    funext k
    by_cases hk : (fs₀.inode i).directBlocks k = -1
    · rw [hkept k hk, hk]
    · exact hw.kept k hk
  constructor
  · have hsize : ino.fileSize = (fs₀.inode i).fileSize := by
      rw [hw.size, hs.size i]
      unfold blocksInUse
      rw [hblocks]
    obtain ⟨status, name, fileSize, directBlocks⟩ := ino
    have hstatus := hw.status
    have hname := hw.name
    dsimp only at hsize hblocks hstatus hname
    rw [hsize, hblocks, hstatus, hname]
  · funext b
    rw [hw.marks, if_neg]
    rintro ⟨k, hk, hb⟩
    rw [hkept k hk] at hb
    omega

theorem Writing.kept_of_full (hw : Writing fs₀ h i o ino fs) (hfull : fs₀.freeBlocks = ∅)
    (k : Fin maxFileSize) (hk : (fs₀.inode i).directBlocks k = -1) : ino.directBlocks k = -1 := by
  by_contra hsome
  obtain ⟨-, b, -, hfree⟩ := hw.fresh k hk hsome
  have hmem := Fs.mem_freeBlocks.mpr hfree
  rw [hfull] at hmem
  exact Finset.notMem_empty b hmem

theorem Writing.kept_of_present (hw : Writing fs₀ h i (fs₀.stop h nbytes) ino fs)
    (hpresent : fs₀.missing h i nbytes = ∅) (k : Fin maxFileSize)
    (hk : (fs₀.inode i).directBlocks k = -1) : ino.directBlocks k = -1 := by
  by_contra hsome
  obtain ⟨htouched, -⟩ := hw.fresh k hk hsome
  have hmem := Fs.mem_missing.mpr ⟨htouched, hk⟩
  rw [hpresent] at hmem
  exact Finset.notMem_empty k hmem

/-! ## Writes that give up -/

theorem Exhausted.exists_missing (hex : Exhausted fs₀ h i (fs₀.stop h nbytes) o ino fs) :
    ∃ k ∈ fs₀.missing h i nbytes, ino.directBlocks k = -1 := by
  obtain ⟨k, hk, hnone⟩ := hex.missing
  have hstart := hex.start
  have hbefore := hex.before
  refine ⟨k, Fs.mem_missing.mpr ⟨?_, ?_⟩, hnone⟩
  · unfold blocksize at hk
    unfold Touches blocksize
    omega
  · exact hex.none_of_none hnone

/-- A call that gives up has used all blocks, and needed one more. -/
theorem Exhausted.card_lt (hex : Exhausted fs₀ h i (fs₀.stop h nbytes) o ino fs) :
    fs₀.freeBlocks.card < (fs₀.missing h i nbytes).card := by
  have hw := hex.toWriting
  have hbefore := hex.before
  obtain ⟨k₀, hmem₀, hnone⟩ := hex.exists_missing
  -- every block that was free is now in an entry that was missing
  have hentry : ∀ b : Fin numDataBlocks, fs₀.Free b →
      ∃ k, (fs₀.inode i).directBlocks k = -1 ∧ ino.directBlocks k = b.val := by
    intro b hb
    by_contra hnot
    apply hex.full b
    rw [Fs.Free, hw.marks, if_neg hnot]
    exact hb
  choose! entry hold hnew using hentry
  have hle : fs₀.freeBlocks.card ≤ ((fs₀.missing h i nbytes).erase k₀).card := by
    apply Finset.card_le_card_of_injOn entry
    · intro b hb
      have hfree : fs₀.Free b := Fs.mem_freeBlocks.mp hb
      have hnew := hnew b hfree
      obtain ⟨htouched, -⟩ := hw.fresh _ (hold b hfree) (by omega)
      apply Finset.mem_erase.mpr
      refine ⟨?_, Fs.mem_missing.mpr ⟨?_, hold b hfree⟩⟩
      · intro heq
        rw [heq] at hnew
        omega
      · unfold Touches at htouched ⊢
        omega
    · intro b hb c hc heq
      have hb' := hnew b (Fs.mem_freeBlocks.mp hb)
      have hc' := hnew c (Fs.mem_freeBlocks.mp hc)
      rw [heq] at hb'
      exact Fin.ext (by omega)
  rw [Finset.card_erase_of_mem hmem₀] at hle
  have hpos : 0 < (fs₀.missing h i nbytes).card := Finset.card_pos.mpr ⟨k₀, hmem₀⟩
  omega

/-! ## Every call -/

theorem NoLeaks.congr (hn : NoLeaks fs) (hinode : fs'.inode = fs.inode)
    (hinodes : fs'.super.inodeFreelist = fs.super.inodeFreelist)
    (hblocks : fs'.super.datablockFreelist = fs.super.datablockFreelist) : NoLeaks fs' := by
  constructor
  · intro b
    rw [Fs.Used, hblocks, hinode]
    unfold Fs.InUse
    rw [hinodes]
    exact hn.referenced b
  · rw [hinodes, hinode]
    exact hn.vacant
  · unfold Fs.InUse
    rw [hinodes, hinode]
    exact hn.agree

theorem NoLeaks.formatDisk (junk : Nat → UInt8) : NoLeaks (formatDisk junk) := by
  have hinode := inode_formatDisk junk
  constructor
  · intro b hb
    rw [Fs.Used, super_formatDisk] at hb
    exact absurd hb free_ne_used
  · intro i _
    rw [hinode]
    exact ⟨rfl, fun _ => rfl⟩
  · intro i
    right
    rw [super_formatDisk, hinode]
    exact ⟨rfl, rfl⟩

theorem NoLeaks.created (hn : NoLeaks fs) (hfree : fs.super.inodeFreelist i = free)
    (name : Fin maxNameStrlen → UInt8) : NoLeaks (fs.created i name) := by
  have hmark : ∀ j, (fs.created i name).super.inodeFreelist j =
      if j = i then used else fs.super.inodeFreelist j := by
    intro j
    rw [Fs.super_created]
    exact Function.update_apply _ _ _ _
  constructor
  · intro b hb
    rw [Fs.Used, Fs.super_created] at hb
    obtain ⟨j, k, huse, hstatus, hk⟩ := hn.referenced b hb
    refine ⟨j, k, (Fs.inUse_created_iff name).mpr (Or.inr huse), ?_⟩
    rw [Fs.inode_created_of_ne name (huse.ne_of_free hfree)]
    exact ⟨hstatus, hk⟩
  · intro j hj
    rw [hmark] at hj
    split at hj
    · exact absurd hj.symm free_ne_used
    · next hne =>
        rw [Fs.inode_created_of_ne name hne]
        exact hn.vacant j hj
  · intro j
    unfold Fs.InUse
    rw [hmark]
    split
    · next heq =>
        left
        rw [heq, Fs.inode_created, Function.update_self]
        exact ⟨rfl, rfl⟩
    · next hne =>
        rw [Fs.inode_created_of_ne name hne]
        exact hn.agree j

theorem NoLeaks.freed (hn : NoLeaks fs) (hfreed : Freed fs i fs') : NoLeaks fs' := by
  have hmark : ∀ j, fs'.super.inodeFreelist j =
      if j = i then free else fs.super.inodeFreelist j := by
    intro j
    rw [hfreed.inodeFreelist, Function.update_apply]
  constructor
  · intro b hb
    rw [Fs.Used, hfreed.datablockFreelist] at hb
    split at hb
    · exact absurd hb free_ne_used
    · next hnot =>
        obtain ⟨j, k, huse, hstatus, hk⟩ := hn.referenced b hb
        have hj : j ≠ i := by
          rintro rfl
          exact hnot ⟨k, hk⟩
        refine ⟨j, k, hfreed.inUse_iff.mpr ⟨hj, huse⟩, ?_⟩
        rw [hfreed.inode_of_ne hj]
        exact ⟨hstatus, hk⟩
  · intro j hj
    by_cases hji : j = i
    · rw [hji, hfreed.inode_self]
      exact ⟨rfl, fun _ => rfl⟩
    · rw [hmark, if_neg hji] at hj
      rw [hfreed.inode_of_ne hji]
      exact hn.vacant j hj
  · intro j
    unfold Fs.InUse
    rw [hmark]
    by_cases hji : j = i
    · right
      rw [if_pos hji, hji, hfreed.inode_self]
      exact ⟨rfl, rfl⟩
    · rw [if_neg hji, hfreed.inode_of_ne hji]
      exact hn.agree j

theorem NoLeaks.written (hs : Sound fs) (hn : NoLeaks fs) (hw : Writing fs h i o ino fs')
    (huse : fs.InUse i) : NoLeaks (fs'.putInode i ino) := by
  have hself : (fs'.putInode i ino).inode i = ino := Fs.inode_putInode_self (hw.fits (hs.tidy _))
  have hrest : ∀ j, j ≠ i → (fs'.putInode i ino).inode j = fs.inode j := by
    intro j hj
    rw [Fs.inode_putInode_of_ne (hw.fits (hs.tidy _)) hj, hw.inode]
  have hstatus : (fs.inode i).status = used.toNat := by
    rcases hn.agree i with ⟨-, hstatus⟩ | ⟨hfree, -⟩
    · exact hstatus
    · exact absurd (hfree.symm.trans huse) free_ne_used
  constructor
  · intro b hb
    unfold Fs.InUse
    rw [Fs.Used, Fs.super_putInode, hw.marks] at hb
    rw [Fs.super_putInode, hw.inodeFreelist]
    split at hb
    · next hnew =>
        obtain ⟨k, -, hk⟩ := hnew
        refine ⟨i, k, huse, ?_⟩
        rw [hself, hw.status]
        exact ⟨hstatus, hk⟩
    · obtain ⟨j, k, huse', hstatus', hk⟩ := hn.referenced b hb
      refine ⟨j, k, huse', ?_⟩
      by_cases hj : j = i
      · rw [hj] at hk
        rw [hj, hself, hw.status, hw.kept k (by omega)]
        exact ⟨hstatus, hk⟩
      · rw [hrest j hj]
        exact ⟨hstatus', hk⟩
  · intro j hj
    rw [Fs.super_putInode, hw.inodeFreelist] at hj
    have hji : j ≠ i := (huse.ne_of_free hj).symm
    rw [hrest j hji]
    exact hn.vacant j hj
  · intro j
    unfold Fs.InUse
    rw [Fs.super_putInode, hw.inodeFreelist]
    by_cases hji : j = i
    · rw [hji, hself, hw.status]
      exact hn.agree i
    · rw [hrest j hji]
      exact hn.agree j

theorem NoLeaks.effect {c : Call} (hs : Sound fs) (hn : NoLeaks fs)
    (hok : allocatesWhole fs c) (heffect : Effect fs c fs') : NoLeaks fs' := by
  cases heffect with
  | createFull | deleteMissing | openFailed | readFailed | writeRefused | lseekFailed => exact hn
  | create filename i hfree => exact hn.created hfree _
  | delete filename i fs' _ hfreed => exact hn.freed hfreed
  | «open» | close | lseekClosed | lseek => exact hn.congr rfl rfl rfl
  | read h nbytes i fs' hnum hpos hend hread =>
      exact hn.congr hread.inode_eq (by rw [hread.super_eq]) (by rw [hread.super_eq])
  | write h buf nbytes hbuf i ino fs' hadmits hwritten =>
      have hw := hwritten.toWriting
      by_cases hkept : ∀ k, (fs.inode i).directBlocks k = -1 → ino.directBlocks k = -1
      · obtain ⟨rfl, hblocks⟩ := hw.eq_of_kept hs hkept
        apply hn.congr
        · rw [Fs.inode_putInode (fs.fits_inode i), hw.inode, Function.update_eq_self]
        · rw [Fs.super_putInode, hw.inodeFreelist]
        · rw [Fs.super_putInode, hblocks]
      · rcases hok i hadmits with hpresent | hfull | ⟨-, huse⟩
        · exact absurd (hw.kept_of_present hpresent) hkept
        · exact absurd (hw.kept_of_full hfull) hkept
        · exact hn.written hs hw huse
  | writeExhausted h buf nbytes hbuf i o ino fs' hadmits hexhausted =>
      have hw := hexhausted.toWriting
      have hlt := hexhausted.card_lt
      rcases hok i hadmits with hpresent | hfull | ⟨hle, -⟩
      · rw [hpresent, Finset.card_empty] at hlt
        omega
      · obtain ⟨-, hblocks⟩ := hw.eq_of_kept hs (hw.kept_of_full hfull)
        exact hn.congr hw.inode hw.inodeFreelist hblocks
      · omega

/-- In every run whose writes allocate all they need or nothing, for an inode in use, no
space is lost. -/
theorem noLeaks (hreach : system.ReachableWhere allocatesWhole fs) : NoLeaks fs := by
  apply hreach.invariant
  · rintro fs ⟨junk, rfl⟩
    exact NoLeaks.formatDisk junk
  · intro fs c fs' hreach hn hok hnext
    have hs := sound hreach
    have hn' : NoLeaks fs.cleared := hn.congr rfl rfl rfl
    have hok' : allocatesWhole fs.cleared c := by
      cases c <;> exact hok
    exact hn'.effect hs.cleared hok' (next_effect hs hnext)

/-- Two files, one of them written and deleted. -/
theorem noLeaks_deleted :
    ∃ fs, system.ReachableWhere allocatesWhole fs ∧
      ((decide (fs.Used 0) && decide (fs.Free 1) && decide (fs.super.inodeFreelist 1 = free)) =
        true) ∧ NoLeaks fs := by
  obtain ⟨fs, hreach, hfs⟩ := system.exists_reachableWhere_of_run allocatesWhole
    [.create fileA, .open fileA, .write 0 (List.replicate 64 7) 64 (by simp), .create fileB,
      .open fileB, .write 1 (List.replicate 64 7) 64 (by simp), .delete fileB]
    (fun fs => decide (fs.Used 0) && decide (fs.Free 1) &&
      decide (fs.super.inodeFreelist 1 = free))
    ⟨fun _ => 0, rfl⟩ (by decide +kernel)
  exact ⟨fs, hreach, hfs, noLeaks hreach⟩

/-- A second handle on the first file is bound to the second inode, which is free: a write
through it allocates a block for no file. -/
theorem exists_leak : ∃ fs, system.Reachable fs ∧ ¬NoLeaks fs := by
  obtain ⟨fs, hreach, hfs⟩ := system.exists_reachable_of_run
    [.create fileA, .open fileA, .open fileA, .write 1 (List.replicate 64 7) 64 (by simp)]
    (fun fs => decide (fs.super.inodeFreelist 1 = free) && (fs.inode 1).fileSize == 64)
    ⟨fun _ => 0, rfl⟩ (by decide +kernel)
  refine ⟨fs, hreach, ?_⟩
  intro hn
  rw [Bool.and_eq_true, decide_eq_true_eq, beq_iff_eq] at hfs
  have hvacant := (hn.vacant 1 hfs.1).1
  omega

end Os20.Ssufs
