import Os20.Ssufs.Writing

/-!
# What a call does

All that a call can do from a sound state: it returns with one of a few effects, or it is
stopped by `assert(inodenum < NUM_INODES)` before it has done anything.
-/

namespace Os20.Ssufs

/-- An inode in `ssufs_create`: what an earlier file left in it stays. -/
def Inode.named (inode : Inode) (name : Fin maxNameStrlen → UInt8) : Inode :=
  { inode with status := used.toNat, name := name }

theorem Inode.content_named (inode : Inode) (name : Fin maxNameStrlen → UInt8) :
    (inode.named name).directBlocks = inode.directBlocks ∧
      (inode.named name).fileSize = inode.fileSize := ⟨rfl, rfl⟩

theorem Inode.Fits.named {inode : Inode} (hfits : inode.Fits) (name : Fin maxNameStrlen → UInt8) :
    (inode.named name).Fits :=
  ⟨show Lib.Bytes.IsInt used.toNat by decide, hfits.fileSize, hfits.directBlocks⟩

def Fs.created (fs : Fs) (i : Fin numInodes) (name : Fin maxNameStrlen → UInt8) : Fs :=
  (fs.markInode i used).putInode i ((fs.inode i).named name)

theorem Fs.inode_created (fs : Fs) (i : Fin numInodes) (name : Fin maxNameStrlen → UInt8) :
    (fs.created i name).inode = Function.update fs.inode i ((fs.inode i).named name) := by
  rw [Fs.created, Fs.inode_putInode ((fs.fits_inode i).named name), Fs.markInode,
    Fs.inode_putSuper]

theorem Fs.inode_created_of_ne {fs : Fs} {i j : Fin numInodes}
    (name : Fin maxNameStrlen → UInt8) (hj : j ≠ i) :
    (fs.created i name).inode j = fs.inode j := by
  rw [Fs.inode_created, Function.update_of_ne hj]

theorem Fs.content_created (fs : Fs) (i j : Fin numInodes) (name : Fin maxNameStrlen → UInt8) :
    ((fs.created i name).inode j).directBlocks = (fs.inode j).directBlocks ∧
      ((fs.created i name).inode j).fileSize = (fs.inode j).fileSize := by
  by_cases hj : j = i
  · rw [hj, Fs.inode_created, Function.update_self]
    exact (fs.inode i).content_named name
  · rw [Fs.inode_created_of_ne name hj]
    exact ⟨rfl, rfl⟩

theorem Fs.super_created (fs : Fs) (i : Fin numInodes) (name : Fin maxNameStrlen → UInt8) :
    (fs.created i name).super = fs.super.setInode i used := by
  rw [Fs.created, Fs.super_putInode, Fs.markInode, Fs.super_putSuper]

theorem Fs.inUse_created_iff {fs : Fs} {i j : Fin numInodes} (name : Fin maxNameStrlen → UInt8) :
    (fs.created i name).InUse j ↔ j = i ∨ fs.InUse j := by
  unfold Fs.InUse
  rw [Fs.super_created]
  by_cases hj : j = i
  · simp [Superblock.setInode, hj]
  · simp [Superblock.setInode, hj]

theorem Fs.name_created_self {fs : Fs} {i : Fin numInodes} (name : Fin maxNameStrlen → UInt8) :
    ((fs.created i name).inode i).name = name := by
  rw [Fs.inode_created, Function.update_self]
  rfl

/-! ## Effects -/

inductive Effect (fs : Fs) : Call → Fs → Prop
  | createFull (filename : Filename) : Effect fs (.create filename) fs
  | create (filename : Filename) (i : Fin numInodes) (hfree : fs.super.inodeFreelist i = free) :
      Effect fs (.create filename) (fs.created i (strncpyName filename.bytes))
  | deleteMissing (filename : Filename) : Effect fs (.delete filename) fs
  | delete (filename : Filename) (i : Fin numInodes) (fs' : Fs)
      (hfound : fs.namei filename.bytes = some i) (hfreed : Freed fs i fs') :
      Effect fs (.delete filename) fs'
  | openFailed (filename : Filename)
      (hfailed : fs.namei filename.bytes = none ∨ firstClosed fs.handles = none) :
      Effect fs (.open filename) fs
  | open (filename : Filename) (i : Fin numInodes) (h : Handle)
      (hfound : fs.namei filename.bytes = some i) (hclosed : firstClosed fs.handles = some h) :
      Effect fs (.open filename) (fs.putHandle h ⟨0, h.val⟩)
  | close (h : Handle) : Effect fs (.close h) (fs.putHandle h ⟨0, -1⟩)
  | readFailed (h : Handle) (nbytes : Int) : Effect fs (.read h nbytes) fs
  | read (h : Handle) (nbytes : Int) (i : Fin numInodes) (fs' : Fs)
      (hnum : (fs.handles h).inodeNumber = i.val) (hpos : 0 < nbytes)
      (hend : (fs.handles h).offset + nbytes ≤ (fs.inode i).fileSize)
      (hread : Reading fs h (fs.inode i) ((fs.handles h).offset + nbytes) fs') :
      Effect fs (.read h nbytes) fs'
  | writeRefused (h : Handle) (buf : List UInt8) (nbytes : Int) (hbuf : nbytes ≤ buf.length) :
      Effect fs (.write h buf nbytes hbuf) fs
  | write (h : Handle) (buf : List UInt8) (nbytes : Int) (hbuf : nbytes ≤ buf.length)
      (i : Fin numInodes) (ino : Inode) (fs' : Fs) (hadmits : fs.Admits h i nbytes)
      (hwritten : Written fs h i (fs.stop h nbytes) ino fs') :
      Effect fs (.write h buf nbytes hbuf) (fs'.putInode i ino)
  | writeExhausted (h : Handle) (buf : List UInt8) (nbytes : Int) (hbuf : nbytes ≤ buf.length)
      (i : Fin numInodes) (o : Int) (ino : Inode) (fs' : Fs) (hadmits : fs.Admits h i nbytes)
      (hexhausted : Exhausted fs h i (fs.stop h nbytes) o ino fs') :
      Effect fs (.write h buf nbytes hbuf) fs'
  | lseekFailed (h : Handle) (nseek : Int) : Effect fs (.lseek h nseek) fs
  | lseekClosed (h : Handle) (nseek o : Int) (hnum : (fs.handles h).inodeNumber = -1) :
      Effect fs (.lseek h nseek) (fs.seek h o)
  | lseek (h : Handle) (nseek o : Int) (i : Fin numInodes)
      (hnum : (fs.handles h).inodeNumber = i.val) (hnonneg : 0 ≤ o)
      (hle : o ≤ (fs.inode i).fileSize) : Effect fs (.lseek h nseek) (fs.seek h o)

variable {fs : Fs}

theorem create_run (fs : Fs) (filename : Filename) :
    (∀ i, fs.super.inodeFreelist i ≠ free) ∧ create filename fs = .ok (-1) fs ∨
      ∃ i, fs.super.inodeFreelist i = free ∧
        create filename fs = .ok i.val (fs.created i (strncpyName filename.bytes)) := by
  unfold create
  rcases allocInode_run fs with ⟨i, hfree, hrun⟩ | ⟨hfull, hrun⟩
  · right
    refine ⟨i, hfree, ?_⟩
    have hinode : (fs.markInode i used).inode i = fs.inode i := by
      rw [Fs.markInode, Fs.inode_putSuper]
    rw [bind_ok hrun, if_neg (by omega), bind_ok (readInode_run rfl), hinode,
      bind_ok (writeInode_run _ rfl)]
    rfl
  · left
    rw [bind_ok hrun, if_pos rfl]
    exact ⟨hfull, rfl⟩

theorem delete_run (hs : Sound fs) (filename : Filename) :
    delete filename fs = .ok () fs ∨
      ∃ i fs', fs.namei filename.bytes = some i ∧ Freed fs i fs' ∧
        delete filename fs = .ok () fs' := by
  unfold delete
  rw [bind_ok (openNamei_run filename.bytes)]
  cases hfound : fs.namei filename.bytes with
  | none =>
      left
      rw [number, if_pos rfl]
      rfl
  | some i =>
      right
      obtain ⟨-, huse, -⟩ := namei_inUse hfound
      obtain ⟨fs', hrun, hfreed⟩ := freeInode_run huse (hs.freeable i)
      refine ⟨i, fs', rfl, hfreed, ?_⟩
      rw [number, if_neg (by omega), hrun]

theorem open_run (fs : Fs) (filename : Filename) :
    («open» filename fs = .ok (-1) fs ∧
        (fs.namei filename.bytes = none ∨ firstClosed fs.handles = none)) ∨
      ∃ i h, fs.namei filename.bytes = some i ∧ firstClosed fs.handles = some h ∧
        «open» filename fs = .ok h.val (fs.putHandle h ⟨0, h.val⟩) := by
  unfold «open»
  rw [bind_ok (openNamei_run filename.bytes)]
  cases hfound : fs.namei filename.bytes with
  | none =>
      left
      rw [number, if_pos rfl]
      exact ⟨rfl, Or.inl rfl⟩
  | some i =>
      have hget : (get : M Fs) fs = .ok fs fs := rfl
      rw [number, if_neg (by omega), allocFileHandle, bind_ok hget]
      cases hclosed : firstClosed fs.handles with
      | none => exact Or.inl ⟨rfl, Or.inr rfl⟩
      | some h => exact Or.inr ⟨i, h, rfl, rfl, bind_ok (setHandle_run _ _)⟩

theorem Sound.cleared (hs : Sound fs) : Sound fs.cleared :=
  ⟨hs.entry, hs.referenced, hs.single, hs.size, hs.offset, hs.number, hs.mark, hs.has⟩

/-- Everything a call does from a sound state. -/
theorem outcome_cases (hs : Sound fs) (c : Call) :
    (∃ fs', outcome fs c = .ok () fs' ∧ Effect fs.cleared c fs') ∨
      outcome fs c = .error .inodenum fs.cleared := by
  replace hs := hs.cleared
  unfold outcome
  generalize fs.cleared = fs at hs ⊢
  cases c with
  | create filename =>
      left
      rcases create_run fs filename with ⟨-, hrun⟩ | ⟨i, hfree, hrun⟩
      · exact ⟨_, discard_ok hrun, .createFull filename⟩
      · exact ⟨_, discard_ok hrun, .create filename i hfree⟩
  | delete filename =>
      left
      rcases delete_run hs filename with hrun | ⟨i, fs', hfound, hfreed, hrun⟩
      · exact ⟨_, hrun, .deleteMissing filename⟩
      · exact ⟨_, hrun, .delete filename i fs' hfound hfreed⟩
  | «open» filename =>
      left
      rcases open_run fs filename with ⟨hrun, hfailed⟩ | ⟨i, h, hfound, hclosed, hrun⟩
      · exact ⟨_, discard_ok hrun, .openFailed filename hfailed⟩
      · exact ⟨_, discard_ok hrun, .open filename i h hfound hclosed⟩
  | close h => exact Or.inl ⟨_, rfl, .close h⟩
  | read h nbytes =>
      rcases read_run hs h nbytes with
        ⟨r, hrun⟩ | ⟨-, hrun⟩ | ⟨i, buf, fs', hnum, hpos, hend, hrun, hread⟩
      · exact Or.inl ⟨_, discard_ok hrun, .readFailed h nbytes⟩
      · exact Or.inr (discard_error hrun)
      · exact Or.inl ⟨_, discard_ok hrun, .read h nbytes i fs' hnum hpos hend hread⟩
  | write h buf nbytes hbuf =>
      rcases write_run hs h buf nbytes with
        ⟨-, hrun⟩ | ⟨-, hrun⟩ |
          ⟨i, hadmits, ⟨ino, fs', hwritten, hrun⟩ | ⟨o, ino, fs', hfull, hrun⟩⟩
      · exact Or.inl ⟨_, discard_ok hrun, .writeRefused h buf nbytes hbuf⟩
      · exact Or.inr (discard_error hrun)
      · exact Or.inl ⟨_, discard_ok hrun, .write h buf nbytes hbuf i ino fs' hadmits hwritten⟩
      · exact Or.inl ⟨_, discard_ok hrun,
          .writeExhausted h buf nbytes hbuf i o ino fs' hadmits hfull⟩
  | lseek h nseek =>
      rcases hs.number_cases h with hnum | ⟨i, hnum⟩ | hnum
      · left
        rcases lseek_run_closed nseek hnum with hrun | ⟨o, hrun⟩
        · exact ⟨_, discard_ok hrun, .lseekFailed h nseek⟩
        · exact ⟨_, discard_ok hrun, .lseekClosed h nseek o hnum⟩
      · left
        have hrun := lseek_run nseek hnum
        split at hrun
        · next hinside =>
            exact ⟨_, discard_ok hrun, .lseek h nseek _ i hnum hinside.1 hinside.2⟩
        · exact ⟨_, discard_ok hrun, .lseekFailed h nseek⟩
      · exact Or.inr (discard_error (lseek_run_abort nseek hnum))

theorem next_effect (hs : Sound fs) {c : Call} {fs' : Fs} (hnext : system.next fs c = some fs') :
    Effect fs.cleared c fs' := by
  simp only [system] at hnext
  rcases outcome_cases hs c with ⟨fs'', hrun, heffect⟩ | hrun
  · rw [hrun] at hnext
    cases hnext
    exact heffect
  · rw [hrun] at hnext
    cases hnext

end Os20.Ssufs
