import Os20.Ssufs.Lookup

/-!
# The end of a file

`ssufs_read` takes `file_size` for the end of the data.  It counts whole blocks, and is moved
by a write only when that allocates one: a write that ends inside a new block leaves bytes
behind it that can be read and have never been written.
-/

namespace Os20.Ssufs

open Os20.Lib.Transition

def Fs.firstFree (fs : Fs) : Option (Fin numInodes) :=
  (List.finRange numInodes).find? fun i => fs.super.inodeFreelist i = free

/-- A state, and for each inode the largest offset that a successful `ssufs_write` on it has
reached since it was created. -/
structure Extents where
  fs : Fs
  length : Fin numInodes → Int

def Extents.lengthAfter (s : Extents) (c : Call) (i : Fin numInodes) : Int :=
  match c with
  | .create filename =>
      match create filename s.fs with
      | .ok n _ => if n = i.val then 0 else s.length i
      | .error _ _ => s.length i
  | .write h buf nbytes _ =>
      match write h buf nbytes s.fs with
      | .ok n fs' =>
          if n = 0 ∧ (s.fs.handles h).inodeNumber = i.val then
            max (s.length i) (fs'.handles h).offset
          else s.length i
      | .error _ _ => s.length i
  | _ => s.length i

def extentSystem : System Extents Call where
  init s := system.init s.fs ∧ s.length = fun _ => 0
  next s c := (system.next s.fs c).map fun fs' => ⟨fs', s.lengthAfter c⟩

/-- A new file starts empty, and a write that allocates ends with the last block. -/
def wholeBlocks (s : Extents) : Call → Prop
  | .create _ => ∀ i, s.fs.firstFree = some i → (s.fs.inode i).fileSize = 0
  | .write h _ nbytes _ => ∀ i, s.fs.Admits h i nbytes →
      (s.fs.missing h i nbytes).card ≤ s.fs.freeBlocks.card →
      s.fs.missing h i nbytes = ∅ ∨
        blocksize * (blocksInUse (s.fs.inode i) + (s.fs.missing h i nbytes).card : Nat) ≤
          max (s.length i) (s.fs.stop h nbytes)
  | _ => True

instance (s : Extents) : ∀ c, Decidable (wholeBlocks s c)
  | .create _ => inferInstanceAs (Decidable (∀ i, s.fs.firstFree = some i →
      (s.fs.inode i).fileSize = 0))
  | .write h _ nbytes _ => inferInstanceAs (Decidable (∀ i, s.fs.Admits h i nbytes →
      (s.fs.missing h i nbytes).card ≤ s.fs.freeBlocks.card →
      s.fs.missing h i nbytes = ∅ ∨
        blocksize * (blocksInUse (s.fs.inode i) + (s.fs.missing h i nbytes).card : Nat) ≤
          max (s.length i) (s.fs.stop h nbytes)))
  | .delete _ | .open _ | .close _ | .read _ _ | .lseek _ _ => inferInstanceAs (Decidable True)

variable {fs fs' : Fs} {s s' : Extents} {h : Handle} {i : Fin numInodes} {nbytes : Int}

theorem read_beyond (hs : Sound fs) (hnum : (fs.handles h).inodeNumber = i.val)
    (hbeyond : (fs.inode i).fileSize < (fs.handles h).offset + nbytes) :
    read h nbytes fs = .ok (-1, []) fs := by
  have hsize := hs.size i
  unfold read
  rw [bind_ok (getHandle_run h), if_neg (by omega), bind_ok (readInode_run hnum)]
  split
  · rfl
  · rw [if_pos (by omega)]
    rfl

theorem allocInode_firstFree (fs : Fs) :
    allocInode fs = .ok (number fs.firstFree) (match fs.firstFree with
      | some i => fs.markInode i used
      | none => fs) := by
  unfold allocInode
  rw [bind_ok readSuperBlock_run, Fs.firstFree]
  cases (List.finRange numInodes).find? fun i => fs.super.inodeFreelist i = free with
  | some i => rfl
  | none => rfl

theorem create_firstFree (fs : Fs) (filename : Filename) :
    ∃ fs', create filename fs = .ok (number fs.firstFree) fs' := by
  have halloc := allocInode_firstFree fs
  unfold create
  rw [bind_ok halloc]
  cases fs.firstFree with
  | some i =>
      rw [number, if_neg (by omega), bind_ok (readInode_run rfl), bind_ok (writeInode_run _ rfl)]
      exact ⟨_, rfl⟩
  | none => exact ⟨_, rfl⟩

theorem lengthAfter_create (s : Extents) (filename : Filename) (i : Fin numInodes) :
    s.lengthAfter (.create filename) i = if s.fs.firstFree = some i then 0 else s.length i := by
  obtain ⟨fs', hrun⟩ := create_firstFree s.fs filename
  simp only [Extents.lengthAfter, hrun, number_eq_iff]

theorem le_lengthAfter_write (s : Extents) (h : Handle) (buf : List UInt8) (nbytes : Int)
    (hbuf : nbytes ≤ buf.length) (i : Fin numInodes) :
    s.length i ≤ s.lengthAfter (.write h buf nbytes hbuf) i := by
  simp only [Extents.lengthAfter]
  split
  · split
    · exact le_max_left _ _
    · exact le_rfl
  · exact le_rfl

theorem lengthAfter_write (hs : Sound s.fs) (buf : List UInt8) (hbuf : nbytes ≤ buf.length)
    (hadmits : s.fs.Admits h i nbytes)
    (hcard : (s.fs.missing h i nbytes).card ≤ s.fs.freeBlocks.card) :
    s.lengthAfter (.write h buf nbytes hbuf) i = max (s.length i) (s.fs.stop h nbytes) := by
  rcases write_run hs h buf nbytes with ⟨hrefused, -⟩ | ⟨hbeyond, -⟩ | ⟨j, hj, hrun⟩
  · exact absurd hadmits (hrefused i)
  · have hlt := i.isLt
    have hnum := hadmits.1
    omega
  · obtain rfl : i = j := Fin.ext (Int.ofNat.inj (hadmits.1.symm.trans hj.1))
    rcases hrun with ⟨ino, fs', hwritten, hrun⟩ | ⟨o, ino, fs', hex, -⟩
    · simp only [Extents.lengthAfter, hrun, hadmits.1, and_self, if_true, Fs.handles_putInode,
        hwritten.offset]
    · have hlt := hex.card_lt
      omega

structure Extents.Filled (s : Extents) : Prop where
  nonneg : ∀ i, 0 ≤ s.length i
  size : ∀ i, (s.fs.inode i).fileSize ≤ s.length i

theorem nonneg_lengthAfter (hf : s.Filled) (c : Call) (i : Fin numInodes) :
    0 ≤ s.lengthAfter c i := by
  have hnonneg := hf.nonneg i
  cases c with
  | create filename =>
      rw [lengthAfter_create]
      split
      · exact le_rfl
      · exact hnonneg
  | write h buf nbytes hbuf => exact hnonneg.trans (le_lengthAfter_write s h buf nbytes hbuf i)
  | delete | «open» | close | read | lseek => exact hnonneg

theorem Extents.Filled.effect {c : Call} (hs : Sound s.fs) (hf : s.Filled)
    (hok : wholeBlocks s c) (heffect : Effect s.fs.cleared c fs') (i : Fin numInodes) :
    (fs'.inode i).fileSize ≤ s.lengthAfter c i := by
  have hsize := hf.size i
  have hcreate {filename : Filename} (hok : wholeBlocks s (.create filename)) :
      (s.fs.inode i).fileSize ≤ s.lengthAfter (.create filename) i := by
    rw [lengthAfter_create]
    split
    · next htaken => exact (hok i htaken).le
    · exact hsize
  cases heffect with
  | createFull filename => exact hcreate hok
  | create filename j hfree =>
      rw [(s.fs.cleared.content_created j i _).2]
      exact hcreate hok
  | deleteMissing | openFailed | «open» | close | readFailed | lseekFailed | lseekClosed
  | lseek => exact hsize
  | delete filename j fs' hfound hfreed =>
      by_cases hi : i = j
      · subst hi
        rw [hfreed.inode_self]
        exact hf.nonneg i
      · rw [hfreed.inode_of_ne hi]
        exact hsize
  | read h nbytes j fs' hnum hpos hend hread =>
      rw [hread.inode_eq]
      exact hsize
  | writeRefused h buf nbytes hbuf =>
      exact hsize.trans (le_lengthAfter_write s h buf nbytes hbuf i)
  | write h buf nbytes hbuf j ino fs' hadmits hwritten =>
      have hw := hwritten.toWriting
      by_cases hi : i = j
      · subst hi
        have hcard : (s.fs.missing h i nbytes).card ≤ s.fs.freeBlocks.card := hw.card_missing_le
        rw [Fs.inode_putInode_self (hw.fits (hs.cleared.tidy _)),
          lengthAfter_write hs buf hbuf hadmits hcard, hw.size, hw.blocksInUse_eq]
        rcases hok i hadmits hcard with hnone | hle
        · have hnone' : s.fs.cleared.missing h i nbytes = ∅ := hnone
          have hold := hs.cleared.size i
          rw [hnone', Finset.card_empty, Nat.add_zero, ← hold]
          exact hsize.trans (le_max_left _ _)
        · exact hle
      · rw [Fs.inode_putInode_of_ne (hw.fits (hs.cleared.tidy _)) hi, hw.inode]
        exact hsize.trans (le_lengthAfter_write s h buf nbytes hbuf i)
  | writeExhausted h buf nbytes hbuf j o ino fs' hadmits hexhausted =>
      rw [hexhausted.toWriting.inode]
      exact hsize.trans (le_lengthAfter_write s h buf nbytes hbuf i)

theorem extentSystem_next {c : Call} (hnext : extentSystem.next s c = some s') :
    system.next s.fs c = some s'.fs ∧ s'.length = s.lengthAfter c := by
  obtain ⟨fs', hfs, rfl⟩ := Option.map_eq_some_iff.mp hnext
  exact ⟨hfs, rfl⟩

theorem reachable_of_extents {ok : Extents → Call → Prop}
    (hreach : extentSystem.ReachableWhere ok s) : system.Reachable s.fs := by
  induction hreach with
  | init hinit => exact .init hinit.1
  | step c _ _ hnext ih => exact .step c ih trivial (extentSystem_next hnext).1

theorem filled (hreach : extentSystem.ReachableWhere wholeBlocks s) : s.Filled := by
  refine hreach.invariant ?_ ?_
  · rintro s ⟨⟨junk, hjunk⟩, hlength⟩
    refine ⟨fun i => by rw [hlength], fun i => ?_⟩
    rw [hlength, hjunk, inode_formatDisk]
    exact le_rfl
  · intro s c s' hreach hf hok hnext
    have hs := sound (reachable_of_extents hreach)
    obtain ⟨hfs, hlength⟩ := extentSystem_next hnext
    refine ⟨fun i => ?_, fun i => ?_⟩
    · rw [hlength]
      exact nonneg_lengthAfter hf c i
    · rw [hlength]
      exact hf.effect hs hok (next_effect hs hfs) i

/-- In every run in which files start empty and writes that allocate end with the last block,
a read beyond the data fails and changes nothing. -/
theorem readsStop (hreach : extentSystem.ReachableWhere wholeBlocks s)
    (hnum : (s.fs.handles h).inodeNumber = i.val)
    (hbeyond : s.length i < (s.fs.handles h).offset + nbytes) :
    read h nbytes s.fs = .ok (-1, []) s.fs :=
  read_beyond (sound (reachable_of_extents hreach)) hnum
    (((filled hreach).size i).trans_lt hbeyond)

/-- Behind one block of data. -/
theorem readsStop_block :
    ∃ s, extentSystem.ReachableWhere wholeBlocks s ∧ s.length 0 = 64 ∧
      read 0 1 s.fs = .ok (-1, []) s.fs := by
  obtain ⟨s, hreach, htest⟩ := extentSystem.exists_reachableWhere_of_run wholeBlocks
    [.create fileA, .open fileA, .write 0 (List.replicate 64 7) 64 (by simp)]
    (fun s => decide ((s.fs.handles 0).inodeNumber = 0 ∧ s.length 0 = 64 ∧
      (s.fs.handles 0).offset = 64))
    (s := ⟨formatDisk fun _ => 0, fun _ => 0⟩) ⟨⟨fun _ => 0, rfl⟩, rfl⟩ (by decide +kernel)
  obtain ⟨hnum, hlength, hoffset⟩ := of_decide_eq_true htest
  refine ⟨s, hreach, hlength, readsStop (i := 0) hreach hnum ?_⟩
  rw [hlength, hoffset]
  decide

/-- One byte is written, and the byte behind it is read. -/
theorem exists_read_beyond :
    ∃ s, extentSystem.Reachable s ∧ (s.fs.handles 0).inodeNumber = 0 ∧ s.fs.InUse 0 ∧
      s.length 0 = 1 ∧ (s.fs.handles 0).offset = 1 ∧
      ∃ fs', read 0 1 s.fs = .ok (0, [0]) fs' ∧ (fs'.handles 0).offset = 2 := by
  obtain ⟨s, hreach, htest⟩ := extentSystem.exists_reachable_of_run
    [.create fileA, .open fileA, .write 0 [7] 1 (by decide)]
    (fun s => decide ((s.fs.handles 0).inodeNumber = 0 ∧ s.fs.InUse 0 ∧ s.length 0 = 1 ∧
      (s.fs.handles 0).offset = 1) && returns (read 0 1)
        (fun r fs' => decide (r = (0, [0]) ∧ (fs'.handles 0).offset = 2)) s.fs)
    (s := ⟨formatDisk fun _ => 0, fun _ => 0⟩) ⟨⟨fun _ => 0, rfl⟩, rfl⟩ (by decide +kernel)
  rw [Bool.and_eq_true] at htest
  obtain ⟨hnum, huse, hlength, hoffset⟩ := of_decide_eq_true htest.1
  obtain ⟨r, fs', hrun, hafter⟩ := exists_of_returns htest.2
  obtain ⟨rfl, hoffset'⟩ := of_decide_eq_true hafter
  exact ⟨s, hreach, hnum, huse, hlength, hoffset, fs', hrun, hoffset'⟩

end Os20.Ssufs
