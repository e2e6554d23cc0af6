import Os20.Ssufs.Steps

/-!
# No cross-linked blocks

Every call keeps the tables in agreement, also one that fails halfway, that writes through
a handle whose file has been deleted, or that reuses an inode as it was left.
-/

namespace Os20.Ssufs

open Os20.Lib.Transition

variable {fs fs' : Fs} {h : Handle} {i : Fin numInodes}

theorem Sound.putInode {ino : Inode} (hs : Sound fs) (hfits : ino.Fits)
    (hentry : ∀ k, ino.directBlocks k = -1 ∨ ∃ b : Fin numDataBlocks, ino.directBlocks k = b.val)
    (hused : ∀ k (b : Fin numDataBlocks), ino.directBlocks k = b.val → fs.Used b)
    (hdistinct : ∀ k k', ino.directBlocks k ≠ -1 → ino.directBlocks k = ino.directBlocks k' →
      k = k')
    (hother : ∀ k (b : Fin numDataBlocks), ino.directBlocks k = b.val → ∀ j, j ≠ i →
      ∀ k', (fs.inode j).directBlocks k' ≠ b.val)
    (hsize : ino.fileSize = blocksize * blocksInUse ino) : Sound (fs.putInode i ino) := by
  have hself : (fs.putInode i ino).inode i = ino := Fs.inode_putInode_self hfits
  have hrest : ∀ j, j ≠ i → (fs.putInode i ino).inode j = fs.inode j :=
    fun j hj => Fs.inode_putInode_of_ne hfits hj
  constructor
  · intro j k
    by_cases hj : j = i
    · rw [hj, hself]
      exact hentry k
    · rw [hrest j hj]
      exact hs.entry j k
  · intro j k b
    rw [Fs.Used, Fs.super_putInode]
    by_cases hj : j = i
    · rw [hj, hself]
      exact hused k b
    · rw [hrest j hj]
      exact hs.referenced j k b
  · intro j k j' k' b hb hb'
    by_cases hj : j = i <;> by_cases hj' : j' = i
    · rw [hj, hself] at hb
      rw [hj', hself] at hb'
      exact ⟨hj.trans hj'.symm, hdistinct k k' (by omega) (hb.trans hb'.symm)⟩
    · rw [hj, hself] at hb
      rw [hrest j' hj'] at hb'
      exact absurd hb' (hother k b hb j' hj' k')
    · rw [hrest j hj] at hb
      rw [hj', hself] at hb'
      exact absurd hb (hother k' b hb' j hj k)
    · rw [hrest j hj] at hb
      rw [hrest j' hj'] at hb'
      exact hs.single j k j' k' b hb hb'
  · intro j
    by_cases hj : j = i
    · rw [hj, hself]
      exact hsize
    · rw [hrest j hj]
      exact hs.size j
  · exact hs.offset
  · exact hs.number
  · intro b
    rw [Fs.Used, Fs.Free, Fs.super_putInode]
    exact hs.mark b
  · intro b
    rw [Fs.Used, Fs.super_putInode, Fs.has_putInode]
    exact hs.has b

theorem Sound.putHandle {fh : FileHandle} (hs : Sound fs)
    (hoffset : fh.inodeNumber ≠ -1 → 0 ≤ fh.offset ∧ fh.offset ≤ blocksize * maxFileSize)
    (hnumber : fh.inodeNumber = -1 ∨ ∃ h' : Handle, fh.inodeNumber = h'.val) :
    Sound (fs.putHandle h fh) :=
  { hs with
    offset := Fs.forall_putHandle (P := fun fh => fh.inodeNumber ≠ -1 →
      0 ≤ fh.offset ∧ fh.offset ≤ blocksize * maxFileSize) hoffset hs.offset
    number := Fs.forall_putHandle (P := fun fh => fh.inodeNumber = -1 ∨
      ∃ h' : Handle, fh.inodeNumber = h'.val) hnumber hs.number }

theorem Sound.created (hs : Sound fs) (name : Fin maxNameStrlen → UInt8) :
    Sound (fs.created i name) := by
  apply hs.congr
  · exact fun j => (fs.content_created i j name).1
  · exact fun j => (fs.content_created i j name).2
  · rw [Fs.super_created]
    rfl
  · intro b hb
    simpa [Fs.created, Fs.markInode] using hb
  · exact hs.offset
  · exact hs.number

theorem Sound.freed (hs : Sound fs) (hfreed : Freed fs i fs') : Sound fs' := by
  have hself : ∀ k, (fs'.inode i).directBlocks k = -1 := by
    intro k
    rw [hfreed.inode_self]
    rfl
  have hunmarked : ∀ b : Fin numDataBlocks, (∃ k, (fs.inode i).directBlocks k = b.val) →
      fs'.Free b := by
    intro b hb
    rw [Fs.Free, hfreed.datablockFreelist, if_pos hb]
  have hkept : ∀ b : Fin numDataBlocks, ¬(∃ k, (fs.inode i).directBlocks k = b.val) →
      fs'.super.datablockFreelist b = fs.super.datablockFreelist b := by
    intro b hb
    rw [hfreed.datablockFreelist, if_neg hb]
  constructor
  · intro j k
    by_cases hj : j = i
    · exact Or.inl (hj ▸ hself k)
    · rw [hfreed.inode_of_ne hj]
      exact hs.entry j k
  · intro j k b hb
    by_cases hj : j = i
    · have hk := hself k
      rw [hj] at hb
      omega
    · rw [hfreed.inode_of_ne hj] at hb
      rw [Fs.Used, hkept b]
      · exact hs.referenced j k b hb
      · rintro ⟨k', hb'⟩
        exact hj (hs.single j k i k' b hb hb').1
  · intro j k j' k' b hb hb'
    by_cases hj : j = i
    · have hk := hself k
      rw [hj] at hb
      omega
    · by_cases hj' : j' = i
      · have hk := hself k'
        rw [hj'] at hb'
        omega
      · rw [hfreed.inode_of_ne hj] at hb
        rw [hfreed.inode_of_ne hj'] at hb'
        exact hs.single j k j' k' b hb hb'
  · intro j
    by_cases hj : j = i
    · rw [hj, blocksInUse_eq_zero hself, hfreed.inode_self]
      rfl
    · rw [hfreed.inode_of_ne hj]
      exact hs.size j
  · rw [hfreed.handles]
    exact hs.offset
  · rw [hfreed.handles]
    exact hs.number
  · intro b
    by_cases hb : ∃ k, (fs.inode i).directBlocks k = b.val
    · exact Or.inl (hunmarked b hb)
    · rw [Fs.Free, Fs.Used, hkept b hb]
      exact hs.mark b
  · intro b hused
    rw [hfreed.has]
    by_cases hb : ∃ k, (fs.inode i).directBlocks k = b.val
    · exact absurd hused (hunmarked b hb).not_used
    · rw [Fs.Used, hkept b hb] at hused
      exact hs.has b hused

theorem Sound.reading {ino : Inode} {o : Int} (hs : Sound fs) (hr : Reading fs h ino o fs')
    (ho : 0 ≤ o ∧ o ≤ blocksize * maxFileSize) : Sound fs' := by
  have hsought : Sound (fs.seek h o) := hs.putHandle (fun _ => ho) (hs.number h)
  apply hsought.congr
  · intro j
    rw [hr.inode_eq]
    rfl
  · intro j
    rw [hr.inode_eq]
    rfl
  · rw [hr.super_eq]
    rfl
  · exact fun b hb => (hr.has_iff b).mpr hb
  · rw [hr.handles]
    exact hsought.offset
  · rw [hr.handles]
    exact hsought.number

theorem Sound.writing {ino : Inode} {o : Int} (hs : Sound fs) (hw : Writing fs h i o ino fs')
    (hoffset : 0 ≤ (fs'.handles h).offset ∧ (fs'.handles h).offset ≤ blocksize * maxFileSize) :
    Sound fs' := by
  constructor
  · rw [hw.inode]
    exact hs.entry
  · intro j k b hb
    rw [hw.inode] at hb
    exact hw.used_of_used (hs.referenced j k b hb)
  · rw [hw.inode]
    exact hs.single
  · rw [hw.inode]
    exact hs.size
  · intro h' hopen
    by_cases hh : h' = h
    · rw [hh]
      exact hoffset
    · rw [hw.others h' hh] at hopen ⊢
      exact hs.offset h' hopen
  · intro h'
    by_cases hh : h' = h
    · refine Or.inr ⟨i.castLE (by decide), ?_⟩
      rw [hh, hw.number]
      rfl
    · rw [hw.others h' hh]
      exact hs.number h'
  · intro b
    rw [Fs.Free, Fs.Used, hw.marks]
    split
    · exact Or.inr rfl
    · exact hs.mark b
  · intro b hused
    rw [Fs.Used, hw.marks] at hused
    split at hused
    · next hb =>
        obtain ⟨k, -, hk⟩ := hb
        exact hw.hasEntry k b hk
    · exact hw.has b (hs.has b hused)

theorem Sound.stop_le {nbytes : Int} (hs : Sound fs) (hadmits : fs.Admits h i nbytes) :
    0 ≤ (fs.handles h).offset ∧ (fs.handles h).offset ≤ fs.stop h nbytes ∧
      fs.stop h nbytes ≤ blocksize * maxFileSize := by
  obtain ⟨hnum, hspace⟩ := hadmits
  obtain ⟨hnonneg, hle⟩ := hs.offset h (by omega)
  unfold Fs.stop
  unfold blocksize maxFileSize at *
  omega

theorem Sound.effect {c : Call} (hs : Sound fs) (heffect : Effect fs c fs') : Sound fs' := by
  cases heffect with
  | createFull | deleteMissing | openFailed | readFailed | writeRefused | lseekFailed => exact hs
  | create filename i _ => exact hs.created _
  | delete filename i fs' _ hfreed => exact hs.freed hfreed
  | «open» filename i h _ _ =>
      exact hs.putHandle (fun _ => ⟨by simp, by simp⟩) (Or.inr ⟨h, rfl⟩)
  | close h => exact hs.putHandle (fun hopen => absurd rfl hopen) (Or.inl rfl)
  | read h nbytes i fs' hnum hpos hend hread =>
      obtain ⟨hnonneg, -⟩ := hs.offset h (by omega)
      have hsize := (hs.size_le i).2
      exact hs.reading hread ⟨by omega, by omega⟩
  | write h buf nbytes hbuf i ino fs' hadmits hwritten =>
      obtain ⟨hnonneg, hstart, hstop⟩ := hs.stop_le hadmits
      have hw := hwritten.toWriting
      have hmid : Sound fs' := hs.writing hw
        (by rw [hwritten.offset]; exact ⟨hnonneg.trans hstart, hstop⟩)
      apply hmid.putInode (hw.fits (hs.tidy _)) (hw.entry (hs.tidy _))
        (fun k b => hw.used_entry (hs.tidy _)) hw.distinct
      · rw [hw.inode]
        exact fun k b hb j hj => hw.entry_ne_other (hs.tidy _) hb hj
      · exact hw.size
  | writeExhausted h buf nbytes hbuf i o ino fs' hadmits hexhausted =>
      obtain ⟨hnonneg, -, hstop⟩ := hs.stop_le hadmits
      apply hs.writing hexhausted.toWriting
      rw [hexhausted.offset]
      exact ⟨hnonneg.trans hexhausted.start, hexhausted.before.le.trans hstop⟩
  | lseekClosed h nseek o hnum =>
      exact hs.putHandle (fun hopen => absurd hnum hopen) (Or.inl hnum)
  | lseek h nseek o i hnum hnonneg hle =>
      exact hs.putHandle (fun _ => ⟨hnonneg, hle.trans (hs.size_le i).2⟩) (hs.number h)

theorem sound {ok : Fs → Call → Prop} (hreach : system.ReachableWhere ok fs) : Sound fs := by
  apply hreach.invariant
  · rintro fs ⟨junk, rfl⟩
    exact sound_formatDisk junk
  · intro fs c fs' _ hs _ hnext
    exact hs.cleared.effect (next_effect hs hnext)

/-- The accesses of a write are to blocks of its inode, and of no other one. -/
theorem Sound.issued_write {buf : List UInt8} {nbytes : Int} {hbuf : nbytes ≤ buf.length}
    {a : Access} (hs : Sound fs) (ha : a ∈ issued fs (.write h buf nbytes hbuf)) :
    ∃ i, (fs.handles h).inodeNumber = i.val ∧ ∃ b : Fin numDataBlocks,
      (a = .read b.val ∨ a = .write b.val) ∧
        ∀ j, j ≠ i → ∀ k, (fs.inode j).directBlocks k ≠ b.val := by
  have hwriting : ∀ {i : Fin numInodes} {o : Int} {ino : Inode} {fs' : Fs},
      Writing fs.cleared h i o ino fs' → a ∈ fs'.accesses →
      ∃ b : Fin numDataBlocks, (a = .read b.val ∨ a = .write b.val) ∧
        ∀ j, j ≠ i → ∀ k, (fs.inode j).directBlocks k ≠ b.val := by
    intro i o ino fs' hw ha
    obtain ⟨k, b, hb, hab⟩ := (hw.accesses a ha).resolve_left List.not_mem_nil
    exact ⟨b, hab, fun j hj => hw.entry_ne_other (hs.cleared.tidy _) hb hj⟩
  rcases outcome_cases hs (.write h buf nbytes hbuf) with ⟨fs', hrun, heffect⟩ | hrun
  · rw [issued, hrun] at ha
    cases heffect with
    | writeRefused => cases ha
    | write _ _ _ _ i ino fs' hadmits hwritten =>
        exact ⟨i, hadmits.1, hwriting hwritten.toWriting ha⟩
    | writeExhausted _ _ _ _ i o ino _ hadmits hexhausted =>
        exact ⟨i, hadmits.1, hwriting hexhausted.toWriting ha⟩
  · rw [issued, hrun] at ha
    cases ha

/-- In every state that calls reach from a formatted disk the tables agree; a write stores
only to blocks that belong to no other inode; and the `assert` in `ssufs_freeDataBlock`
holds in every call. -/
theorem noCrossLinks (hreach : system.Reachable fs) :
    Sound fs ∧
      (∀ (h : Handle) (buf : List UInt8) (nbytes : Int) (hbuf : nbytes ≤ buf.length) (n : Int),
        Access.write n ∈ issued fs (.write h buf nbytes hbuf) →
        ∃ i : Fin numInodes, (fs.handles h).inodeNumber = i.val ∧ 0 ≤ n ∧ n < numDataBlocks ∧
          ∀ j, j ≠ i → ∀ k, (fs.inode j).directBlocks k ≠ n) ∧
      ∀ c fs', outcome fs c ≠ .error .blockUsed fs' := by
  have hs := sound hreach
  refine ⟨hs, ?_, ?_⟩
  · intro h buf nbytes hbuf n hn
    obtain ⟨i, hnum, b, hb, hother⟩ := hs.issued_write hn
    have hlt := b.isLt
    obtain rfl : n = b.val := by
      rcases hb with hb | hb <;> cases hb
      rfl
    exact ⟨i, hnum, by omega, by omega, hother⟩
  · intro c fs' hrun
    rcases outcome_cases hs c with ⟨fs'', hok, -⟩ | herror
    · rw [hok] at hrun
      cases hrun
    · rw [herror] at hrun
      cases hrun

/-- After a write of 100 bytes the file has the first two blocks. -/
theorem noCrossLinks_twoBlocks :
    ∃ fs, system.Reachable fs ∧
      (((fs.inode 0).fileSize == 128 && (fs.inode 0).directBlocks 0 == 0 &&
        (fs.inode 0).directBlocks 1 == 1) = true) ∧
      Sound fs ∧
      (∀ (h : Handle) (buf : List UInt8) (nbytes : Int) (hbuf : nbytes ≤ buf.length) (n : Int),
        Access.write n ∈ issued fs (.write h buf nbytes hbuf) →
        ∃ i : Fin numInodes, (fs.handles h).inodeNumber = i.val ∧ 0 ≤ n ∧ n < numDataBlocks ∧
          ∀ j, j ≠ i → ∀ k, (fs.inode j).directBlocks k ≠ n) ∧
      ∀ c fs', outcome fs c ≠ .error .blockUsed fs' := by
  obtain ⟨fs, hreach, hfs⟩ := system.exists_reachable_of_run
    [.create fileA, .open fileA, .write 0 (List.replicate 100 7) 100 (by simp)]
    (fun fs => (fs.inode 0).fileSize == 128 && (fs.inode 0).directBlocks 0 == 0 &&
      (fs.inode 0).directBlocks 1 == 1)
    ⟨fun _ => 0, rfl⟩ (by decide +kernel)
  exact ⟨fs, hreach, hfs, noCrossLinks hreach⟩

end Os20.Ssufs
