import Mathlib.Order.Interval.Finset.Fin
import Os20.Ssufs.Leaks

/-!
# Files without holes

A file grows at its end as long as every offset stays inside its file.  A deletion takes
the file from under its handles, and a write that gives up has moved on without storing
the inode; a later write then leaves a hole behind.
-/

namespace Os20.Ssufs

open Os20.Lib.Transition

/-- The entries of a file are its first blocks, and no handle is beyond the end. -/
structure NoHoles (fs : Fs) : Prop where
  initial : ∀ i (k : Fin maxFileSize), (fs.inode i).directBlocks k ≠ -1 ↔
    (k.val : Int) < (fs.inode i).fileSize / blocksize
  inside : ∀ h, (fs.handles h).inodeNumber ≠ -1 → 0 ≤ (fs.handles h).offset ∧
    ∀ i : Fin numInodes, (fs.handles h).inodeNumber = i.val →
      (fs.handles h).offset ≤ (fs.inode i).fileSize
  /-- A handle without an inode has not moved. -/
  unbound : ∀ h, (numInodes : Int) ≤ (fs.handles h).inodeNumber → (fs.handles h).offset = 0

/-- A write does not run out of blocks after it has allocated some, and a deleted file has
no handle beyond its start. -/
def keepsOffsets (fs : Fs) : Call → Prop
  | .write h _ nbytes _ => ∀ i, fs.Admits h i nbytes →
      fs.freeBlocks = ∅ ∨ (fs.missing h i nbytes).card ≤ fs.freeBlocks.card
  | .delete filename => ∀ i, fs.namei filename.bytes = some i →
      ∀ h, (fs.handles h).inodeNumber = i.val → (fs.handles h).offset = 0
  | _ => True

instance (fs : Fs) : ∀ c, Decidable (keepsOffsets fs c)
  | .write h _ nbytes _ => inferInstanceAs (Decidable (∀ i, fs.Admits h i nbytes →
      fs.freeBlocks = ∅ ∨ (fs.missing h i nbytes).card ≤ fs.freeBlocks.card))
  | .delete filename => inferInstanceAs (Decidable (∀ i, fs.namei filename.bytes = some i →
      ∀ h, (fs.handles h).inodeNumber = i.val → (fs.handles h).offset = 0))
  | .create _ | .open _ | .close _ | .read _ _ | .lseek _ _ => inferInstanceAs (Decidable True)

variable {fs₀ fs fs' : Fs} {h : Handle} {i : Fin numInodes} {o stop nbytes : Int} {ino : Inode}

/-! ## Initial segments -/

theorem ne_none_iff_lt (hdown : ∀ k k' : Fin maxFileSize, k' ≤ k → ino.directBlocks k ≠ -1 →
    ino.directBlocks k' ≠ -1) (k : Fin maxFileSize) :
    ino.directBlocks k ≠ -1 ↔ k.val < blocksInUse ino := by
  unfold blocksInUse
  constructor
  · intro hk
    have hsub : Finset.Iic k ⊆ Finset.univ.filter fun k => ino.directBlocks k ≠ -1 := by
      intro k' hk'
      simpa using hdown k k' (Finset.mem_Iic.mp hk') hk
    have hle := Finset.card_le_card hsub
    rw [Fin.card_Iic] at hle
    omega
  · intro hlt hk
    have hsub : (Finset.univ.filter fun k => ino.directBlocks k ≠ -1) ⊆ Finset.Iio k := by
      intro k' hk'
      rw [Finset.mem_Iio]
      by_contra hle
      exact hdown k' k (not_lt.mp hle) (by simpa using hk') hk
    have hle := Finset.card_le_card hsub
    rw [Fin.card_Iio] at hle
    omega

theorem blocksInUse_mono {inode : Inode}
    (hle : ∀ k, inode.directBlocks k ≠ -1 → ino.directBlocks k ≠ -1) :
    blocksInUse inode ≤ blocksInUse ino := by
  apply Finset.card_le_card
  intro k hk
  simpa using hle k (by simpa using hk)

theorem Sound.size_div (hs : Sound fs) (i : Fin numInodes) :
    (fs.inode i).fileSize / blocksize = blocksInUse (fs.inode i) := by
  rw [hs.size i]
  unfold blocksize
  omega

/-! ## Writing from inside the file -/

theorem Writing.size_le (hs : Sound fs₀) (hw : Writing fs₀ h i o ino fs) :
    (fs₀.inode i).fileSize ≤ ino.fileSize := by
  have hmono : blocksInUse (fs₀.inode i) ≤ blocksInUse ino := by
    apply blocksInUse_mono
    intro k hk
    rw [hw.kept k hk]
    exact hk
  rw [hs.size i, hw.size]
  unfold blocksize
  omega

section Writing

variable (hs : Sound fs₀) (hn : NoHoles fs₀) (hw : Writing fs₀ h i o ino fs)
  (hinside : (fs₀.handles h).offset ≤ (fs₀.inode i).fileSize)

include hs hn hw hinside

/-- The touched blocks follow on the blocks of the file. -/
theorem Writing.down (k k' : Fin maxFileSize) (hle : k' ≤ k) (hk : ino.directBlocks k ≠ -1) :
    ino.directBlocks k' ≠ -1 := by
  by_cases hold' : (fs₀.inode i).directBlocks k' = -1
  · apply hw.filled
    have hcount := hs.size_div i
    have hk' : ¬((k'.val : Int) < blocksInUse (fs₀.inode i)) := by
      rw [← hcount, ← hn.initial i k']
      exact not_not.mpr hold'
    have hlek : k'.val ≤ k.val := hle
    have hold : (fs₀.inode i).directBlocks k = -1 := by
      by_contra hsome
      rw [← ne_eq, hn.initial i k, hcount] at hsome
      omega
    obtain ⟨htouched, -⟩ := hw.fresh k hold hk
    rw [hs.size i] at hinside
    unfold Touches at htouched ⊢
    unfold blocksize at hinside htouched ⊢
    omega
  · rw [hw.kept k' hold']
    exact hold'

theorem Writing.initial (k : Fin maxFileSize) :
    ino.directBlocks k ≠ -1 ↔ (k.val : Int) < ino.fileSize / blocksize := by
  rw [ne_none_iff_lt (hw.down hs hn hinside) k, hw.size]
  unfold blocksize
  omega

theorem Writing.position_le (hnonneg : 0 ≤ (fs₀.handles h).offset)
    (hmax : o ≤ blocksize * maxFileSize) (hstart : (fs₀.handles h).offset ≤ o) :
    o ≤ ino.fileSize := by
  have hsize := hw.size_le hs
  by_cases heq : o = (fs₀.handles h).offset
  · omega
  · -- the last byte before `o` lies in a block of the local inode
    obtain ⟨k, hk⟩ := exists_block (o := o - 1) (by omega) (by omega)
    have htouched : Touches (fs₀.handles h).offset o k := by
      unfold blocksize at hk
      unfold Touches blocksize
      omega
    have hlt := (hw.initial hs hn hinside k).mp (hw.filled k htouched)
    unfold blocksize at hk hlt
    omega

end Writing

/-! ## Every call -/

theorem NoHoles.congr (hn : NoHoles fs)
    (hblocks : ∀ i, (fs'.inode i).directBlocks = (fs.inode i).directBlocks)
    (hsize : ∀ i, (fs'.inode i).fileSize = (fs.inode i).fileSize)
    (hhandles : fs'.handles = fs.handles) : NoHoles fs' := by
  constructor
  · intro i k
    rw [hblocks, hsize]
    exact hn.initial i k
  · intro h
    simp only [hhandles, hsize]
    exact hn.inside h
  · rw [hhandles]
    exact hn.unbound

theorem NoHoles.formatDisk (junk : Nat → UInt8) : NoHoles (formatDisk junk) := by
  constructor
  · intro i k
    have hk : ¬((k.val : Int) < 0 / blocksize) := by
      unfold blocksize
      omega
    rw [inode_formatDisk]
    exact iff_of_false (fun hne => hne rfl) hk
  · exact fun h hopen => absurd rfl hopen
  · exact fun h _ => rfl

theorem NoHoles.putHandle (hn : NoHoles fs) {fh : FileHandle}
    (hinside : fh.inodeNumber ≠ -1 → 0 ≤ fh.offset ∧
      ∀ i : Fin numInodes, fh.inodeNumber = i.val → fh.offset ≤ (fs.inode i).fileSize)
    (hunbound : (numInodes : Int) ≤ fh.inodeNumber → fh.offset = 0) :
    NoHoles (fs.putHandle h fh) :=
  { hn with
    inside := Fs.forall_putHandle (P := fun fh => fh.inodeNumber ≠ -1 → 0 ≤ fh.offset ∧
      ∀ i : Fin numInodes, fh.inodeNumber = i.val → fh.offset ≤ (fs.inode i).fileSize)
      hinside hn.inside
    unbound := Fs.forall_putHandle (P := fun fh => (numInodes : Int) ≤ fh.inodeNumber →
      fh.offset = 0) hunbound hn.unbound }

theorem NoHoles.created (hn : NoHoles fs) (name : Fin maxNameStrlen → UInt8) :
    NoHoles (fs.created i name) := by
  apply hn.congr
  · exact fun j => (fs.content_created i j name).1
  · exact fun j => (fs.content_created i j name).2
  · rfl

theorem NoHoles.freed (hn : NoHoles fs) (hfreed : Freed fs i fs')
    (hzero : ∀ h, (fs.handles h).inodeNumber = i.val → (fs.handles h).offset = 0) :
    NoHoles fs' := by
  constructor
  · intro j k
    by_cases hj : j = i
    · have hk : ¬((k.val : Int) < 0 / blocksize) := by
        unfold blocksize
        omega
      rw [hj, hfreed.inode_self]
      exact iff_of_false (fun hne => hne rfl) hk
    · rw [hfreed.inode_of_ne hj]
      exact hn.initial j k
  · intro h hopen
    rw [hfreed.handles] at hopen ⊢
    obtain ⟨hnonneg, hle⟩ := hn.inside h hopen
    refine ⟨hnonneg, ?_⟩
    intro j hnum
    by_cases hj : j = i
    · rw [hj, hfreed.inode_self, hzero h (hj ▸ hnum)]
      exact le_refl _
    · rw [hfreed.inode_of_ne hj]
      exact hle j hnum
  · rw [hfreed.handles]
    exact hn.unbound

theorem NoHoles.seek (hn : NoHoles fs) (hnum : (fs.handles h).inodeNumber = i.val)
    (hnonneg : 0 ≤ o) (hle : o ≤ (fs.inode i).fileSize) : NoHoles (fs.seek h o) := by
  have hlt := i.isLt
  unfold Fs.seek
  rw [hnum]
  apply hn.putHandle
  · refine fun _ => ⟨hnonneg, ?_⟩
    intro j hj
    obtain rfl : i = j := Fin.ext (Int.ofNat.inj hj)
    exact hle
  · intro hbeyond
    dsimp only at hbeyond
    omega

theorem NoHoles.written (hs : Sound fs) (hn : NoHoles fs) (hadmits : fs.Admits h i nbytes)
    (hwritten : Written fs h i (fs.stop h nbytes) ino fs') : NoHoles (fs'.putInode i ino) := by
  have hw := hwritten.toWriting
  obtain ⟨hnonneg, hstart, hmax⟩ := hs.stop_le hadmits
  have hinside := (hn.inside h (by rw [hadmits.1]; omega)).2 i hadmits.1
  have hself : (fs'.putInode i ino).inode i = ino := Fs.inode_putInode_self (hw.fits (hs.tidy _))
  have hrest : ∀ j, j ≠ i → (fs'.putInode i ino).inode j = fs.inode j := by
    intro j hj
    rw [Fs.inode_putInode_of_ne (hw.fits (hs.tidy _)) hj, hw.inode]
  constructor
  · intro j k
    by_cases hj : j = i
    · rw [hj, hself]
      exact hw.initial hs hn hinside k
    · rw [hrest j hj]
      exact hn.initial j k
  · intro h' hopen
    rw [Fs.handles_putInode] at hopen ⊢
    by_cases hh : h' = h
    · rw [hh, hwritten.offset]
      refine ⟨hnonneg.trans hstart, ?_⟩
      intro j hj
      rw [hw.number] at hj
      obtain rfl : i = j := Fin.ext (by omega)
      rw [hself]
      exact hw.position_le hs hn hinside hnonneg hmax hstart
    · rw [hw.others h' hh] at hopen ⊢
      obtain ⟨hnonneg', hle⟩ := hn.inside h' hopen
      refine ⟨hnonneg', ?_⟩
      intro j hj
      by_cases hji : j = i
      · rw [hji, hself]
        exact (hle i (hji ▸ hj)).trans (hw.size_le hs)
      · rw [hrest j hji]
        exact hle j hj
  · intro h' hbeyond
    rw [Fs.handles_putInode] at hbeyond ⊢
    by_cases hh : h' = h
    · have hlt := i.isLt
      rw [hh, hw.number] at hbeyond
      omega
    · rw [hw.others h' hh] at hbeyond ⊢
      exact hn.unbound h' hbeyond

/-- A write that found no block has not left the file. -/
theorem NoHoles.exhausted (hs : Sound fs) (hn : NoHoles fs) (hadmits : fs.Admits h i nbytes)
    (hex : Exhausted fs h i (fs.stop h nbytes) o ino fs') (hfull : fs.freeBlocks = ∅) :
    NoHoles fs' := by
  have hw := hex.toWriting
  obtain ⟨hnonneg, -, hmax⟩ := hs.stop_le hadmits
  have hinside := (hn.inside h (by rw [hadmits.1]; omega)).2 i hadmits.1
  obtain ⟨hino, -⟩ := hw.eq_of_kept hs (hw.kept_of_full hfull)
  have hle : o ≤ (fs.inode i).fileSize := by
    rw [← hino]
    exact hw.position_le hs hn hinside hnonneg (hex.before.le.trans hmax) hex.start
  have hsought : NoHoles (fs.seek h o) := hn.seek hadmits.1 (hnonneg.trans hex.start) hle
  apply hsought.congr
  · intro j
    rw [hw.inode]
    rfl
  · intro j
    rw [hw.inode]
    rfl
  · funext h'
    rw [Fs.seek, Fs.handles_putHandle]
    by_cases hh : h' = h
    · rw [hh, Function.update_self, hadmits.1, ← hw.number, ← hex.offset]
    · rw [Function.update_of_ne hh, hw.others h' hh]

theorem NoHoles.effect {c : Call} (hs : Sound fs) (hn : NoHoles fs) (hok : keepsOffsets fs c)
    (heffect : Effect fs c fs') : NoHoles fs' := by
  cases heffect with
  | createFull | deleteMissing | openFailed | readFailed | writeRefused | lseekFailed => exact hn
  | create filename i _ => exact hn.created _
  | delete filename i fs' hfound hfreed => exact hn.freed hfreed (hok i hfound)
  | «open» filename i h _ _ =>
      exact hn.putHandle (fun _ => ⟨le_refl _, fun j _ => (hs.size_le j).1⟩) (fun _ => rfl)
  | close h => exact hn.putHandle (fun hopen => absurd rfl hopen) (fun _ => rfl)
  | read h nbytes i fs' hnum hpos hend hread =>
      obtain ⟨hnonneg, -⟩ := hn.inside h (by omega)
      have hsought := hn.seek hnum (by omega) hend
      exact hsought.congr (fun j => by rw [hread.inode_eq]; rfl)
        (fun j => by rw [hread.inode_eq]; rfl) hread.handles
  | write h buf nbytes hbuf i ino fs' hadmits hwritten => exact hn.written hs hadmits hwritten
  | writeExhausted h buf nbytes hbuf i o ino fs' hadmits hex =>
      rcases hok i hadmits with hfull | hle
      · exact hn.exhausted hs hadmits hex hfull
      · exact absurd hex.card_lt (not_lt.mpr hle)
  | lseekClosed h nseek o hnum =>
      unfold Fs.seek
      rw [hnum]
      apply hn.putHandle (fun hopen => absurd rfl hopen)
      intro hbeyond
      dsimp only at hbeyond
      omega
  | lseek h nseek o i hnum hnonneg hle => exact hn.seek hnum hnonneg hle

/-! ## Reads -/

theorem NoHoles.issued_read (hs : Sound fs) (hn : NoHoles fs) {n : Int}
    (hread : Access.read n ∈ issued fs (.read h nbytes)) : 0 ≤ n ∧ n < numDataBlocks := by
  rcases outcome_cases hs (.read h nbytes) with ⟨fs', hrun, heffect⟩ | hrun
  · rw [issued, hrun] at hread
    cases heffect with
    | readFailed => cases hread
    | read _ _ i _ hnum hpos hend hr =>
        obtain ⟨k, hk, htouched⟩ := (hr.accesses _ hread).resolve_left List.not_mem_nil
        cases hk
        have hsome : (fs.inode i).directBlocks k ≠ -1 := by
          rw [hn.initial i k]
          have hend' : (fs.handles h).offset + nbytes ≤ (fs.inode i).fileSize := hend
          have hk : (blocksize * k.val : Int) < (fs.handles h).offset + nbytes := htouched.2.2
          rw [hs.size i] at hend' ⊢
          unfold blocksize at hend' hk ⊢
          omega
        obtain ⟨b, hb⟩ := (hs.entry i k).resolve_left hsome
        have hlt := b.isLt
        change 0 ≤ (fs.inode i).directBlocks k ∧ (fs.inode i).directBlocks k < numDataBlocks
        omega
  · rw [issued, hrun] at hread
    cases hread

/-- In every run in which writes do not run out of blocks halfway and no file is deleted
under a handle that has moved, files have no holes and reads stay in the data area. -/
theorem noHoles (hreach : system.ReachableWhere keepsOffsets fs) :
    NoHoles fs ∧ ∀ (h : Handle) (nbytes n : Int),
      Access.read n ∈ issued fs (.read h nbytes) → 0 ≤ n ∧ n < numDataBlocks := by
  have hn : NoHoles fs := by
    apply hreach.invariant
    · rintro fs ⟨junk, rfl⟩
      exact NoHoles.formatDisk junk
    · intro fs c fs' hreach hn hok hnext
      have hs := sound hreach
      have hn' : NoHoles fs.cleared := ⟨hn.initial, hn.inside, hn.unbound⟩
      have hok' : keepsOffsets fs.cleared c := by
        cases c <;> exact hok
      exact hn'.effect hs.cleared hok' (next_effect hs hnext)
  exact ⟨hn, fun h nbytes n => hn.issued_read (sound hreach)⟩

/-- A file of two blocks, read from its second block on, and another one deleted. -/
theorem noHoles_secondBlock :
    ∃ fs, system.ReachableWhere keepsOffsets fs ∧
      (((fs.inode 0).fileSize == 128 && (fs.handles 0).offset == 96 &&
        decide (issued fs (.read 0 32) = [.read 1])) = true) ∧
      NoHoles fs ∧ ∀ (h : Handle) (nbytes n : Int),
        Access.read n ∈ issued fs (.read h nbytes) → 0 ≤ n ∧ n < numDataBlocks := by
  obtain ⟨fs, hreach, hfs⟩ := system.exists_reachableWhere_of_run keepsOffsets
    [.create fileA, .open fileA, .write 0 (List.replicate 100 7) 100 (by simp), .create fileB,
      .delete fileB, .lseek 0 (-36), .read 0 32]
    (fun fs => (fs.inode 0).fileSize == 128 && (fs.handles 0).offset == 96 &&
      decide (issued fs (.read 0 32) = [.read 1]))
    ⟨fun _ => 0, rfl⟩ (by decide +kernel)
  exact ⟨fs, hreach, hfs, noHoles hreach⟩

/-- A file is deleted under a handle at its end, and created again.  A write through the
handle starts with the second block, and a read from the start asks for block -1. -/
theorem exists_hole :
    ∃ fs, system.Reachable fs ∧ ¬NoHoles fs ∧
      Access.read (-1) ∈ issued fs (.read 0 64) := by
  obtain ⟨fs, hreach, hfs⟩ := system.exists_reachable_of_run
    [.create fileA, .open fileA, .write 0 (List.replicate 64 7) 64 (by simp), .delete fileA,
      .create fileA, .write 0 (List.replicate 64 7) 64 (by simp), .lseek 0 (-128)]
    (fun fs => (fs.inode 0).directBlocks 0 == -1 && (fs.inode 0).fileSize == 64 &&
      decide (Access.read (-1) ∈ issued fs (.read 0 64)))
    ⟨fun _ => 0, rfl⟩ (by decide +kernel)
  rw [Bool.and_eq_true, Bool.and_eq_true, beq_iff_eq, beq_iff_eq, decide_eq_true_eq] at hfs
  obtain ⟨⟨hentry, hsize⟩, hread⟩ := hfs
  refine ⟨fs, hreach, ?_, hread⟩
  intro hn
  have hinitial := (hn.initial 0 0).mpr (by rw [hsize]; decide)
  exact hinitial hentry

end Os20.Ssufs
