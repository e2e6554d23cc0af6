import Os20.Ssufs.Lookup

/-!
# Calls on a closed handle

`ssufs_read` and `ssufs_write` test the inode number of the handle for -1.  `ssufs_lseek`
does not, and the `assert` of `ssufs_readInode` has no lower bound: inode -1 is the second
half of the superblock's block, and its `file_size` the marks of the last two data blocks
followed by two bytes that were never initialised.
-/

namespace Os20.Ssufs

open Os20.Lib.Bytes Os20.Lib.Transition

/-- `file_size` of inode -1. -/
def Fs.closedSize (fs : Fs) : Int :=
  decodeInt (fs.super.datablockFreelist ⟨28, by decide⟩)
    (fs.super.datablockFreelist ⟨29, by decide⟩) (fs.disk.file.byte 46) (fs.disk.file.byte 47)

/-- The three calls return -1 and change nothing. -/
def Fs.Rejects (fs : Fs) (h : Handle) (nbytes : Int) (buf : List UInt8) (nwrite nseek : Int) :
    Prop :=
  read h nbytes fs = .ok (-1, []) fs ∧ Ssufs.write h buf nwrite fs = .ok (-1) fs ∧
    lseek h nseek fs = .ok (-1) fs

variable {fs : Fs} {h : Handle}

theorem byte_of_lt (fs : Fs) {k : Nat} (hk : k < 64) :
    (fs.disk.file.pread 0 64).getD k 0 = fs.disk.file.byte k := by
  have htables := fs.disk.tables
  rw [ByteFile.getD_pread, if_pos (by omega), Nat.zero_add]

theorem byte_of_inode (fs : Fs) {k : Nat} (hk : k < 32) :
    (fs.disk.file.pread 32 32).getD k 0 = fs.disk.file.byte (32 + k) := by
  have htables := fs.disk.tables
  rw [ByteFile.getD_pread, if_pos (by omega)]

theorem Inode.fileSize_decode (bs : List UInt8) : (Inode.decode bs).fileSize = intAt bs 12 := rfl

theorem fileSize_neg_one (fs : Fs) :
    (Inode.decode (fs.disk.file.pread 32 32)).fileSize = fs.closedSize := by
  have hmark : ∀ b : Fin numDataBlocks,
      fs.super.datablockFreelist b = fs.disk.file.byte (16 + b) := by
    intro b
    have hb : b.val < 30 := b.isLt
    exact byte_of_lt fs (by omega)
  unfold Fs.closedSize
  rw [hmark, hmark]
  rw [Inode.fileSize_decode]
  unfold intAt
  rw [byte_of_inode fs (by decide), byte_of_inode fs (by decide), byte_of_inode fs (by decide),
    byte_of_inode fs (by decide)]
  rfl

/-- A closed handle is moved inside the size of inode -1. -/
theorem lseek_run_neg_one (fs : Fs) (h : Handle) (nseek : Int)
    (hclosed : (fs.handles h).inodeNumber = -1) :
    lseek h nseek fs =
      if 0 ≤ (fs.handles h).offset + nseek ∧ (fs.handles h).offset + nseek ≤ fs.closedSize then
        .ok 0 (fs.seek h ((fs.handles h).offset + nseek))
      else .ok (-1) fs := by
  unfold lseek
  rw [bind_ok (getHandle_run h), hclosed, bind_ok (readInode_run_closed fs), fileSize_neg_one]
  split
  · rw [if_neg (by omega)]
    rfl
  · rw [if_pos (by omega), bind_ok (setHandle_run _ _), Fs.seek, hclosed]
    rfl

theorem read_run_closed (nbytes : Int) (hclosed : (fs.handles h).inodeNumber = -1) :
    read h nbytes fs = .ok (-1, []) fs := by
  unfold read
  rw [bind_ok (getHandle_run h), if_pos hclosed]
  rfl

theorem write_run_closed (buf : List UInt8) (nbytes : Int)
    (hclosed : (fs.handles h).inodeNumber = -1) : Ssufs.write h buf nbytes fs = .ok (-1) fs := by
  unfold Ssufs.write
  rw [bind_ok (getHandle_run h), if_pos hclosed]
  rfl

/-- The calls reject a closed handle, except that `ssufs_lseek` moves it to every position
between zero and the size of inode -1. -/
theorem closed_rejected_iff (hclosed : (fs.handles h).inodeNumber = -1) (nbytes : Int)
    (buf : List UInt8) (nwrite nseek : Int) :
    fs.Rejects h nbytes buf nwrite nseek ↔
      ¬(0 ≤ (fs.handles h).offset + nseek ∧
        (fs.handles h).offset + nseek ≤ fs.closedSize) := by
  unfold Fs.Rejects
  rw [lseek_run_neg_one fs h nseek hclosed]
  constructor
  · rintro ⟨-, -, hseek⟩ hinside
    rw [if_pos hinside] at hseek
    cases hseek
  · intro hinside
    rw [if_neg hinside]
    exact ⟨read_run_closed nbytes hclosed, write_run_closed buf nwrite hclosed, rfl⟩

/-- On a new disk, found with zeros behind the superblock, the size is that of two free marks. -/
theorem closedSize_formatDisk : (formatDisk fun _ => 0).closedSize = 30840 := by
  decide +kernel

/-- A seek behind that size is rejected. -/
theorem closed_rejected_behind :
    ((formatDisk fun _ => 0).handles 0).inodeNumber = -1 ∧
      (formatDisk fun _ => 0).Rejects 0 1 [7] 1 30841 := by
  refine ⟨rfl, (closed_rejected_iff rfl 1 [7] 1 30841).mpr ?_⟩
  rw [closedSize_formatDisk]
  decide

/-- On the new disk no handle is open, and `ssufs_lseek` moves handle 0 to position 1. -/
theorem exists_closed_moved :
    ∃ fs fs', system.Reachable fs ∧ (fs.handles 0).inodeNumber = -1 ∧
      lseek 0 1 fs = .ok 0 fs' ∧ (fs.handles 0).offset = 0 ∧ (fs'.handles 0).offset = 1 ∧
      ¬fs.Rejects 0 1 [7] 1 1 := by
  have hinside : 0 ≤ ((formatDisk fun _ => 0).handles 0).offset + 1 ∧
      ((formatDisk fun _ => 0).handles 0).offset + 1 ≤ (formatDisk fun _ => 0).closedSize := by
    rw [closedSize_formatDisk]
    decide
  have hseek := lseek_run_neg_one (formatDisk fun _ => 0) 0 1 rfl
  rw [if_pos hinside] at hseek
  refine ⟨_, _, .init ⟨_, rfl⟩, rfl, hseek, rfl, Fs.offset_seek _ _ _, ?_⟩
  rintro ⟨-, -, hrejected⟩
  rw [hseek] at hrejected
  cases hrejected

end Os20.Ssufs
