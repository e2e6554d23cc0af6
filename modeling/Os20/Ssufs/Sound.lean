import Mathlib.Data.Fintype.Card
import Os20.Ssufs.Effects

/-!
# The tables agree

The invariant that links the superblock, the inodes and the handles, in every state that
calls can reach.  It allows a block that is marked and belongs to no file, a file with a
hole, and a handle on an inode that is free or does not exist.
-/

namespace Os20.Ssufs

open Os20.Lib.Bytes

structure Sound (fs : Fs) : Prop where
  /-- An entry is -1 or the number of a block. -/
  entry : ∀ i k, (fs.inode i).directBlocks k = -1 ∨
    ∃ b : Fin numDataBlocks, (fs.inode i).directBlocks k = b.val
  /-- A block in a file is marked. -/
  referenced : ∀ i k (b : Fin numDataBlocks), (fs.inode i).directBlocks k = b.val → fs.Used b
  /-- No block is in two places. -/
  single : ∀ i k i' k' (b : Fin numDataBlocks), (fs.inode i).directBlocks k = b.val →
    (fs.inode i').directBlocks k' = b.val → i = i' ∧ k = k'
  size : ∀ i, (fs.inode i).fileSize = blocksize * blocksInUse (fs.inode i)
  /-- The offset of an open handle. -/
  offset : ∀ h, (fs.handles h).inodeNumber ≠ -1 →
    0 ≤ (fs.handles h).offset ∧ (fs.handles h).offset ≤ blocksize * maxFileSize
  /-- A handle is closed or bound to the number of some handle. -/
  number : ∀ h, (fs.handles h).inodeNumber = -1 ∨
    ∃ h' : Handle, (fs.handles h).inodeNumber = h'.val
  mark : ∀ b, fs.Free b ∨ fs.Used b
  has : ∀ b, fs.Used b → fs.Has b

theorem blocksInUse_le (inode : Inode) : blocksInUse inode ≤ 4 := by
  unfold blocksInUse
  exact (Finset.card_le_univ _).trans_eq (Fintype.card_fin _)

theorem blocksInUse_eq_zero {inode : Inode} (hnone : ∀ k, inode.directBlocks k = -1) :
    blocksInUse inode = 0 := by
  simp [blocksInUse, hnone]

@[simp] theorem directBlocks_grow_self (inode : Inode) (k : Fin maxFileSize) (n : Int) :
    (inode.grow k n).directBlocks k = n := Function.update_self _ _ _

theorem directBlocks_grow_of_ne (inode : Inode) {k k' : Fin maxFileSize} (n : Int) (hk : k' ≠ k) :
    (inode.grow k n).directBlocks k' = inode.directBlocks k' := Function.update_of_ne hk _ _

theorem blocksInUse_grow {inode : Inode} {k : Fin maxFileSize} {n : Int}
    (hk : inode.directBlocks k = -1) (hn : n ≠ -1) :
    blocksInUse (inode.grow k n) = blocksInUse inode + 1 := by
  unfold blocksInUse Inode.grow
  dsimp only
  have hinsert : (Finset.univ.filter fun k' => Function.update inode.directBlocks k n k' ≠ -1) =
      insert k (Finset.univ.filter fun k' => inode.directBlocks k' ≠ -1) := by
    ext k'
    by_cases hk' : k' = k
    · subst hk'
      simp [hn]
    · simp [hk']
  rw [hinsert, Finset.card_insert_of_notMem (by simp [hk])]

theorem Sound.congr {fs fs' : Fs} (hs : Sound fs)
    (hblocks : ∀ i, (fs'.inode i).directBlocks = (fs.inode i).directBlocks)
    (hsize : ∀ i, (fs'.inode i).fileSize = (fs.inode i).fileSize)
    (hmarks : fs'.super.datablockFreelist = fs.super.datablockFreelist)
    (hhas : ∀ b, fs.Has b → fs'.Has b)
    (hoffset : ∀ h, (fs'.handles h).inodeNumber ≠ -1 →
      0 ≤ (fs'.handles h).offset ∧ (fs'.handles h).offset ≤ blocksize * maxFileSize)
    (hnumber : ∀ h, (fs'.handles h).inodeNumber = -1 ∨
      ∃ h' : Handle, (fs'.handles h).inodeNumber = h'.val) : Sound fs' where
  entry i k := by
    rw [hblocks]
    exact hs.entry i k
  referenced i k b := by
    rw [hblocks, Fs.Used, hmarks]
    exact hs.referenced i k b
  single i k i' k' b := by
    rw [hblocks, hblocks]
    exact hs.single i k i' k' b
  size i := by
    rw [hsize, hs.size]
    unfold blocksInUse
    rw [hblocks]
  offset := hoffset
  number := hnumber
  mark b := by
    rw [Fs.Used, Fs.Free, hmarks]
    exact hs.mark b
  has b := by
    rw [Fs.Used, hmarks]
    exact fun hb => hhas b (hs.has b hb)

/-- A handle is closed, bound to an inode, or bound to a number that the first `assert`
stops. -/
theorem Sound.number_cases {fs : Fs} (hs : Sound fs) (h : Handle) :
    (fs.handles h).inodeNumber = -1 ∨
      (∃ i : Fin numInodes, (fs.handles h).inodeNumber = i.val) ∨
      (numInodes : Int) ≤ (fs.handles h).inodeNumber := by
  apply (hs.number h).imp_right
  rintro ⟨h', hnum⟩
  rw [hnum]
  by_cases hlt : h'.val < numInodes
  · exact Or.inl ⟨⟨h'.val, hlt⟩, rfl⟩
  · right
    omega

theorem Sound.size_le {fs : Fs} (hs : Sound fs) (i : Fin numInodes) :
    0 ≤ (fs.inode i).fileSize ∧ (fs.inode i).fileSize ≤ blocksize * maxFileSize := by
  have hle := blocksInUse_le (fs.inode i)
  rw [hs.size i]
  unfold blocksize maxFileSize
  omega

theorem Sound.freeable {fs : Fs} (hs : Sound fs) (i : Fin numInodes) :
    Freeable (fs.inode i).directBlocks (List.finRange maxFileSize)
      fs.super.datablockFreelist where
  marked k _ := by
    apply (hs.entry i k).imp_right
    rintro ⟨b, hb⟩
    exact ⟨b, hb, hs.referenced i k b hb⟩
  single k _ k' _ hne heq := by
    obtain hnone | ⟨b, hb⟩ := hs.entry i k
    · exact absurd hnone hne
    · exact (hs.single i k i k' b hb (heq.symm.trans hb)).2

theorem exists_block {o : Int} (hnonneg : 0 ≤ o) (hlt : o < blocksize * maxFileSize) :
    ∃ k : Fin maxFileSize, o / blocksize = k.val := by
  unfold blocksize maxFileSize at hlt
  refine ⟨⟨(o / blocksize).toNat, ?_⟩, ?_⟩ <;> unfold blocksize
  · unfold maxFileSize
    omega
  · dsimp only
    omega

def Touches (start o : Int) (k : Fin maxFileSize) : Prop :=
  start < o ∧ start < blocksize * (k.val + 1) ∧ (blocksize * k.val : Int) < o

instance (start o : Int) (k : Fin maxFileSize) : Decidable (Touches start o k) :=
  inferInstanceAs (Decidable (_ ∧ _))

theorem touches_advance {start o o' : Int} {k : Fin maxFileSize} (hstart : start ≤ o)
    (hk : o / blocksize = k.val) (ho : o < o') (hend : o' ≤ blocksize * (k.val + 1))
    (k' : Fin maxFileSize) : Touches start o' k' ↔ Touches start o k' ∨ k' = k := by
  unfold blocksize at hk hend
  rw [Fin.ext_iff]
  unfold Touches blocksize
  omega

/-! ## A formatted disk -/

theorem pread_formatInodes_super (inode : Inode) (file : ByteFile) (is : List (Fin numInodes))
    (hlen : 64 ≤ file.length) : (formatInodes inode file is).pread 0 64 = file.pread 0 64 := by
  induction is generalizing file with
  | nil => rfl
  | cons i is ih =>
      unfold formatInodes
      rw [ih _ (Nat.le_trans hlen (Nat.le_max_left _ _)),
        ByteFile.pread_pwrite_of_disjoint (Or.inl (by simp [blocksize])) (by omega)]

theorem pread_formatInodes (inode : Inode) (file : ByteFile) (is : List (Fin numInodes))
    (i : Fin numInodes)
    (hi : i ∈ is ∨ 64 + i * 32 + 32 ≤ file.length ∧
      file.pread (64 + i * 32) 32 = inode.encode) :
    (formatInodes inode file is).pread (64 + i * 32) 32 = inode.encode := by
  induction is generalizing file with
  | nil => exact (hi.resolve_left List.not_mem_nil).2
  | cons j is ih =>
      unfold formatInodes
      apply ih
      by_cases hij : i = j
      · -- written in this round
        subst hij
        right
        rw [ByteFile.length_pwrite, Inode.length_encode]
        exact ⟨Nat.le_max_right _ _, ByteFile.pread_pwrite_self (by simp)⟩
      · rcases hi with hmem | ⟨hlen, hread⟩
        · exact Or.inl ((List.mem_cons.mp hmem).resolve_left hij)
        · right
          have hne : i.val ≠ j.val := fun heq => hij (Fin.ext heq)
          refine ⟨Nat.le_trans hlen (Nat.le_max_left _ _), ?_⟩
          rw [ByteFile.pread_pwrite_of_disjoint _ hlen, hread]
          rw [Inode.length_encode]
          unfold blocksize
          omega

theorem super_formatDisk (junk : Nat → UInt8) :
    (formatDisk junk).super = formatSuperblock junk := by
  unfold Fs.super formatDisk formatFile
  dsimp only
  rw [pread_formatInodes_super _ _ _ (by simp), ByteFile.pread_pwrite_self (by simp)]
  exact Superblock.decode_encode_append _ _

theorem inode_formatDisk (junk : Nat → UInt8) (i : Fin numInodes) :
    (formatDisk junk).inode i = formatInode fun k => junk (26 + k) := by
  unfold Fs.inode formatDisk formatFile
  dsimp only
  rw [pread_formatInodes _ _ _ i (Or.inl (List.mem_finRange i))]
  apply Inode.decode_encode
  exact ⟨show IsInt free.toNat by decide, show IsInt 0 by decide,
    fun _ => show IsInt (-1) by decide⟩

theorem sound_formatDisk (junk : Nat → UInt8) : Sound (formatDisk junk) := by
  have hnone : ∀ i k, ((formatDisk junk).inode i).directBlocks k = -1 := by
    intro i k
    rw [inode_formatDisk]
    rfl
  have hfree : ∀ b, (formatDisk junk).Free b := by
    intro b
    rw [Fs.Free, super_formatDisk]
    rfl
  constructor
  · exact fun i k => Or.inl (hnone i k)
  · intro i k b hb
    have hk := hnone i k
    omega
  · intro i k i' k' b hb
    have hk := hnone i k
    omega
  · intro i
    rw [blocksInUse_eq_zero (hnone i), inode_formatDisk]
    rfl
  · exact fun h hopen => absurd rfl hopen
  · exact fun h => Or.inl rfl
  · exact fun b => Or.inl (hfree b)
  · exact fun b hb => absurd hb (hfree b).not_used

end Os20.Ssufs
