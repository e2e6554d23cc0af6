import Os20.Lib.Pieces
import Os20.Ssufs.Holes
import Os20.Ssufs.Lookup

/-!
# Files as byte arrays

The content of a file is what its blocks hold, one after the other.  `ssufs_read` takes it for
an array of bytes: all that is asked for lies in it and is copied, or nothing is.
-/

namespace Os20.Ssufs

open Os20.Lib.Pieces

/-- The bytes that an entry of an inode refers to. -/
def Fs.entryBytes (fs : Fs) (n : Int) : List UInt8 :=
  if hn : 0 ≤ n ∧ n < numDataBlocks then List.ofFn (fs.block ⟨n.toNat, by omega⟩) else []

def Fs.content (fs : Fs) (inode : Inode) : List UInt8 :=
  joined fun k => fs.entryBytes (inode.directBlocks k)

/-- The file has all blocks up to `file_size` and no other. -/
structure Inode.Dense (inode : Inode) : Prop where
  present : ∀ k, inode.directBlocks k ≠ -1 ↔ (k.val : Int) < inode.fileSize / blocksize
  entry : ∀ k, inode.directBlocks k = -1 ∨
    ∃ b : Fin numDataBlocks, inode.directBlocks k = b.val
  multiple : (blocksize : Int) ∣ inode.fileSize
  size_le : inode.fileSize ≤ blocksize * maxFileSize

variable {fs fs' : Fs} {h : Handle} {i : Fin numInodes} {inode : Inode} {o nbytes : Int}
  {bytes : List UInt8}

theorem entryBytes_none (fs : Fs) : fs.entryBytes (-1) = [] := rfl

theorem entryBytes_block (fs : Fs) (b : Fin numDataBlocks) :
    fs.entryBytes b.val = List.ofFn (fs.block b) := by
  have hb := b.isLt
  rw [Fs.entryBytes, dif_pos (by omega)]
  rfl

namespace Inode.Dense

theorem even (hd : inode.Dense) (fs : Fs) :
    Even (fun k => fs.entryBytes (inode.directBlocks k)) blocksize
      (inode.fileSize / blocksize).toNat := by
  intro k
  dsimp only
  have hpresent := hd.present k
  rcases hd.entry k with hnone | ⟨b, hb⟩
  · rw [hnone, entryBytes_none, if_neg]
    · rfl
    · have hge := mt hpresent.mpr (not_not.mpr hnone)
      omega
  · rw [hb, entryBytes_block, List.length_ofFn, if_pos]
    have hlt := hpresent.mp (by omega)
    omega

theorem length_content (hd : inode.Dense) (fs : Fs) :
    (fs.content inode).length = inode.fileSize.toNat := by
  have hmultiple := hd.multiple
  have hsize := hd.size_le
  unfold blocksize maxFileSize at *
  rw [Fs.content, Lib.Pieces.length_joined (hd.even fs) (by unfold blocksize maxFileSize; omega)]
  unfold blocksize
  omega

theorem getD_content (hd : inode.Dense) (fs : Fs) {k : Fin maxFileSize} {b : Fin numDataBlocks}
    (hb : inode.directBlocks k = b.val) (q : Fin blocksize) :
    (fs.content inode).getD (blocksize * k.val + q.val) 0 = fs.block b q := by
  have hlt := (hd.present k).mp (by omega)
  rw [Fs.content, getD_joined (hd.even fs) k (by omega) q.isLt, hb, entryBytes_block,
    List.getD_eq_getElem _ _ (by simp), List.getElem_ofFn]

theorem exists_entry (hd : inode.Dense) {p : Nat} (hp : (p : Int) < inode.fileSize) :
    ∃ (k : Fin maxFileSize) (b : Fin numDataBlocks) (q : Fin blocksize),
      p = blocksize * k.val + q.val ∧ inode.directBlocks k = b.val := by
  have hmultiple := hd.multiple
  obtain ⟨k, hk⟩ := exists_block (o := p) (by omega) (hp.trans_le hd.size_le)
  unfold blocksize at hk hmultiple
  obtain ⟨b, hb⟩ := (hd.entry k).resolve_left ((hd.present k).mpr (by unfold blocksize; omega))
  refine ⟨k, b, ⟨p % 64, Nat.mod_lt _ (by decide)⟩, ?_, hb⟩
  change p = 64 * k.val + p % 64
  omega

theorem fileSize_eq (hd : inode.Dense) (hnonneg : 0 ≤ inode.fileSize) :
    inode.fileSize = blocksize * blocksInUse inode := by
  have hmultiple := hd.multiple
  have hsize := hd.size_le
  have hcount := blocksInUse_le inode
  have hiff (k : Fin maxFileSize) :
      (k.val : Int) < inode.fileSize / blocksize ↔ k.val < blocksInUse inode := by
    rw [← hd.present k]
    refine ne_none_iff_lt (fun k k' hle hk => ?_) k
    rw [hd.present] at hk ⊢
    omega
  unfold blocksize maxFileSize at *
  by_contra hne
  rcases lt_or_gt_of_ne (show inode.fileSize / 64 ≠ blocksInUse inode by omega) with hlt | hgt
  · have hself := (hiff ⟨(inode.fileSize / 64).toNat, by omega⟩).mpr (by dsimp only; omega)
    dsimp only at hself
    omega
  · have hself := (hiff ⟨blocksInUse inode, by omega⟩).mp hgt
    exact lt_irrefl _ hself

end Inode.Dense

theorem Fetched.eq_content (hd : inode.Dense) (hf : Fetched fs inode o bytes) (hnonneg : 0 ≤ o)
    (hend : o + bytes.length ≤ inode.fileSize) :
    bytes = ((fs.content inode).drop o.toNat).take bytes.length := by
  have hlength := hd.length_content fs
  apply List.ext_getElem
  · rw [List.length_take, List.length_drop, hlength]
    omega
  · intro p hp hp'
    obtain ⟨k, b, q, hpos, hb⟩ := hd.exists_entry (p := o.toNat + p) (by omega)
    have hbyte := hf p hp k b q (by omega) hb
    rw [List.getD_eq_getElem _ _ hp] at hbyte
    have hcontent := hd.getD_content fs hb q
    rw [← hpos, List.getD_eq_getElem _ _ (by omega)] at hcontent
    rw [List.getElem_take, List.getElem_drop, hbyte, hcontent]

/-! ## Reading -/

/-- `ssufs_read` with something else in place of the return inside its loop. -/
def readElse (onFail : List UInt8 → M (Int × List UInt8)) (fileHandle : Handle) (nbytes : Int) :
    M (Int × List UInt8) := do
  let handler ← getHandle fileHandle
  if handler.inodeNumber = -1 then return (-1, [])
  let inode ← readInode handler.inodeNumber
  if inode.fileSize < nbytes then return (-1, [])
  if blocksize * blocksInUse inode - handler.offset < nbytes then return (-1, [])
  readLoopElse onFail fileHandle inode nbytes nbytes.toNat []

theorem readElse_return (fileHandle : Handle) (nbytes : Int) :
    readElse (fun buf => return (-1, buf)) fileHandle nbytes = read fileHandle nbytes := by
  unfold readElse read
  simp only [readLoopElse_return]

theorem readElse_inside (hd : (fs.inode i).Dense)
    (hhas : ∀ k (b : Fin numDataBlocks), (fs.inode i).directBlocks k = b.val → fs.Has b)
    (hnum : (fs.handles h).inodeNumber = i.val) (hnonneg : 0 ≤ (fs.handles h).offset)
    (hbytes : 0 ≤ nbytes) (hend : (fs.handles h).offset + nbytes ≤ (fs.inode i).fileSize) :
    ∃ fs' bytes, (∀ onFail, readElse onFail h nbytes fs = .ok (0, bytes) fs') ∧
      (bytes.length : Int) = nbytes ∧
      bytes = ((fs.content (fs.inode i)).drop (fs.handles h).offset.toNat).take nbytes.toNat ∧
      Reading fs h (fs.inode i) ((fs.handles h).offset + nbytes) fs' := by
  have hsize := hd.fileSize_eq (by omega)
  have hentry (k : Fin maxFileSize) : (fs.inode i).directBlocks k = -1 ∨
      ∃ b : Fin numDataBlocks, (fs.inode i).directBlocks k = b.val ∧ fs.Has b :=
    (hd.entry k).imp_right fun ⟨b, hb⟩ => ⟨b, hb, hhas k b hb⟩
  obtain ⟨fs', bytes, hrun, hread, hlength, hfetched⟩ := readLoopElse_run nbytes nbytes.toNat
    (fs.handles h).offset [] hnum rfl hentry hd.size_le hnonneg le_rfl
    (by rw [List.length_nil]; omega) (by rw [List.length_nil]; omega)
    (by rw [List.length_nil]; omega) .start
  rw [show nbytes - (([] : List UInt8).length : Int) = nbytes by simp] at hread hlength
  refine ⟨fs', bytes, fun onFail => ?_, hlength, ?_, hread⟩
  · unfold readElse
    rw [bind_ok (getHandle_run h), if_neg (by omega), bind_ok (readInode_run hnum),
      if_neg (by omega), if_neg (by omega)]
    exact hrun onFail
  · rw [show nbytes.toNat = bytes.length by omega]
    exact hfetched.eq_content hd hnonneg (by omega)

theorem readElse_beyond (hd : (fs.inode i).Dense)
    (hnum : (fs.handles h).inodeNumber = i.val) (hnonneg : 0 ≤ (fs.handles h).offset)
    (hinside : (fs.handles h).offset ≤ (fs.inode i).fileSize)
    (hend : (fs.inode i).fileSize < (fs.handles h).offset + nbytes)
    (onFail : List UInt8 → M (Int × List UInt8)) :
    readElse onFail h nbytes fs = .ok (-1, []) fs := by
  have hsize := hd.fileSize_eq (by omega)
  unfold readElse
  rw [bind_ok (getHandle_run h), if_neg (by omega), bind_ok (readInode_run hnum)]
  split
  · rfl
  · rw [if_pos (by omega)]
    rfl

/-- `ssufs_read` on a file without holes: it copies the bytes from the offset on and moves the
offset, or returns -1 and does nothing.  The return inside its loop is never taken. -/
theorem read_flat (hd : (fs.inode i).Dense)
    (hhas : ∀ k (b : Fin numDataBlocks), (fs.inode i).directBlocks k = b.val → fs.Has b)
    (hnum : (fs.handles h).inodeNumber = i.val) (hnonneg : 0 ≤ (fs.handles h).offset)
    (hinside : (fs.handles h).offset ≤ (fs.inode i).fileSize) (hbytes : 0 ≤ nbytes) :
    ((fs.handles h).offset + nbytes ≤ (fs.inode i).fileSize →
      ∃ fs' bytes, read h nbytes fs = .ok (0, bytes) fs' ∧ (bytes.length : Int) = nbytes ∧
        bytes = ((fs.content (fs.inode i)).drop (fs.handles h).offset.toNat).take nbytes.toNat ∧
        fs'.disk = fs.disk ∧
        fs'.handles = Function.update fs.handles h ⟨(fs.handles h).offset + nbytes, i.val⟩) ∧
    ((fs.inode i).fileSize < (fs.handles h).offset + nbytes →
      read h nbytes fs = .ok (-1, []) fs) ∧
    ∀ onFail, readElse onFail h nbytes fs = read h nbytes fs := by
  rw [← readElse_return]
  by_cases hend : (fs.handles h).offset + nbytes ≤ (fs.inode i).fileSize
  · obtain ⟨fs', bytes, hrun, hlength, hcontent, hread⟩ :=
      readElse_inside hd hhas hnum hnonneg hbytes hend
    refine ⟨fun _ => ⟨fs', bytes, hrun _, hlength, hcontent, hread.disk, ?_⟩,
      fun hbeyond => absurd hend (not_le.mpr hbeyond), fun onFail => ?_⟩
    · rw [hread.handles, hnum]
    · rw [hrun, hrun]
  · have hbeyond := readElse_beyond hd hnum hnonneg hinside (not_le.mp hend)
    refine ⟨fun hle => absurd hle hend, fun _ => hbeyond _, fun onFail => ?_⟩
    rw [hbeyond, hbeyond]

/-- Half a block behind the first half. -/
theorem read_flat_half :
    ∃ fs fs' bytes, system.Reachable fs ∧ (fs.handles 0).offset = 32 ∧
      read 0 32 fs = .ok (0, bytes) fs' ∧ bytes.length = 32 ∧
      bytes = ((fs.content (fs.inode 0)).drop 32).take 32 := by
  obtain ⟨fs, hreach, htest⟩ := system.exists_reachable_of_run
    [.create fileA, .open fileA, .write 0 (List.replicate 64 7) 64 (by simp), .lseek 0 (-32)]
    (fun fs => decide ((fs.handles 0).inodeNumber = 0 ∧ (fs.handles 0).offset = 32 ∧
      (fs.inode 0).fileSize = 64 ∧ ∀ k : Fin maxFileSize,
        (fs.inode 0).directBlocks k ≠ -1 ↔ (k.val : Int) < 1))
    ⟨fun _ => 0, rfl⟩ (by decide +kernel)
  obtain ⟨hnum, hoffset, hsize, hpresent⟩ := of_decide_eq_true htest
  have hs := sound hreach
  have hd : (fs.inode 0).Dense :=
    ⟨by rw [hsize]; exact hpresent, hs.entry 0, by rw [hsize]; decide, by rw [hsize]; decide⟩
  have hinside : 0 ≤ (fs.handles 0).offset ∧ (fs.handles 0).offset ≤ (fs.inode 0).fileSize := by
    rw [hoffset, hsize]
    decide
  have hend : (fs.handles 0).offset + 32 ≤ (fs.inode 0).fileSize := by
    rw [hoffset, hsize]
    decide
  have hbytes : (0 : Int) ≤ 32 := by decide
  obtain ⟨fs', bytes, hrun, hlength, hcontent, -⟩ :=
    (read_flat hd (fun k b hb => hs.has b (hs.referenced 0 k b hb)) hnum hinside.1 hinside.2
      hbytes).1 hend
  rw [hoffset] at hcontent
  exact ⟨fs, fs', bytes, hreach, hoffset, hrun, Int.ofNat.inj hlength, hcontent⟩

end Os20.Ssufs
