import Os20.Ssufs.Contents
import Os20.Ssufs.Deletion

/-!
# Writing to a byte array

On a disk without holes `ssufs_write` replaces bytes of the content, which it first extends by
zeros to the end of the last block it needs.
-/

namespace Os20.Ssufs

open Os20.Lib.Pieces

/-- `content`, extended by zeros to `size` bytes, with `bytes` put in at `offset`. -/
def overwrite (content : List UInt8) (size offset : Nat) (bytes : List UInt8) : List UInt8 :=
  let extended := content ++ List.replicate (size - content.length) 0
  extended.take offset ++ bytes ++ extended.drop (offset + bytes.length)

/-- All files are without holes and share no blocks. -/
structure FlatDisk (fs : Fs) : Prop where
  dense : ∀ i, (fs.inode i).Dense
  marked : Marked fs
  /-- A block in a file has been written. -/
  written : ∀ i k (b : Fin numDataBlocks), (fs.inode i).directBlocks k = b.val → fs.Has b

def blocksFor (n : Int) : Int := (n + 63) / blocksize

/-- The result of a write of `bytes` through `h` on inode `i`. -/
structure FlatWritten (fs : Fs) (h : Handle) (i : Fin numInodes) (bytes : List UInt8) (fs' : Fs) :
    Prop where
  fileSize : (fs'.inode i).fileSize = max (fs.inode i).fileSize
    (blocksize * blocksFor ((fs.handles h).offset + bytes.length))
  content : fs'.content (fs'.inode i) = overwrite (fs.content (fs.inode i))
    (fs'.inode i).fileSize.toNat (fs.handles h).offset.toNat bytes
  handles : fs'.handles =
    Function.update fs.handles h ⟨(fs.handles h).offset + bytes.length, i.val⟩
  otherInodes : ∀ j, j ≠ i → fs'.inode j = fs.inode j
  otherContents : ∀ j, j ≠ i → fs'.content (fs'.inode j) = fs.content (fs.inode j)
  flat : FlatDisk fs'

section Overwrite

variable {content bytes : List UInt8} {size offset p : Nat}

theorem length_overwrite (hcontent : content.length ≤ size)
    (hbytes : offset + bytes.length ≤ size) :
    (overwrite content size offset bytes).length = size := by
  simp only [overwrite, List.length_append, List.length_take, List.length_drop,
    List.length_replicate]
  omega

theorem getD_extended (content : List UInt8) (n p : Nat) :
    (content ++ List.replicate n 0).getD p 0 = content.getD p 0 := by
  by_cases hp : p < content.length
  · rw [List.getD_append _ _ _ _ hp]
  · rw [List.getD_append_right _ _ _ _ (not_lt.mp hp), List.getD_eq_getElem?_getD,
      List.getElem?_getD_replicate_default_eq, List.getD_eq_default _ _ (not_lt.mp hp)]

theorem getD_overwrite (hcontent : content.length ≤ size)
    (hbytes : offset + bytes.length ≤ size) :
    (overwrite content size offset bytes).getD p 0 =
      if offset ≤ p ∧ p < offset + bytes.length then bytes.getD (p - offset) 0
      else content.getD p 0 := by
  rw [← getD_extended content (size - content.length) p]
  unfold overwrite
  generalize hextended : content ++ List.replicate (size - content.length) 0 = extended
  have hlength : extended.length = size := by
    rw [← hextended, List.length_append, List.length_replicate]
    omega
  have htake : (extended.take offset).length = offset := by
    rw [List.length_take]
    omega
  dsimp only
  by_cases hbefore : p < offset
  · rw [if_neg (by omega), List.getD_append _ _ _ _ (by rw [List.length_append]; omega),
      List.getD_append _ _ _ _ (by omega), List.getD_eq_getElem?_getD,
      List.getElem?_take_of_lt hbefore, List.getD_eq_getElem?_getD]
  · by_cases hinside : p < offset + bytes.length
    · rw [if_pos (by omega), List.getD_append _ _ _ _ (by rw [List.length_append]; omega),
        List.getD_append_right _ _ _ _ (by omega), htake]
    · rw [if_neg (by omega), List.getD_append_right _ _ _ _ (by rw [List.length_append]; omega),
        List.length_append, htake, List.getD_eq_getElem?_getD, List.getElem?_drop,
        Nat.add_sub_of_le (not_lt.mp hinside), List.getD_eq_getElem?_getD]

end Overwrite

/-! ## The disk condition -/

variable {fs fs' : Fs} {h : Handle} {i : Fin numInodes} {ino : Inode} {nbytes : Int}
  {k : Fin maxFileSize}

/-- Runs that leave no holes stay among these disks. -/
theorem NoHoles.flatDisk (hs : Sound fs) (hn : NoHoles fs) : FlatDisk fs where
  dense i := ⟨hn.initial i, hs.entry i, hs.size i ▸ Int.dvd_mul_right _ _, (hs.size_le i).2⟩
  marked := hs.marked
  written i k b hb := hs.has b (hs.referenced i k b hb)

theorem FlatDisk.tidy (hd : FlatDisk fs) (hnonneg : 0 ≤ (fs.inode i).fileSize) : Tidy fs i where
  entry := (hd.dense i).entry
  referenced j k b hb := by
    obtain ⟨c, hc, hused⟩ := (hd.marked.entry j k).resolve_left (by omega)
    obtain rfl : b = c := Fin.ext (by omega)
    exact hused
  single k j k' b hb hb' := hd.marked.single i k j k' (by omega) (hb.trans hb'.symm)
  size := (hd.dense i).fileSize_eq hnonneg
  has := hd.written i

/-! ## The blocks that are missing -/

theorem Writing.entry_iff (hw : Writing fs h i (fs.stop h nbytes) ino fs') (k : Fin maxFileSize) :
    ino.directBlocks k ≠ -1 ↔
      (fs.inode i).directBlocks k ≠ -1 ∨ k ∈ fs.missing h i nbytes := by
  rw [Fs.mem_missing]
  constructor
  · intro hsome
    by_cases hold : (fs.inode i).directBlocks k = -1
    · exact .inr ⟨(hw.fresh k hold hsome).1, hold⟩
    · exact .inl hold
  · rintro (hold | ⟨htouched, -⟩)
    · rwa [hw.kept k hold]
    · exact hw.filled k htouched

section Missing

variable (hd : (fs.inode i).Dense) (hinside : (fs.handles h).offset ≤ (fs.inode i).fileSize)
  (hbytes : 0 ≤ nbytes)

include hd hinside hbytes

/-- What is missing follows on the blocks of the file. -/
theorem mem_missing_iff (k : Fin maxFileSize) : k ∈ fs.missing h i nbytes ↔
    (fs.inode i).fileSize / blocksize ≤ k.val ∧
      k.val < blocksFor ((fs.handles h).offset + nbytes) := by
  have hmultiple := hd.multiple
  have hpresent : (fs.inode i).directBlocks k = -1 ↔
      ¬(k.val : Int) < (fs.inode i).fileSize / blocksize := by
    rw [← hd.present k, not_not]
  rw [Fs.mem_missing, hpresent]
  unfold Touches Fs.stop blocksFor blocksize at *
  omega

theorem card_missing (hnonneg : 0 ≤ (fs.handles h).offset)
    (hspace : (fs.handles h).offset + nbytes ≤ 256) : ((fs.missing h i nbytes).card : Int) =
      max 0 (blocksFor ((fs.handles h).offset + nbytes) - (fs.inode i).fileSize / blocksize) := by
  have hsize := hd.size_le
  have hcount : ∀ a b : Fin 5, (Finset.univ.filter fun k : Fin maxFileSize =>
      a.val ≤ k.val ∧ k.val < b.val).card = b.val - a.val := by decide
  have hmem := mem_missing_iff hd hinside hbytes
  generalize hstop : blocksFor ((fs.handles h).offset + nbytes) = stop at hmem ⊢
  generalize hblocks : (fs.inode i).fileSize / blocksize = blocks at hmem ⊢
  unfold blocksFor blocksize maxFileSize at *
  have hfilter : fs.missing h i nbytes =
      Finset.univ.filter fun k : Fin maxFileSize => blocks.toNat ≤ k.val ∧ k.val < stop.toNat := by
    ext k
    rw [hmem, Finset.mem_filter]
    simp only [Finset.mem_univ, true_and]
    omega
  have hcard := hcount ⟨blocks.toNat, by omega⟩ ⟨stop.toNat, by omega⟩
  dsimp only at hcard
  rw [hfilter, hcard]
  omega

end Missing

/-! ## The state after the write -/

theorem content_putInode (fs : Fs) (i : Fin numInodes) (ino inode : Inode) :
    (fs.putInode i ino).content inode = fs.content inode := by
  unfold Fs.content Fs.entryBytes
  rw [Fs.block_putInode]

section Written

variable (hd : FlatDisk fs) (hw : Writing fs h i (fs.stop h nbytes) ino fs')
  (hnonneg : 0 ≤ (fs.handles h).offset) (hinside : (fs.handles h).offset ≤ (fs.inode i).fileSize)
  (hbytes : 0 ≤ nbytes) (hspace : (fs.handles h).offset + nbytes ≤ 256)

include hd hw hnonneg hinside hbytes hspace

theorem fileSize_written : ino.fileSize = max (fs.inode i).fileSize
    (blocksize * blocksFor ((fs.handles h).offset + nbytes)) := by
  have hcard := card_missing (hd.dense i) hinside hbytes hnonneg hspace
  have hold := (hd.dense i).fileSize_eq (by omega)
  have hcount := hw.blocksInUse_eq
  rw [hw.size, hcount]
  unfold blocksize at *
  omega

theorem dense_written : ino.Dense where
  present k := by
    have hmultiple := (hd.dense i).multiple
    rw [hw.entry_iff, (hd.dense i).present, mem_missing_iff (hd.dense i) hinside hbytes,
      fileSize_written hd hw hnonneg hinside hbytes hspace]
    unfold blocksize at *
    omega
  entry := hw.entry (hd.tidy (by omega))
  multiple := by
    rw [hw.size]
    exact Int.dvd_mul_right _ _
  size_le := by
    have hle := blocksInUse_le ino
    rw [hw.size]
    unfold blocksize maxFileSize
    omega

end Written

theorem content_other (hd : FlatDisk fs) (hnonneg : 0 ≤ (fs.inode i).fileSize)
    {o : Int} (hw : Writing fs h i o ino fs') {j : Fin numInodes} (hj : j ≠ i) :
    fs'.content (fs.inode j) = fs.content (fs.inode j) := by
  unfold Fs.content
  refine congrArg joined (funext fun k => ?_)
  rcases (hd.dense j).entry k with hnone | ⟨b, hb⟩
  · rw [hnone, entryBytes_none, entryBytes_none]
  · rw [hb, entryBytes_block, entryBytes_block, hw.block b (hd.written j k b hb)]
    intro k' hk'
    exact hw.entry_ne_other (hd.tidy hnonneg) hk' hj k hb

theorem flatDisk_written (hd : FlatDisk fs) (hnonneg : 0 ≤ (fs.inode i).fileSize) {o : Int}
    (hw : Writing fs h i o ino fs') (hdense : ino.Dense) : FlatDisk (fs'.putInode i ino) := by
  have ht := hd.tidy hnonneg
  have hinode : (fs'.putInode i ino).inode = Function.update fs.inode i ino := by
    rw [Fs.inode_putInode (hw.fits ht), hw.inode]
  have hself : (fs'.putInode i ino).inode i = ino := by rw [hinode, Function.update_self]
  have hother {j : Fin numInodes} (hj : j ≠ i) : (fs'.putInode i ino).inode j = fs.inode j := by
    rw [hinode, Function.update_of_ne hj]
  have hused (b : Fin numDataBlocks) : (fs'.putInode i ino).Used b ↔ fs'.Used b := by
    rw [Fs.Used, Fs.super_putInode]
    rfl
  refine ⟨fun j => ?_, ⟨fun j k => ?_, fun j k j' k' hne heq => ?_⟩, fun j k b hb => ?_⟩
  · by_cases hj : j = i
    · rwa [hj, hself]
    · rw [hother hj]
      exact hd.dense j
  · by_cases hj : j = i
    · rw [hj, hself]
      exact (hw.entry ht k).imp_right <|
        Exists.imp fun b hb => ⟨hb, (hused b).mpr (hw.used_entry ht hb)⟩
    · rw [hother hj]
      exact (hd.marked.entry j k).imp_right <|
        Exists.imp fun b => And.imp_right fun hb => (hused b).mpr (hw.used_of_used hb)
  · by_cases hj : j = i <;> by_cases hj' : j' = i
    · rw [hj, hself] at hne heq
      rw [hj', hself] at heq
      exact ⟨hj.trans hj'.symm, hw.distinct k k' hne heq⟩
    · rw [hj, hself] at hne heq
      rw [hother hj'] at heq
      obtain ⟨b, hb⟩ := (hw.entry ht k).resolve_left hne
      exact absurd (heq.symm.trans hb) (hw.entry_ne_other ht hb hj' k')
    · rw [hother hj] at hne heq
      rw [hj', hself] at heq
      obtain ⟨b, hb⟩ := ((hd.dense j).entry k).resolve_left hne
      exact absurd hb (hw.entry_ne_other ht (heq.symm.trans hb) hj k)
    · rw [hother hj] at hne heq
      rw [hother hj'] at heq
      exact hd.marked.single j k j' k' hne heq
  · rw [Fs.has_putInode]
    by_cases hj : j = i
    · rw [hj, hself] at hb
      exact hw.hasEntry k b hb
    · rw [hother hj] at hb
      exact hw.has b (hd.written j k b hb)

theorem content_written (hd : (fs.inode i).Dense) {ino : Inode} (hdense : ino.Dense)
    (hw : Writing fs h i (fs.stop h nbytes) ino fs') {buf : List UInt8}
    (hst : Stores fs h i buf (fs.stop h nbytes) ino fs') (hnonneg : 0 ≤ (fs.handles h).offset)
    (hbytes : 0 ≤ nbytes) (hbuf : nbytes ≤ buf.length)
    (hsize : (fs.inode i).fileSize ≤ ino.fileSize)
    (hend : (fs.handles h).offset + nbytes ≤ ino.fileSize) :
    fs'.content ino = overwrite (fs.content (fs.inode i)) ino.fileSize.toNat
      (fs.handles h).offset.toNat (buf.take nbytes.toNat) := by
  have hlength := hd.length_content fs
  have hlength' := hdense.length_content fs'
  have htake : (buf.take nbytes.toNat).length = nbytes.toNat := by
    rw [List.length_take]
    omega
  have hcontent : (fs.content (fs.inode i)).length ≤ ino.fileSize.toNat := by omega
  have hfits : (fs.handles h).offset.toNat + (buf.take nbytes.toNat).length ≤
      ino.fileSize.toNat := by omega
  have hlength'' := length_overwrite hcontent hfits
  apply List.ext_getElem
  · rw [hlength', hlength'']
  · intro p hp hp'
    rw [← List.getD_eq_getElem _ 0 hp, ← List.getD_eq_getElem _ 0 hp',
      getD_overwrite hcontent hfits, htake]
    obtain ⟨k, b, q, rfl, hb⟩ := hdense.exists_entry (p := p) (by omega)
    have hmultiple := hd.multiple
    rw [hdense.getD_content fs' hb q, hst k b hb q, storedByte, Fs.stop, max_eq_left hbytes]
    have hcond : (fs.handles h).offset.toNat ≤ blocksize * k.val + q.val ∧
          blocksize * k.val + q.val < (fs.handles h).offset.toNat + nbytes.toNat ↔
        (fs.handles h).offset ≤ blocksize * k.val + q.val ∧
          (blocksize * k.val + q.val : Int) < (fs.handles h).offset + nbytes := by
      unfold blocksize
      omega
    by_cases hnew : (fs.handles h).offset ≤ blocksize * k.val + q.val ∧
        (blocksize * k.val + q.val : Int) < (fs.handles h).offset + nbytes
    · have hindex : (blocksize * k.val + q.val - (fs.handles h).offset : Int).toNat =
          blocksize * k.val + q.val - (fs.handles h).offset.toNat := by
        unfold blocksize
        omega
      rw [if_pos hnew, if_pos (hcond.mpr hnew), hindex, List.getD_eq_getElem?_getD,
        List.getD_eq_getElem?_getD, List.getElem?_take_of_lt (by omega)]
    · rw [if_neg hnew, if_neg (mt hcond.mp hnew)]
      by_cases hold : (fs.inode i).directBlocks k = -1
      · -- behind the old end
        have hbeyond := mt (hd.present k).mpr (not_not.mpr hold)
        unfold blocksize at hbeyond hmultiple ⊢
        rw [if_pos hold, List.getD_eq_default _ _ (by omega)]
      · rw [hw.kept k hold] at hb
        rw [if_neg hold]
        exact (hd.getD_content fs hb q).symm

/-! ## The call -/

/-- `ssufs_write` on a disk without holes: it returns 0 exactly when the bytes fit into the file
and its missing blocks on the disk, and then it has replaced the bytes of the content. -/
theorem write_flat (hd : FlatDisk fs) (hnum : (fs.handles h).inodeNumber = i.val)
    (hnonneg : 0 ≤ (fs.handles h).offset)
    (hinside : (fs.handles h).offset ≤ (fs.inode i).fileSize) (hbytes : 0 ≤ nbytes)
    (buf : List UInt8) (hbuf : nbytes ≤ buf.length) :
    ∃ r fs', write h buf nbytes fs = .ok r fs' ∧
      (r = 0 ↔ (fs.handles h).offset + nbytes ≤ 256 ∧
        max 0 (blocksFor ((fs.handles h).offset + nbytes) - (fs.inode i).fileSize / blocksize) ≤
          fs.freeBlocks.card) ∧
      (r = 0 → FlatWritten fs h i (buf.take nbytes.toNat) fs') := by
  by_cases hspace : (fs.handles h).offset + nbytes ≤ 256
  · have hadmits : fs.Admits h i nbytes := ⟨hnum, by unfold blocksize; omega⟩
    have hcard := card_missing (hd.dense i) hinside hbytes hnonneg hspace
    rw [← hcard]
    have ht := hd.tidy (i := i) (by omega)
    rcases write_run_admitted ht hnonneg hadmits buf with
      ⟨ino, fs', hwritten, hst, hrun⟩ | ⟨o, ino, fs', hex, hrun⟩
    · have hw := hwritten.toWriting
      have hle := hw.card_missing_le
      refine ⟨0, _, hrun, by simp only [true_iff]; omega, fun _ => ?_⟩
      have hdense := dense_written hd hw hnonneg hinside hbytes hspace
      have hsize := fileSize_written hd hw hnonneg hinside hbytes hspace
      have hself : (fs'.putInode i ino).inode i = ino := Fs.inode_putInode_self (hw.fits ht)
      have htake : ((buf.take nbytes.toNat).length : Int) = nbytes := by
        rw [List.length_take]
        omega
      refine ⟨?_, ?_, ?_, ?_, ?_, flatDisk_written hd (by omega) hw hdense⟩
      · rw [hself, htake, hsize]
      · rw [hself, content_putInode]
        exact content_written (hd.dense i) hdense hw hst hnonneg hbytes hbuf
          (hsize ▸ le_max_left _ _) (by unfold blocksFor blocksize at hsize; omega)
      · funext h'
        rw [Fs.handles_putInode, htake]
        by_cases hh : h' = h
        · have hoffset := hwritten.offset
          rw [Fs.stop, max_eq_left hbytes] at hoffset
          rw [hh, Function.update_self, ← hoffset, ← hw.number]
        · rw [Function.update_of_ne hh, hw.others h' hh]
      · intro j hj
        rw [Fs.inode_putInode_of_ne (hw.fits ht) hj, hw.inode]
      · intro j hj
        rw [Fs.inode_putInode_of_ne (hw.fits ht) hj, hw.inode, content_putInode]
        exact content_other hd (by omega) hw hj
    · have hlt := hex.card_lt
      exact ⟨-1, fs', hrun, by omega, fun h => by omega⟩
  · refine ⟨-1, fs, write_run_refused hnum (by unfold blocksize; omega) buf, by omega,
      fun h => by omega⟩

/-- The second half of a block, and a block more. -/
theorem write_flat_append :
    ∃ fs r fs', system.ReachableWhere keepsOffsets fs ∧ (fs.handles 0).offset = 32 ∧
      write 0 (List.replicate 96 9) 96 fs = .ok r fs' ∧
      (r = 0 ↔ (fs.handles 0).offset + 96 ≤ 256 ∧
        max 0 (blocksFor ((fs.handles 0).offset + 96) - (fs.inode 0).fileSize / blocksize) ≤
          fs.freeBlocks.card) ∧
      (r = 0 → FlatWritten fs 0 0 ((List.replicate 96 9).take 96) fs') := by
  obtain ⟨fs, hreach, htest⟩ := system.exists_reachableWhere_of_run keepsOffsets
    [.create fileA, .open fileA, .write 0 (List.replicate 64 7) 64 (by simp), .lseek 0 (-32)]
    (fun fs => decide ((fs.handles 0).inodeNumber = 0 ∧ (fs.handles 0).offset = 32 ∧
      (fs.inode 0).fileSize = 64))
    ⟨fun _ => 0, rfl⟩ (by decide +kernel)
  obtain ⟨hnum, hoffset, hsize⟩ := of_decide_eq_true htest
  have hd := NoHoles.flatDisk (sound hreach.reachable) (noHoles hreach).1
  have hinside : 0 ≤ (fs.handles 0).offset ∧ (fs.handles 0).offset ≤ (fs.inode 0).fileSize := by
    rw [hoffset, hsize]
    decide
  obtain ⟨r, fs', hrun, hiff, hwritten⟩ := write_flat hd hnum hinside.1 hinside.2
    (show (0 : Int) ≤ 96 by decide) (List.replicate 96 9) (by simp)
  exact ⟨fs, r, fs', hreach, hoffset, hrun, hiff, hwritten⟩

/-! ## A disk file that is cut off -/

/-- The file ends behind the inodes. -/
def Fs.cut (fs : Fs) : Fs := { fs with disk := ⟨{ fs.disk.file with length := 320 }, le_rfl⟩ }

theorem pread_cut (fs : Fs) {off n : Nat} (hend : off + n ≤ 320) :
    fs.cut.disk.file.pread off n = fs.disk.file.pread off n := by
  have htables := fs.disk.tables
  have hcount : min n (320 - off) = min n (fs.disk.file.length - off) := by omega
  exact congrArg (fun count => (List.range count).map fun k => fs.disk.file.byte (off + k)) hcount

theorem super_cut (fs : Fs) : fs.cut.super = fs.super :=
  congrArg Superblock.decode (pread_cut fs (by decide))

theorem inode_cut (fs : Fs) : fs.cut.inode = fs.inode := by
  funext i
  have hi : i.val < 8 := i.isLt
  exact congrArg Inode.decode (pread_cut fs (by omega))

theorem Marked.cut (hm : Marked fs) : Marked fs.cut where
  entry i k := by
    simp only [inode_cut, Fs.Used, super_cut]
    exact hm.entry i k
  single i k i' k' := by
    simp only [inode_cut]
    exact hm.single i k i' k'

theorem not_has_cut (fs : Fs) (b : Fin numDataBlocks) : ¬fs.cut.Has b := by
  change ¬64 * (5 + b.val) + 64 ≤ 320
  omega

theorem write_run_short {b : Fin numDataBlocks} (hadmits : fs.Admits h i nbytes)
    (hpos : 0 < nbytes) (hk : (fs.handles h).offset / blocksize = k.val)
    (hb : (fs.inode i).directBlocks k = b.val) (hshort : ¬fs.Has b) (buf : List UInt8) :
    write h buf nbytes fs = .error .shortRead (fs.logged (.read b.val)) := by
  obtain ⟨fuel, hfuel⟩ : ∃ fuel, nbytes.toNat = fuel + 1 := ⟨nbytes.toNat - 1, by omega⟩
  refine write_run_error hadmits ?_
  rw [hfuel]
  exact writeLoop_short hpos hk (.found hb) hshort fuel

/-- One block that is marked, in range and in one file only lies behind the end of the disk
file.  A write of one byte to that file needs no new block, and is stopped by the `assert` in
`ssufs_readDataBlock`. -/
theorem exists_cut :
    ∃ fs, (∀ i, (fs.inode i).Dense) ∧ Marked fs ∧
      (fs.handles 0).inodeNumber = 0 ∧ (fs.handles 0).offset = 0 ∧ (fs.inode 0).fileSize = 64 ∧
      (fs.handles 0).offset + 1 ≤ 256 ∧
      max 0 (blocksFor ((fs.handles 0).offset + 1) - (fs.inode 0).fileSize / blocksize) ≤
        (fs.freeBlocks.card : Int) ∧
      ∃ fs', write 0 [9] 1 fs = .error .shortRead fs' := by
  obtain ⟨fs, hreach, htest⟩ := system.exists_reachableWhere_of_run keepsOffsets
    [.create fileA, .open fileA, .write 0 (List.replicate 64 7) 64 (by simp), .lseek 0 (-64)]
    (fun fs => decide ((fs.handles 0).inodeNumber = 0 ∧ (fs.handles 0).offset = 0 ∧
      (fs.inode 0).fileSize = 64 ∧ (fs.inode 0).directBlocks 0 = 0))
    ⟨fun _ => 0, rfl⟩ (by decide +kernel)
  obtain ⟨hnum, hoffset, hsize, hblock⟩ := of_decide_eq_true htest
  have hd := NoHoles.flatDisk (sound hreach.reachable) (noHoles hreach).1
  have hnum' : (fs.cut.handles 0).inodeNumber = (0 : Fin numInodes).val := hnum
  have hoffset' : (fs.cut.handles 0).offset = 0 := hoffset
  have hsize' : (fs.cut.inode 0).fileSize = 64 := by
    rw [inode_cut]
    exact hsize
  have hblock' : (fs.cut.inode 0).directBlocks 0 = (0 : Fin numDataBlocks).val := by
    rw [inode_cut]
    exact hblock
  have hadmits : fs.cut.Admits 0 0 1 := ⟨hnum', by rw [hoffset']; decide⟩
  have hk : (fs.cut.handles 0).offset / blocksize = (0 : Fin maxFileSize).val := by
    rw [hoffset']
    rfl
  have hrun := write_run_short hadmits (by decide) hk hblock' (not_has_cut fs 0) [9]
  refine ⟨fs.cut, fun i => ?_, hd.marked.cut, hnum', hoffset', hsize', ?_, ?_, _, hrun⟩
  · rw [inode_cut]
    exact hd.dense i
  · rw [hoffset']
    decide
  · have hnothing : max 0 (blocksFor (0 + 1) - 64 / blocksize) = 0 := by decide
    rw [hsize', hoffset', hnothing]
    exact Int.natCast_nonneg _

end Os20.Ssufs
