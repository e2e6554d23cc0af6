import Os20.Ssufs.Sound

/-!
# `ssufs_lseek` and `ssufs_read`

A read that passes its two tests stays inside the file and succeeds.  It may come upon
the number -1 in a file with a hole, and then reads the inode table.
-/

namespace Os20.Ssufs

variable {fs fs' : Fs} {h : Handle} {i : Fin numInodes}

/-- The position after `ssufs_lseek` and `ssufs_read`. -/
def Fs.seek (fs : Fs) (h : Handle) (o : Int) : Fs :=
  fs.putHandle h ⟨o, (fs.handles h).inodeNumber⟩

theorem Fs.offset_seek (fs : Fs) (h : Handle) (o : Int) : ((fs.seek h o).handles h).offset = o := by
  rw [Fs.seek, Fs.handles_putHandle, Function.update_self]

/-! ## Seeking -/

theorem lseek_run (nseek : Int) (hnum : (fs.handles h).inodeNumber = i.val) :
    lseek h nseek fs =
      if 0 ≤ (fs.handles h).offset + nseek ∧
          (fs.handles h).offset + nseek ≤ (fs.inode i).fileSize then
        .ok 0 (fs.seek h ((fs.handles h).offset + nseek))
      else .ok (-1) fs := by
  unfold lseek
  rw [bind_ok (getHandle_run h), bind_ok (readInode_run hnum)]
  split
  · rw [if_neg (by omega)]
    rfl
  · rw [if_pos (by omega), bind_ok (setHandle_run _ _)]
    rfl

/-- A closed handle is sought by the size found beside the superblock. -/
theorem lseek_run_closed (nseek : Int) (hnum : (fs.handles h).inodeNumber = -1) :
    lseek h nseek fs = .ok (-1) fs ∨ ∃ o, lseek h nseek fs = .ok 0 (fs.seek h o) := by
  unfold lseek
  rw [bind_ok (getHandle_run h), hnum, bind_ok (readInode_run_closed fs)]
  split
  · exact Or.inl rfl
  · refine Or.inr ⟨(fs.handles h).offset + nseek, ?_⟩
    rw [bind_ok (setHandle_run _ _), Fs.seek, hnum]
    rfl

theorem lseek_run_abort (nseek : Int) (hnum : (numInodes : Int) ≤ (fs.handles h).inodeNumber) :
    lseek h nseek fs = .error .inodenum fs := by
  unfold lseek
  rw [bind_ok (getHandle_run h), bind_error (readInode_run_abort hnum)]

/-! ## Reading -/

structure Reading (fs : Fs) (h : Handle) (inode : Inode) (o : Int) (fs' : Fs) : Prop where
  disk : fs'.disk = fs.disk
  handles : fs'.handles = Function.update fs.handles h ⟨o, (fs.handles h).inodeNumber⟩
  accesses : ∀ a ∈ fs'.accesses, a ∈ fs.accesses ∨
    ∃ k, a = .read (inode.directBlocks k) ∧ Touches (fs.handles h).offset o k

namespace Reading

variable {inode : Inode} {o o' : Int}

theorem start : Reading fs h inode (fs.handles h).offset fs where
  disk := rfl
  handles := (Function.update_eq_self h fs.handles).symm
  accesses _ ha := Or.inl ha

theorem offset (hr : Reading fs h inode o fs') : (fs'.handles h).offset = o := by
  rw [hr.handles, Function.update_self]

theorem number (hr : Reading fs h inode o fs') :
    (fs'.handles h).inodeNumber = (fs.handles h).inodeNumber := by
  rw [hr.handles, Function.update_self]

theorem inode_eq (hr : Reading fs h inode o fs') : fs'.inode = fs.inode := by
  unfold Fs.inode
  rw [hr.disk]

theorem super_eq (hr : Reading fs h inode o fs') : fs'.super = fs.super := by
  unfold Fs.super
  rw [hr.disk]

theorem block_eq (hr : Reading fs h inode o fs') : fs'.block = fs.block := by
  unfold Fs.block
  rw [hr.disk]

theorem has_iff (hr : Reading fs h inode o fs') (b : Fin numDataBlocks) :
    fs'.Has b ↔ fs.Has b := by
  unfold Fs.Has
  rw [hr.disk]

theorem advance (hr : Reading fs h inode o fs') {k : Fin maxFileSize}
    (hstart : (fs.handles h).offset ≤ o) (hk : o / blocksize = k.val) (ho : o < o')
    (hend : o' ≤ blocksize * (k.val + 1)) :
    Reading fs h inode o' ((fs'.logged (.read (inode.directBlocks k))).seek h o') := by
  have htouches := touches_advance hstart hk ho hend
  constructor
  · exact hr.disk
  · simp only [Fs.seek, Fs.handles_putHandle, Fs.handles_logged, hr.handles,
      Function.update_idem, Function.update_self]
  · intro a ha
    rcases List.mem_cons.mp ha with rfl | ha
    · exact Or.inr ⟨k, rfl, (htouches k).mpr (Or.inr rfl)⟩
    · apply (hr.accesses a ha).imp_right
      rintro ⟨k', hk', htouched⟩
      exact ⟨k', hk', (htouches k').mpr (Or.inl htouched)⟩

end Reading

/-- The loop of `ssufs_read` with something else in place of its inner return. -/
def readLoopElse (onFail : List UInt8 → M (Int × List UInt8)) (fileHandle : Handle)
    (inode : Inode) (nbytes : Int) : Nat → List UInt8 → M (Int × List UInt8)
  | 0, buf => if buf.length < nbytes then throw .fuel else return (0, buf)
  | fuel + 1, buf =>
      if buf.length < nbytes then do
        let handler ← getHandle fileHandle
        let block ← index (handler.offset / blocksize) maxFileSize
        let off := (handler.offset % blocksize).toNat
        let tmp ← readDataBlock (inode.directBlocks block)
        let jump := min (blocksize - off) (nbytes - buf.length).toNat
        let buf := buf ++ ((List.ofFn tmp).drop off).take jump
        if (← lseek fileHandle jump) < 0 then onFail buf
        else readLoopElse onFail fileHandle inode nbytes fuel buf
      else return (0, buf)

theorem readLoopElse_return (fileHandle : Handle) (inode : Inode) (nbytes : Int) (fuel : Nat)
    (buf : List UInt8) :
    readLoopElse (fun buf => return (-1, buf)) fileHandle inode nbytes fuel buf =
      readLoop fileHandle inode nbytes fuel buf := by
  induction fuel generalizing buf with
  | zero => rfl
  | succ fuel ih =>
      unfold readLoopElse readLoop
      simp only [ih]

def Fetched (fs : Fs) (inode : Inode) (o : Int) (bytes : List UInt8) : Prop :=
  ∀ p < bytes.length, ∀ k (b : Fin numDataBlocks) (q : Fin blocksize),
    o + p = blocksize * k.val + q.val → inode.directBlocks k = b.val →
      bytes.getD p 0 = fs.block b q

theorem fetched_nil (fs : Fs) (inode : Inode) (o : Int) : Fetched fs inode o [] :=
  fun p hp => absurd hp (Nat.not_lt_zero p)

theorem Fetched.append {inode : Inode} {o : Int} {chunk bytes : List UInt8}
    (hchunk : Fetched fs inode o chunk) (hbytes : Fetched fs inode (o + chunk.length) bytes) :
    Fetched fs inode o (chunk ++ bytes) := by
  intro p hp k b q hpos hb
  rw [List.length_append] at hp
  by_cases hlt : p < chunk.length
  · rw [List.getD_append _ _ _ _ hlt]
    exact hchunk p hlt k b q hpos hb
  · rw [List.getD_append_right _ _ _ _ (not_lt.mp hlt)]
    exact hbytes _ (by omega) k b q (by omega) hb

theorem fetched_chunk {inode : Inode} {o : Int} {k : Fin maxFileSize} {tmp : Block} {jump : Nat}
    (hk : o / blocksize = k.val) (hend : o % blocksize + jump ≤ blocksize)
    (htmp : ∀ b : Fin numDataBlocks, inode.directBlocks k = b.val → tmp = fs.block b) :
    Fetched fs inode o (((List.ofFn tmp).drop (o % blocksize).toNat).take jump) := by
  intro p hp k' b q hpos hb
  unfold blocksize at hk hend hpos
  have hq := q.isLt
  simp only [List.length_take, List.length_drop, List.length_ofFn, blocksize] at hp
  obtain rfl : k' = k := Fin.ext (by omega)
  have hplace : (o % 64).toNat + p = q.val := by omega
  rw [List.getD_eq_getElem _ _ (by simpa using hp), List.getElem_take, List.getElem_drop,
    List.getElem_ofFn, htmp b hb]
  congr 1
  exact Fin.ext hplace

theorem readDataBlock_run_entry (fs : Fs) (n : Int)
    (hn : n = -1 ∨ ∃ b : Fin numDataBlocks, n = b.val ∧ fs.Has b) :
    ∃ tmp, readDataBlock n fs = .ok tmp (fs.logged (.read n)) ∧
      ∀ b : Fin numDataBlocks, n = b.val → tmp = fs.block b := by
  obtain rfl | ⟨b, hb, hhas⟩ := hn
  · have htables := fs.disk.tables
    refine ⟨fun k => (fs.disk.file.pread 256 64).getD k 0, ?_, fun b hb => by omega⟩
    rw [readDataBlock, bind_ok (log_run _), bind_ok (check_run (by decide)),
      bind_ok (readAt_run (by decide) (by simpa [blocksize, Fs.logged] using htables))]
    rfl
  · refine ⟨_, readDataBlock_run hb hhas, fun c hc => ?_⟩
    obtain rfl : b = c := Fin.ext (by omega)
    rfl

/-- The loop reads all it is asked for, and never comes to its inner return. -/
theorem readLoopElse_run {inode : Inode} (nbytes : Int) (fuel : Nat) (o : Int) (buf : List UInt8)
    (hnum : (fs.handles h).inodeNumber = i.val) (hino : fs.inode i = inode)
    (hentry : ∀ k, inode.directBlocks k = -1 ∨
      ∃ b : Fin numDataBlocks, inode.directBlocks k = b.val ∧ fs.Has b)
    (hsize : inode.fileSize ≤ blocksize * maxFileSize)
    (hnonneg : 0 ≤ (fs.handles h).offset) (hstart : (fs.handles h).offset ≤ o)
    (hle : o + (nbytes - buf.length) ≤ inode.fileSize) (hbuf : buf.length ≤ nbytes)
    (hfuel : nbytes - buf.length ≤ fuel) (hr : Reading fs h inode o fs') :
    ∃ fs'' bytes,
      (∀ onFail, readLoopElse onFail h inode nbytes fuel buf fs' = .ok (0, buf ++ bytes) fs'') ∧
      Reading fs h inode (o + (nbytes - buf.length)) fs'' ∧
      (bytes.length : Int) = nbytes - buf.length ∧ Fetched fs inode o bytes := by
  unfold blocksize maxFileSize at hsize
  induction fuel generalizing fs' o buf with
  | zero =>
      refine ⟨fs', [], fun onFail => ?_, ?_, by rw [List.length_nil]; omega, fetched_nil _ _ _⟩
      · unfold readLoopElse
        rw [if_neg (by omega), List.append_nil]
        rfl
      · rwa [show o + (nbytes - buf.length) = o by omega]
  | succ fuel ih =>
      by_cases hlt : (buf.length : Int) < nbytes
      · obtain ⟨k, hk⟩ := exists_block (hnonneg.trans hstart)
          (by unfold blocksize maxFileSize; omega)
        have hk64 : o / 64 = k.val := hk
        obtain ⟨tmp, htmp, hblock⟩ := readDataBlock_run_entry fs' (inode.directBlocks k)
          ((hentry k).imp_right fun ⟨b, hb, hhas⟩ => ⟨b, hb, (hr.has_iff b).mpr hhas⟩)
        generalize hjump : min (blocksize - (o % blocksize).toNat)
          (nbytes - buf.length).toNat = jump
        have hpos : 0 < jump ∧ (o % 64) + jump ≤ 64 ∧ jump ≤ nbytes - buf.length := by
          unfold blocksize at hjump
          omega
        have hchunk : Fetched fs inode o (((List.ofFn tmp).drop (o % blocksize).toNat).take jump) :=
          fetched_chunk hk hpos.2.1 fun b hb => (hblock b hb).trans (by rw [hr.block_eq])
        generalize hpart : ((List.ofFn tmp).drop (o % blocksize).toNat).take jump = chunk at hchunk
        have hlen : chunk.length = jump := by
          rw [← hpart, List.length_take, List.length_drop, List.length_ofFn]
          unfold blocksize
          omega
        have hlseek : lseek h jump (fs'.logged (.read (inode.directBlocks k))) =
            .ok 0 ((fs'.logged (.read (inode.directBlocks k))).seek h (o + jump)) := by
          rw [lseek_run (i := i) jump (by simpa [hr.number] using hnum)]
          simp only [Fs.handles_logged, Fs.inode_logged, hr.offset, hr.inode_eq, hino]
          rw [if_pos (by omega)]
        obtain ⟨fs'', bytes, hrun, hread, hbytes, hfetched⟩ := ih (o + jump) (buf ++ chunk)
          (by omega) (by rw [List.length_append, hlen]; omega)
          (by rw [List.length_append, hlen]; omega) (by rw [List.length_append, hlen]; omega)
          (hr.advance hstart hk (by omega) (by unfold blocksize; omega))
        rw [List.length_append, hlen] at hread hbytes
        refine ⟨fs'', chunk ++ bytes, fun onFail => ?_, ?_, ?_, hchunk.append (by rwa [hlen])⟩
        · unfold readLoopElse
          rw [if_pos hlt, bind_ok (getHandle_run h), hr.offset, bind_ok (index_run hk),
            bind_ok htmp, hjump, hpart, bind_ok hlseek, if_neg (by omega), hrun onFail,
            List.append_assoc]
        · rwa [show o + (nbytes - buf.length) = o + jump + (nbytes - (buf.length + jump : Nat)) by
            omega]
        · rw [List.length_append, hlen]
          omega
      · refine ⟨fs', [], fun onFail => ?_, ?_, by rw [List.length_nil]; omega, fetched_nil _ _ _⟩
        · unfold readLoopElse
          rw [if_neg hlt, List.append_nil]
          rfl
        · rwa [show o + (nbytes - buf.length) = o by omega]

/-- A read changes nothing, is stopped by its first `assert`, or reads all it was asked for. -/
theorem read_run (hs : Sound fs) (h : Handle) (nbytes : Int) :
    (∃ r, read h nbytes fs = .ok r fs) ∨
      (numInodes : Int) ≤ (fs.handles h).inodeNumber ∧
        read h nbytes fs = .error .inodenum fs ∨
      ∃ i : Fin numInodes, ∃ buf fs', (fs.handles h).inodeNumber = i.val ∧ 0 < nbytes ∧
        (fs.handles h).offset + nbytes ≤ (fs.inode i).fileSize ∧
        read h nbytes fs = .ok (0, buf) fs' ∧
        Reading fs h (fs.inode i) ((fs.handles h).offset + nbytes) fs' := by
  unfold read
  rw [bind_ok (getHandle_run h)]
  rcases hs.number_cases h with hnum | ⟨i, hnum⟩ | hnum
  · rw [if_pos hnum]
    exact Or.inl ⟨_, rfl⟩
  · have hsize := hs.size i
    obtain ⟨hnonneg, -⟩ := hs.offset h (by omega)
    rw [if_neg (by omega), bind_ok (readInode_run hnum)]
    split
    · exact Or.inl ⟨_, rfl⟩
    · split
      · exact Or.inl ⟨_, rfl⟩
      · next hspace =>
          rw [← hsize] at hspace
          by_cases hpos : 0 < nbytes
          · refine Or.inr (Or.inr ⟨i, ?_⟩)
            have hentry : ∀ k, (fs.inode i).directBlocks k = -1 ∨
                ∃ b : Fin numDataBlocks, (fs.inode i).directBlocks k = b.val ∧ fs.Has b := by
              intro k
              apply (hs.entry i k).imp_right
              rintro ⟨b, hb⟩
              exact ⟨b, hb, hs.has b (hs.referenced i k b hb)⟩
            obtain ⟨fs', buf, hrun, hread, -⟩ := readLoopElse_run nbytes nbytes.toNat
              (fs.handles h).offset [] hnum rfl hentry (hs.size_le i).2 hnonneg (le_refl _)
              (by rw [List.length_nil]; omega) (by rw [List.length_nil]; omega)
              (by rw [List.length_nil]; omega) .start
            have hrun := hrun fun buf => return (-1, buf)
            rw [readLoopElse_return] at hrun
            refine ⟨buf, fs', hnum, hpos, by omega, hrun, ?_⟩
            simpa using hread
          · left
            refine ⟨(0, []), ?_⟩
            rw [show nbytes.toNat = 0 by omega, readLoop, if_neg (by rw [List.length_nil]; omega)]
            rfl
  · have hread : readInode (fs.handles h).inodeNumber fs = .error .inodenum fs :=
      readInode_run_abort hnum
    exact Or.inr (Or.inl ⟨hnum, by rw [if_neg (by omega), bind_error hread]⟩)

end Os20.Ssufs
