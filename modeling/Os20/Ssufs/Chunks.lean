import Os20.Ssufs.Lookup

/-!
# Writing in chunks

Two calls of `ssufs_write` that follow each other do what one call with all the bytes does.
Between them the inode goes to the disk and comes back, and when the first call ends inside a
block, the second reads this block again.
-/

namespace Os20.Ssufs

open Os20.Lib.Bytes

variable {fs fs₁ fs₂ fs' : Fs} {h : Handle} {i : Fin numInodes} {ino ino₁ ino' : Inode}
  {k : Fin maxFileSize} {b : Fin numDataBlocks}

/-! ## States that agree but for one inode -/

/-- The states differ at most in inode `i` and in the accesses that were recorded. -/
structure SameBut (i : Fin numInodes) (fs fs₁ : Fs) : Prop where
  disk : ∀ ino, (fs.putInode i ino).disk = (fs₁.putInode i ino).disk
  handles : fs.handles = fs₁.handles
  junk : fs.junk = fs₁.junk

theorem Disk.ext {d d' : Disk} (hfile : d.file = d'.file) : d = d' := by
  obtain ⟨file, htables⟩ := d
  obtain rfl : file = d'.file := hfile
  rfl

namespace SameBut

theorem refl (i : Fin numInodes) (fs : Fs) : SameBut i fs fs := ⟨fun _ => rfl, rfl, rfl⟩

theorem trans (hs : SameBut i fs fs₁) (hs' : SameBut i fs₁ fs₂) : SameBut i fs fs₂ where
  disk ino := (hs.disk ino).trans (hs'.disk ino)
  handles := hs.handles.trans hs'.handles
  junk := hs.junk.trans hs'.junk

theorem super_eq (hs : SameBut i fs fs₁) : fs.super = fs₁.super := by
  have hput : (fs.putInode i (fs.inode i)).super = (fs₁.putInode i (fs.inode i)).super := by
    unfold Fs.super
    rw [hs.disk]
  simpa using hput

theorem block_eq (hs : SameBut i fs fs₁) : fs.block = fs₁.block := by
  have hput : (fs.putInode i (fs.inode i)).block = (fs₁.putInode i (fs.inode i)).block := by
    unfold Fs.block
    rw [hs.disk]
  simpa using hput

theorem has_iff (hs : SameBut i fs fs₁) (b : Fin numDataBlocks) : fs.Has b ↔ fs₁.Has b := by
  have hput : (fs.putInode i (fs.inode i)).Has b ↔ (fs₁.putInode i (fs.inode i)).Has b := by
    unfold Fs.Has
    rw [hs.disk]
  simpa using hput

theorem logged (hs : SameBut i fs fs₁) (a a₁ : Access) :
    SameBut i (fs.logged a) (fs₁.logged a₁) := ⟨hs.disk, hs.handles, hs.junk⟩

theorem seek (hs : SameBut i fs fs₁) (h : Handle) (o : Int) :
    SameBut i (fs.seek h o) (fs₁.seek h o) where
  disk := hs.disk
  handles := by
    unfold Fs.seek
    rw [Fs.handles_putHandle, Fs.handles_putHandle, hs.handles]
  junk := hs.junk

theorem write (hs : SameBut i fs fs₁) {off : Nat} {bs : List UInt8}
    (hdisj : off + bs.length ≤ 64 + i.val * 32 ∨ 64 + i.val * 32 + 32 ≤ off) (ino : Inode) :
    ((fs.disk.write off bs).write (64 + i * 32) ino.encode) =
      ((fs₁.disk.write off bs).write (64 + i * 32) ino.encode) := by
  have hcomm (d : Disk) : (d.write off bs).write (64 + i * 32) ino.encode =
      (d.write (64 + i * 32) ino.encode).write off bs :=
    Disk.ext (ByteFile.pwrite_comm (by rw [Inode.length_encode]; exact hdisj.symm))
  rw [hcomm, hcomm]
  exact congrArg (fun d => Disk.write d off bs) (hs.disk ino)

theorem putSuper (hs : SameBut i fs fs₁) (superblock : Superblock) :
    SameBut i (fs.putSuper superblock) (fs₁.putSuper superblock) where
  disk ino := by
    unfold Fs.putSuper Fs.putInode
    dsimp only
    rw [hs.junk]
    exact hs.write (Or.inl (by simp)) ino
  handles := hs.handles
  junk := by
    unfold Fs.putSuper
    dsimp only
    rw [hs.junk]

theorem putBlock (hs : SameBut i fs fs₁) (b : Fin numDataBlocks) (buf : Block) :
    SameBut i (fs.putBlock b buf) (fs₁.putBlock b buf) where
  disk ino := by
    have hi : i.val < 8 := i.isLt
    exact hs.write (Or.inr (by omega)) ino
  handles := hs.handles
  junk := hs.junk

theorem putInode (i : Fin numInodes) (fs : Fs) (ino : Inode) :
    SameBut i fs (fs.putInode i ino) where
  disk ino' := by
    refine Disk.ext (ByteFile.pwrite_pwrite ?_).symm
    rw [Inode.length_encode, Inode.length_encode]
  handles := rfl
  junk := rfl

end SameBut

/-- The block is written twice. -/
theorem sameBut_putBlock (i : Fin numInodes) (fs : Fs) (b : Fin numDataBlocks) (buf buf' : Block) :
    SameBut i (fs.putBlock b buf') ((fs.putBlock b buf).putBlock b buf') where
  disk ino := by
    refine congrArg (fun d => Disk.write d _ _) (Disk.ext (ByteFile.pwrite_pwrite ?_).symm)
    rw [List.length_ofFn, List.length_ofFn]
  handles := rfl
  junk := rfl

/-! ## Inodes that are stored in the same way -/

structure Alike (ino ino₁ : Inode) : Prop where
  status : ino.status = ino₁.status
  name : ino.name = ino₁.name
  size : ino.fileSize % 4294967296 = ino₁.fileSize % 4294967296
  directBlocks : ino.directBlocks = ino₁.directBlocks

namespace Alike

theorem refl (ino : Inode) : Alike ino ino := ⟨rfl, rfl, rfl, rfl⟩

theorem trans {ino₂ : Inode} (ha : Alike ino ino₁) (ha' : Alike ino₁ ino₂) : Alike ino ino₂ where
  status := ha.status.trans ha'.status
  name := ha.name.trans ha'.name
  size := ha.size.trans ha'.size
  directBlocks := ha.directBlocks.trans ha'.directBlocks

theorem encode_eq (ha : Alike ino ino₁) : ino.encode = ino₁.encode := by
  unfold Inode.encode
  rw [ha.status, ha.name, ha.directBlocks, encodeInt_congr ha.size]

theorem grow (ha : Alike ino ino₁) (k : Fin maxFileSize) (n : Int) :
    Alike (ino.grow k n) (ino₁.grow k n) where
  status := ha.status
  name := ha.name
  size := by
    have hsize := ha.size
    unfold Inode.grow
    dsimp only
    omega
  directBlocks := by
    unfold Inode.grow
    dsimp only
    rw [ha.directBlocks]

theorem inode_putInode (fs : Fs) (i : Fin numInodes) (hstatus : IsInt ino.status)
    (hentry : ∀ k, ino.directBlocks k = -1 ∨ ∃ b : Fin numDataBlocks, ino.directBlocks k = b.val) :
    Alike ino ((fs.putInode i ino).inode i) := by
  have hwrap : Alike ino { ino with fileSize := ino.fileSize.bmod 4294967296 } :=
    ⟨rfl, rfl, (Int.bmod_emod).symm, rfl⟩
  have hfits : ({ ino with fileSize := ino.fileSize.bmod 4294967296 } : Inode).Fits := by
    refine ⟨hstatus, ?_, fun k => ?_⟩
    · have hlower := Int.le_bmod (x := ino.fileSize) (m := 4294967296) (by decide)
      have hupper := Int.bmod_lt (x := ino.fileSize) (m := 4294967296) (by decide)
      unfold IsInt
      dsimp only
      omega
    · unfold IsInt
      dsimp only
      rcases hentry k with hk | ⟨b, hk⟩
      · omega
      · have hlt : b.val < 30 := b.isLt
        omega
  have hput : fs.putInode i ino =
      fs.putInode i { ino with fileSize := ino.fileSize.bmod 4294967296 } := by
    unfold Fs.putInode
    rw [hwrap.encode_eq]
  rw [hput, Fs.inode_putInode_self hfits]
  exact hwrap

end Alike

/-! ## Blocks that are filled in two steps -/

theorem splice_congr {tmp : Block} {off jump w w' : Nat} {buf buf' : List UInt8}
    (hbytes : ∀ p < jump, buf.getD (w + p) 0 = buf'.getD (w' + p) 0) :
    splice tmp off jump buf w = splice tmp off jump buf' w' := by
  funext q
  unfold splice
  split
  · exact hbytes _ (by omega)
  · rfl

theorem splice_splice (tmp : Block) (off jump jump' : Nat) (buf : List UInt8) (w : Nat) :
    splice (splice tmp off jump buf w) (off + jump) jump' buf (w + jump) =
      splice tmp off (jump + jump') buf w := by
  funext q
  unfold splice
  by_cases hsecond : off + jump ≤ q ∧ q < off + jump + jump'
  · rw [if_pos hsecond, if_pos (by omega)]
    congr 1
    omega
  · rw [if_neg hsecond]
    congr 1
    apply propext
    omega

/-! ## The loop, round by round -/

def Fs.jump (fs : Fs) (h : Handle) (nbytes write : Nat) : Nat :=
  min (blocksize - ((fs.handles h).offset % blocksize).toNat) (nbytes - write)

/-- The rounds of a loop that gets to its end. -/
inductive Rounds (h : Handle) (buf : List UInt8) (nbytes : Nat) :
    Inode → Nat → Fs → Inode → Fs → Prop
  | done {ino : Inode} {write : Nat} {fs : Fs} (hdone : nbytes ≤ write) :
      Rounds h buf nbytes ino write fs ino fs
  | next {ino ino₁ ino' : Inode} {write : Nat} {fs fs₁ fs' : Fs} {k : Fin maxFileSize}
      {b : Fin numDataBlocks} (hlt : write < nbytes)
      (hk : (fs.handles h).offset / blocksize = k.val) (hplaced : Placed ino k b fs ino₁ fs₁)
      (hhas : fs₁.Has b)
      (hrest : Rounds h buf nbytes ino₁ (write + fs₁.jump h nbytes write)
        (fs₁.store h b (fs₁.jump h nbytes write) buf write) ino' fs') :
      Rounds h buf nbytes ino write fs ino' fs'

theorem Placed.follow (hp : Placed ino k b fs ino' fs') (hs : SameBut i fs fs₁)
    (ha : Alike ino ino₁) :
    ∃ ino₁' fs₁', Placed ino₁ k b fs₁ ino₁' fs₁' ∧ SameBut i fs' fs₁' ∧ Alike ino' ino₁' := by
  cases hp with
  | found hb => exact ⟨ino₁, fs₁, .found (ha.directBlocks ▸ hb), hs, ha⟩
  | allocated hnone hfirst =>
      have hfirst₁ : fs₁.firstFreeBlock = some b := by
        unfold Fs.firstFreeBlock at hfirst ⊢
        rwa [← hs.super_eq]
      have hmark : SameBut i (fs.markBlock b used) (fs₁.markBlock b used) := by
        unfold Fs.markBlock
        rw [← hs.super_eq]
        exact hs.putSuper _
      exact ⟨_, _, .allocated (ha.directBlocks ▸ hnone) hfirst₁,
        (hmark.logged _ _).putBlock b _, ha.grow k _⟩

namespace SameBut

theorem jump_eq (hs : SameBut i fs fs₁) (h : Handle) (nbytes write : Nat) :
    fs.jump h nbytes write = fs₁.jump h nbytes write := by
  unfold Fs.jump
  rw [hs.handles]

theorem store (hs : SameBut i fs fs₁) (h : Handle) (b : Fin numDataBlocks) (jump : Nat)
    {buf buf₁ : List UInt8} {write write₁ : Nat}
    (hbytes : ∀ p < jump, buf.getD (write + p) 0 = buf₁.getD (write₁ + p) 0) :
    SameBut i (fs.store h b jump buf write) (fs₁.store h b jump buf₁ write₁) := by
  unfold Fs.store
  rw [splice_congr hbytes, hs.handles, hs.block_eq]
  exact (((hs.logged _ _).logged _ _).putBlock b _).seek h _

end SameBut

section Loop

variable {buf : List UInt8} {nbytes write : Nat}

theorem Fs.jump_pos (fs : Fs) (h : Handle) (hlt : write < nbytes) :
    0 < fs.jump h nbytes write := by
  unfold Fs.jump blocksize
  omega

theorem Fs.jump_le (fs : Fs) (h : Handle) (nbytes write : Nat) :
    fs.jump h nbytes write ≤ nbytes - write := Nat.min_le_right _ _

theorem Placed.jump_eq (hp : Placed ino k b fs ino₁ fs₁) (h : Handle) (nbytes write : Nat) :
    min (blocksize - ((fs.handles h).offset % blocksize).toNat) ((nbytes : Int) - write).toNat =
      fs₁.jump h nbytes write := by
  rw [Fs.jump, hp.handles]
  omega

theorem Rounds.run (hr : Rounds h buf nbytes ino write fs ino' fs') (fuel : Nat)
    (hfuel : nbytes - write ≤ fuel) :
    writeLoop h buf nbytes fuel ino write fs = .ok (some ino') fs' := by
  induction hr generalizing fuel with
  | done hdone => exact writeLoop_done (by omega) fuel
  | @next ino ino₁ ino' write fs fs₁ fs' k b hlt hk hp hhas hrest ih =>
      have hjump := fs₁.jump_pos h hlt
      obtain ⟨fuel, rfl⟩ : ∃ fuel', fuel = fuel' + 1 := ⟨fuel - 1, by omega⟩
      rw [writeLoop_next (by omega) hk hp hhas (hp.jump_eq h nbytes write)]
      exact ih fuel (by omega)

/-- A loop that gets to its end has gone through rounds. -/
theorem rounds_of_run {fuel : Nat}
    (hentry : ∀ k, ino.directBlocks k = -1 ∨ ∃ b : Fin numDataBlocks, ino.directBlocks k = b.val)
    (hrun : writeLoop h buf nbytes fuel ino write fs = .ok (some ino') fs') :
    Rounds h buf nbytes ino write fs ino' fs' := by
  induction fuel generalizing fs ino write with
  | zero =>
      unfold writeLoop at hrun
      split at hrun
      · cases hrun
      · cases hrun
        exact .done (by omega)
  | succ fuel ih =>
      by_cases hlt : write < nbytes
      · by_cases hk : ∃ k : Fin maxFileSize, (fs.handles h).offset / blocksize = k.val
        · obtain ⟨k, hk⟩ := hk
          rcases exists_placed (hentry k) fs with ⟨hnone, hfull⟩ | ⟨b, ino₁, fs₁, hp⟩
          · rw [writeLoop_full (by omega) hk hnone hfull] at hrun
            cases hrun
          · by_cases hhas : fs₁.Has b
            · rw [writeLoop_next (by omega) hk hp hhas (hp.jump_eq h nbytes write)] at hrun
              exact .next hlt hk hp hhas (ih (hp.entry hentry) hrun)
            · rw [writeLoop_short (by omega) hk hp hhas] at hrun
              cases hrun
        · rw [writeLoop_outside (by omega) (not_exists.mp hk)] at hrun
          cases hrun
      · rw [writeLoop_done (by omega)] at hrun
        cases hrun
        exact .done (by omega)

theorem SameBut.store_store (i : Fin numInodes) (fs : Fs) (h : Handle) (b : Fin numDataBlocks)
    {jump : Nat} (hroom : ((fs.handles h).offset % blocksize).toNat + jump < blocksize)
    (jump' : Nat) (buf : List UInt8) (write : Nat) :
    SameBut i (fs.store h b (jump + jump') buf write)
      ((fs.store h b jump buf write).store h b jump' buf (write + jump)) := by
  have hblock : (fs.store h b jump buf write).block b =
      splice (fs.block b) ((fs.handles h).offset % blocksize).toNat jump buf write :=
    Fs.block_putBlock_self _
  have hoffset : (((fs.handles h).offset + jump) % blocksize).toNat =
      ((fs.handles h).offset % blocksize).toNat + jump := by
    unfold blocksize at hroom ⊢
    omega
  have hend : (fs.handles h).offset + jump + jump' =
      (fs.handles h).offset + (jump + jump' : Nat) := by
    omega
  rw [Fs.store, Fs.store, hblock, Fs.handle_store]
  dsimp only
  rw [hoffset, splice_splice, hend]
  refine ⟨(sameBut_putBlock i fs b _ _).disk, ?_, rfl⟩
  change Function.update fs.handles h ⟨_, (fs.handles h).inodeNumber⟩ =
    Function.update (fs.store h b jump buf write).handles h
      ⟨_, ((fs.store h b jump buf write).handles h).inodeNumber⟩
  rw [Fs.handle_store]
  exact (Function.update_idem _ _ fs.handles).symm

namespace Rounds

theorem entry (hr : Rounds h buf nbytes ino write fs ino' fs')
    (hentry : ∀ k, ino.directBlocks k = -1 ∨ ∃ b : Fin numDataBlocks, ino.directBlocks k = b.val)
    (k : Fin maxFileSize) :
    ino'.directBlocks k = -1 ∨ ∃ b : Fin numDataBlocks, ino'.directBlocks k = b.val := by
  induction hr with
  | done hdone => exact hentry k
  | next hlt hk hp hhas hrest ih => exact ih (hp.entry hentry)

theorem status (hr : Rounds h buf nbytes ino write fs ino' fs') : ino'.status = ino.status := by
  induction hr with
  | done hdone => rfl
  | next hlt hk hp hhas hrest ih => exact ih.trans hp.status

theorem handle (hr : Rounds h buf nbytes ino write fs ino' fs') (hle : write ≤ nbytes) :
    fs'.handles h =
      ⟨(fs.handles h).offset + (nbytes - write : Nat), (fs.handles h).inodeNumber⟩ := by
  induction hr with
  | done hdone =>
      rw [Nat.sub_eq_zero_of_le hdone]
      simp
  | @next ino ino₁ ino' write fs fs₁ fs' k b hlt hk hp hhas hrest ih =>
      have hjump := fs₁.jump_le h nbytes write
      rw [ih (by omega), Fs.handle_store, hp.handles, FileHandle.mk.injEq]
      dsimp only
      omega

/-- The same rounds in another state of the same kind, with the bytes at another place. -/
theorem follow (hr : Rounds h buf nbytes ino write fs ino' fs') (buf₁ : List UInt8)
    (nbytes₁ write₁ : Nat) (hs : SameBut i fs fs₁) (ha : Alike ino ino₁)
    (hlength : nbytes - write = nbytes₁ - write₁)
    (hbytes : ∀ p < nbytes - write, buf.getD (write + p) 0 = buf₁.getD (write₁ + p) 0) :
    ∃ ino₁' fs₁', Rounds h buf₁ nbytes₁ ino₁ write₁ fs₁ ino₁' fs₁' ∧ SameBut i fs' fs₁' ∧
      Alike ino' ino₁' := by
  induction hr generalizing fs₁ ino₁ write₁ with
  | done hdone => exact ⟨ino₁, fs₁, .done (by omega), hs, ha⟩
  | @next ino ino₂ ino' write fs fs₂ fs' k b hlt hk hp hhas hrest ih =>
      obtain ⟨ino₃, fs₃, hp₃, hs₃, ha₃⟩ := hp.follow hs ha
      have hjump : fs₂.jump h nbytes write = fs₃.jump h nbytes₁ write₁ := by
        rw [hs₃.jump_eq, Fs.jump, Fs.jump, hlength]
      have hle := fs₂.jump_le h nbytes write
      obtain ⟨ino₁', fs₁', hrest₁, hs', ha'⟩ :=
        ih (write₁ + fs₃.jump h nbytes₁ write₁)
          (hs₃.store h b (fs₂.jump h nbytes write) fun p hp => hbytes p (by omega)) ha₃
          (by omega) (fun p hp => by
            rw [Nat.add_assoc, Nat.add_assoc, ← hjump]
            exact hbytes _ (by omega))
      rw [hjump] at hrest₁
      exact ⟨ino₁', fs₁', .next (by omega) (hs.handles ▸ hk) hp₃ ((hs₃.has_iff b).mp hhas) hrest₁,
        hs', ha'⟩

/-- The loop stops inside a block.  When it goes on, the block is read and written once more. -/
theorem cut (i : Fin numInodes) {mid : Nat} (hlt : write < mid)
    (hend : mid < write + fs₁.jump h nbytes write)
    (hk : (fs.handles h).offset / blocksize = k.val) (hp : Placed ino k b fs ino₁ fs₁)
    (hhas : fs₁.Has b) (hrest : Rounds h buf nbytes ino₁ (write + fs₁.jump h nbytes write)
      (fs₁.store h b (fs₁.jump h nbytes write) buf write) ino' fs') :
    ∃ cut ino₂ fs₂, Rounds h buf mid ino write fs ino₁ cut ∧
      Rounds h buf nbytes ino₁ mid cut ino₂ fs₂ ∧ SameBut i fs' fs₂ ∧ Alike ino' ino₂ := by
  have hle := fs₁.jump_le h nbytes write
  obtain ⟨jump, rfl⟩ : ∃ jump, mid = write + jump := ⟨mid - write, by omega⟩
  obtain ⟨jump', hjump⟩ : ∃ jump', fs₁.jump h nbytes write = jump + jump' :=
    ⟨fs₁.jump h nbytes write - jump, by omega⟩
  have hroom : ((fs₁.handles h).offset % blocksize).toNat + jump < blocksize := by
    unfold Fs.jump at hend
    omega
  have hstore := SameBut.store_store i fs₁ h b hroom jump' buf write
  rw [hjump, ← Nat.add_assoc] at hrest
  obtain ⟨ino₂, fs₂, hrest', hs, ha⟩ :=
    hrest.follow buf nbytes _ hstore (.refl ino₁) rfl fun _ _ => rfl
  refine ⟨fs₁.store h b jump buf write, ino₂, fs₂, ?_, ?_, hs, ha⟩
  · refine .next hlt hk hp hhas ?_
    have hjump₁ : fs₁.jump h (write + jump) write = jump := by
      unfold Fs.jump
      omega
    rw [hjump₁]
    exact .done le_rfl
  · have hhandle := fs₁.handle_store h b jump buf write
    have hk' : ((fs₁.store h b jump buf write).handles h).offset / blocksize = k.val := by
      rw [hhandle]
      rw [hp.handles] at hroom ⊢
      unfold blocksize at *
      dsimp only
      omega
    have hjump₂ : (fs₁.store h b jump buf write).jump h nbytes (write + jump) = jump' := by
      unfold Fs.jump at hjump ⊢
      rw [hhandle]
      unfold blocksize at *
      dsimp only
      omega
    refine .next (by omega) hk' (.found hp.self) (Fs.has_putBlock_self _) ?_
    rw [hjump₂]
    exact hrest'

theorem split (i : Fin numInodes) (hr : Rounds h buf nbytes ino write fs ino' fs') {mid : Nat}
    (hstart : write ≤ mid) (hend : mid ≤ nbytes) :
    ∃ ino₁ fs₁ ino₂ fs₂, Rounds h buf mid ino write fs ino₁ fs₁ ∧
      Rounds h buf nbytes ino₁ mid fs₁ ino₂ fs₂ ∧ SameBut i fs' fs₂ ∧ Alike ino' ino₂ := by
  induction hr with
  | @done ino write fs hdone =>
      exact ⟨ino, fs, ino, fs, .done (by omega), .done (by omega), .refl i fs, .refl ino⟩
  | @next ino ino₁ ino' write fs fs₁ fs' k b hlt hk hp hhas hrest ih =>
      rcases hstart.eq_or_lt with rfl | hbefore
      · exact ⟨ino, fs, ino', fs', .done le_rfl, .next hlt hk hp hhas hrest, .refl i fs',
          .refl ino'⟩
      · by_cases hwhole : write + fs₁.jump h nbytes write ≤ mid
        · have hjump : fs₁.jump h nbytes write = fs₁.jump h mid write := by
            unfold Fs.jump at hwhole ⊢
            omega
          obtain ⟨ino₂, fs₂, ino₃, fs₃, hfirst, hsecond, hs, ha⟩ := ih hwhole
          rw [hjump] at hfirst
          exact ⟨ino₂, fs₂, ino₃, fs₃, .next hbefore hk hp hhas hfirst, hsecond, hs, ha⟩
        · obtain ⟨cut, ino₂, fs₂, hfirst, hsecond, hs, ha⟩ :=
            Rounds.cut i hbefore (not_le.mp hwhole) hk hp hhas hrest
          exact ⟨ino₁, cut, ino₂, fs₂, hfirst, hsecond, hs, ha⟩

end Rounds

end Loop

/-! ## The call -/

variable {buf : List UInt8} {nbytes : Nat}

theorem rounds_of_write (hnum : (fs.handles h).inodeNumber = i.val)
    (hentry : ∀ k, (fs.inode i).directBlocks k = -1 ∨
      ∃ b : Fin numDataBlocks, (fs.inode i).directBlocks k = b.val)
    (hrun : write h buf nbytes fs = .ok 0 fs') :
    (fs.handles h).offset + nbytes ≤ 256 ∧ ∃ ino fs₁,
      Rounds h buf nbytes (fs.inode i) 0 fs ino fs₁ ∧ fs' = fs₁.putInode i ino := by
  by_cases hspace : blocksize * 4 - (fs.handles h).offset < nbytes
  · rw [write_run_refused hnum hspace] at hrun
    cases hrun
  · have hadmits : fs.Admits h i nbytes := ⟨hnum, by omega⟩
    refine ⟨by unfold blocksize at hspace; omega, ?_⟩
    cases hloop : writeLoop h buf nbytes (nbytes : Int).toNat (fs.inode i) 0 fs with
    | error e fs₁ =>
        rw [write_run_error hadmits hloop] at hrun
        cases hrun
    | ok r fs₁ =>
        cases r with
        | none =>
            rw [write_run_full hadmits hloop] at hrun
            cases hrun
        | some ino =>
            rw [write_run_ok hadmits hloop] at hrun
            cases hrun
            exact ⟨ino, fs₁, rounds_of_run hentry hloop, rfl⟩

theorem write_of_rounds (hr : Rounds h buf nbytes (fs.inode i) 0 fs ino fs')
    (hnum : (fs.handles h).inodeNumber = i.val)
    (hspace : (fs.handles h).offset + nbytes ≤ 256) :
    write h buf nbytes fs = .ok 0 (fs'.putInode i ino) := by
  have hadmits : fs.Admits h i nbytes := ⟨hnum, by unfold blocksize; omega⟩
  exact write_run_ok hadmits (hr.run _ (by omega))

/-- When one call of `ssufs_write` with all the bytes returns 0, so do two calls with the parts,
and they leave the same disk file, handles and uninitialised memory. -/
theorem write_append (hnum : (fs.handles h).inodeNumber = i.val)
    (hentry : ∀ k, (fs.inode i).directBlocks k = -1 ∨
      ∃ b : Fin numDataBlocks, (fs.inode i).directBlocks k = b.val)
    (a b : List UInt8) (hrun : write h (a ++ b) (a.length + b.length) fs = .ok 0 fs') :
    ∃ fs₁ fs₂, write h a a.length fs = .ok 0 fs₁ ∧
      write h b b.length fs₁ = .ok 0 fs₂ ∧
      fs₂.disk = fs'.disk ∧ fs₂.handles = fs'.handles ∧ fs₂.junk = fs'.junk := by
  have hrun' : write h (a ++ b) (a.length + b.length : Nat) fs = .ok 0 fs' := by
    push_cast
    exact hrun
  obtain ⟨hspace, ino', fs₃, hrounds, rfl⟩ := rounds_of_write hnum hentry hrun'
  obtain ⟨ino₁, fs₁, ino₂, fs₂, hfirst, hsecond, hs, ha⟩ :=
    hrounds.split i (Nat.zero_le a.length) (Nat.le_add_right _ _)
  -- the first call has only the first bytes
  obtain ⟨ino₃, fs₄, hfirst', hs₁, ha₁⟩ :=
    hfirst.follow a a.length 0 (.refl i fs) (.refl _) rfl fun p hp =>
      List.getD_append _ _ _ _ (by omega)
  have hhandle := hfirst'.handle (Nat.zero_le _)
  have hcall₁ := write_of_rounds hfirst' hnum (by push_cast at hspace; omega)
  -- the second call reads the inode that the first one has stored
  have hback : Alike ino₃ ((fs₄.putInode i ino₃).inode i) := by
    refine .inode_putInode fs₄ i ?_ (hfirst'.entry hentry)
    rw [hfirst'.status]
    exact (fs.fits_inode i).status
  obtain ⟨ino₄, fs₆, hsecond', hs₂, ha₂⟩ :=
    hsecond.follow b b.length 0 (hs₁.trans (.putInode i fs₄ ino₃)) (ha₁.trans hback) (by omega)
      fun p _ => by
        rw [getD_append_add rfl, Nat.zero_add]
  have hcall₂ := write_of_rounds hsecond'
    (by rw [Fs.handles_putInode, hhandle]; exact hnum)
    (by rw [Fs.handles_putInode, hhandle]; push_cast at hspace ⊢; omega)
  refine ⟨_, _, hcall₁, hcall₂, ?_, (hs.trans hs₂).handles.symm, (hs.trans hs₂).junk.symm⟩
  rw [(hs.trans hs₂).disk ino']
  unfold Fs.putInode
  rw [(ha.trans ha₂).encode_eq]

/-- The first call stops inside a block, and the second allocates one. -/
theorem write_append_inside :
    ∃ fs fs' fs₁ fs₂, system.Reachable fs ∧ (fs.handles 0).offset = 40 ∧
      write 0 (List.replicate 10 7 ++ List.replicate 30 8) 40 fs = .ok 0 fs' ∧
      write 0 (List.replicate 10 7) 10 fs = .ok 0 fs₁ ∧
      write 0 (List.replicate 30 8) 30 fs₁ = .ok 0 fs₂ ∧
      fs₂.disk = fs'.disk ∧ fs₂.handles = fs'.handles ∧ fs₂.junk = fs'.junk := by
  obtain ⟨fs, hreach, htest⟩ := system.exists_reachable_of_run
    [.create fileA, .open fileA, .write 0 (List.replicate 40 7) 40 (by simp)]
    (fun fs => decide ((fs.handles 0).inodeNumber = 0 ∧ (fs.handles 0).offset = 40) &&
      returns (write 0 (List.replicate 10 7 ++ List.replicate 30 8) 40)
        (fun r _ => decide (r = 0)) fs)
    ⟨fun _ => 0, rfl⟩ (by decide +kernel)
  rw [Bool.and_eq_true, decide_eq_true_eq] at htest
  obtain ⟨⟨hnum, hoffset⟩, htest⟩ := htest
  obtain ⟨r, fs', hrun, hr⟩ := exists_of_returns htest
  obtain rfl : r = 0 := of_decide_eq_true hr
  obtain ⟨fs₁, fs₂, hcalls⟩ := write_append hnum ((sound hreach).entry 0)
    (List.replicate 10 7) (List.replicate 30 8) hrun
  exact ⟨fs, fs', fs₁, fs₂, hreach, hoffset, hrun, hcalls⟩

end Os20.Ssufs
