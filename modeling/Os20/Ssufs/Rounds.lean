import Os20.Ssufs.Reading

/-!
# The rounds of `ssufs_write`

A round finds or allocates the block at the position of the handle, stores bytes in it and moves
the handle behind them.  It gives up when no block is left, and an `assert` stops it when the
block is not on the disk.
-/

namespace Os20.Ssufs

inductive Placed (ino : Inode) (k : Fin maxFileSize) (b : Fin numDataBlocks) (fs : Fs) :
    Inode → Fs → Prop
  | found (hb : ino.directBlocks k = b.val) : Placed ino k b fs ino fs
  | allocated (hnone : ino.directBlocks k = -1) (hfirst : fs.firstFreeBlock = some b) :
      Placed ino k b fs (ino.grow k b.val)
        (((fs.markBlock b used).logged (.write b.val)).putBlock b fun _ => 0)

def Fs.store (fs : Fs) (h : Handle) (b : Fin numDataBlocks) (jump : Nat) (buf : List UInt8)
    (write : Nat) : Fs :=
  (((fs.logged (.read b.val)).logged (.write b.val)).putBlock b
    (splice (fs.block b) ((fs.handles h).offset % blocksize).toNat jump buf write)).seek h
    ((fs.handles h).offset + jump)

variable {fs fs₁ fs' : Fs} {h : Handle} {ino ino₁ ino' : Inode} {k : Fin maxFileSize}
  {b : Fin numDataBlocks}

@[simp] theorem Fs.handle_store (fs : Fs) (h : Handle) (b : Fin numDataBlocks) (jump : Nat)
    (buf : List UInt8) (write : Nat) : (fs.store h b jump buf write).handles h =
      ⟨(fs.handles h).offset + jump, (fs.handles h).inodeNumber⟩ := by
  unfold Fs.store Fs.seek
  rw [Fs.handles_putHandle, Function.update_self]
  rfl

/-! ## The block of a round -/

theorem writeBlocknum_full (hnone : ino.directBlocks k = -1) (hfull : ∀ b, ¬fs.Free b) :
    writeBlocknum ino k fs = .ok none fs := by
  unfold writeBlocknum
  rw [if_pos hnone]
  rcases allocDataBlock_run fs with ⟨b, hfree, -, -⟩ | ⟨-, -, hrun⟩
  · exact absurd hfree (hfull b)
  · rw [bind_ok hrun, if_pos rfl]
    rfl

namespace Placed

theorem run (hp : Placed ino k b fs ino' fs') :
    writeBlocknum ino k fs = .ok (some (b.val, ino')) fs' := by
  unfold writeBlocknum
  cases hp with
  | found hb =>
      rw [if_neg (by omega), hb]
      rfl
  | allocated hnone hfirst =>
      rw [if_pos hnone]
      rcases allocDataBlock_run fs with ⟨c, -, hc, hrun⟩ | ⟨-, hc, -⟩
      · obtain rfl : b = c := Option.some.inj (hfirst.symm.trans hc)
        rw [bind_ok hrun, if_neg (by omega), bind_ok (writeDataBlock_run _ rfl)]
        rfl
      · rw [hc] at hfirst
        cases hfirst

theorem handles (hp : Placed ino k b fs ino' fs') : fs'.handles = fs.handles := by
  cases hp with
  | found hb => rfl
  | allocated hnone hfirst => rfl

theorem self (hp : Placed ino k b fs ino' fs') : ino'.directBlocks k = b.val := by
  cases hp with
  | found hb => exact hb
  | allocated hnone hfirst => exact directBlocks_grow_self _ _ _

theorem status (hp : Placed ino k b fs ino' fs') : ino'.status = ino.status := by
  cases hp with
  | found hb => rfl
  | allocated hnone hfirst => rfl

theorem entry (hp : Placed ino k b fs ino' fs')
    (hentry : ∀ k, ino.directBlocks k = -1 ∨ ∃ b : Fin numDataBlocks, ino.directBlocks k = b.val)
    (k' : Fin maxFileSize) :
    ino'.directBlocks k' = -1 ∨ ∃ b : Fin numDataBlocks, ino'.directBlocks k' = b.val := by
  by_cases hk' : k' = k
  · rw [hk']
    exact Or.inr ⟨b, hp.self⟩
  · cases hp with
    | found hb => exact hentry k'
    | allocated hnone hfirst =>
        rw [directBlocks_grow_of_ne _ _ hk']
        exact hentry k'

end Placed

theorem exists_placed (hentry : ino.directBlocks k = -1 ∨
      ∃ b : Fin numDataBlocks, ino.directBlocks k = b.val) (fs : Fs) :
    (ino.directBlocks k = -1 ∧ ∀ b, ¬fs.Free b) ∨ ∃ b ino' fs', Placed ino k b fs ino' fs' := by
  rcases hentry with hnone | ⟨b, hb⟩
  · rcases allocDataBlock_run fs with ⟨b, -, hfirst, -⟩ | ⟨hfull, -, -⟩
    · exact Or.inr ⟨b, _, _, .allocated hnone hfirst⟩
    · exact Or.inl ⟨hnone, hfull⟩
  · exact Or.inr ⟨b, _, _, .found hb⟩

/-! ## The loop -/

variable {buf : List UInt8} {nbytes : Int} {write : Nat}

theorem writeLoop_done (hdone : nbytes ≤ write) (fuel : Nat) :
    writeLoop h buf nbytes fuel ino write fs = .ok (some ino) fs := by
  cases fuel with
  | zero =>
      rw [writeLoop, if_neg (by omega)]
      rfl
  | succ fuel =>
      rw [writeLoop, if_neg (by omega)]
      rfl

theorem writeLoop_outside (hlt : write < nbytes)
    (hk : ∀ k : Fin maxFileSize, (fs.handles h).offset / blocksize ≠ k.val) (fuel : Nat) :
    writeLoop h buf nbytes (fuel + 1) ino write fs = .error .outOfBounds fs := by
  rw [writeLoop, if_pos hlt, bind_ok (getHandle_run h), bind_error (index_run_not hk)]

section Round

variable (hlt : write < nbytes) (hk : (fs.handles h).offset / blocksize = k.val)

include hlt hk

theorem writeLoop_full (hnone : ino.directBlocks k = -1) (hfull : ∀ b, ¬fs.Free b) (fuel : Nat) :
    writeLoop h buf nbytes (fuel + 1) ino write fs = .ok none fs := by
  rw [writeLoop, if_pos hlt, bind_ok (getHandle_run h), bind_ok (index_run hk),
    bind_ok (writeBlocknum_full hnone hfull)]
  rfl

theorem writeLoop_next (hp : Placed ino k b fs ino₁ fs₁) (hhas : fs₁.Has b) {jump : Nat}
    (hjump : min (blocksize - ((fs.handles h).offset % blocksize).toNat) (nbytes - write).toNat =
      jump) (fuel : Nat) :
    writeLoop h buf nbytes (fuel + 1) ino write fs =
      writeLoop h buf nbytes fuel ino₁ (write + jump) (fs₁.store h b jump buf write) := by
  rw [writeLoop, if_pos hlt, bind_ok (getHandle_run h), bind_ok (index_run hk), bind_ok hp.run]
  dsimp only
  rw [bind_ok (readDataBlock_run rfl hhas), bind_ok (writeDataBlock_run _ rfl), hjump,
    ← hp.handles, bind_ok (setHandle_run _ _)]
  rfl

theorem writeLoop_short (hp : Placed ino k b fs ino₁ fs₁) (hshort : ¬fs₁.Has b) (fuel : Nat) :
    writeLoop h buf nbytes (fuel + 1) ino write fs =
      .error .shortRead (fs₁.logged (.read b.val)) := by
  rw [writeLoop, if_pos hlt, bind_ok (getHandle_run h), bind_ok (index_run hk), bind_ok hp.run]
  exact bind_error (readDataBlock_run_short hshort)

end Round

end Os20.Ssufs
