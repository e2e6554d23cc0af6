import Os20.Ssufs.Ops

/-!
# The disk as cells

The superblock, the inodes and the data blocks occupy disjoint ranges of the file.  This
module reads the file as these cells, and says of each access function of `ssufs-disk.c`
which cell it reads or replaces.
-/

namespace Os20.Ssufs

open Os20.Lib.Bytes

namespace Fs

def super (fs : Fs) : Superblock := Superblock.decode (fs.disk.file.pread 0 64)

def inode (fs : Fs) (i : Fin numInodes) : Inode :=
  Inode.decode (fs.disk.file.pread (64 + i * 32) 32)

def block (fs : Fs) (b : Fin numDataBlocks) : Block :=
  fun k => (fs.disk.file.pread (64 * (5 + b)) 64).getD k 0

def Has (fs : Fs) (b : Fin numDataBlocks) : Prop :=
  64 * (5 + b) + 64 ≤ fs.disk.file.length

def putSuper (fs : Fs) (superblock : Superblock) : Fs :=
  { fs with
    disk := fs.disk.write 0 (superblock.encode ++ List.ofFn fun k : Fin 18 => fs.junk k)
    junk := fun k => fs.junk (18 + k) }

def putInode (fs : Fs) (i : Fin numInodes) (inode : Inode) : Fs :=
  { fs with disk := fs.disk.write (64 + i * 32) inode.encode }

def putBlock (fs : Fs) (b : Fin numDataBlocks) (buf : Block) : Fs :=
  { fs with disk := fs.disk.write (64 * (5 + b)) (List.ofFn buf) }

def putHandle (fs : Fs) (h : Handle) (fh : FileHandle) : Fs :=
  { fs with handles := Function.update fs.handles h fh }

def logged (fs : Fs) (a : Access) : Fs := { fs with accesses := a :: fs.accesses }

/-! ## What the changes leave -/

variable (fs : Fs) (superblock : Superblock) (i j : Fin numInodes) (ino : Inode)
  (b c : Fin numDataBlocks) (buf : Block) (h : Handle) (fh : FileHandle) (a : Access)

@[simp] theorem handles_putSuper : (fs.putSuper superblock).handles = fs.handles := rfl
@[simp] theorem handles_putInode : (fs.putInode i ino).handles = fs.handles := rfl
@[simp] theorem handles_putHandle :
    (fs.putHandle h fh).handles = Function.update fs.handles h fh := rfl
@[simp] theorem handles_logged : (fs.logged a).handles = fs.handles := rfl

@[simp] theorem accesses_putSuper : (fs.putSuper superblock).accesses = fs.accesses := rfl
@[simp] theorem accesses_putInode : (fs.putInode i ino).accesses = fs.accesses := rfl
@[simp] theorem accesses_putBlock : (fs.putBlock b buf).accesses = fs.accesses := rfl
@[simp] theorem accesses_logged : (fs.logged a).accesses = a :: fs.accesses := rfl

@[simp] theorem super_logged : (fs.logged a).super = fs.super := rfl
@[simp] theorem inode_logged : (fs.logged a).inode = fs.inode := rfl
@[simp] theorem block_logged : (fs.logged a).block = fs.block := rfl
@[simp] theorem has_logged : (fs.logged a).Has b ↔ fs.Has b := Iff.rfl

@[simp] theorem super_putSuper : (fs.putSuper superblock).super = superblock := by
  unfold super putSuper Disk.write
  rw [ByteFile.pread_pwrite_self (by simp)]
  exact Superblock.decode_encode_append superblock _

@[simp] theorem super_putInode : (fs.putInode i ino).super = fs.super := by
  have htables := fs.disk.tables
  unfold super putInode Disk.write
  rw [ByteFile.pread_pwrite_of_disjoint (Or.inl (by omega)) (by omega)]

@[simp] theorem super_putBlock : (fs.putBlock b buf).super = fs.super := by
  have htables := fs.disk.tables
  unfold super putBlock Disk.write
  rw [ByteFile.pread_pwrite_of_disjoint (Or.inl (by omega)) (by omega)]

@[simp] theorem inode_putSuper : (fs.putSuper superblock).inode = fs.inode := by
  have htables := fs.disk.tables
  funext i
  have hi : i.val < 8 := i.isLt
  unfold inode putSuper Disk.write
  rw [ByteFile.pread_pwrite_of_disjoint (Or.inr (by simp)) (by omega)]

@[simp] theorem inode_putBlock : (fs.putBlock b buf).inode = fs.inode := by
  have htables := fs.disk.tables
  funext i
  have hi : i.val < 8 := i.isLt
  unfold inode putBlock Disk.write
  rw [ByteFile.pread_pwrite_of_disjoint (Or.inl (by omega)) (by omega)]

variable {fs i j ino b c}

theorem inode_putInode (hfits : ino.Fits) :
    (fs.putInode i ino).inode = Function.update fs.inode i ino := by
  have htables := fs.disk.tables
  funext j
  by_cases hij : j = i
  · subst hij
    rw [Function.update_self]
    unfold inode putInode Disk.write
    rw [ByteFile.pread_pwrite_self (by simp)]
    exact Inode.decode_encode hfits
  · rw [Function.update_of_ne hij]
    have hne : j.val ≠ i.val := fun heq => hij (Fin.ext heq)
    have hj : j.val < 8 := j.isLt
    unfold inode putInode Disk.write
    rw [ByteFile.pread_pwrite_of_disjoint (by rw [Inode.length_encode]; omega) (by omega)]

theorem inode_putInode_self (hfits : ino.Fits) : (fs.putInode i ino).inode i = ino := by
  rw [inode_putInode hfits, Function.update_self]

theorem inode_putInode_of_ne (hfits : ino.Fits) (hj : j ≠ i) :
    (fs.putInode i ino).inode j = fs.inode j := by
  rw [inode_putInode hfits, Function.update_of_ne hj]

theorem forall_putHandle {h : Handle} {fh : FileHandle} {P : FileHandle → Prop} (hnew : P fh)
    (hold : ∀ h', P (fs.handles h')) (h' : Handle) : P ((fs.putHandle h fh).handles h') := by
  rw [handles_putHandle]
  by_cases hh : h' = h
  · rw [hh, Function.update_self]
    exact hnew
  · rw [Function.update_of_ne hh]
    exact hold h'

@[simp] theorem has_putSuper : (fs.putSuper superblock).Has b ↔ fs.Has b := by
  have htables := fs.disk.tables
  unfold Has putSuper Disk.write
  simp only [ByteFile.length_pwrite, List.length_append, Superblock.length_encode,
    List.length_ofFn]
  omega

@[simp] theorem has_putInode : (fs.putInode i ino).Has b ↔ fs.Has b := by
  have htables := fs.disk.tables
  have hi : i.val < 8 := i.isLt
  unfold Has putInode Disk.write
  simp only [ByteFile.length_pwrite, Inode.length_encode]
  omega

theorem has_putBlock_self : (fs.putBlock b buf).Has b := by
  unfold Has putBlock Disk.write
  simp only [ByteFile.length_pwrite, List.length_ofFn]
  exact Nat.le_max_right _ _

theorem Has.putBlock (hb : fs.Has b) : (fs.putBlock c buf).Has b := by
  unfold Has at hb ⊢
  unfold Fs.putBlock Disk.write
  rw [ByteFile.length_pwrite]
  omega

@[simp] theorem block_putSuper : (fs.putSuper superblock).block = fs.block := by
  funext b k
  exact ByteFile.getD_pread_pwrite_of_disjoint (Or.inr (by simp; omega)) k

@[simp] theorem block_putInode : (fs.putInode i ino).block = fs.block := by
  have hi : i.val < 8 := i.isLt
  funext b k
  exact ByteFile.getD_pread_pwrite_of_disjoint (Or.inr (by simp; omega)) k

theorem block_putBlock_self : (fs.putBlock b buf).block b = buf := by
  funext k
  unfold block putBlock Disk.write
  rw [ByteFile.pread_pwrite_self (by simp)]
  have hget := getD_ofFn_append buf [] k
  rwa [List.append_nil] at hget

theorem block_putBlock_of_ne (hbc : b ≠ c) : (fs.putBlock c buf).block b = fs.block b := by
  have hne : b.val ≠ c.val := fun heq => hbc (Fin.ext heq)
  funext k
  refine ByteFile.getD_pread_pwrite_of_disjoint ?_ k
  simp only [List.length_ofFn, blocksize]
  omega

theorem fits_inode (fs : Fs) (i : Fin numInodes) : (fs.inode i).Fits := Inode.fits_decode _

end Fs

/-! ## The access functions -/

section Run

variable {α β : Type} {fs fs' : Fs}

theorem bind_ok {x : M α} {f : α → M β} {r : α} (hx : x fs = .ok r fs') :
    (x >>= f) fs = f r fs' := by
  change EStateM.bind x f fs = f r fs'
  rw [EStateM.bind, hx]

theorem bind_error {x : M α} {f : α → M β} {e : Abort} (hx : x fs = .error e fs') :
    (x >>= f) fs = .error e fs' := by
  change EStateM.bind x f fs = _
  rw [EStateM.bind, hx]

@[simp] theorem pure_run (r : α) : (pure r : M α) fs = .ok r fs := rfl

theorem discard_ok {x : M α} {r : α} (hx : x fs = .ok r fs') : discard x fs = .ok () fs' := by
  change EStateM.map _ x fs = _
  rw [EStateM.map, hx]

theorem discard_error {x : M α} {e : Abort} (hx : x fs = .error e fs') :
    discard x fs = .error e fs' := by
  change EStateM.map _ x fs = _
  rw [EStateM.map, hx]

theorem check_run {p : Prop} [Decidable p] {a : Abort} (hp : p) : check p a fs = .ok () fs := by
  rw [check, if_pos hp]
  rfl

theorem check_run_not {p : Prop} [Decidable p] {a : Abort} (hp : ¬p) :
    check p a fs = .error a fs := by
  rw [check, if_neg hp]
  rfl

theorem index_run {n : Int} {bound : Nat} {i : Fin bound} (hi : n = i.val) :
    index n bound fs = .ok i fs := by
  subst hi
  have hlt := i.isLt
  rw [index, dif_pos (by omega)]
  rfl

theorem index_run_not {n : Int} {bound : Nat} (hn : ∀ i : Fin bound, n ≠ i.val) :
    index n bound fs = .error .outOfBounds fs := by
  rw [index, dif_neg]
  · rfl
  · rintro ⟨hnonneg, hlt⟩
    exact hn ⟨n.toNat, by omega⟩ (Int.toNat_of_nonneg hnonneg).symm

theorem readAt_run {off : Int} {n : Nat} (hoff : 0 ≤ off)
    (hlen : off.toNat + n ≤ fs.disk.file.length) :
    readAt off n fs = .ok (fs.disk.file.pread off.toNat n) fs := by
  rw [readAt, if_neg (by omega)]
  dsimp only
  rw [if_pos (ByteFile.length_pread_of_le hlen)]

theorem writeAt_run {off : Int} {bs : List UInt8} (hoff : 0 ≤ off) :
    writeAt off bs fs = .ok () { fs with disk := fs.disk.write off.toNat bs } := by
  rw [writeAt, if_neg (by omega)]

theorem readSuperBlock_run : readSuperBlock fs = .ok fs.super fs := by
  have htables := fs.disk.tables
  rw [readSuperBlock, bind_ok (readAt_run (Int.le_refl 0) (by simp [blocksize]; omega))]
  rfl

theorem writeSuperBlock_run (superblock : Superblock) :
    writeSuperBlock superblock fs = .ok () (fs.putSuper superblock) := rfl

theorem readInode_run {n : Int} {i : Fin numInodes} (hi : n = i.val) :
    readInode n fs = .ok (fs.inode i) fs := by
  subst hi
  have htables := fs.disk.tables
  have hlt : i.val < 8 := i.isLt
  have hoff : ((blocksize : Int) + (i.val : Int) * 32).toNat = 64 + i.val * 32 := by
    unfold blocksize
    omega
  rw [readInode, bind_ok (check_run (by omega)),
    bind_ok (readAt_run (by omega) (by rw [hoff]; omega)), hoff]
  rfl

theorem readInode_run_abort {n : Int} (hn : (numInodes : Int) ≤ n) :
    readInode n fs = .error .inodenum fs := by
  rw [readInode, bind_error (check_run_not (by omega))]

/-- The number of a closed handle reads the second half of the superblock's block. -/
theorem readInode_run_closed (fs : Fs) :
    readInode (-1) fs = .ok (Inode.decode (fs.disk.file.pread 32 32)) fs := by
  have htables := fs.disk.tables
  rw [readInode, bind_ok (check_run (by decide)),
    bind_ok (readAt_run (by decide) (by simp [blocksize]; omega))]
  rfl

theorem writeInode_run {n : Int} {i : Fin numInodes} (ino : Inode) (hi : n = i.val) :
    writeInode n ino fs = .ok () (fs.putInode i ino) := by
  subst hi
  have hlt : i.val < 8 := i.isLt
  have hoff : ((blocksize : Int) + (i.val : Int) * 32).toNat = 64 + i.val * 32 := by
    unfold blocksize
    omega
  rw [writeInode, bind_ok (check_run (by omega)), writeAt_run (by omega), hoff]
  rfl

theorem log_run (a : Access) : log a fs = .ok () (fs.logged a) := rfl

theorem readDataBlock_run {n : Int} {b : Fin numDataBlocks} (hb : n = b.val) (hhas : fs.Has b) :
    readDataBlock n fs = .ok (fs.block b) (fs.logged (.read n)) := by
  subst hb
  have hlt : b.val < 30 := b.isLt
  unfold Fs.Has at hhas
  have hoff : ((blocksize : Int) * (5 + (b.val : Int))).toNat = 64 * (5 + b.val) := by
    unfold blocksize
    omega
  rw [readDataBlock, bind_ok (log_run _), bind_ok (check_run (by omega)),
    bind_ok (readAt_run (by unfold blocksize; omega) (by rw [hoff]; exact hhas)), hoff]
  rfl

theorem readDataBlock_run_short {b : Fin numDataBlocks} (hshort : ¬fs.Has b) :
    readDataBlock b.val fs = .error .shortRead (fs.logged (.read b.val)) := by
  have hlt : b.val < 30 := b.isLt
  have hread : readAt (blocksize * (5 + (b.val : Int))) blocksize (fs.logged (.read b.val)) =
      .error .shortRead (fs.logged (.read b.val)) := by
    have htables := fs.disk.tables
    change ¬64 * (5 + b.val) + 64 ≤ fs.disk.file.length at hshort
    rw [readAt, if_neg (by unfold blocksize; omega)]
    dsimp only
    rw [if_neg]
    rw [ByteFile.length_pread]
    change min 64 (fs.disk.file.length - (64 * (5 + (b.val : Int))).toNat) ≠ 64
    omega
  rw [readDataBlock, bind_ok (log_run _), bind_ok (check_run (by omega)), bind_error hread]

theorem writeDataBlock_run {n : Int} {b : Fin numDataBlocks} (buf : Block) (hb : n = b.val) :
    writeDataBlock n buf fs = .ok () ((fs.logged (.write n)).putBlock b buf) := by
  subst hb
  have hlt : b.val < 30 := b.isLt
  have hoff : ((blocksize : Int) * (5 + (b.val : Int))).toNat = 64 * (5 + b.val) := by
    unfold blocksize
    omega
  rw [writeDataBlock, bind_ok (log_run _), bind_ok (check_run (by omega)),
    writeAt_run (by unfold blocksize; omega), hoff]
  rfl

theorem getHandle_run (h : Handle) : getHandle h fs = .ok (fs.handles h) fs := rfl

theorem setHandle_run (h : Handle) (fh : FileHandle) :
    setHandle h fh fs = .ok () (fs.putHandle h fh) := rfl

end Run

end Os20.Ssufs
