import Os20.Ssufs.Sound

/-!
# Independent cells

The superblock, every inode and every data block are cells with a read and a write function
of their own.  Over any sequence of writes after `ssufs_formatDisk` they behave like the
entries of a store: a cell reads as the value last written to it.
-/

namespace Os20.Ssufs

open Os20.Lib.Bytes

/-- A part of the disk that is read and written as one value. -/
inductive Cell
  | super
  | inode (i : Fin numInodes)
  | block (b : Fin numDataBlocks)
  deriving DecidableEq

namespace Cell

def Value : Cell → Type
  | .super => Superblock
  | .inode _ => Inode
  | .block _ => Block

/-- `ssufs_readSuperBlock`, `ssufs_readInode` and `ssufs_readDataBlock` -/
def read : (c : Cell) → M c.Value
  | .super => readSuperBlock
  | .inode i => readInode i
  | .block b => readDataBlock b

/-- `ssufs_writeSuperBlock`, `ssufs_writeInode` and `ssufs_writeDataBlock` -/
def write : (c : Cell) → c.Value → M Unit
  | .super => writeSuperBlock
  | .inode i => writeInode i
  | .block b => writeDataBlock b

/-- The value is one that its C structure can have. -/
def Fits : (c : Cell) → c.Value → Prop
  | .super => fun _ => True
  | .inode _ => Inode.Fits
  | .block _ => fun _ => True

end Cell

structure Write where
  cell : Cell
  value : cell.Value
  fits : cell.Fits value

def Write.exec (w : Write) : M Unit := w.cell.write w.value

def execAll : List Write → M Unit
  | [] => pure ()
  | w :: ws => do
      w.exec
      execAll ws

/-! ## The abstract store -/

/-- The value last written to each cell, if there is one. -/
abbrev Store := (c : Cell) → Option c.Value

def Store.put (s : Store) (w : Write) : Store := Function.update s w.cell (some w.value)

def Store.formatted (junk : Nat → UInt8) : Store
  | .super => some (formatSuperblock junk)
  | .inode _ => some (formatInode fun k => junk (26 + k))
  | .block _ => none

/-- Reading the cell returns the value, with its `assert` holding, and writes nothing. -/
def Fs.Reads (fs : Fs) (c : Cell) (v : c.Value) : Prop :=
  ∃ fs', c.read fs = .ok v fs' ∧ fs'.disk = fs.disk

/-- Every cell that has been written reads as the store has it. -/
def Fs.Represents (fs : Fs) (s : Store) : Prop :=
  ∀ c v, s c = some v → fs.Reads c v

/-- The write succeeds, its cell reads as the value written, and what could be read of any
other cell is read of it still. -/
def Fs.WritesAlone (fs : Fs) (w : Write) : Prop :=
  ∃ fs', w.exec fs = .ok () fs' ∧ fs'.Reads w.cell w.value ∧
    ∀ c, c ≠ w.cell → ∀ v, fs.Reads c v → fs'.Reads c v

variable {fs fs' : Fs} {s : Store} {w : Write}

/-! ## What the cells hold -/

theorem reads_iff_of_run {c : Cell} {v₀ : c.Value} (hrun : c.read fs = .ok v₀ fs')
    (hdisk : fs'.disk = fs.disk) (v : c.Value) : fs.Reads c v ↔ v₀ = v := by
  unfold Fs.Reads
  rw [hrun]
  constructor
  · rintro ⟨fs'', heq, -⟩
    exact (EStateM.Result.ok.inj heq).1
  · rintro rfl
    exact ⟨fs', rfl, hdisk⟩

theorem reads_super_iff (v : Cell.super.Value) : fs.Reads .super v ↔ fs.super = v := by
  have hrun : Cell.super.read fs = .ok fs.super fs := readSuperBlock_run
  exact reads_iff_of_run hrun rfl v

theorem reads_inode_iff (i : Fin numInodes) (v : (Cell.inode i).Value) :
    fs.Reads (.inode i) v ↔ fs.inode i = v := by
  have hrun : (Cell.inode i).read fs = .ok (fs.inode i) fs := readInode_run rfl
  exact reads_iff_of_run hrun rfl v

theorem reads_block_iff (b : Fin numDataBlocks) (v : (Cell.block b).Value) :
    fs.Reads (.block b) v ↔ fs.Has b ∧ fs.block b = v := by
  by_cases hhas : fs.Has b
  · have hrun : (Cell.block b).read fs = .ok (fs.block b) (fs.logged (.read b)) :=
      readDataBlock_run rfl hhas
    exact (reads_iff_of_run hrun rfl v).trans (and_iff_right hhas).symm
  · have hrun : (Cell.block b).read fs = .error .shortRead (fs.logged (.read b)) :=
      readDataBlock_run_short hhas
    unfold Fs.Reads
    rw [hrun]
    constructor
    · rintro ⟨fs', heq, -⟩
      cases heq
    · rintro ⟨hhas', -⟩
      exact absurd hhas' hhas

/-! ## One write -/

theorem writesAlone_super (fs : Fs) (superblock : Superblock) :
    fs.WritesAlone ⟨.super, superblock, trivial⟩ := by
  refine ⟨_, writeSuperBlock_run superblock, (reads_super_iff _).mpr (Fs.super_putSuper _ _), ?_⟩
  intro c hc v hreads
  cases c with
  | super => exact absurd rfl hc
  | inode i =>
      rw [reads_inode_iff] at hreads ⊢
      rw [Fs.inode_putSuper]
      exact hreads
  | block b =>
      rw [reads_block_iff] at hreads ⊢
      rw [Fs.has_putSuper, Fs.block_putSuper]
      exact hreads

theorem writesAlone_inode (fs : Fs) (i : Fin numInodes) (ino : Inode) (hfits : ino.Fits) :
    fs.WritesAlone ⟨.inode i, ino, hfits⟩ := by
  refine ⟨_, writeInode_run ino rfl, (reads_inode_iff _ _).mpr (Fs.inode_putInode_self hfits), ?_⟩
  intro c hc v hreads
  cases c with
  | super =>
      rw [reads_super_iff] at hreads ⊢
      rw [Fs.super_putInode]
      exact hreads
  | inode j =>
      have hj : j ≠ i := fun heq => hc (congrArg Cell.inode heq)
      rw [reads_inode_iff] at hreads ⊢
      rw [Fs.inode_putInode_of_ne hfits hj]
      exact hreads
  | block b =>
      rw [reads_block_iff] at hreads ⊢
      rw [Fs.has_putInode, Fs.block_putInode]
      exact hreads

theorem writesAlone_block (fs : Fs) (b : Fin numDataBlocks) (buf : Block) :
    fs.WritesAlone ⟨.block b, buf, trivial⟩ := by
  refine ⟨_, writeDataBlock_run buf rfl,
    (reads_block_iff _ _).mpr ⟨Fs.has_putBlock_self _, Fs.block_putBlock_self _⟩, ?_⟩
  intro c hc v hreads
  cases c with
  | super =>
      rw [reads_super_iff] at hreads ⊢
      rw [Fs.super_putBlock, Fs.super_logged]
      exact hreads
  | inode i =>
      rw [reads_inode_iff] at hreads ⊢
      rw [Fs.inode_putBlock, Fs.inode_logged]
      exact hreads
  | block b' =>
      have hb : b' ≠ b := fun heq => hc (congrArg Cell.block heq)
      rw [reads_block_iff] at hreads ⊢
      obtain ⟨hhas, hblock⟩ := hreads
      refine ⟨Fs.Has.putBlock _ ((Fs.has_logged _ _ _).mpr hhas), ?_⟩
      rw [Fs.block_putBlock_of_ne _ hb, Fs.block_logged]
      exact hblock

theorem writesAlone (fs : Fs) (w : Write) : fs.WritesAlone w := by
  obtain ⟨c, v, hfits⟩ := w
  cases c with
  | super => exact writesAlone_super fs v
  | inode i => exact writesAlone_inode fs i v hfits
  | block b => exact writesAlone_block fs b v

/-- A write does to the disk what it does to the store. -/
theorem Fs.Represents.exec (hrep : fs.Represents s) (w : Write) :
    ∃ fs', w.exec fs = .ok () fs' ∧ fs'.Represents (s.put w) := by
  obtain ⟨fs', hrun, hself, hother⟩ := writesAlone fs w
  refine ⟨fs', hrun, ?_⟩
  intro c v hv
  unfold Store.put at hv
  by_cases hc : c = w.cell
  · subst hc
    rw [Function.update_self] at hv
    rw [← Option.some.inj hv]
    exact hself
  · rw [Function.update_of_ne hc] at hv
    exact hother c hc v (hrep c v hv)

/-! ## Sequences of writes -/

theorem represents_formatDisk (junk : Nat → UInt8) :
    (formatDisk junk).Represents (Store.formatted junk) := by
  intro c v hv
  cases c with
  | super =>
      rw [reads_super_iff, super_formatDisk]
      exact Option.some.inj hv
  | inode i =>
      rw [reads_inode_iff, inode_formatDisk]
      exact Option.some.inj hv
  | block b => cases hv

theorem Fs.Represents.execAll (hrep : fs.Represents s) (ws : List Write) :
    ∃ fs', Ssufs.execAll ws fs = .ok () fs' ∧ fs'.Represents (ws.foldl Store.put s) := by
  induction ws generalizing fs s with
  | nil => exact ⟨fs, rfl, hrep⟩
  | cons w ws ih =>
      obtain ⟨fs₁, hrun, hrep₁⟩ := hrep.exec w
      obtain ⟨fs₂, hrest, hrep₂⟩ := ih hrep₁
      refine ⟨fs₂, ?_, hrep₂⟩
      unfold Ssufs.execAll
      rw [bind_ok hrun, hrest]

/-- After any sequence of writes every cell reads as the value last written to it, and a
further write changes what is read of its own cell only. -/
theorem accessors_are_cells (junk : Nat → UInt8) (ws : List Write) :
    ∃ fs, execAll ws (formatDisk junk) = .ok () fs ∧
      fs.Represents (ws.foldl Store.put (Store.formatted junk)) ∧
      ∀ w, fs.WritesAlone w := by
  obtain ⟨fs, hrun, hrep⟩ := (represents_formatDisk junk).execAll ws
  exact ⟨fs, hrun, hrep, writesAlone fs⟩

end Os20.Ssufs
