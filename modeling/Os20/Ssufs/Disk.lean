import Mathlib.Data.List.FinRange
import Os20.Ssufs.Layout

/-!
# `ssufs-disk.c`: blocks, inodes and free lists

The functions run in a state monad over the disk file and `file_handle_array`.  A failed
`assert` ends the run; so does an access that C leaves undefined, an index outside an
array or a negative file offset.  Memory that the program leaves uninitialised holds
bytes of an arbitrary stream.

`accesses` is no part of the program: it records the block numbers that a call passes to
`ssufs_readDataBlock` and `ssufs_writeDataBlock`.
-/

namespace Os20.Ssufs

open Os20.Lib.Bytes

/-- Why a call does not return. -/
inductive Abort
  /-- `assert(inodenum < NUM_INODES)` -/
  | inodenum
  /-- `assert(superblock->inode_freelist[inodenum] == INODE_IN_USE)` -/
  | inodeInUse
  /-- `assert(superblock->datablock_freelist[blocknum] == DATA_BLOCK_USED)` -/
  | blockUsed
  /-- `assert(blocknum < NUM_DATA_BLOCKS)` -/
  | blocknum
  /-- `assert(ret == ...)` after a `read` -/
  | shortRead
  /-- An undefined access. -/
  | outOfBounds
  /-- A loop that did not end; no call ends so. -/
  | fuel
  deriving DecidableEq, Repr

abbrev Block := Fin blocksize → UInt8

inductive Access
  | read (blocknum : Int)
  | write (blocknum : Int)
  deriving DecidableEq, Repr

/-- The file `ssufs` after formatting: the superblock and the inode table are in it. -/
structure Disk where
  file : ByteFile
  tables : 320 ≤ file.length

namespace Disk

def write (d : Disk) (off : Nat) (bs : List UInt8) : Disk where
  file := d.file.pwrite off bs
  tables := Nat.le_trans d.tables (Nat.le_max_left _ _)

end Disk

structure Fs where
  disk : Disk
  /-- `file_handle_array` -/
  handles : Fin maxOpenFiles → FileHandle
  /-- What uninitialised memory will be found to hold. -/
  junk : Nat → UInt8
  accesses : List Access

/-- A call keeps the state it reached when it aborts. -/
abbrev M := EStateM Abort Fs

/-! ## System calls and language -/

def check (p : Prop) [Decidable p] (a : Abort) : M Unit :=
  if p then pure () else throw a

/-- An array access `array[n]`. -/
def index (n : Int) (bound : Nat) : M (Fin bound) :=
  if h : 0 ≤ n ∧ n < bound then pure ⟨n.toNat, by omega⟩ else throw .outOfBounds

/-- `lseek` and `read`, with the `assert` on the number of bytes. -/
def readAt (off : Int) (n : Nat) : M (List UInt8) := fun fs =>
  if off < 0 then .error .outOfBounds fs
  else
    let buf := fs.disk.file.pread off.toNat n
    if buf.length = n then .ok buf fs else .error .shortRead fs

def writeAt (off : Int) (buf : List UInt8) : M Unit := fun fs =>
  if off < 0 then .error .outOfBounds fs
  else .ok () { fs with disk := fs.disk.write off.toNat buf }

/-- The next `n` bytes of uninitialised memory. -/
def uninitialised (n : Nat) : M (List UInt8) := fun fs =>
  .ok (List.ofFn fun k : Fin n => fs.junk k) { fs with junk := fun k => fs.junk (n + k) }

def log (a : Access) : M Unit :=
  modify fun fs => { fs with accesses := a :: fs.accesses }

/-- `strcmp(inode.name, filename) == 0`.  The comparison runs on into the fields behind
the name when the name fills its array. -/
def strcmpName (inode : Inode) (filename : List UInt8) : Bool :=
  (filename ++ [0]).isPrefixOf (inode.encode.drop 4)

/-! ## The superblock -/

def readSuperBlock : M Superblock := do
  let tempBuf ← readAt 0 blocksize
  return Superblock.decode tempBuf

/-- `ssufs_writeSuperBlock`: the end of the block is uninitialised. -/
def writeSuperBlock (superblock : Superblock) : M Unit := do
  let rest ← uninitialised 18
  writeAt 0 (superblock.encode ++ rest)

/-! ## Inodes -/

def readInode (inodenum : Int) : M Inode := do
  check (inodenum < numInodes) .inodenum
  let tempBuf ← readAt (blocksize + inodenum * 32) 32
  return Inode.decode tempBuf

def writeInode (inodenum : Int) (inode : Inode) : M Unit := do
  check (inodenum < numInodes) .inodenum
  writeAt (blocksize + inodenum * 32) inode.encode

def allocInode : M Int := do
  let superblock ← readSuperBlock
  match (List.finRange numInodes).find? fun i => superblock.inodeFreelist i = free with
  | some i =>
      writeSuperBlock (superblock.setInode i used)
      return i
  | none => return -1

/-! ## Data blocks -/

def allocDataBlock : M Int := do
  let superblock ← readSuperBlock
  match (List.finRange numDataBlocks).find? fun b => superblock.datablockFreelist b = free with
  | some b =>
      writeSuperBlock (superblock.setBlock b used)
      return b
  | none => return -1

def freeDataBlock (blocknum : Int) : M Unit := do
  let superblock ← readSuperBlock
  let b ← index blocknum numDataBlocks
  check (superblock.datablockFreelist b = used) .blockUsed
  writeSuperBlock (superblock.setBlock b free)

def readDataBlock (blocknum : Int) : M Block := do
  log (.read blocknum)
  check (blocknum < numDataBlocks) .blocknum
  let tempBuf ← readAt (blocksize * (5 + blocknum)) blocksize
  return fun k => tempBuf.getD k 0

def writeDataBlock (blocknum : Int) (buf : Block) : M Unit := do
  log (.write blocknum)
  check (blocknum < numDataBlocks) .blocknum
  writeAt (blocksize * (5 + blocknum)) (List.ofFn buf)

/-- The loop of `ssufs_freeInode` over the direct blocks.  Every block is freed through the
disk: the local superblock is written, changed there, and read back. -/
def freeDirectBlocks : List (Fin maxFileSize) → Superblock → Inode → M (Superblock × Inode)
  | [], superblock, inode => return (superblock, inode)
  | k :: ks, superblock, inode => do
      if inode.directBlocks k ≠ -1 then
        writeSuperBlock superblock
        freeDataBlock (inode.directBlocks k)
        let superblock ← readSuperBlock
        freeDirectBlocks ks superblock (inode.setBlock k (-1))
      else
        freeDirectBlocks ks superblock (inode.setBlock k (-1))

def freeInode (inodenum : Int) : M Unit := do
  check (inodenum < numInodes) .inodenum
  let superblock ← readSuperBlock
  let inode ← readInode inodenum
  let i ← index inodenum numInodes
  check (superblock.inodeFreelist i = used) .inodeInUse
  let (superblock, inode) ← freeDirectBlocks (List.finRange maxFileSize)
    (superblock.setInode i free) { inode with status := free.toNat, fileSize := 0 }
  writeSuperBlock superblock
  writeInode inodenum inode

/-! ## Names -/

/-- The loop of `open_namei`. -/
def openNameiFrom (superblock : Superblock) (filename : List UInt8) : List (Fin numInodes) → M Int
  | [] => return -1
  | i :: is =>
      if superblock.inodeFreelist i = used then do
        let tmp ← readInode i
        if strcmpName tmp filename then return i
        openNameiFrom superblock filename is
      else
        openNameiFrom superblock filename is

def openNamei (filename : List UInt8) : M Int := do
  if filename.length > maxNameStrlen then return -1
  let superblock ← readSuperBlock
  openNameiFrom superblock filename (List.finRange numInodes)

/-! ## Formatting -/

/-- `memcpy` of some bytes to the start of a name that `malloc` left uninitialised. -/
def copyName (bs : List UInt8) (junk : Nat → UInt8) : Fin maxNameStrlen → UInt8 :=
  fun k => bs.getD k (junk k)

/-- The superblock that `ssufs_formatDisk` writes; of the eight bytes copied to its name
only six belong to the string. -/
def formatSuperblock (junk : Nat → UInt8) : Superblock where
  name := copyName [115, 115, 117, 102, 115, 0] junk
  inodeFreelist _ := free
  datablockFreelist _ := free

/-- The inode that `ssufs_formatDisk` writes to every slot. -/
def formatInode (junk : Nat → UInt8) : Inode where
  status := free.toNat
  name := copyName [0] junk
  fileSize := 0
  directBlocks _ := -1

def formatInodes (inode : Inode) (file : ByteFile) : List (Fin numInodes) → ByteFile
  | [] => file
  | i :: is => formatInodes inode (file.pwrite (blocksize + i * 32) inode.encode) is

/-- The file that `ssufs_formatDisk` leaves, from the uninitialised bytes of the superblock,
of the rest of its block, and of the inode. -/
def formatFile (junk : Nat → UInt8) : ByteFile :=
  formatInodes (formatInode fun k => junk (26 + k))
    (ByteFile.empty.pwrite 0
      ((formatSuperblock junk).encode ++ List.ofFn fun k : Fin 18 => junk (8 + k)))
    (List.finRange numInodes)

theorem length_formatInodes (inode : Inode) (file : ByteFile) (is : List (Fin numInodes)) :
    file.length ≤ (formatInodes inode file is).length ∧
      ∀ i ∈ is, blocksize + i * 32 + 32 ≤ (formatInodes inode file is).length := by
  induction is generalizing file with
  | nil => simp [formatInodes]
  | cons i is ih =>
      obtain ⟨hlen, hmem⟩ := ih (file.pwrite (blocksize + i * 32) inode.encode)
      rw [ByteFile.length_pwrite, Inode.length_encode] at hlen
      refine ⟨Nat.le_trans (Nat.le_max_left _ _) hlen, ?_⟩
      intro j hj
      rcases List.mem_cons.mp hj with rfl | hj
      · exact Nat.le_trans (Nat.le_max_right _ _) hlen
      · exact hmem j hj

def formatDisk (junk : Nat → UInt8) : Fs where
  disk :=
    { file := formatFile junk
      tables := (length_formatInodes _ _ _).2 7 (List.mem_finRange 7) }
  handles _ := { offset := 0, inodeNumber := -1 }
  junk k := junk (34 + k)
  accesses := []

end Os20.Ssufs
