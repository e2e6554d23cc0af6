import Mathlib.Data.Finset.Card
import Mathlib.Data.Fintype.Basic
import Os20.Lib.Transition
import Os20.Ssufs.Disk

/-!
# `ssufs-ops.c`: files and handles

A call comes with what its caller promises: a name is a string without NUL, a handle is
an index of `file_handle_array`, and a buffer to be written holds the bytes asked for.
-/

namespace Os20.Ssufs

open Os20.Lib.Transition

/-- The characters of a C string. -/
structure Filename where
  bytes : List UInt8
  noNul : 0 ∉ bytes
  deriving DecidableEq

def fileA : Filename := ⟨[97], by decide⟩
def fileB : Filename := ⟨[98], by decide⟩

abbrev Handle := Fin maxOpenFiles

def getHandle (fileHandle : Handle) : M FileHandle := fun fs =>
  .ok (fs.handles fileHandle) fs

def setHandle (fileHandle : Handle) (fh : FileHandle) : M Unit := fun fs =>
  .ok () { fs with handles := Function.update fs.handles fileHandle fh }

/-! ## Handles and names -/

/-- The slot that `ssufs_allocFileHandle` takes. -/
def firstClosed (handles : Handle → FileHandle) : Option Handle :=
  (List.finRange maxOpenFiles).find? fun h => (handles h).inodeNumber = -1

/-- `ssufs_allocFileHandle`: the slot is bound to the inode with the slot's own number. -/
def allocFileHandle : M Int := do
  match firstClosed (← get).handles with
  | some i =>
      setHandle i { offset := 0, inodeNumber := i }
      return i
  | none => return -1

/-- `strncpy(inode.name, filename, 8)` -/
def strncpyName (filename : List UInt8) : Fin maxNameStrlen → UInt8 :=
  fun k => filename.getD k 0

def create (filename : Filename) : M Int := do
  let inodeIdx ← allocInode
  if inodeIdx = -1 then return -1
  let inode ← readInode inodeIdx
  writeInode inodeIdx
    { inode with status := used.toNat, name := strncpyName filename.bytes }
  return inodeIdx

def delete (filename : Filename) : M Unit := do
  let inodeIdx ← openNamei filename.bytes
  if inodeIdx = -1 then return
  freeInode inodeIdx

def «open» (filename : Filename) : M Int := do
  let inodeIdx ← openNamei filename.bytes
  if inodeIdx = -1 then return -1
  allocFileHandle

def close (fileHandle : Handle) : M Unit :=
  setHandle fileHandle { offset := 0, inodeNumber := -1 }

/-- `ssufs_lseek`.  A sum beyond the range of `int` is rejected like the wrapped one. -/
def lseek (fileHandle : Handle) (nseek : Int) : M Int := do
  let handler ← getHandle fileHandle
  let tmp ← readInode handler.inodeNumber
  let offset := handler.offset + nseek
  if tmp.fileSize = -1 ∨ offset < 0 ∨ offset > tmp.fileSize then return -1
  setHandle fileHandle { handler with offset := offset }
  return 0

/-! ## Reading -/

def blocksInUse (inode : Inode) : Nat :=
  (Finset.univ.filter fun k => inode.directBlocks k ≠ -1).card

/-- The loop of `ssufs_read`; `buf` is what has been stored so far. -/
def readLoop (fileHandle : Handle) (inode : Inode) (nbytes : Int) :
    Nat → List UInt8 → M (Int × List UInt8)
  | 0, buf => if buf.length < nbytes then throw .fuel else return (0, buf)
  | fuel + 1, buf =>
      if buf.length < nbytes then do
        let handler ← getHandle fileHandle
        let block ← index (handler.offset / blocksize) maxFileSize
        let off := (handler.offset % blocksize).toNat
        let tmp ← readDataBlock (inode.directBlocks block)
        let jump := min (blocksize - off) (nbytes - buf.length).toNat
        let buf := buf ++ ((List.ofFn tmp).drop off).take jump
        if (← lseek fileHandle jump) < 0 then return (-1, buf)
        readLoop fileHandle inode nbytes fuel buf
      else return (0, buf)

/-- `ssufs_read`, with the bytes it stores in the caller's buffer. -/
def read (fileHandle : Handle) (nbytes : Int) : M (Int × List UInt8) := do
  let handler ← getHandle fileHandle
  if handler.inodeNumber = -1 then return (-1, [])
  let inode ← readInode handler.inodeNumber
  if inode.fileSize < nbytes then return (-1, [])
  if blocksize * blocksInUse inode - handler.offset < nbytes then return (-1, [])
  readLoop fileHandle inode nbytes nbytes.toNat []

/-! ## Writing -/

/-- `memcpy(&tmp[off], &buf[write], jump)` -/
def splice (tmp : Block) (off jump : Nat) (buf : List UInt8) (write : Nat) : Block :=
  fun k => if off ≤ k ∧ k < off + jump then buf.getD (write + (k - off)) 0 else tmp k

/-- `inode.file_size += BLOCKSIZE` and `inode.direct_blocks[block] = blocknum` -/
def Inode.grow (inode : Inode) (block : Fin maxFileSize) (blocknum : Int) : Inode where
  status := inode.status
  name := inode.name
  fileSize := inode.fileSize + blocksize
  directBlocks := Function.update inode.directBlocks block blocknum

/-- One round of the loop of `ssufs_write`, up to the point where the block to be filled is
known: the block number and the local inode, or nothing when the call returns -1. -/
def writeBlocknum (inode : Inode) (block : Fin maxFileSize) : M (Option (Int × Inode)) := do
  let blocknum := inode.directBlocks block
  if blocknum = -1 then
    let blocknum ← allocDataBlock
    if blocknum = -1 then return none
    writeDataBlock blocknum fun _ => 0
    return some (blocknum, inode.grow block blocknum)
  else return some (blocknum, inode)

/-- The loop of `ssufs_write`: the local inode at its end, or nothing when the call
returns -1 from inside. -/
def writeLoop (fileHandle : Handle) (buf : List UInt8) (nbytes : Int) :
    Nat → Inode → Nat → M (Option Inode)
  | 0, inode, write => if write < nbytes then throw .fuel else return some inode
  | fuel + 1, inode, write =>
      if write < nbytes then do
        let handler ← getHandle fileHandle
        let block ← index (handler.offset / blocksize) maxFileSize
        let off := (handler.offset % blocksize).toNat
        match ← writeBlocknum inode block with
        | none => return none
        | some (blocknum, inode) =>
            let tmp ← readDataBlock blocknum
            let jump := min (blocksize - off) (nbytes - write).toNat
            writeDataBlock blocknum (splice tmp off jump buf write)
            setHandle fileHandle { handler with offset := handler.offset + jump }
            writeLoop fileHandle buf nbytes fuel inode (write + jump)
      else return some inode

def write (fileHandle : Handle) (buf : List UInt8) (nbytes : Int) : M Int := do
  let handler ← getHandle fileHandle
  if handler.inodeNumber = -1 then return -1
  let inode ← readInode handler.inodeNumber
  if blocksize * 4 - handler.offset < nbytes then return -1
  match ← writeLoop fileHandle buf nbytes nbytes.toNat inode 0 with
  | none => return -1
  | some inode =>
      writeInode handler.inodeNumber inode
      return 0

/-! ## Runs -/

inductive Call
  | create (filename : Filename)
  | delete (filename : Filename)
  | open (filename : Filename)
  | close (fileHandle : Handle)
  | read (fileHandle : Handle) (nbytes : Int)
  | write (fileHandle : Handle) (buf : List UInt8) (nbytes : Int) (hbuf : nbytes ≤ buf.length)
  | lseek (fileHandle : Handle) (nseek : Int)

def Call.exec : Call → M Unit
  | .create filename => discard (Ssufs.create filename)
  | .delete filename => Ssufs.delete filename
  | .open filename => discard (Ssufs.open filename)
  | .close fileHandle => Ssufs.close fileHandle
  | .read fileHandle nbytes => discard (Ssufs.read fileHandle nbytes)
  | .write fileHandle buf nbytes _ => discard (Ssufs.write fileHandle buf nbytes)
  | .lseek fileHandle nseek => discard (Ssufs.lseek fileHandle nseek)

def Fs.cleared (fs : Fs) : Fs := { fs with accesses := [] }

/-- A call from `fs`, with the recorded accesses of this call only. -/
def outcome (fs : Fs) (c : Call) : EStateM.Result Abort Fs Unit := c.exec fs.cleared

/-- The block accesses of a call, whether it returns or aborts. -/
def issued (fs : Fs) (c : Call) : List Access :=
  match outcome fs c with
  | .ok _ fs' => fs'.accesses
  | .error _ fs' => fs'.accesses

/-- `ssufs_formatDisk` and then any calls, up to one that aborts. -/
def system : System Fs Call where
  init fs := ∃ junk, fs = formatDisk junk
  next fs c :=
    match outcome fs c with
    | .ok _ fs' => some fs'
    | .error _ _ => none

end Os20.Ssufs
