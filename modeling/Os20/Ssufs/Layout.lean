import Mathlib.Data.List.OfFn
import Mathlib.Logic.Function.Basic
import Os20.Lib.Bytes

/-!
# `ssufs-disk.h`: the records on the disk

The superblock and the inodes as the C structures have them, without padding, and the
bytes they are copied to and from.
-/

namespace Os20.Ssufs

open Os20.Lib.Bytes

abbrev blocksize : Nat := 64

abbrev numDataBlocks : Nat := 30

abbrev numInodes : Nat := 8

/-- `MAX_FILE_SIZE`, the number of direct blocks of an inode. -/
abbrev maxFileSize : Nat := 4

abbrev maxOpenFiles : Nat := 20

abbrev maxNameStrlen : Nat := 8

/-- `INODE_FREE` and `DATA_BLOCK_FREE`, the character `x`. -/
def free : UInt8 := 120

/-- `INODE_IN_USE` and `DATA_BLOCK_USED`, the character `1`. -/
def used : UInt8 := 49

theorem free_ne_used : free ≠ used := by decide

structure Superblock where
  name : Fin maxNameStrlen → UInt8
  inodeFreelist : Fin numInodes → UInt8
  datablockFreelist : Fin numDataBlocks → UInt8

def Superblock.setInode (superblock : Superblock) (i : Fin numInodes) (mark : UInt8) :
    Superblock :=
  { superblock with inodeFreelist := Function.update superblock.inodeFreelist i mark }

def Superblock.setBlock (superblock : Superblock) (b : Fin numDataBlocks) (mark : UInt8) :
    Superblock :=
  { superblock with datablockFreelist := Function.update superblock.datablockFreelist b mark }

structure Inode where
  status : Int
  name : Fin maxNameStrlen → UInt8
  fileSize : Int
  directBlocks : Fin maxFileSize → Int

def Inode.setBlock (inode : Inode) (k : Fin maxFileSize) (blocknum : Int) : Inode :=
  { inode with directBlocks := Function.update inode.directBlocks k blocknum }

structure FileHandle where
  offset : Int
  inodeNumber : Int
  deriving DecidableEq, Repr

def intAt (bs : List UInt8) (p : Nat) : Int :=
  decodeInt (bs.getD p 0) (bs.getD (p + 1) 0) (bs.getD (p + 2) 0) (bs.getD (p + 3) 0)

theorem getD_append_add {l : List UInt8} {n : Nat} (hn : l.length = n) (rest : List UInt8)
    (p : Nat) : (l ++ rest).getD (n + p) 0 = rest.getD p 0 := by
  subst hn
  rw [List.getD_append_right _ _ _ _ (Nat.le_add_right _ _), Nat.add_sub_cancel_left]

theorem getD_ofFn_append {n : Nat} (g : Fin n → UInt8) (rest : List UInt8) (i : Fin n) :
    (List.ofFn g ++ rest).getD i 0 = g i := by
  rw [List.getD_append _ _ _ _ (by simp), List.getD_eq_getElem _ _ (by simp)]
  simp

theorem intAt_append_add {l : List UInt8} {n : Nat} (hn : l.length = n) (rest : List UInt8)
    (p : Nat) : intAt (l ++ rest) (n + p) = intAt rest p := by
  simp only [intAt, Nat.add_assoc, getD_append_add hn]

theorem intAt_encodeInt_append {x : Int} (hx : IsInt x) (rest : List UInt8) :
    intAt (encodeInt x ++ rest) 0 = x := by
  calc
    intAt (encodeInt x ++ rest) 0 = decodeInt ((encodeInt x).getD 0 0) ((encodeInt x).getD 1 0)
        ((encodeInt x).getD 2 0) ((encodeInt x).getD 3 0) := rfl
    _ = x := decodeInt_encodeInt hx

namespace Superblock

/-- The 46 bytes of a superblock. -/
def encode (sb : Superblock) : List UInt8 :=
  List.ofFn sb.name ++ (List.ofFn sb.inodeFreelist ++ List.ofFn sb.datablockFreelist)

def decode (bs : List UInt8) : Superblock where
  name k := bs.getD k 0
  inodeFreelist i := bs.getD (8 + i) 0
  datablockFreelist b := bs.getD (16 + b) 0

@[simp] theorem length_encode (sb : Superblock) : sb.encode.length = 46 := by
  simp [encode]

theorem decode_encode_append (sb : Superblock) (rest : List UInt8) :
    decode (sb.encode ++ rest) = sb := by
  obtain ⟨name, inodes, blocks⟩ := sb
  simp only [decode, encode, List.append_assoc, mk.injEq]
  refine ⟨?_, ?_, ?_⟩
  · funext k
    exact getD_ofFn_append name _ k
  · funext i
    rw [getD_append_add (by simp)]
    exact getD_ofFn_append inodes _ i
  · funext b
    rw [show 16 + b.val = 8 + (8 + b.val) by omega, getD_append_add (by simp),
      getD_append_add (by simp)]
    exact getD_ofFn_append blocks _ b

end Superblock

namespace Inode

/-- The 32 bytes of an inode. -/
def encode (ino : Inode) : List UInt8 :=
  encodeInt ino.status ++ (List.ofFn ino.name ++ (encodeInt ino.fileSize ++
    (encodeInt (ino.directBlocks 0) ++ (encodeInt (ino.directBlocks 1) ++
      (encodeInt (ino.directBlocks 2) ++ encodeInt (ino.directBlocks 3))))))

def decode (bs : List UInt8) : Inode where
  status := intAt bs 0
  name k := bs.getD (4 + k) 0
  fileSize := intAt bs 12
  directBlocks k := intAt bs (16 + 4 * k)

structure Fits (ino : Inode) : Prop where
  status : IsInt ino.status
  fileSize : IsInt ino.fileSize
  directBlocks : ∀ k, IsInt (ino.directBlocks k)

@[simp] theorem length_encode (ino : Inode) : ino.encode.length = 32 := by
  simp [encode]

theorem fits_decode (bs : List UInt8) : (decode bs).Fits where
  status := isInt_decodeInt _ _ _ _
  fileSize := isInt_decodeInt _ _ _ _
  directBlocks _ := isInt_decodeInt _ _ _ _

theorem intAt_directBlocks {ino : Inode} (h : ino.Fits) (k : Fin maxFileSize) :
    intAt ino.encode (16 + 4 * k) = ino.directBlocks k := by
  have hskip : ∀ p, intAt ino.encode (16 + p) =
      intAt (encodeInt (ino.directBlocks 0) ++ (encodeInt (ino.directBlocks 1) ++
        (encodeInt (ino.directBlocks 2) ++ encodeInt (ino.directBlocks 3)))) p := by
    intro p
    rw [encode, show 16 + p = 4 + (8 + (4 + p)) by omega, intAt_append_add (by simp),
      intAt_append_add (by simp), intAt_append_add (by simp)]
  rw [hskip]
  match k with
  | 0 => exact intAt_encodeInt_append (h.directBlocks 0) _
  | 1 =>
      rw [show 4 * (1 : Fin maxFileSize).val = 4 + 0 from rfl, intAt_append_add (by simp)]
      exact intAt_encodeInt_append (h.directBlocks 1) _
  | 2 =>
      rw [show 4 * (2 : Fin maxFileSize).val = 4 + (4 + 0) from rfl, intAt_append_add (by simp),
        intAt_append_add (by simp)]
      exact intAt_encodeInt_append (h.directBlocks 2) _
  | 3 =>
      rw [show 4 * (3 : Fin maxFileSize).val = 4 + (4 + (4 + 0)) from rfl,
        intAt_append_add (by simp), intAt_append_add (by simp), intAt_append_add (by simp)]
      simpa using intAt_encodeInt_append (h.directBlocks 3) []

theorem decode_encode {ino : Inode} (h : ino.Fits) : decode ino.encode = ino := by
  have hstatus : intAt ino.encode 0 = ino.status := intAt_encodeInt_append h.status _
  have hsize : intAt ino.encode 12 = ino.fileSize := by
    rw [encode, show 12 = 4 + (8 + 0) from rfl, intAt_append_add (by simp),
      intAt_append_add (by simp)]
    exact intAt_encodeInt_append h.fileSize _
  have hname : (fun k : Fin maxNameStrlen => ino.encode.getD (4 + k) 0) = ino.name := by
    funext k
    rw [encode, getD_append_add (by simp)]
    exact getD_ofFn_append ino.name _ k
  have hblocks : (fun k : Fin maxFileSize => intAt ino.encode (16 + 4 * k)) = ino.directBlocks :=
    funext (intAt_directBlocks h)
  rw [decode, hstatus, hsize, hname, hblocks]

end Inode

end Os20.Ssufs
