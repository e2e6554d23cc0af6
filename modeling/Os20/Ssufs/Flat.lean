import Mathlib.Algebra.BigOperators.Fin
import Os20.Ssufs.Closed
import Os20.Ssufs.EndOfFile
import Os20.Ssufs.FlatWrite
import Os20.Ssufs.Rollback

/-!
# A flat file system

What `ssufs` is for: eight files, each an array of bytes with a name, and handles that are
positions in them.  `Orderly` says what a caller has to keep to for the calls of `ssufs` to
answer like those of this file system.
-/

namespace Os20.Ssufs

open scoped BigOperators

structure File where
  name : Filename
  content : List UInt8

abbrev Reply := Int × List UInt8

structure FlatFs where
  file : Fin numInodes → Option File
  /-- The file and the position of an open handle. -/
  handle : Handle → Option (Fin numInodes × Nat)

namespace FlatFs

def empty : FlatFs := ⟨fun _ => none, fun _ => none⟩

def content (a : FlatFs) (i : Fin numInodes) : List UInt8 :=
  match a.file i with
  | some f => f.content
  | none => []

def blocks (a : FlatFs) : Nat := ∑ i, (a.content i).length / blocksize

def lookup (a : FlatFs) (filename : Filename) : Option (Fin numInodes) :=
  (List.finRange numInodes).find? fun i => (a.file i).map File.name = some filename

def firstFree (a : FlatFs) : Option (Fin numInodes) :=
  (List.finRange numInodes).find? fun i => (a.file i).isNone

def firstClosed (a : FlatFs) : Option Handle :=
  (List.finRange maxOpenFiles).find? fun h => (a.handle h).isNone

def growth (a : FlatFs) (i : Fin numInodes) (o : Nat) (nbytes : Int) : Nat :=
  (blocksFor (o + nbytes)).toNat - (a.content i).length / blocksize

/-- File `i` after a write of `bytes` at `o`: whole blocks are added. -/
def written (a : FlatFs) (i : Fin numInodes) (o : Nat) (bytes : List UInt8) : List UInt8 :=
  overwrite (a.content i)
    (max (a.content i).length (blocksize * (blocksFor (o + bytes.length)).toNat)) o bytes

def setFile (a : FlatFs) (i : Fin numInodes) (f : Option File) : FlatFs :=
  { a with file := Function.update a.file i f }

def setHandle (a : FlatFs) (h : Handle) (position : Option (Fin numInodes × Nat)) : FlatFs :=
  { a with handle := Function.update a.handle h position }

def setContent (a : FlatFs) (i : Fin numInodes) (bytes : List UInt8) : FlatFs :=
  a.setFile i ((a.file i).map fun f => { f with content := bytes })

def create (a : FlatFs) (filename : Filename) : Reply × FlatFs :=
  match a.firstFree with
  | some i => ((i.val, []), a.setFile i (some ⟨filename, []⟩))
  | none => ((-1, []), a)

def delete (a : FlatFs) (filename : Filename) : Reply × FlatFs :=
  match a.lookup filename with
  | some i => ((0, []), a.setFile i none)
  | none => ((0, []), a)

def «open» (a : FlatFs) (filename : Filename) : Reply × FlatFs :=
  match a.lookup filename with
  | some i =>
      match a.firstClosed with
      | some h => ((h.val, []), a.setHandle h (some (i, 0)))
      | none => ((-1, []), a)
  | none => ((-1, []), a)

def read (a : FlatFs) (h : Handle) (nbytes : Int) : Reply × FlatFs :=
  match a.handle h with
  | some (i, o) =>
      if o + nbytes ≤ (a.content i).length then
        ((0, ((a.content i).drop o).take nbytes.toNat),
          a.setHandle h (some (i, o + nbytes.toNat)))
      else ((-1, []), a)
  | none => ((-1, []), a)

def write (a : FlatFs) (h : Handle) (buf : List UInt8) (nbytes : Int) : Reply × FlatFs :=
  match a.handle h with
  | some (i, o) =>
      if o + nbytes ≤ 256 ∧ a.blocks + a.growth i o nbytes ≤ numDataBlocks then
        ((0, []), (a.setContent i (a.written i o (buf.take nbytes.toNat))).setHandle h
          (some (i, o + nbytes.toNat)))
      else ((-1, []), a)
  | none => ((-1, []), a)

def lseek (a : FlatFs) (h : Handle) (nseek : Int) : Reply × FlatFs :=
  match a.handle h with
  | some (i, o) =>
      if 0 ≤ o + nseek ∧ o + nseek ≤ (a.content i).length then
        ((0, []), a.setHandle h (some (i, (o + nseek).toNat)))
      else ((-1, []), a)
  | none => ((-1, []), a)

def exec (a : FlatFs) : Call → Reply × FlatFs
  | .create filename => a.create filename
  | .delete filename => a.delete filename
  | .open filename => a.open filename
  | .close h => ((0, []), a.setHandle h none)
  | .read h nbytes => a.read h nbytes
  | .write h buf nbytes _ => a.write h buf nbytes
  | .lseek h nseek => a.lseek h nseek

/-- Enough blocks are left for a write that fits into the file, or it fails at once: it starts
behind the last block, and all blocks are taken. -/
def HasSpace (a : FlatFs) (nbytes : Int) : Option (Fin numInodes × Nat) → Prop
  | some (i, o) => o + nbytes ≤ 256 → a.blocks + a.growth i o nbytes ≤ numDataBlocks ∨
      a.blocks = numDataBlocks ∧ o = (a.content i).length
  | none => True

instance (a : FlatFs) (nbytes : Int) : ∀ position, Decidable (a.HasSpace nbytes position)
  | some (i, o) =>
      inferInstanceAs (Decidable (o + nbytes ≤ 256 →
        a.blocks + a.growth i o nbytes ≤ numDataBlocks ∨
          a.blocks = numDataBlocks ∧ o = (a.content i).length))
  | none => inferInstanceAs (Decidable True)

/-- What the callers keep to: names are new and leave room for a NUL, no file is deleted while a
handle is on it, a handle is opened on the file with its own number and moved while it is open,
and no write runs out of blocks halfway. -/
def Orderly (a : FlatFs) : Call → Prop
  | .create filename => filename.bytes.length < maxNameStrlen ∧ a.lookup filename = none
  | .delete filename => ∀ i, a.lookup filename = some i →
      ∀ h, (a.handle h).map Prod.fst ≠ some i
  | .open filename => ∀ i, a.lookup filename = some i →
      ∀ h, a.firstClosed = some h → h.val = i.val
  | .close _ => True
  | .read _ nbytes => 0 ≤ nbytes
  | .write h _ nbytes _ => 0 ≤ nbytes ∧ a.HasSpace nbytes (a.handle h)
  | .lseek h _ => (a.handle h).isSome

instance (a : FlatFs) : ∀ c, Decidable (a.Orderly c)
  | .create filename =>
      inferInstanceAs (Decidable (filename.bytes.length < maxNameStrlen ∧ a.lookup filename = none))
  | .delete filename => inferInstanceAs (Decidable (∀ i, a.lookup filename = some i →
      ∀ h, (a.handle h).map Prod.fst ≠ some i))
  | .open filename => inferInstanceAs (Decidable (∀ i, a.lookup filename = some i →
      ∀ h, a.firstClosed = some h → h.val = i.val))
  | .close _ => inferInstanceAs (Decidable True)
  | .read _ nbytes => inferInstanceAs (Decidable (0 ≤ nbytes))
  | .write h _ nbytes _ =>
      inferInstanceAs (Decidable (0 ≤ nbytes ∧ a.HasSpace nbytes (a.handle h)))
  | .lseek h _ => inferInstanceAs (Decidable ((a.handle h).isSome = true))

def replies (a : FlatFs) : List Call → List Reply
  | [] => []
  | c :: calls => (a.exec c).1 :: (a.exec c).2.replies calls

def OrderlyRun (a : FlatFs) : List Call → Prop
  | [] => True
  | c :: calls => a.Orderly c ∧ (a.exec c).2.OrderlyRun calls

instance decidableOrderlyRun (a : FlatFs) : ∀ calls, Decidable (a.OrderlyRun calls)
  | [] => isTrue trivial
  | c :: calls =>
      have := decidableOrderlyRun (a.exec c).2 calls
      inferInstanceAs (Decidable (_ ∧ _))

end FlatFs

/-! ## The replies of `ssufs` -/

/-- The call with its result; the `void` functions return 0. -/
def Call.reply : Call → M Reply
  | .create filename => return (← Ssufs.create filename, [])
  | .delete filename => do
      Ssufs.delete filename
      return (0, [])
  | .open filename => return (← Ssufs.open filename, [])
  | .close fileHandle => do
      Ssufs.close fileHandle
      return (0, [])
  | .read fileHandle nbytes => Ssufs.read fileHandle nbytes
  | .write fileHandle buf nbytes _ => return (← Ssufs.write fileHandle buf nbytes, [])
  | .lseek fileHandle nseek => return (← Ssufs.lseek fileHandle nseek, [])

/-- The replies to some calls, and the state they lead to, if none of them aborts. -/
def replies (fs : Fs) : List Call → Option (List Reply × Fs)
  | [] => some ([], fs)
  | c :: calls =>
      match c.reply fs.cleared with
      | .ok r fs' => (replies fs' calls).map fun rest => (r :: rest.1, rest.2)
      | .error _ _ => none

end Os20.Ssufs
