import Os20.Lib.Dlist
import Os20.Lib.Refinement
import Mathlib.Data.Fintype.Basic

/-!
# `bio.c`, `sleeplock.c` and `ide.c`: the buffer cache

Processes `P` share `NBUF` buffers for the blocks of two disks.  One event is what a call does
while it holds `bcache.lock`, the spinlock of a sleep lock, or `idelock`; what the file system
does to a block it has locked is an event, too.
-/

namespace Os20.Bio

open Os20.Lib.Dlist
open Os20.Lib.Transition

def nbuf : Nat := 30

def fsSize : Nat := 1000

abbrev BufNo := Fin nbuf

/-- `uchar data[BSIZE]` -/
abbrev Data := Fin 512 → UInt8

/-- Device and block number. -/
abbrev Key := UInt32 × UInt32

/-- `struct buf`, without its links; `lock` is the process that holds it. -/
structure Buf (P : Type*) where
  key : Key
  valid : Bool
  dirty : Bool
  lock : Option P
  refcnt : Nat
  data : Data

inductive Task where
  /-- Not in a call. -/
  | user
  /-- In `acquiresleep`, at the end of `bget`. -/
  | locking (b : BufNo)
  /-- In `iderw`, until the request is done. -/
  | waiting (b : BufNo)
  /-- In `brelse`, the lock is given back. -/
  | releasing (b : BufNo)
  deriving DecidableEq

structure State (P : Type*) where
  /-- The links through `bcache.head`. -/
  links : Links BufNo
  buf : BufNo → Buf P
  idequeue : List BufNo
  disk : Key → Data
  task : P → Task

variable {P : Type*}

def buffers : List BufNo := List.finRange nbuf

def binit : Links BufNo := buffers.foldl Links.pushFront .empty

/-- The place of a block: `idestart` looks at one bit of `dev`. -/
def sector (k : Key) : Key := (k.1 &&& 1, k.2)

namespace State

def setBuf (s : State P) (b : BufNo) (x : Buf P) : State P :=
  { s with buf := Function.update s.buf b x }

/-- `idestart`, for the first one in the queue.  The disk gets the data of a write at once. -/
def idestart (s : State P) : Option (State P) :=
  match s.idequeue with
  | [] => some s
  | b :: _ =>
      -- `panic("incorrect blockno")`
      if fsSize ≤ (s.buf b).key.2.toNat then none
      else if (s.buf b).dirty then
        some { s with disk := Function.update s.disk (sector (s.buf b).key) (s.buf b).data }
      else some s

variable [DecidableEq P]

def setTask (s : State P) (p : P) (t : Task) : State P :=
  { s with task := Function.update s.task p t }

/-- The first loop of `bget`. -/
def cached (s : State P) (k : Key) : Option BufNo :=
  search s.links.next (fun b => (s.buf b).key = k) nbuf (s.links.next none)

/-- The second loop of `bget`. -/
def unused (s : State P) : Option BufNo :=
  search s.links.prev (fun b => (s.buf b).refcnt = 0 ∧ (s.buf b).dirty = false) nbuf
    (s.links.prev none)

/-- `bget`, up to `acquiresleep` -/
def bget (s : State P) (p : P) (k : Key) : Option (State P) :=
  match s.cached k with
  | some b =>
      let x := s.buf b
      some ((s.setBuf b { x with refcnt := x.refcnt + 1 }).setTask p (.locking b))
  | none =>
      match s.unused with
      | some b =>
          let x := s.buf b
          let x := { x with key := k, valid := false, dirty := false, refcnt := 1 }
          some ((s.setBuf b x).setTask p (.locking b))
      | none => none  -- `panic("bget: no buffers")`

/-- `iderw`, up to its `sleep` -/
def iderw (s : State P) (p : P) (b : BufNo) : Option (State P) :=
  let x := s.buf b
  -- `panic("iderw: buf not locked")` and `panic("iderw: nothing to do")`
  if x.lock ≠ some p ∨ (x.valid = true ∧ x.dirty = false) then none
  else
    let s := ({ s with idequeue := s.idequeue ++ [b] } : State P).setTask p (.waiting b)
    if s.idequeue = [b] then s.idestart else some s

/-- The end of `acquiresleep`, and of `bread` unless it has to read. -/
def acquiresleep (s : State P) (p : P) (b : BufNo) : Option (State P) :=
  let x := s.buf b
  if x.lock = none then
    let s := (s.setBuf b { x with lock := some p }).setTask p .user
    if x.valid then some s else s.iderw p b
  else none

def bwrite (s : State P) (p : P) (b : BufNo) : Option (State P) :=
  let x := s.buf b
  -- `panic("bwrite")`
  if x.lock = some p then (s.setBuf b { x with dirty := true }).iderw p b else none

/-- `brelse`, up to `releasesleep` -/
def brelse (s : State P) (p : P) (b : BufNo) : Option (State P) :=
  let x := s.buf b
  -- `panic("brelse")`
  if x.lock = some p then some ((s.setBuf b { x with lock := none }).setTask p (.releasing b))
  else none

/-- The rest of `brelse`. -/
def unref (s : State P) (p : P) (b : BufNo) : State P :=
  let x := s.buf b
  let s := (s.setBuf b { x with refcnt := x.refcnt - 1 }).setTask p .user
  if x.refcnt - 1 = 0 then { s with links := (s.links.unlink b).pushFront b } else s

omit [DecidableEq P] in
/-- `ideintr`; `failed` is the error that `idewait(1)` reports, when there is data to read. -/
def ideintr (s : State P) (failed : Bool) : Option (State P) :=
  match s.idequeue with
  | [] => some s
  | b :: queue =>
      let x := s.buf b
      let x := if x.dirty ∨ failed then x else { x with data := s.disk (sector x.key) }
      ({ s with idequeue := queue } : State P).setBuf b { x with valid := true, dirty := false }
        |>.idestart

end State

inductive Event (P : Type*) where
  /-- `bread(dev, blockno)` -/
  | bread (p : P) (k : Key)
  /-- `p` goes on in its call. -/
  | step (p : P)
  /-- `p` changes the data of a buffer. -/
  | write (p : P) (b : BufNo) (data : Data)
  /-- `b->flags |= B_DIRTY`, in `log_write` -/
  | logWrite (p : P) (b : BufNo)
  | bwrite (p : P) (b : BufNo)
  | brelse (p : P) (b : BufNo)
  | ideintr (failed : Bool)

variable [DecidableEq P]

def State.step (s : State P) (p : P) : Option (State P) :=
  match s.task p with
  | .user => none
  | .locking b => s.acquiresleep p b
  | .waiting b =>
      if (s.buf b).valid = true ∧ (s.buf b).dirty = false then some (s.setTask p .user) else none
  | .releasing b => some (s.unref p b)

def State.next (s : State P) : Event P → Option (State P)
  | .bread p k => if s.task p = .user then s.bget p k else none
  | .step p => s.step p
  | .write p b data =>
      let x := s.buf b
      if s.task p = .user ∧ x.lock = some p then some (s.setBuf b { x with data := data }) else none
  | .logWrite p b =>
      let x := s.buf b
      if s.task p = .user ∧ x.lock = some p then some (s.setBuf b { x with dirty := true })
      else none
  | .bwrite p b => if s.task p = .user then s.bwrite p b else none
  | .brelse p b => if s.task p = .user then s.brelse p b else none
  | .ideintr failed => s.ideintr failed

/-- All runs from `binit` on, for what is on the disks. -/
def bio (P : Type*) [DecidableEq P] (disk : Key → Data) : System (State P) (Event P) where
  init s := (s.links = binit ∧ s.disk = disk) ∧
    (∀ b, ∃ data, s.buf b = ⟨(0, 0), false, false, none, 0, data⟩) ∧
    s.idequeue = [] ∧ ∀ p, s.task p = .user
  next := State.next

end Os20.Bio
