import Os20.Lib.Transition
import Mathlib.Data.Fintype.Pi
import Mathlib.Logic.Function.Basic

/-!
# `log.c`: group commit of file system operations

Processes `P` bracket their changes of disk blocks with `begin_op` and `end_op`; the last one
out writes them to the log, commits them with one write of the header block, and installs them.
Every disk write is one step, and the machine may crash between any two steps.  The buffer
cache of `bio.c` appears as the blocks it holds: it drops a block whenever it likes, but for a
dirty one, and `bread` takes from the disk what is not there.
-/

namespace Os20.Log

open Os20.Lib.Transition

def maxOpBlocks : Nat := 10

def logSize : Nat := maxOpBlocks * 3

abbrev BlockNo := UInt32

/-- The data of a block: `BSIZE` bytes, as words. -/
abbrev Block := Fin 128 → UInt32

/-! ## `struct logheader` in a block -/

def Block.word (b : Block) (i : Nat) : UInt32 :=
  if h : i < 128 then b ⟨i, h⟩ else 0

def Block.setHeader (b : Block) (lh : List BlockNo) : Block := fun i =>
  match i.val with
  | 0 => UInt32.ofNat lh.length
  | j + 1 => lh.getD j (b i)

/-- What `read_head` reads; the count is an `int`. -/
def Block.header (b : Block) : List BlockNo :=
  (List.range (b.word 0).toInt32.toInt.toNat).map fun i => b.word (i + 1)

/-- `log.start` and `log.size`, from the super block. -/
structure Geometry where
  start : BlockNo
  size : Nat

def Geometry.logBlock (g : Geometry) (tail : Nat) : BlockNo :=
  g.start + UInt32.ofNat tail + 1

/-- A block of the log, or its header. -/
def Geometry.InLog (g : Geometry) (b : BlockNo) : Prop := (b - g.start).toNat < g.size

instance (g : Geometry) (b : BlockNo) : Decidable (g.InLog b) :=
  inferInstanceAs (Decidable (_ < _))

/-! ## The state -/

/-- `struct buf`: its data, and the flag `B_DIRTY` -/
structure Buf where
  data : Block
  dirty : Bool

/-- Where `commit` is, in the process that has called it. -/
inductive Commit where
  | writeLog (tail : Nat)
  | writeHead
  | installTrans (tail : Nat)
  /-- The header is still to be cleared. -/
  | clear
  /-- Back in `end_op`. -/
  | done
  deriving DecidableEq

inductive Recover where
  | readHead
  | installTrans (tail : Nat)
  | clear
  deriving DecidableEq

inductive Task where
  /-- Not in an operation. -/
  | idle
  /-- In `begin_op`, asleep on `&log`. -/
  | asleep
  /-- In `begin_op`, woken. -/
  | awake
  /-- Between `begin_op` and `end_op`: the blocks logged so far, and the one for which
  `log_write` is behind its checks. -/
  | op (blocks : List BlockNo) (write : Option BlockNo)
  | commit (pc : Commit)
  deriving DecidableEq

structure State (P : Type*) where
  disk : BlockNo → Block
  cache : BlockNo → Option Buf
  /-- `log.lh` -/
  lh : List BlockNo
  outstanding : Nat
  committing : Bool
  /-- The system starts, and recovers from the log. -/
  boot : Option Recover
  task : P → Task

variable {P : Type*}

namespace State

/-- The data of the buffer that `bread` returns. -/
def contents (s : State P) (b : BlockNo) : Block :=
  match s.cache b with
  | some buf => buf.data
  | none => s.disk b

def bread (s : State P) (b : BlockNo) : State P :=
  match s.cache b with
  | some _ => s
  | none => { s with cache := Function.update s.cache b (some ⟨s.disk b, false⟩) }

/-- `bwrite`, of a buffer with `data` -/
def bwrite (s : State P) (b : BlockNo) (data : Block) : State P :=
  { s with
    disk := Function.update s.disk b data
    cache := Function.update s.cache b (some ⟨data, false⟩) }

def writeHead (s : State P) (g : Geometry) : State P :=
  let s := s.bread g.start
  s.bwrite g.start ((s.contents g.start).setHeader s.lh)

/-- The body of the loop of `write_log`. -/
def writeLog (s : State P) (g : Geometry) (tail : Nat) (b : BlockNo) : State P :=
  let s := (s.bread (g.logBlock tail)).bread b
  s.bwrite (g.logBlock tail) (s.contents b)

/-- The body of the loop of `install_trans`. -/
def installTrans (s : State P) (g : Geometry) (tail : Nat) (b : BlockNo) : State P :=
  let s := (s.bread (g.logBlock tail)).bread b
  s.bwrite b (s.contents (g.logBlock tail))

variable [DecidableEq P]

def setTask (s : State P) (p : P) (task : Task) : State P :=
  { s with task := Function.update s.task p task }

omit [DecidableEq P] in
def wakeup (s : State P) : State P :=
  { s with task := fun p => if s.task p = .asleep then .awake else s.task p }

/-- The body of the loop of `begin_op`. -/
def beginOp (s : State P) (p : P) : State P :=
  if s.committing then s.setTask p .asleep
  else if s.lh.length + (s.outstanding + 1) * maxOpBlocks > logSize then s.setTask p .asleep
  else { s.setTask p (.op [] none) with outstanding := s.outstanding + 1 }

/-- `end_op`, up to the call of `commit` -/
def endOp (s : State P) (p : P) : Option (State P) :=
  let s := { s with outstanding := s.outstanding - 1 }
  -- `panic("log.committing")`
  if s.committing then none
  else if s.outstanding = 0 then
    let s := { s with committing := true }
    some (s.setTask p (.commit (if s.lh.length > 0 then .writeLog 0 else .done)))
  else some (s.wakeup.setTask p .idle)

def LogWritePanics (s : State P) (g : Geometry) : Prop :=
  (s.lh.length ≥ logSize ∨ (s.lh.length : Int) ≥ (g.size : Int) - 1) ∨ s.outstanding < 1

instance (s : State P) (g : Geometry) : Decidable (s.LogWritePanics g) :=
  inferInstanceAs (Decidable (_ ∨ _))

/-- `log_write` with the lock: the caller has put `data` in its buffer. -/
def logWrite (s : State P) (b : BlockNo) (data : Block) : State P :=
  { s with
    lh := if b ∈ s.lh then s.lh else s.lh ++ [b]
    cache := Function.update s.cache b (some ⟨data, true⟩) }

/-- One step of `commit`, and of `end_op` behind it. -/
def commit (s : State P) (g : Geometry) (p : P) : Commit → State P
  | .writeLog tail =>
      match s.lh[tail]? with
      | some b => (s.writeLog g tail b).setTask p (.commit (.writeLog (tail + 1)))
      | none => s.setTask p (.commit .writeHead)
  | .writeHead => (s.writeHead g).setTask p (.commit (.installTrans 0))
  | .installTrans tail =>
      match s.lh[tail]? with
      | some b => (s.installTrans g tail b).setTask p (.commit (.installTrans (tail + 1)))
      | none => s.setTask p (.commit .clear)
  | .clear => (({ s with lh := [] } : State P).writeHead g).setTask p (.commit .done)
  | .done => ({ s with committing := false } : State P).wakeup.setTask p .idle

/-- One step of `recover_from_log`. -/
def recoverFromLog (s : State P) (g : Geometry) : Recover → State P
  | .readHead =>
      let s := s.bread g.start
      { s with lh := (s.contents g.start).header, boot := some (.installTrans 0) }
  | .installTrans tail =>
      match s.lh[tail]? with
      | some b => { s.installTrans g tail b with boot := some (.installTrans (tail + 1)) }
      | none => { s with boot := some .clear }
  | .clear => { ({ s with lh := [] } : State P).writeHead g with boot := none }

def crash (s : State P) : State P where
  disk := s.disk
  cache _ := none
  lh := []
  outstanding := 0
  committing := false
  boot := some .readHead
  task _ := .idle

end State

inductive Event (P : Type*) where
  /-- `begin_op`, or the next iteration of its loop -/
  | beginOp (p : P)
  | endOp (p : P)
  /-- The checks of `log_write`. -/
  | logWrite (p : P) (b : BlockNo)
  /-- The rest of it. -/
  | append (p : P) (data : Block)
  | commit (p : P)
  | recover
  /-- Somebody calls `bread`. -/
  | bread (b : BlockNo)
  /-- `bget` recycles the buffer of a block. -/
  | evict (b : BlockNo)
  /-- `kill` wakes a process that sleeps. -/
  | kill (p : P)
  | crash

variable [DecidableEq P]

def State.next (g : Geometry) (s : State P) : Event P → Option (State P)
  | .beginOp p =>
      if s.boot = none ∧ (s.task p = .idle ∨ s.task p = .awake) then some (s.beginOp p) else none
  | .endOp p =>
      match s.task p with
      | .op _ none => s.endOp p
      | _ => none
  | .logWrite p b =>
      match s.task p with
      | .op blocks none =>
          if s.LogWritePanics g then none else some (s.setTask p (.op blocks (some b)))
      | _ => none
  | .append p data =>
      match s.task p with
      | .op blocks (some b) =>
          some ((s.logWrite b data).setTask p
            (.op (if b ∈ blocks then blocks else b :: blocks) none))
      | _ => none
  | .commit p =>
      match s.task p with
      | .commit pc => some (s.commit g p pc)
      | _ => none
  | .recover => s.boot.map (s.recoverFromLog g)
  | .bread b => some (s.bread b)
  | .evict b =>
      match s.cache b with
      | some ⟨_, false⟩ => some { s with cache := Function.update s.cache b none }
      | _ => none
  | .kill p => if s.task p = .asleep then some (s.setTask p .awake) else none
  | .crash => some s.crash

/-- What the callers keep to: no operation logs more than `budget` blocks, and none of the log
itself. -/
def Within (g : Geometry) (budget : Nat) (s : State P) : Event P → Prop
  | .logWrite p b =>
      ¬g.InLog b ∧ ∀ blocks, s.task p = .op blocks none → b ∈ blocks ∨ blocks.length < budget
  | _ => True

instance (g : Geometry) (budget : Nat) (s : State P) (e : Event P) :
    Decidable (Within g budget s e) :=
  match e with
  | .logWrite p b =>
      match htask : s.task p with
      | .op blocks none =>
          decidable_of_iff (¬g.InLog b ∧ (b ∈ blocks ∨ blocks.length < budget))
            (by simp [Within, htask])
      | .idle | .asleep | .awake | .op _ (some _) | .commit _ =>
          decidable_of_iff (¬g.InLog b) (by simp [Within, htask])
  | .beginOp _ | .endOp _ | .append _ _ | .commit _ | .recover | .bread _ | .evict _ | .kill _
  | .crash => isTrue trivial

/-- No operation logs more than `MAXOPBLOCKS` blocks, nor one of the log itself.  `log_write` makes
its checks without the lock: they still hold when it has the lock, so no two processes have passed
them for the last place. -/
structure Checked (g : Geometry) (s : State P) (e : Event P) : Prop where
  within : Within g maxOpBlocks s e
  lasts : ∀ p data, e = .append p data → ¬s.LogWritePanics g

instance (g : Geometry) (s : State P) (e : Event P) : Decidable (Checked g s e) :=
  match e with
  | .append _ _ =>
      decidable_of_iff (¬s.LogWritePanics g)
        ⟨fun h => ⟨trivial, fun _ _ _ => h⟩, fun h => h.lasts _ _ rfl⟩
  | .logWrite p b =>
      decidable_of_iff (Within g maxOpBlocks s (.logWrite p b))
        ⟨fun h => ⟨h, fun _ _ heq => by cases heq⟩, fun h => h.within⟩
  | .beginOp _ | .endOp _ | .commit _ | .recover | .bread _ | .evict _ | .kill _ | .crash =>
      isTrue ⟨trivial, fun _ _ heq => by cases heq⟩

/-- All runs from a disk that `mkfs` has written: the header block is clear. -/
def log (P : Type*) [DecidableEq P] (g : Geometry) : System (State P) (Event P) where
  init s := (∃ s₀ : State P, s = s₀.crash) ∧ (s.disk g.start).header = []
  next := State.next g

end Os20.Log
