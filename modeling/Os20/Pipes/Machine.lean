import Os20.Lib.Queue
import Os20.Lib.Refinement
import Os20.Lib.Ring
import Mathlib.Data.Fintype.Basic

/-!
# `pipe.c`: reading and writing a pipe

Processes `P` read from one pipe and write to it.  Each of them holds `p->lock` from one `sleep`
to the next, so that one event is what a call does in between.
-/

namespace Os20.Pipes

open Os20.Lib.Transition

def pipeSize : Nat := 512

theorem pipeSize_pos : 0 < pipeSize := by decide

structure Pipe where
  data : Fin pipeSize → UInt8
  nread : UInt32
  nwrite : UInt32
  readopen : Bool
  writeopen : Bool

namespace Pipe

def Full (p : Pipe) : Prop := p.nwrite = p.nread + UInt32.ofNat pipeSize

def Empty (p : Pipe) : Prop := p.nread = p.nwrite

instance (p : Pipe) : Decidable p.Full := inferInstanceAs (Decidable (_ = _))
instance (p : Pipe) : Decidable p.Empty := inferInstanceAs (Decidable (_ = _))

/-- `p->data[p->nwrite++ % PIPESIZE] = b` -/
def put (p : Pipe) (b : UInt8) : Pipe :=
  { p with
    data := Function.update p.data (Lib.Ring.slot pipeSize pipeSize_pos p.nwrite) b
    nwrite := p.nwrite + 1 }

/-- `p->data[p->nread++ % PIPESIZE]` -/
def get (p : Pipe) : UInt8 × Pipe :=
  (p.data (Lib.Ring.slot pipeSize pipeSize_pos p.nread), { p with nread := p.nread + 1 })

/-- The rounds of the loop of `pipewrite` before the pipe is full: how many there are. -/
def fill (p : Pipe) : List UInt8 → Nat × Pipe
  | [] => (0, p)
  | b :: bs =>
      if p.Full then (0, p)
      else
        let (k, p) := (p.put b).fill bs
        (k + 1, p)

/-- The loop of `piperead`. -/
def drain (p : Pipe) : Nat → List UInt8 × Pipe
  | 0 => ([], p)
  | n + 1 =>
      if p.Empty then ([], p)
      else
        let (b, p) := p.get
        let (bs, p) := p.drain n
        (b :: bs, p)

end Pipe

/-! ## Processes -/

inductive Task where
  /-- Not in a call; what the last one returned. -/
  | user (ret : Int)
  /-- In `piperead`, for `n` bytes. -/
  | reading (n : Nat) (asleep : Bool)
  /-- In `pipewrite`, with `i` bytes stored. -/
  | writing (addr : List UInt8) (i : Nat) (asleep : Bool)
  deriving DecidableEq

def Task.On (writable : Bool) : Task → Prop
  | .user _ => False
  | .reading _ _ => writable = false
  | .writing _ _ _ => writable = true

instance (writable : Bool) : DecidablePred (Task.On writable)
  | .user _ => isFalse id
  | .reading _ _ => inferInstanceAs (Decidable (writable = false))
  | .writing _ _ _ => inferInstanceAs (Decidable (writable = true))

def Task.wake : Task → Task
  | .user ret => .user ret
  | .reading n _ => .reading n false
  | .writing addr i _ => .writing addr i false

structure State (P : Type*) where
  pipe : Pipe
  killed : P → Bool
  task : P → Task

variable {P : Type*}

namespace State

/-- `wakeup(&p->nwrite)` and `wakeup(&p->nread)`: all who sleep in a call on that end -/
def wakeup (s : State P) (writable : Bool) : State P :=
  { s with task := fun p => if (s.task p).On writable then (s.task p).wake else s.task p }

def pipeclose (s : State P) (writable : Bool) : State P :=
  if writable then
    ({ s with pipe := { s.pipe with writeopen := false } } : State P).wakeup false
  else
    ({ s with pipe := { s.pipe with readopen := false } } : State P).wakeup true

variable [DecidableEq P]

def setTask (s : State P) (p : P) (t : Task) : State P :=
  { s with task := Function.update s.task p t }

/-- `piperead`, from its start or from `sleep` on -/
def piperead (s : State P) (p : P) (n : Nat) : State P :=
  if s.pipe.Empty ∧ s.pipe.writeopen = true then
    if s.killed p then s.setTask p (.user (-1)) else s.setTask p (.reading n true)
  else
    let (bs, pipe) := s.pipe.drain n
    (({ s with pipe := pipe } : State P).wakeup true).setTask p (.user bs.length)

/-- `pipewrite`, from its start or from `sleep` on -/
def pipewrite (s : State P) (p : P) (addr : List UInt8) (i : Nat) : State P :=
  let (k, pipe) := s.pipe.fill (addr.drop i)
  let i := i + k
  let s : State P := { s with pipe := pipe }
  if i < addr.length then
    if s.pipe.readopen = false ∨ s.killed p = true then s.setTask p (.user (-1))
    else (s.wakeup false).setTask p (.writing addr i true)
  else (s.wakeup false).setTask p (.user addr.length)

/-- `kill`, which finds `p` asleep or not -/
def kill (s : State P) (p : P) (asleep : Bool) : State P where
  pipe := s.pipe
  killed := Function.update s.killed p true
  task := if asleep then Function.update s.task p (s.task p).wake else s.task

end State

inductive Event (P : Type*) where
  /-- `read(fd, buf, n)`, up to `acquire(&p->lock)` -/
  | read (p : P) (n : Nat)
  /-- `write(fd, addr, n)`, up to `acquire(&p->lock)` -/
  | write (p : P) (addr : List UInt8)
  /-- `p` goes on in its call. -/
  | step (p : P)
  /-- `kill` does not take `p->lock`: it can come between the test of `killed` and the `sleep`
  after it, and then finds `p` still awake. -/
  | kill (p : P) (asleep : Bool)
  /-- The last file that refers to an end is closed, so that nobody is in a call on it. -/
  | close (writable : Bool)

variable [DecidableEq P]

/-- `trap` lets no killed process into a call. -/
def State.enter (s : State P) (p : P) (t : Task) : Option (State P) :=
  match s.task p with
  | .user _ => if s.killed p then none else some (s.setTask p t)
  | _ => none

def State.next [Fintype P] (s : State P) : Event P → Option (State P)
  | .read p n => if s.pipe.readopen then s.enter p (.reading n false) else none
  | .write p addr => if s.pipe.writeopen then s.enter p (.writing addr 0 false) else none
  | .step p =>
      match s.task p with
      | .reading n false => some (s.piperead p n)
      | .writing addr i false => some (s.pipewrite p addr i)
      | _ => none
  | .kill p asleep => some (s.kill p asleep)
  | .close writable =>
      if (if writable then s.pipe.writeopen else s.pipe.readopen) = true ∧
          ∀ p, ¬(s.task p).On writable then
        some (s.pipeclose writable)
      else none

/-- All runs from a pipe that `pipealloc` has made; what was in the memory of `data` stays. -/
def pipes (P : Type*) [DecidableEq P] [Fintype P] : System (State P) (Event P) where
  init s := (s.pipe.nread = 0 ∧ s.pipe.nwrite = 0) ∧
    (s.pipe.readopen = true ∧ s.pipe.writeopen = true) ∧ ∀ p, ∃ ret, s.task p = .user ret
  next := State.next

end Os20.Pipes
