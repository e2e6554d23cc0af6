import Os20.Lib.Editor
import Os20.Lib.Refinement
import Os20.Lib.Ring
import Mathlib.Data.Fintype.Basic

/-!
# `console.c`: input

The keyboard and the serial port put characters into a ring of 128, in which the last line can
still be edited, and processes read lines from it.  One event is what happens while `cons.lock`
is held.
-/

namespace Os20.Console

open Os20.Lib.Transition
open Os20.Lib.Ring

def inputBuf : Nat := 128

theorem inputBuf_pos : 0 < inputBuf := by decide

/-- Control-x -/
def C (x : Char) : UInt8 := UInt8.ofNat (x.toNat - '@'.toNat)

def newline : UInt8 := 0x0a

def carriageReturn : UInt8 := 0x0d

/-- `input`: the read, write and edit indices into `buf` -/
structure Input where
  buf : Fin inputBuf → UInt8
  r : UInt32
  w : UInt32
  e : UInt32

/-- What `consoleintr` does beside: `consputc(c)`, `consputc(BACKSPACE)` and
`wakeup(&input.r)`. -/
inductive Out where
  | putc (c : UInt8)
  | backspace
  | wakeup
  deriving DecidableEq

namespace Input

/-- `input.buf[input.e++ % INPUT_BUF] = c` -/
def put (i : Input) (c : UInt8) : Input :=
  { i with buf := Function.update i.buf (slot inputBuf inputBuf_pos i.e) c, e := i.e + 1 }

/-- The loop of control-U, of at most `fuel` rounds -/
def killLine : Nat → Input → Input × List Out
  | 0, i => (i, [])
  | fuel + 1, i =>
      if i.e ≠ i.w ∧ i.buf (slot inputBuf inputBuf_pos (i.e - 1)) ≠ newline then
        let (i, outs) := killLine fuel { i with e := i.e - 1 }
        (i, .backspace :: outs)
      else (i, [])

/-- The `default` of the `switch`, for a character that there is room for -/
def accept (i : Input) (c : UInt8) : Input × List Out :=
  let i := i.put c
  if c = newline ∨ c = C 'D' ∨ i.e = i.r + UInt32.ofNat inputBuf then
    ({ i with w := i.e }, [.putc c, .wakeup])
  else (i, [.putc c])

/-- The `switch` of `consoleintr` -/
def key (i : Input) (c : UInt8) : Input × List Out :=
  if c = C 'P' then (i, [])
  else if c = C 'U' then killLine (i.e - i.w).toNat i
  else if c = C 'H' ∨ c = 0x7f then
    if i.e ≠ i.w then ({ i with e := i.e - 1 }, [.backspace]) else (i, [])
  else if c ≠ 0 ∧ i.e - i.r < UInt32.ofNat inputBuf then
    i.accept (if c = carriageReturn then newline else c)
  else (i, [])

/-- The loop of `consoleintr`, over what `getc` returns -/
def consoleintr (i : Input) : List UInt8 → Input × List Out
  | [] => (i, [])
  | c :: cs =>
      let (i, outs) := i.key c
      let (i, outs') := i.consoleintr cs
      (i, outs ++ outs')

/-- `c = input.buf[input.r++ % INPUT_BUF]` -/
def get (i : Input) : UInt8 × Input :=
  (i.buf (slot inputBuf inputBuf_pos i.r), { i with r := i.r + 1 })

/-- The loop of `consoleread` with `n` characters to go, as far as there is input: the characters
it copies, whether it takes a control-D from the buffer, and whether it ends. -/
def copy (target : Nat) : Nat → Input → List UInt8 × Bool × Bool × Input
  | 0, i => ([], false, true, i)
  | n + 1, i =>
      if i.r = i.w then ([], false, false, i)
      else
        let (c, i) := i.get
        if c = C 'D' then
          if n + 1 < target then ([], false, true, { i with r := i.r - 1 })
          else ([], true, true, i)
        else if c = newline then ([c], false, true, i)
        else
          let (cs, eof, done, i) := copy target n i
          (c :: cs, eof, done, i)

end Input

/-! ## Processes -/

inductive Task where
  /-- Not in a call; what the last one returned, and copied to its buffer. -/
  | user (ret : Int) (dst : List UInt8)
  /-- In `consoleread` for `target` characters, with some of them copied. -/
  | reading (target : Nat) (dst : List UInt8) (asleep : Bool)
  deriving DecidableEq

def Task.wake : Task → Task
  | .user ret dst => .user ret dst
  | .reading target dst _ => .reading target dst false

structure State (P : Type*) where
  input : Input
  killed : P → Bool
  task : P → Task

variable {P : Type*}

namespace State

def intr (s : State P) (keys : List UInt8) : State P where
  input := (s.input.consoleintr keys).1
  killed := s.killed
  task p := if .wakeup ∈ (s.input.consoleintr keys).2 then (s.task p).wake else s.task p

variable [DecidableEq P]

def setTask (s : State P) (p : P) (t : Task) : State P :=
  { s with task := Function.update s.task p t }

/-- `consoleread`, from its start or from `sleep` on -/
def consoleread (s : State P) (p : P) (target : Nat) (dst : List UInt8) : State P :=
  let (cs, _, done, input) := s.input.copy target (target - dst.length)
  let dst := dst ++ cs
  let s : State P := { s with input := input }
  if done then s.setTask p (.user dst.length dst)
  else if s.killed p then s.setTask p (.user (-1) dst)
  else s.setTask p (.reading target dst true)

/-- `kill`, which finds `p` asleep or not -/
def kill (s : State P) (p : P) (asleep : Bool) : State P where
  input := s.input
  killed := Function.update s.killed p true
  task := if asleep then Function.update s.task p (s.task p).wake else s.task

end State

inductive Event (P : Type*) where
  | intr (keys : List UInt8)
  /-- `read(fd, dst, n)`, up to `acquire(&cons.lock)` -/
  | read (p : P) (n : Nat)
  /-- `p` goes on in `consoleread`. -/
  | step (p : P)
  /-- `kill` does not take `cons.lock`: it can come between the test of `killed` and the `sleep`
  after it, and then finds `p` still awake. -/
  | kill (p : P) (asleep : Bool)

variable [DecidableEq P]

def State.next (s : State P) : Event P → Option (State P)
  | .intr keys => some (s.intr keys)
  | .read p n =>
      match s.task p with
      | .user _ _ => if s.killed p then none else some (s.setTask p (.reading n [] false))
      | _ => none
  | .step p =>
      match s.task p with
      | .reading target dst false => some (s.consoleread p target dst)
      | _ => none
  | .kill p asleep => some (s.kill p asleep)

def consoles (P : Type*) [DecidableEq P] : System (State P) (Event P) where
  init s := (s.input.r = 0 ∧ s.input.w = 0 ∧ s.input.e = 0) ∧
    ∀ p, ∃ ret, s.task p = .user ret []
  next := State.next

end Os20.Console
