import Mathlib.Data.List.FinRange
import Mathlib.Logic.Function.Basic

/-!
# `proc.c`: the process table

The table and what the functions of `proc.c` write to it.  A function that changes the
table takes `ptable.lock` and makes a list of writes; each of them is one step, since
`scheduler` reads the table without the lock and can see it in between.  Fields that only
the memory and file system code uses are left out.
-/

namespace Os20.Xv6

abbrev nproc : Nat := 64

/-- A pointer into `ptable.proc`. -/
abbrev Slot := Fin nproc

inductive ProcState where
  | unused
  | embryo
  | sleeping
  | runnable
  | running
  | zombie
  deriving DecidableEq, Repr

/-- A sleep channel: a process waits for its children on its own slot, everything else
sleeps on some other address. -/
inductive Chan where
  | proc (p : Slot)
  | addr (a : Nat)
  deriving DecidableEq, Repr

structure Proc where
  sz : Nat := 0
  state : ProcState := .unused
  pid : Int := 0
  parent : Option Slot := none
  chan : Option Chan := none
  killed : Bool := false
  nice : UInt32 := 0
  prio : Int := 0
  deriving DecidableEq, Repr

structure Ptable where
  proc : Slot → Proc
  nextpid : Int
  initproc : Slot

def Ptable.modify (pt : Ptable) (p : Slot) (f : Proc → Proc) : Ptable :=
  { pt with proc := Function.update pt.proc p (f (pt.proc p)) }

@[simp] theorem Ptable.modify_self (pt : Ptable) (p : Slot) (f : Proc → Proc) :
    (pt.modify p f).proc p = f (pt.proc p) := by
  simp [Ptable.modify]

@[simp] theorem Ptable.modify_of_ne (pt : Ptable) {p q : Slot} (h : q ≠ p) (f : Proc → Proc) :
    (pt.modify p f).proc q = pt.proc q := by
  simp [Ptable.modify, h]

/-- The body of the loop of `wakeup1`. -/
def wakeSlot (chan : Option Chan) (p : Proc) : Proc :=
  if p.state = .sleeping ∧ p.chan = chan then { p with state := .runnable } else p

/-- One access to the table with `ptable.lock` held. -/
inductive Write where
  /-- `allocproc`, behind `found` -/
  | claim (np : Slot)
  /-- `p->state = RUNNABLE` in `yield` and in `fork` -/
  | runnable (p : Slot)
  /-- `curproc->state = ZOMBIE` in `exit` -/
  | zombie (p : Slot)
  /-- `np->prio = curproc->prio` in `fork` -/
  | inherit (np p : Slot)
  | setPrio (p : Slot) (n : Int)
  | wake (p : Slot) (chan : Option Chan)
  | kill (p : Slot)
  /-- `wait`, for the child it has found -/
  | reap (p : Slot)
  /-- `sleep`, up to the call of `sched` -/
  | doze (p : Slot) (chan : Chan)
  /-- The body of the loop of `exit` over the children of `cur`. -/
  | adopt (p cur : Slot)
  deriving DecidableEq, Repr

def Write.apply (pt : Ptable) : Write → Ptable
  | .claim np =>
      { pt.modify np fun p =>
          { p with state := .embryo, nice := 0, prio := 0, pid := pt.nextpid } with
        nextpid := pt.nextpid + 1 }
  | .runnable p => pt.modify p fun p => { p with state := .runnable }
  | .zombie p => pt.modify p fun p => { p with state := .zombie }
  | .inherit np p => pt.modify np fun np => { np with prio := (pt.proc p).prio }
  | .setPrio p n => pt.modify p fun p => { p with prio := n }
  | .wake p chan => pt.modify p (wakeSlot chan)
  | .kill p =>
      pt.modify p fun p =>
        { p with
          killed := true
          state := if p.state = .sleeping then .runnable else p.state }
  | .reap p =>
      pt.modify p fun p =>
        { p with pid := 0, parent := none, killed := false, prio := 0, state := .unused }
  | .doze p chan => pt.modify p fun p => { p with chan := some chan, state := .sleeping }
  | .adopt p cur =>
      if (pt.proc p).parent = some cur then
        let pt := pt.modify p fun p => { p with parent := some pt.initproc }
        if (pt.proc p).state = .zombie then
          { pt with proc := fun q => wakeSlot (some (.proc pt.initproc)) (pt.proc q) }
        else pt
      else pt

def wakeup1 (chan : Option Chan) : List Write :=
  (List.finRange nproc).map fun p => .wake p chan

def Ptable.firstUnused (pt : Ptable) : Option Slot :=
  (List.finRange nproc).find? fun p => (pt.proc p).state = .unused

def Ptable.findPid (pt : Ptable) (pid : Int) : Option Slot :=
  (List.finRange nproc).find? fun p => (pt.proc p).pid = pid

def Ptable.exitedChild (pt : Ptable) (cur : Slot) : Option Slot :=
  (List.finRange nproc).find? fun p => (pt.proc p).parent = some cur ∧ (pt.proc p).state = .zombie

def Ptable.haveKids (pt : Ptable) (cur : Slot) : Bool :=
  (List.finRange nproc).any fun p => (pt.proc p).parent = some cur

/-- The writes of `exit`, after which it calls `sched`. -/
def exitWrites (pt : Ptable) (cur : Slot) : List Write :=
  wakeup1 ((pt.proc cur).parent.map .proc) ++
    (List.finRange nproc).map (fun p => .adopt p cur) ++ [.zombie cur]

end Os20.Xv6
