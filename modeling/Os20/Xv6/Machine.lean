import Os20.Lib.Transition
import Os20.Xv6.Proc

/-!
# `scheduler` and the processes it runs

Every CPU of `C` runs `scheduler`.  Its first loop reads the table without a lock.  Its
second loop holds `ptable.lock`; when it switches to a process, the process gives the lock
back, runs for a while, and takes it again before it switches back.  In the meantime it
calls whatever it likes, and an interrupt may come in; so may one during the first loop.
-/

namespace Os20.Xv6

open Os20.Lib.Transition

/-- What a CPU does; `highest` is the local variable of `scheduler`. -/
inductive Cpu where
  /-- The first loop is about to read the state of slot `i`. -/
  | scan (i : Nat) (highest : Int)
  /-- It has found slot `p` RUNNABLE and is about to read its priority. -/
  | peek (p : Slot) (highest : Int)
  /-- The second loop is about to look at slot `i`. -/
  | sweep (i : Nat) (highest : Int)
  /-- Switched to process `p`. -/
  | running (p : Slot) (highest : Int)
  /-- Back from `swtch`. -/
  | back (p : Slot) (highest : Int)
  deriving DecidableEq, Repr

/-- What a process is in the middle of when it does not have the lock. -/
inductive Frame where
  | user
  /-- In `fork`, with the slot that `allocproc` has returned. -/
  | forking (np : Slot)
  /-- In `fork`, before its last critical section. -/
  | forked (np : Slot)
  deriving DecidableEq, Repr

/-- Where a process has called `sched`. -/
inductive Resume where
  | yield (f : Frame)
  | sleep (f : Frame)
  | wait
  | exit
  deriving DecidableEq, Repr

inductive Task where
  /-- Not switched to yet. -/
  | forkret
  | sched (r : Resume)
  | run (f : Frame)
  deriving DecidableEq, Repr

inductive After where
  | release
  | sched (r : Resume)
  deriving DecidableEq, Repr

structure Kernel (C : Type*) where
  ptable : Ptable
  task : Slot → Task
  /-- The CPU that holds `ptable.lock`. -/
  lock : Option C
  cpu : C → Cpu
  /-- The rest of the critical section that a process or an interrupt handler is in. -/
  critical : C → Option (List Write × After)

inductive Call where
  /-- `allocproc`, called by `fork` -/
  | allocproc
  /-- No kernel stack, or no memory for a copy. -/
  | forkFails
  /-- The copy is made. -/
  | copyuvm
  /-- The last critical section of `fork`. -/
  | forkEnds
  | exit
  | wait
  | sleep (a : Nat)
  | wakeup (a : Nat)
  | kill (pid : Int)
  | yield
  | setPrio (n : Int)
  | growproc (sz : Nat)
  deriving DecidableEq, Repr

inductive Event (C : Type*) where
  /-- One step of `scheduler`. -/
  | scheduler (c : C)
  /-- The process that has been switched to comes out of `sched`, or starts. -/
  | resume (c : C)
  | call (c : C) (call : Call)
  /-- An interrupt handler calls `wakeup`. -/
  | interrupt (c : C) (a : Nat)
  /-- One step of a critical section. -/
  | write (c : C)
  deriving DecidableEq, Repr

variable {C : Type*} [DecidableEq C]

namespace Kernel

def setCpu (k : Kernel C) (c : C) (cpu : Cpu) : Kernel C :=
  { k with cpu := Function.update k.cpu c cpu }

def setTask (k : Kernel C) (p : Slot) (task : Task) : Kernel C :=
  { k with task := Function.update k.task p task }

def modify (k : Kernel C) (p : Slot) (f : Proc → Proc) : Kernel C :=
  { k with ptable := k.ptable.modify p f }

/-- Take the lock, for the critical section `todo`. -/
def acquire (k : Kernel C) (c : C) (todo : List Write) (after : After) : Option (Kernel C) :=
  if k.lock = none then
    some { k with lock := some c, critical := Function.update k.critical c (some (todo, after)) }
  else none

def scheduler (k : Kernel C) (c : C) : Cpu → Option (Kernel C)
  | .scan i highest =>
      if h : i < nproc then
        if (k.ptable.proc ⟨i, h⟩).state ≠ .runnable then some (k.setCpu c (.scan (i + 1) highest))
        else some (k.setCpu c (.peek ⟨i, h⟩ highest))
      else if k.lock = none then some { k.setCpu c (.sweep 0 highest) with lock := some c }
      else none
  | .peek p highest =>
      let prio := (k.ptable.proc p).prio
      some (k.setCpu c (.scan (p + 1) (if prio ≥ highest then prio else highest)))
  | .sweep i highest =>
      if h : i < nproc then
        if (k.ptable.proc ⟨i, h⟩).state ≠ .runnable ∨ (k.ptable.proc ⟨i, h⟩).prio ≠ highest then
          some (k.setCpu c (.sweep (i + 1) highest))
        else
          some ((k.modify ⟨i, h⟩ fun p => { p with state := .running }).setCpu c
            (.running ⟨i, h⟩ highest))
      -- the next round starts
      else some { k.setCpu c (.scan 0 0) with lock := none }
  | .running _ _ => none
  | .back p highest =>
      some ((k.modify p fun p => { p with nice := p.nice + 1 }).setCpu c (.sweep (p + 1) highest))

/-- The loop of `wait` by process `p`, with the lock held. -/
def waitSection (k : Kernel C) (p : Slot) : List Write × After :=
  match k.ptable.exitedChild p with
  | some child => ([.reap child], .release)
  | none =>
      if k.ptable.haveKids p = false ∨ (k.ptable.proc p).killed = true then ([], .release)
      else ([.doze p (.proc p)], .sched .wait)

/-- Process `p` has just been switched to on `c`, and has the lock. -/
def resume (k : Kernel C) (c : C) (p : Slot) : Task → Option (Kernel C)
  | .forkret => some { k.setTask p (.run .user) with lock := none }
  | .sched (.yield f) => some { k.setTask p (.run f) with lock := none }
  | .sched (.sleep f) =>
      some { (k.modify p fun p => { p with chan := none }).setTask p (.run f) with lock := none }
  | .sched .wait =>
      let k := (k.modify p fun p => { p with chan := none }).setTask p (.run .user)
      some { k with critical := Function.update k.critical c (some (k.waitSection p)) }
  -- `panic("zombie exit")`
  | .sched .exit => none
  | .run _ => none

/-- Process `p` runs on `c` without the lock. -/
def call (k : Kernel C) (c : C) (p : Slot) (f : Frame) : Call → Option (Kernel C)
  | .allocproc =>
      match f, k.ptable.firstUnused with
      | .user, some np => ((k.setTask np .forkret).setTask p (.run (.forking np))).acquire c
          [.claim np] .release
      | .user, none => k.acquire c [] .release
      | _, _ => none
  | .forkFails =>
      match f with
      | .forking np =>
          some ((k.modify np fun np => { np with state := .unused }).setTask p (.run .user))
      | _ => none
  | .copyuvm =>
      match f with
      | .forking np =>
          some ((k.modify np fun np =>
            { np with sz := (k.ptable.proc p).sz, parent := some p }).setTask p (.run (.forked np)))
      | _ => none
  | .forkEnds =>
      match f with
      | .forked np => (k.setTask p (.run .user)).acquire c
          [.runnable np, .inherit np p] .release
      | _ => none
  | .exit =>
      -- `panic("init exiting")`
      if f = .user ∧ p ≠ k.ptable.initproc then
        k.acquire c (exitWrites k.ptable p) (.sched .exit)
      else none
  | .wait => if f = .user then k.acquire c (k.waitSection p).1 (k.waitSection p).2 else none
  | .sleep a => if f = .user then k.acquire c [.doze p (.addr a)] (.sched (.sleep f)) else none
  | .wakeup a => if f = .user then k.acquire c (wakeup1 (some (.addr a))) .release else none
  | .kill pid =>
      if f = .user then k.acquire c ((k.ptable.findPid pid).toList.map .kill) .release else none
  | .yield => k.acquire c [.runnable p] (.sched (.yield f))
  | .setPrio n => if f = .user then k.acquire c [.setPrio p n] .release else none
  | .growproc sz =>
      if f = .user then some (k.modify p fun p => { p with sz := sz }) else none

/-- One step of a critical section on `c`.  `sched` panics when the process has not changed
its state. -/
def write (k : Kernel C) (c : C) : List Write × After → Option (Kernel C)
  | (w :: todo, after) =>
      some { k with
        ptable := w.apply k.ptable
        critical := Function.update k.critical c (some (todo, after)) }
  | ([], .release) =>
      some { k with lock := none, critical := Function.update k.critical c none }
  | ([], .sched r) =>
      match k.cpu c with
      | .running p highest =>
          if (k.ptable.proc p).state = .running then none
          else
            some { (k.setCpu c (.back p highest)).setTask p (.sched r) with
              critical := Function.update k.critical c none }
      | _ => none

/-- Interrupts are on: in the first loop of `scheduler`, and in a process without the lock. -/
def interruptible (k : Kernel C) (c : C) : Bool :=
  k.lock ≠ some c && match k.cpu c with
  | .scan _ _ | .peek _ _ | .running _ _ => true
  | .sweep _ _ | .back _ _ => false

def next (k : Kernel C) : Event C → Option (Kernel C)
  | .scheduler c => if k.critical c = none then k.scheduler c (k.cpu c) else none
  | .resume c =>
      match k.critical c, k.cpu c with
      | none, .running p _ => k.resume c p (k.task p)
      | _, _ => none
  | .call c call =>
      match k.critical c, k.cpu c with
      | none, .running p _ =>
          match k.task p with
          | .run f => k.call c p f call
          | _ => none
      | _, _ => none
  | .interrupt c a =>
      if k.critical c = none ∧ k.interruptible c = true then
        k.acquire c (wakeup1 (some (.addr a))) .release
      else none
  | .write c =>
      match k.critical c with
      | some rest => k.write c rest
      | none => none

end Kernel

/-- The next step of `scheduler` on `c` switches to `p`. -/
structure Kernel.Switches (k : Kernel C) (c : C) (p : Slot) : Prop where
  critical : k.critical c = none
  cpu : k.cpu c = .sweep p (k.ptable.proc p).prio
  state : (k.ptable.proc p).state = .runnable

instance (k : Kernel C) (c : C) (p : Slot) : Decidable (k.Switches c p) :=
  decidable_of_iff (k.critical c = none ∧ k.cpu c = .sweep p (k.ptable.proc p).prio ∧
    (k.ptable.proc p).state = .runnable)
    ⟨fun ⟨h₁, h₂, h₃⟩ => ⟨h₁, h₂, h₃⟩, fun ⟨h₁, h₂, h₃⟩ => ⟨h₁, h₂, h₃⟩⟩

/-- All runs from any table, with every CPU at the start of a round. -/
def kernel (C : Type*) [DecidableEq C] : System (Kernel C) (Event C) where
  init k := k.lock = none ∧ ∀ c, k.cpu c = .scan 0 0 ∧ k.critical c = none
  next := Kernel.next

end Os20.Xv6
