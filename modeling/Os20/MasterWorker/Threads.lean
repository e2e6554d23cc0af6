import Mathlib.Data.Fintype.Option
import Mathlib.Data.Fintype.Sum
import Os20.Lib.Pthread

/-!
# `master-worker.c`: main, masters and workers

The whole program for any command line: `main` creates the masters and the workers,
joins the masters, signals once and joins the workers; the masters put the items into
the buffer and the workers take them out.  A program point is named after the statement
that is executed next and carries the loop variable of its thread.

`usleep`, the output and the deallocation at the end of `main` are not steps.  The
products `thread_id * num_chunks` stay within `total_items`, so no `int` overflows.
-/

namespace Os20.MasterWorker

open Os20.Lib.Pthread

structure Config where
  totalItems : Nat
  maxBufSize : Nat
  numWorkers : Nat
  numMasters : Nat
  deriving DecidableEq, Repr

inductive Thread (numMasters numWorkers : Nat) where
  | main
  | master (i : Fin numMasters)
  | worker (j : Fin numWorkers)
  deriving DecidableEq, Repr

inductive Mutex where
  | mutex
  deriving DecidableEq, Repr

/-- `cond_can_consume`, `cond_can_produce` -/
inductive Cond where
  | canConsume
  | canProduce
  deriving DecidableEq, Repr

/-- The globals, and what has been done with the buffer so far. -/
structure Data where
  itemToProduce : Nat
  currBufSize : Int
  buffer : Int → Nat
  /-- The indices at which the buffer was accessed. -/
  accessed : List Int
  /-- The items printed as produced, last first. -/
  produced : List Nat
  /-- The items printed as consumed, last first. -/
  consumed : List Nat

inductive Pc where
  -- main
  | createMasters (i : Nat)
  | createWorkers (j : Nat)
  | joinMasters (i : Nat)
  | mainLock
  | mainTest
  | mainSignal
  | mainUnlock
  | joinWorkers (j : Nat)
  | mainBroadcast
  | mainDone
  -- generate_requests_loop
  | produceLoop (idx : Nat)
  | produceLock (idx : Nat)
  | produceTest (idx : Nat)
  | produceSignal (idx : Nat)
  | checkItems (idx : Nat)
  | produceWait (idx : Nat)
  | put (idx : Nat)
  | countItem (idx : Nat)
  | produceUnlock (idx : Nat)
  | finishLock
  | finishTest
  | finishSignal
  | finishUnlock
  | masterDone
  -- generate_responses_loop
  | consumeLoop (k : Nat)
  | consumeLock (k : Nat)
  | consumeTest (k : Nat)
  | consumeSignal (k : Nat)
  | consumeWait (k : Nat)
  | take (k : Nat)
  | consumeUnlock (k : Nat)
  | leaveLock
  | leaveSignal
  | leaveUnlock
  | workerDone
  deriving DecidableEq, Repr

namespace Thread

variable {numMasters numWorkers : Nat}

def id : Thread numMasters numWorkers → Nat
  | .main => 0
  | .master i => i
  | .worker j => j

def equivOption : Thread numMasters numWorkers ≃ Option (Fin numMasters ⊕ Fin numWorkers) where
  toFun
    | .main => none
    | .master i => some (.inl i)
    | .worker j => some (.inr j)
  invFun
    | none => .main
    | some (.inl i) => .master i
    | some (.inr j) => .worker j
  left_inv t := by cases t <;> rfl
  right_inv o := by rcases o with _ | _ | _ <;> rfl

instance : Fintype (Thread numMasters numWorkers) := Fintype.ofEquiv _ equivOption.symm

end Thread

/-- `buffer[curr_buf_size++] = idx; print_produced(idx, thread_id);` -/
def Data.putItem (d : Data) (idx : Nat) : Data :=
  { d with
    buffer := Function.update d.buffer d.currBufSize idx
    currBufSize := d.currBufSize + 1
    accessed := d.currBufSize :: d.accessed
    produced := idx :: d.produced }

/-- `consumed = buffer[--curr_buf_size]; buffer[curr_buf_size] = 0; print_consumed(...);` -/
def Data.takeItem (d : Data) : Data :=
  { d with
    currBufSize := d.currBufSize - 1
    buffer := Function.update d.buffer (d.currBufSize - 1) 0
    accessed := (d.currBufSize - 1) :: d.accessed
    consumed := d.buffer (d.currBufSize - 1) :: d.consumed }

namespace Config

variable (cfg : Config)

def masterStart (id : Nat) : Nat := id * (cfg.totalItems / cfg.numMasters)

/-- `end` of a master: the last one takes the remainder. -/
def masterEnd (id : Nat) : Nat :=
  min ((id + 1) * (cfg.totalItems / cfg.numMasters)) cfg.totalItems +
    if id = cfg.numMasters - 1 then cfg.totalItems % cfg.numMasters else 0

def workerStart (id : Nat) : Nat := id * (cfg.totalItems / cfg.numWorkers)

/-- `end` of a worker: the first one takes the remainder. -/
def workerEnd (id : Nat) : Nat :=
  min ((id + 1) * (cfg.totalItems / cfg.numWorkers)) cfg.totalItems +
    if id = 0 then cfg.totalItems % cfg.numWorkers else 0

abbrev Threads : Type := Thread cfg.numMasters cfg.numWorkers

def code (t : cfg.Threads) : Pc → Instr Data Mutex Cond cfg.Threads Pc
  -- main
  | .createMasters i =>
      if h : i < cfg.numMasters then .create (.master ⟨i, h⟩) (.createMasters (i + 1))
      else .act fun d => (d, .createWorkers 0)
  | .createWorkers j =>
      if h : j < cfg.numWorkers then .create (.worker ⟨j, h⟩) (.createWorkers (j + 1))
      else .act fun d => (d, .joinMasters 0)
  | .joinMasters i =>
      if h : i < cfg.numMasters then .join (.master ⟨i, h⟩) (.joinMasters (i + 1))
      else .act fun d => (d, .mainLock)
  | .mainLock => .lock .mutex .mainTest
  | .mainTest => .act fun d => (d, if d.currBufSize ≥ 1 then .mainSignal else .mainUnlock)
  | .mainSignal => .signal .canConsume .mainUnlock
  | .mainUnlock => .unlock .mutex (.joinWorkers 0)
  | .joinWorkers j =>
      if h : j < cfg.numWorkers then .join (.worker ⟨j, h⟩) (.joinWorkers (j + 1))
      else .act fun d => (d, .mainBroadcast)
  | .mainBroadcast => .broadcast .canProduce .mainDone
  | .mainDone => .exit
  -- generate_requests_loop
  | .produceLoop idx =>
      .act fun d => (d, if idx < cfg.masterEnd t.id then .produceLock idx else .finishLock)
  | .produceLock idx => .lock .mutex (.produceTest idx)
  | .produceTest idx =>
      .act fun d => (d, if d.currBufSize ≥ cfg.maxBufSize then .produceSignal idx else .put idx)
  | .produceSignal idx => .signal .canConsume (.checkItems idx)
  | .checkItems idx =>
      .act fun d =>
        (d, if d.itemToProduce ≠ cfg.totalItems then .produceWait idx else .produceTest idx)
  | .produceWait idx => .wait .canProduce .mutex (.produceTest idx)
  | .put idx => .act fun d => (d.putItem idx, .countItem idx)
  | .countItem idx =>
      .act fun d => ({ d with itemToProduce := d.itemToProduce + 1 }, .produceUnlock idx)
  | .produceUnlock idx => .unlock .mutex (.produceLoop (idx + 1))
  | .finishLock => .lock .mutex .finishTest
  | .finishTest => .act fun d => (d, if d.currBufSize ≥ 1 then .finishSignal else .finishUnlock)
  | .finishSignal => .signal .canConsume .finishUnlock
  | .finishUnlock => .unlock .mutex .masterDone
  | .masterDone => .exit
  -- generate_responses_loop
  | .consumeLoop k =>
      .act fun d => (d, if k < cfg.workerEnd t.id then .consumeLock k else .leaveLock)
  | .consumeLock k => .lock .mutex (.consumeTest k)
  | .consumeTest k =>
      .act fun d => (d, if d.currBufSize ≤ 0 then .consumeSignal k else .take k)
  | .consumeSignal k => .signal .canProduce (.consumeWait k)
  | .consumeWait k => .wait .canConsume .mutex (.consumeTest k)
  | .take k => .act fun d => (d.takeItem, .consumeUnlock k)
  | .consumeUnlock k => .unlock .mutex (.consumeLoop (k + 1))
  | .leaveLock => .lock .mutex .leaveSignal
  | .leaveSignal => .signal .canProduce .leaveUnlock
  | .leaveUnlock => .unlock .mutex .workerDone
  | .workerDone => .exit

def entry : cfg.Threads → Pc
  | .main => .createMasters 0
  | .master i => .produceLoop (cfg.masterStart i)
  | .worker j => .consumeLoop (cfg.workerStart j)

/-- The program; `malloc` leaves `garbage` in the buffer. -/
def program (garbage : Int → Nat) : Program Data Mutex Cond cfg.Threads Pc where
  data :=
    { itemToProduce := 0, currBufSize := 0, buffer := garbage
      accessed := [], produced := [], consumed := [] }
  code := cfg.code
  entry := cfg.entry
  start
    | .main => .ready
    | _ => .unborn

end Config

/-! ## The mutex -/

def holds : Pc → Mutex → Bool
  | .mainTest, _ | .mainSignal, _ | .mainUnlock, _ => true
  | .produceTest _, _ | .produceSignal _, _ | .checkItems _, _ | .produceWait _, _ | .put _, _
  | .countItem _, _ | .produceUnlock _, _ => true
  | .finishTest, _ | .finishSignal, _ | .finishUnlock, _ => true
  | .consumeTest _, _ | .consumeSignal _, _ | .consumeWait _, _ | .take _, _
  | .consumeUnlock _, _ => true
  | .leaveSignal, _ | .leaveUnlock, _ => true
  | _, _ => false

theorem balanced {cfg : Config} (t : cfg.Threads) (p : Pc) :
    Program.Balanced holds p (cfg.code t p) := by
  cases p with
  | createMasters i | createWorkers i | joinMasters i | joinWorkers i =>
      simp only [Config.code]
      split
      · show holds _ = holds _
        rfl
      · intro d
        rfl
  | mainTest | produceTest | checkItems | finishTest | consumeTest | produceLoop | consumeLoop =>
      intro d
      ext m
      dsimp only
      split <;> rfl
  | put | countItem | take =>
      intro d
      rfl
  | mainSignal | mainBroadcast | produceSignal | finishSignal | consumeSignal | leaveSignal =>
      show holds _ = holds _
      rfl
  | mainDone | masterDone | workerDone => trivial
  | _ =>
      constructor
      · rfl
      · ext m
        cases m
        rfl

def discipline (cfg : Config) (garbage : Int → Nat) : (cfg.program garbage).Discipline where
  holds := fun _ => holds
  entry := by
    intro t m
    cases t <;> rfl
  balanced := balanced

def inside : Pc → Bool
  | .produceWait _ | .consumeWait _ => false
  | p => holds p .mutex

theorem owner_of_inside {cfg : Config} {garbage : Int → Nat}
    {s : State Data Mutex cfg.Threads Pc} (howners : (discipline cfg garbage).Owners s)
    {t : cfg.Threads} (ht : inside (s.pc t) = true) : s.owner .mutex = some t := by
  apply howners.owner_eq
  · show (cfg.code t (s.pc t)).waitsWith .mutex = false
    cases hp : s.pc t with
    | createMasters | createWorkers | joinMasters | joinWorkers =>
        simp only [Config.code]
        split <;> rfl
    | produceWait | consumeWait =>
        rw [hp] at ht
        cases ht
    | _ => rfl
  · show holds (s.pc t) .mutex = true
    cases hp : s.pc t <;> rw [hp] at ht <;> first | rfl | cases ht

/-- At most one thread is inside a critical section. -/
theorem inside_unique {cfg : Config} {garbage : Int → Nat}
    {s : State Data Mutex cfg.Threads Pc} (howners : (discipline cfg garbage).Owners s)
    {t u : cfg.Threads} (ht : inside (s.pc t) = true) (hu : inside (s.pc u) = true) : t = u := by
  have howner := owner_of_inside howners ht
  rw [owner_of_inside howners hu] at howner
  exact (Option.some.inj howner).symm

end Os20.MasterWorker
