import Os20.Lib.Pthread

/-!
# `SSU_Sem.c`: threads on one semaphore

Any number of threads that call `SSU_Sem_down` and `SSU_Sem_up` on a semaphore set up
by `SSU_Sem_init`, in any order and any number of times.  A program point is named
after the statement that is executed next.  The counter is an integer: the callers
keep it below `INT_MAX`.  `usleep` only passes time and is not a step.
-/

namespace Os20.SsuSem

open Os20.Lib.Pthread

inductive Mutex where
  | counter
  | up
  | down
  deriving DecidableEq, Repr

inductive Cond where
  | signal
  deriving DecidableEq, Repr

/-- The counter, and what has happened to it so far. -/
structure Data where
  counter : Int
  /-- Calls of `SSU_Sem_down` that have returned. -/
  downs : Nat
  /-- Calls of `SSU_Sem_up` that have incremented the counter. -/
  incremented : Nat
  /-- Calls of `SSU_Sem_up` that have returned. -/
  ups : Nat
  deriving DecidableEq, Repr

inductive Pc where
  | idle
  | downLock
  | downLockCounter
  | decrement
  | downTest
  | downWait
  | downUnlockCounter
  | downUnlock
  | downReturn
  | upLock
  | upLockCounter
  | increment
  | upBroadcast
  | upUnlockCounter
  | upUnlock
  | upReturn
  deriving DecidableEq, Repr

def code {T : Type*} : Pc → Instr Data Mutex Cond T Pc
  | .idle => .call [.downLock, .upLock]
  -- SSU_Sem_down
  | .downLock => .lock .down .downLockCounter
  | .downLockCounter => .lock .counter .decrement
  | .decrement => .act fun d => ({ d with counter := d.counter - 1 }, .downTest)
  | .downTest => .act fun d => (d, if d.counter < 0 then .downWait else .downUnlockCounter)
  | .downWait => .wait .signal .counter .downTest
  | .downUnlockCounter => .unlock .counter .downUnlock
  | .downUnlock => .unlock .down .downReturn
  | .downReturn => .act fun d => ({ d with downs := d.downs + 1 }, .idle)
  -- SSU_Sem_up
  | .upLock => .lock .up .upLockCounter
  | .upLockCounter => .lock .counter .increment
  | .increment =>
      .act fun d =>
        ({ d with counter := d.counter + 1, incremented := d.incremented + 1 }, .upBroadcast)
  | .upBroadcast => .broadcast .signal .upUnlockCounter
  | .upUnlockCounter => .unlock .counter .upUnlock
  | .upUnlock => .unlock .up .upReturn
  | .upReturn => .act fun d => ({ d with ups := d.ups + 1 }, .idle)

/-- The threads `T` on a semaphore after `SSU_Sem_init(s, value)`. -/
def program (T : Type*) (value : Int) : Program Data Mutex Cond T Pc where
  data := { counter := value, downs := 0, incremented := 0, ups := 0 }
  code := fun _ => code
  entry := fun _ => .idle
  start := fun _ => .ready

/-- The mutexes held before each statement. -/
def holds : Pc → Mutex → Bool
  | .downLockCounter, .down | .decrement, .down | .downTest, .down | .downWait, .down
  | .downUnlockCounter, .down | .downUnlock, .down => true
  | .decrement, .counter | .downTest, .counter | .downWait, .counter
  | .downUnlockCounter, .counter => true
  | .upLockCounter, .up | .increment, .up | .upBroadcast, .up | .upUnlockCounter, .up
  | .upUnlock, .up => true
  | .increment, .counter | .upBroadcast, .counter | .upUnlockCounter, .counter => true
  | _, _ => false

theorem balanced {T : Type*} (p : Pc) : Program.Balanced holds p (code (T := T) p) := by
  cases p with
  | idle =>
      intro q hq
      ext m
      simp only [List.mem_cons, List.not_mem_nil, or_false] at hq
      rcases hq with rfl | rfl <;> cases m <;> rfl
  | downTest =>
      intro d
      ext m
      dsimp only
      split <;> cases m <;> rfl
  | decrement | downReturn | increment | upReturn =>
      intro d
      ext m
      cases m <;> rfl
  | upBroadcast =>
      show holds .upUnlockCounter = holds .upBroadcast
      ext m
      cases m <;> rfl
  | _ =>
      constructor
      · rfl
      · ext m
        cases m <;> rfl

def discipline (T : Type*) (value : Int) : (program T value).Discipline where
  holds := fun _ => holds
  entry := by
    intro t m
    cases m <;> rfl
  balanced := fun _ => balanced

end Os20.SsuSem
