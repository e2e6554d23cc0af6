import Os20.Lib.Pthread

/-!
# `rw_lock-r-test.c` and `rw_lock-w-test.c`: threads on one lock

Any number of threads that take and release the lock as readers and as writers.  Both
files have the same two halves in `r_lock` and in `w_lock`: waiting until the other
side's counter is zero, and incrementing the own counter.  They differ in the order of
the halves.  `rw_lock-r-test.c` counts a reader before it waits and a writer after,
`rw_lock-w-test.c` the other way round.

The mutex `mutex_read` is initialised but never used.
-/

namespace Os20.RwLock

open Os20.Lib.Pthread

inductive File where
  | rTest
  | wTest
  deriving DecidableEq, Repr

/-- `cmutex_read`, `cmutex_write`, `mutex_write` -/
inductive Mutex where
  | cmutexRead
  | cmutexWrite
  | mutexWrite
  deriving DecidableEq, Repr

inductive Cond where
  | read
  | write
  deriving DecidableEq, Repr

structure Data where
  numReaders : Int
  numWriters : Int
  deriving DecidableEq, Repr

inductive Pc where
  | idle
  -- r_lock
  | rCountLock
  | rCount
  | rCountUnlock
  | rTestLock
  | rTest
  | rWait
  | rTestUnlock
  | rCritical
  -- r_unlock
  | rLeaveLock
  | rUncount
  | rLeaveTest
  | rBroadcast
  | rLeaveUnlock
  -- w_lock
  | wTestLock
  | wTest
  | wWait
  | wTestUnlock
  | wCountLock
  | wCount
  | wCountUnlock
  | wMutexLock
  | wCritical
  -- w_unlock
  | wLeaveLock
  | wUncount
  | wLeaveTest
  | wBroadcast
  | wLeaveUnlock
  | wMutexUnlock
  deriving DecidableEq, Repr

namespace File

def rLock : File → Pc
  | .rTest => .rCountLock
  | .wTest => .rTestLock

def afterReaderCount : File → Pc
  | .rTest => .rTestLock
  | .wTest => .rCritical

def afterReaderTest : File → Pc
  | .rTest => .rCritical
  | .wTest => .rCountLock

def wLock : File → Pc
  | .rTest => .wTestLock
  | .wTest => .wCountLock

def afterWriterTest : File → Pc
  | .rTest => .wCountLock
  | .wTest => .wMutexLock

def afterWriterCount : File → Pc
  | .rTest => .wMutexLock
  | .wTest => .wTestLock

def code {T : Type*} (file : File) : Pc → Instr Data Mutex Cond T Pc
  | .idle => .call [file.rLock, file.wLock]
  -- r_lock
  | .rCountLock => .lock .cmutexRead .rCount
  | .rCount => .act fun d => ({ d with numReaders := d.numReaders + 1 }, .rCountUnlock)
  | .rCountUnlock => .unlock .cmutexRead file.afterReaderCount
  | .rTestLock => .lock .cmutexWrite .rTest
  | .rTest => .act fun d => (d, if d.numWriters > 0 then .rWait else .rTestUnlock)
  | .rWait => .wait .write .cmutexWrite .rTest
  | .rTestUnlock => .unlock .cmutexWrite file.afterReaderTest
  | .rCritical => .call [.rLeaveLock]
  -- r_unlock
  | .rLeaveLock => .lock .cmutexRead .rUncount
  | .rUncount =>
      .act fun d =>
        (if d.numReaders > 0 then { d with numReaders := d.numReaders - 1 } else d, .rLeaveTest)
  | .rLeaveTest => .act fun d => (d, if d.numReaders = 0 then .rBroadcast else .rLeaveUnlock)
  | .rBroadcast => .broadcast .read .rLeaveUnlock
  | .rLeaveUnlock => .unlock .cmutexRead .idle
  -- w_lock
  | .wTestLock => .lock .cmutexRead .wTest
  | .wTest => .act fun d => (d, if d.numReaders > 0 then .wWait else .wTestUnlock)
  | .wWait => .wait .read .cmutexRead .wTest
  | .wTestUnlock => .unlock .cmutexRead file.afterWriterTest
  | .wCountLock => .lock .cmutexWrite .wCount
  | .wCount => .act fun d => ({ d with numWriters := d.numWriters + 1 }, .wCountUnlock)
  | .wCountUnlock => .unlock .cmutexWrite file.afterWriterCount
  | .wMutexLock => .lock .mutexWrite .wCritical
  | .wCritical => .call [.wLeaveLock]
  -- w_unlock
  | .wLeaveLock => .lock .cmutexWrite .wUncount
  | .wUncount =>
      .act fun d =>
        (if d.numWriters > 0 then { d with numWriters := d.numWriters - 1 } else d, .wLeaveTest)
  | .wLeaveTest => .act fun d => (d, if d.numWriters = 0 then .wBroadcast else .wLeaveUnlock)
  | .wBroadcast => .broadcast .write .wLeaveUnlock
  | .wLeaveUnlock => .unlock .cmutexWrite .wMutexUnlock
  | .wMutexUnlock => .unlock .mutexWrite .idle

/-- The threads `T` on a lock after `init_rwlock`. -/
def program (file : File) (T : Type*) : Program Data Mutex Cond T Pc where
  data := { numReaders := 0, numWriters := 0 }
  code := fun _ => file.code
  entry := fun _ => .idle
  start := fun _ => .ready

end File

/-- The mutexes held before each statement, the same for both files. -/
def holds : Pc → Mutex → Bool
  | .rCount, .cmutexRead | .rCountUnlock, .cmutexRead => true
  | .rTest, .cmutexWrite | .rWait, .cmutexWrite | .rTestUnlock, .cmutexWrite => true
  | .rUncount, .cmutexRead | .rLeaveTest, .cmutexRead | .rBroadcast, .cmutexRead
  | .rLeaveUnlock, .cmutexRead => true
  | .wTest, .cmutexRead | .wWait, .cmutexRead | .wTestUnlock, .cmutexRead => true
  | .wCount, .cmutexWrite | .wCountUnlock, .cmutexWrite => true
  | .wUncount, .cmutexWrite | .wLeaveTest, .cmutexWrite | .wBroadcast, .cmutexWrite
  | .wLeaveUnlock, .cmutexWrite => true
  | .wCritical, .mutexWrite | .wLeaveLock, .mutexWrite | .wUncount, .mutexWrite
  | .wLeaveTest, .mutexWrite | .wBroadcast, .mutexWrite | .wLeaveUnlock, .mutexWrite
  | .wMutexUnlock, .mutexWrite => true
  | _, _ => false

theorem balanced {T : Type*} (file : File) (p : Pc) :
    Program.Balanced holds p (file.code (T := T) p) := by
  cases p with
  | idle =>
      intro q hq
      ext m
      simp only [List.mem_cons, List.not_mem_nil, or_false] at hq
      rcases hq with rfl | rfl <;> cases file <;> cases m <;> rfl
  | rCritical | wCritical =>
      intro q hq
      ext m
      simp only [List.mem_cons, List.not_mem_nil, or_false] at hq
      subst hq
      cases m <;> rfl
  | rTest | rLeaveTest | wTest | wLeaveTest =>
      intro d
      ext m
      dsimp only
      split <;> cases m <;> rfl
  | rCount | rUncount | wCount | wUncount =>
      intro d
      ext m
      cases m <;> rfl
  | rBroadcast =>
      show holds .rLeaveUnlock = holds .rBroadcast
      ext m
      cases m <;> rfl
  | wBroadcast =>
      show holds .wLeaveUnlock = holds .wBroadcast
      ext m
      cases m <;> rfl
  | _ =>
      constructor
      · rfl
      · ext m
        cases file <;> cases m <;> rfl

def discipline (file : File) (T : Type*) : (file.program T).Discipline where
  holds := fun _ => holds
  entry := by
    intro t m
    cases m <;> rfl
  balanced := fun _ => balanced file

end Os20.RwLock
