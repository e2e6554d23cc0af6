import Os20.RwLock.Threads

/-!
# Reader-writer locks: mutual exclusion

Each side tests the counter of the other side and increments its own one in two
separate critical sections.  In the file that counts a side only after its test, a
thread of that side stands for a while in a window where it has passed its test and
is not counted, and the other side's test does not see it.  `exists_reader_with_writer`
is a run through the window for each file; `exclusive` says that nothing else goes
wrong.
-/

namespace Os20.RwLock

open Os20.Lib.Transition Os20.Lib.Pthread Os20.Lib.Pthread.Program

def Exclusive {T : Type*} (pc : T → Pc) : Prop :=
  ∀ t u, t ≠ u → pc t = .wCritical → pc u ≠ .rCritical ∧ pc u ≠ .wCritical

/-- Between the increment and the decrement of `num_readers`. -/
def readerCounted : File → Pc → Bool
  | _, .rCountUnlock | _, .rCritical | _, .rLeaveLock | _, .rUncount => true
  | .rTest, .rTestLock | .rTest, .rTest | .rTest, .rWait | .rTest, .rTestUnlock => true
  | _, _ => false

def writerCounted : File → Pc → Bool
  | _, .wCountUnlock | _, .wMutexLock | _, .wCritical | _, .wLeaveLock | _, .wUncount => true
  | .wTest, .wTestLock | .wTest, .wTest | .wTest, .wWait | .wTest, .wTestUnlock => true
  | _, _ => false

/-- A reader that found no writer, until its decrement. -/
def readerPassed : File → Pc → Bool
  | _, .rTestUnlock | _, .rCritical | _, .rLeaveLock | _, .rUncount => true
  | .wTest, .rCountLock | .wTest, .rCount | .wTest, .rCountUnlock => true
  | _, _ => false

def writerPassed : File → Pc → Bool
  | _, .wTestUnlock | _, .wMutexLock | _, .wCritical | _, .wLeaveLock | _, .wUncount => true
  | .rTest, .wCountLock | .rTest, .wCount | .rTest, .wCountUnlock => true
  | _, _ => false

/-- The thread that moves does not pass its test while a thread of the other side is
between its own test and its own increment. -/
def windowFree (file : File) {T : Type*} (s : State Data Mutex T Pc) (e : Event T Pc) : Prop :=
  (s.pc e.thread = .rTest → s.data.numWriters ≤ 0 →
    ∀ u, writerPassed file (s.pc u) = true → writerCounted file (s.pc u) = true) ∧
  (s.pc e.thread = .wTest → s.data.numReaders ≤ 0 →
    ∀ u, readerPassed file (s.pc u) = true → readerCounted file (s.pc u) = true)

instance (file : File) {T : Type*} [Fintype T] (s : State Data Mutex T Pc) (e : Event T Pc) :
    Decidable (windowFree file s e) :=
  inferInstanceAs (Decidable (_ ∧ _))

/-! ## The counters -/

structure Counts (file : File) {T : Type*} [Fintype T] (d : Data) (pc : T → Pc) : Prop where
  readers : d.numReaders = count (readerCounted file) pc
  writers : d.numWriters = count (writerCounted file) pc

variable {file : File} {T : Type*} [Fintype T]

theorem counts_initial : Counts file (file.program T).data (file.program T).entry := by
  have hreaders : count (readerCounted file) (file.program T).entry = 0 :=
    count_eq_zero.mpr fun _ => by cases file <;> rfl
  have hwriters : count (writerCounted file) (file.program T).entry = 0 :=
    count_eq_zero.mpr fun _ => by cases file <;> rfl
  constructor
  · rw [hreaders]
    rfl
  · rw [hwriters]
    rfl

omit [Fintype T] in
/-- One step changes a counter exactly if the thread starts or stops being counted; the
guards of the decrements hold whenever a thread gets there. -/
theorem counters_effect {d d' : Data} {p q : Pc} (heffect : (file.code (T := T) p).Effect d d' q)
    (hreader : readerCounted file p = true → 0 < d.numReaders)
    (hwriter : writerCounted file p = true → 0 < d.numWriters) :
    d'.numReaders + (readerCounted file p).toNat =
        d.numReaders + (readerCounted file q).toNat ∧
      d'.numWriters + (writerCounted file p).toNat =
        d.numWriters + (writerCounted file q).toNat := by
  cases p with
  | idle | rCritical | wCritical =>
      simp only [File.code, Instr.Effect, List.mem_cons, List.not_mem_nil, or_false] at heffect
      rcases heffect with ⟨rfl, rfl | rfl⟩ <;> cases file <;> constructor <;> rfl
  | rTest | rLeaveTest | wTest | wLeaveTest =>
      simp only [File.code, Instr.Effect, Prod.mk.injEq] at heffect
      obtain ⟨rfl, rfl⟩ := heffect
      split <;> cases file <;> constructor <;> rfl
  | rCount | wCount =>
      simp only [File.code, Instr.Effect, Prod.mk.injEq] at heffect
      obtain ⟨rfl, rfl⟩ := heffect
      cases file <;> simp [readerCounted, writerCounted]
  | rUncount =>
      have hpos : 0 < d.numReaders := hreader (by cases file <;> rfl)
      simp only [File.code, Instr.Effect, Prod.mk.injEq, gt_iff_lt, hpos, if_true] at heffect
      obtain ⟨rfl, rfl⟩ := heffect
      cases file <;> simp [readerCounted, writerCounted]
  | wUncount =>
      have hpos : 0 < d.numWriters := hwriter (by cases file <;> rfl)
      simp only [File.code, Instr.Effect, Prod.mk.injEq, gt_iff_lt, hpos, if_true] at heffect
      obtain ⟨rfl, rfl⟩ := heffect
      cases file <;> simp [readerCounted, writerCounted]
  | _ =>
      simp only [File.code, Instr.Effect] at heffect
      obtain ⟨rfl, rfl⟩ := heffect
      cases file <;> constructor <;> rfl

variable [DecidableEq T]

theorem Counts.effect {d d' : Data} {pc : T → Pc} {t : T} {q : Pc}
    (hcounts : Counts file d pc) (heffect : (file.code (T := T) (pc t)).Effect d d' q) :
    Counts file d' (Function.update pc t q) := by
  have hnumReaders := hcounts.readers
  have hnumWriters := hcounts.writers
  have hstep := counters_effect heffect
    (fun ht => by have hpos : 0 < count (readerCounted file) pc := count_pos ht; omega)
    (fun ht => by have hpos : 0 < count (writerCounted file) pc := count_pos ht; omega)
  have hreaders := count_update (readerCounted file) pc t q
  have hwriters := count_update (writerCounted file) pc t q
  constructor <;> omega

theorem counts {spurious : Bool} {ok : State Data Mutex T Pc → Event T Pc → Prop}
    {s : State Data Mutex T Pc}
    (hreach : ((file.program T).system spurious).ReachableWhere ok s) :
    Counts file s.data s.pc := by
  apply hreach.invariant
  · rintro s rfl
    exact counts_initial
  · intro s e s' _ hcounts _ hnext
    rcases (next_step hnext).moves with ⟨hdata, hpc⟩ | ⟨q, hpc, heffect⟩
    · rwa [hdata, hpc]
    · rw [hpc]
      exact hcounts.effect heffect

/-! ## Readers and writers that have passed their tests -/

def Apart (file : File) {T : Type*} (pc : T → Pc) : Prop :=
  ∀ t u, readerPassed file (pc t) = true → writerPassed file (pc u) = false

theorem not_readerPassed_of_writerPassed {p : Pc} (hp : writerPassed file p = true) :
    readerPassed file p = false := by
  cases file <;> cases p <;> first | rfl | cases hp

omit [Fintype T] [DecidableEq T] in
/-- A thread passes in its test only, where it has found nobody of the other side counted. -/
theorem passed_effect {d d' : Data} {p q : Pc} (heffect : (file.code (T := T) p).Effect d d' q) :
    (readerPassed file q = true →
        readerPassed file p = true ∨ (p = .rTest ∧ d.numWriters ≤ 0)) ∧
      (writerPassed file q = true →
        writerPassed file p = true ∨ (p = .wTest ∧ d.numReaders ≤ 0)) := by
  cases p with
  | idle | rCritical | wCritical =>
      simp only [File.code, Instr.Effect, List.mem_cons, List.not_mem_nil, or_false] at heffect
      rcases heffect with ⟨rfl, rfl | rfl⟩ <;> cases file <;>
        simp [readerPassed, writerPassed, File.rLock, File.wLock]
  | rTest | wTest =>
      simp only [File.code, Instr.Effect, Prod.mk.injEq] at heffect
      obtain ⟨rfl, rfl⟩ := heffect
      split <;> cases file <;> simp [readerPassed, writerPassed] <;> omega
  | rLeaveTest | wLeaveTest =>
      simp only [File.code, Instr.Effect, Prod.mk.injEq] at heffect
      obtain ⟨rfl, rfl⟩ := heffect
      split <;> cases file <;> simp [readerPassed, writerPassed]
  | rCount | rUncount | wCount | wUncount =>
      simp only [File.code, Instr.Effect, Prod.mk.injEq] at heffect
      obtain ⟨rfl, rfl⟩ := heffect
      cases file <;> simp [readerPassed, writerPassed]
  | _ =>
      simp only [File.code, Instr.Effect] at heffect
      obtain ⟨rfl, rfl⟩ := heffect
      cases file <;> simp [readerPassed, writerPassed, File.afterReaderCount,
        File.afterReaderTest, File.afterWriterCount, File.afterWriterTest]

omit [DecidableEq T] in
/-- Outside the window a counter at zero means that nobody has passed. -/
theorem not_passed {passed counted : Pc → Bool} {pc : T → Pc} (hzero : count counted pc = 0)
    (hwindow : ∀ u, passed (pc u) = true → counted (pc u) = true) (u : T) :
    passed (pc u) = false := by
  have hu := count_eq_zero.mp hzero u
  by_contra hpassed
  rw [hwindow u (by simpa using hpassed)] at hu
  cases hu

theorem Apart.step {s s' : State Data Mutex T Pc} {e : Event T Pc} {q : Pc}
    (hapart : Apart file s.pc) (hcounts : Counts file s.data s.pc) (hok : windowFree file s e)
    (hpc : s'.pc = Function.update s.pc e.thread q)
    (heffect : (file.code (T := T) (s.pc e.thread)).Effect s.data s'.data q) :
    Apart file s'.pc := by
  have hreaders := hcounts.readers
  have hwriters := hcounts.writers
  intro t u ht
  rw [hpc] at ht ⊢
  by_contra hu
  rw [Bool.not_eq_false] at hu
  by_cases hte : t = e.thread
  · -- the reader moves
    subst hte
    rw [Function.update_self] at ht
    have hue : u ≠ e.thread := by
      rintro rfl
      rw [Function.update_self] at hu
      rw [not_readerPassed_of_writerPassed hu] at ht
      cases ht
    rw [Function.update_of_ne hue] at hu
    rcases (passed_effect heffect).1 ht with hbefore | ⟨htest, hnum⟩
    · rw [hapart _ _ hbefore] at hu
      cases hu
    · rw [not_passed (by omega) (hok.1 htest hnum) u] at hu
      cases hu
  · rw [Function.update_of_ne hte] at ht
    by_cases hue : u = e.thread
    · -- the writer moves
      subst hue
      rw [Function.update_self] at hu
      rcases (passed_effect heffect).2 hu with hbefore | ⟨htest, hnum⟩
      · rw [hapart _ _ ht] at hbefore
        cases hbefore
      · rw [not_passed (by omega) (hok.2 htest hnum) t] at ht
        cases ht
    · rw [Function.update_of_ne hue, hapart _ _ ht] at hu
      cases hu

/-! ## Every run that stays out of the window -/

theorem apart {spurious : Bool} {s : State Data Mutex T Pc}
    (hreach : ((file.program T).system spurious).ReachableWhere (windowFree file) s) :
    Apart file s.pc := by
  apply hreach.invariant
  · rintro s rfl t u ht
    cases file <;> cases ht
  · intro s e s' hreach hapart hok hnext
    rcases (next_step hnext).moves with ⟨-, hpc⟩ | ⟨q, hpc, heffect⟩
    · rwa [hpc]
    · exact hapart.step (counts hreach) hok hpc heffect

theorem writer_unique {spurious : Bool} {s : State Data Mutex T Pc}
    (hreach : ((file.program T).system spurious).Reachable s) {t u : T}
    (ht : s.pc t = .wCritical) (hu : s.pc u = .wCritical) : t = u := by
  have howners := (discipline file T).owners hreach
  apply howners.eq_of_holds (m := .mutexWrite)
  · intro v p
    cases p <;> rfl
  · rw [ht]
    rfl
  · rw [hu]
    rfl

/-- In every run of either file that stays out of the window, no writer is in its
critical section together with another thread. -/
theorem exclusive {spurious : Bool} {s : State Data Mutex T Pc}
    (hreach : ((file.program T).system spurious).ReachableWhere (windowFree file) s) :
    Exclusive s.pc := by
  intro t u hne ht
  constructor
  · intro hu
    have hapart := apart hreach u t
    rw [hu, ht] at hapart
    cases file <;> cases hapart rfl
  · intro hu
    exact hne (writer_unique hreach.reachable ht hu)

def reader : Fin 2 := 0
def writer : Fin 2 := 1

/-- `rw_lock-r-test.c`: a writer sleeps until the only reader has left. -/
def handOverRun : List (Event (Fin 2) Pc) :=
  [.call 0 .rCountLock, .exec 0, .exec 0, .exec 0, .exec 0, .exec 0, .exec 0,
    .call 1 .wTestLock, .exec 1, .exec 1, .exec 1,
    .call 0 .rLeaveLock, .exec 0, .exec 0, .exec 0, .exec 0, .exec 0,
    .exec 1, .exec 1, .exec 1, .exec 1, .exec 1, .exec 1, .exec 1]

theorem exclusive_handOver :
    ∃ s, ((File.rTest.program (Fin 2)).system false).ReachableWhere (windowFree .rTest) s ∧
      s.pc 1 = .wCritical ∧ Exclusive s.pc := by
  obtain ⟨s, hreach, hwriter⟩ := System.exists_reachableWhere_of_run
    (M := (File.rTest.program (Fin 2)).system false) (windowFree .rTest) handOverRun
    (fun s => s.pc 1 == .wCritical) (initial_init _ _) (by decide +kernel)
  exact ⟨s, hreach, by simpa using hwriter, exclusive hreach⟩

/-- `rw_lock-r-test.c`: writer 1 finds no reader, then reader 0 is counted, finds no
writer and enters, and writer 1 goes on. -/
def readerInWindowRun : List (Event (Fin 2) Pc) :=
  [.call 1 .wTestLock, .exec 1, .exec 1, .exec 1,
    .call 0 .rCountLock, .exec 0, .exec 0, .exec 0, .exec 0, .exec 0, .exec 0,
    .exec 1, .exec 1, .exec 1, .exec 1]

/-- `rw_lock-w-test.c`: reader 0 finds no writer, then writer 1 is counted, finds no
reader and enters, and reader 0 goes on. -/
def writerInWindowRun : List (Event (Fin 2) Pc) :=
  [.call 0 .rTestLock, .exec 0, .exec 0, .exec 0,
    .call 1 .wCountLock, .exec 1, .exec 1, .exec 1, .exec 1, .exec 1, .exec 1, .exec 1,
    .exec 0, .exec 0, .exec 0]

instance {n : Nat} (pc : Fin n → Pc) : Decidable (Exclusive pc) :=
  inferInstanceAs (Decidable (∀ t u, t ≠ u → _ → _))

theorem exists_reader_with_writer :
    (∃ s, ((File.rTest.program (Fin 2)).system false).Reachable s ∧ ¬Exclusive s.pc) ∧
      ∃ s, ((File.wTest.program (Fin 2)).system false).Reachable s ∧ ¬Exclusive s.pc := by
  constructor
  · obtain ⟨s, hreach, hbad⟩ := System.exists_reachable_of_run
      (M := (File.rTest.program (Fin 2)).system false) readerInWindowRun
      (fun s => !decide (Exclusive s.pc)) (initial_init _ _) (by decide +kernel)
    exact ⟨s, hreach, by simpa using hbad⟩
  · obtain ⟨s, hreach, hbad⟩ := System.exists_reachable_of_run
      (M := (File.wTest.program (Fin 2)).system false) writerInWindowRun
      (fun s => !decide (Exclusive s.pc)) (initial_init _ _) (by decide +kernel)
    exact ⟨s, hreach, by simpa using hbad⟩

end Os20.RwLock
