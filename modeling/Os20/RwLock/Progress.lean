import Os20.Lib.Notification
import Os20.RwLock.Exclusion

/-!
# Reader-writer locks: no deadlock

In each of the two files one side is counted before its test and the other one after it.
The side that is counted after its test waits for nobody while it is counted, so the other
side does not wait for ever, and then it does not either.
-/

namespace Os20.RwLock

open Os20.Lib.Transition Os20.Lib.Pthread Os20.Lib.Pthread.Program

variable {file : File} {T : Type*} [Fintype T] [DecidableEq T] {spurious : Bool}
  {s : State Data Mutex T Pc}

def inside : Pc → Bool
  | .idle | .rCritical | .wCritical => false
  | _ => true

/-- No thread that is in one of the functions or in its critical section can take a step.
A thread outside is free not to call anything any more. -/
def Stalled (file : File) (s : State Data Mutex T Pc) : Prop :=
  ∀ e : Event T Pc, s.pc e.thread ≠ .idle → (file.program T).next false s e = none

def writerLeaves : Pc → Bool
  | .wLeaveTest | .wBroadcast => true
  | _ => false

def readerLeaves : Pc → Bool
  | .rLeaveTest | .rBroadcast => true
  | _ => false

/-! ## Broadcasts -/

section Effects

variable {d d' : Data} {p q : Pc}

omit [Fintype T] [DecidableEq T]

theorem counted_of_wait (heffect : (file.code (T := T) p).Effect d d' q) :
    (q = .rWait → 0 < d'.numWriters) ∧ (q = .wWait → 0 < d'.numReaders) := by
  cases p with
  | rTest | wTest | rLeaveTest | wLeaveTest =>
      simp only [File.code, Instr.Effect, Prod.mk.injEq] at heffect
      obtain ⟨rfl, rfl⟩ := heffect
      split <;> simp_all
  | idle | rCritical | wCritical =>
      simp only [File.code, Instr.Effect, List.mem_cons, List.not_mem_nil, or_false] at heffect
      rcases heffect with ⟨-, rfl | rfl⟩ <;> cases file <;> simp [File.rLock, File.wLock]
  | rCount | rUncount | wCount | wUncount =>
      cases heffect
      simp
  | _ =>
      obtain ⟨-, rfl⟩ := heffect
      cases file <;> simp [File.afterReaderCount, File.afterReaderTest, File.afterWriterCount,
        File.afterWriterTest]

theorem leaves_of_uncounted (heffect : (file.code (T := T) p).Effect d d' q) :
    (0 < d.numWriters → 0 < d'.numWriters ∨ writerLeaves q = true) ∧
      (0 < d.numReaders → 0 < d'.numReaders ∨ readerLeaves q = true) := by
  cases p with
  | rCount | wCount =>
      cases heffect
      constructor <;> intro hkeep <;> left <;> dsimp only <;> omega
  | rUncount =>
      cases heffect
      refine ⟨fun hkeep => .inl ?_, fun _ => .inr rfl⟩
      split <;> exact hkeep
  | wUncount =>
      cases heffect
      refine ⟨fun _ => .inr rfl, fun hkeep => .inl ?_⟩
      split <;> exact hkeep
  | rTest | wTest | rLeaveTest | wLeaveTest =>
      cases heffect
      exact ⟨.inl, .inl⟩
  | _ =>
      obtain ⟨rfl, -⟩ := heffect
      exact ⟨.inl, .inl⟩

end Effects

theorem notifies_write (file : File) (T : Type*) :
    Notifies (discipline file T) Cond.write Mutex.cmutexWrite (fun d => 0 ≤ d.numWriters)
      (fun d => 0 < d.numWriters) writerLeaves where
  enter := by
    intro t p d d' q heffect hwait
    apply (counted_of_wait heffect).1
    cases q <;> first | rfl | cases hwait
  change := fun _ heffect => (leaves_of_uncounted heffect).1
  owe := by
    intro t p d d' q hinv heffect hpending
    change (file.code p).Effect d d' q at heffect
    cases p with
    | wLeaveTest =>
        simp only [File.code, Instr.Effect, Prod.mk.injEq] at heffect
        obtain ⟨rfl, rfl⟩ := heffect
        split
        · exact .inr (.inl rfl)
        · left
          omega
    | wBroadcast =>
        obtain ⟨-, rfl⟩ := heffect
        exact .inr (.inr rfl)
    | _ => cases hpending
  wait := by
    intro t p hwait
    cases p <;> first | rfl | cases hwait
  locked := by
    intro t p hpending
    cases p <;> first | exact ⟨rfl, rfl⟩ | cases hpending
  entry := fun _ => rfl

theorem notifies_read (file : File) (T : Type*) :
    Notifies (discipline file T) Cond.read Mutex.cmutexRead (fun d => 0 ≤ d.numReaders)
      (fun d => 0 < d.numReaders) readerLeaves where
  enter := by
    intro t p d d' q heffect hwait
    apply (counted_of_wait heffect).2
    cases q <;> first | rfl | cases hwait
  change := fun _ heffect => (leaves_of_uncounted heffect).2
  owe := by
    intro t p d d' q hinv heffect hpending
    change (file.code p).Effect d d' q at heffect
    cases p with
    | rLeaveTest =>
        simp only [File.code, Instr.Effect, Prod.mk.injEq] at heffect
        obtain ⟨rfl, rfl⟩ := heffect
        split
        · exact .inr (.inl rfl)
        · left
          omega
    | rBroadcast =>
        obtain ⟨-, rfl⟩ := heffect
        exact .inr (.inr rfl)
    | _ => cases hpending
  wait := by
    intro t p hwait
    cases p <;> first | rfl | cases hwait
  locked := by
    intro t p hpending
    cases p <;> first | exact ⟨rfl, rfl⟩ | cases hpending
  entry := fun _ => rfl

section Sleepers

variable (hreach : ((file.program T).system spurious).Reachable s)

include hreach

/-- A reader sleeps only while there are writers, or one is on the way to its broadcast. -/
theorem writers_of_asleep {t : T} (ht : (file.program T).asleepOn s .write t = true) :
    0 < s.data.numWriters ∨ ∃ u, writerLeaves (s.pc u) = true := by
  rw [asleepOn, Bool.and_eq_true, decide_eq_true_eq] at ht
  refine (notifies_write file T).heard ?_ hreach t ht.2 (by rw [ht.1]; decide)
  intro s hreach
  rw [(counts hreach).writers]
  exact Int.natCast_nonneg _

theorem readers_of_asleep {t : T} (ht : (file.program T).asleepOn s .read t = true) :
    0 < s.data.numReaders ∨ ∃ u, readerLeaves (s.pc u) = true := by
  rw [asleepOn, Bool.and_eq_true, decide_eq_true_eq] at ht
  refine (notifies_read file T).heard ?_ hreach t ht.2 (by rw [ht.1]; decide)
  intro s hreach
  rw [(counts hreach).readers]
  exact Int.natCast_nonneg _

end Sleepers

/-! ## States in which nobody inside can go on -/

inductive Standing (s : State Data Mutex T Pc) (t : T) : Prop
  | asleep (hpc : s.pc t = .rWait ∨ s.pc t = .wWait) (hmode : s.mode t = .asleep)
  | waking (hpc : s.pc t = .rWait ∨ s.pc t = .wWait) (hmode : s.mode t = .waking)
      (howner : s.owner .cmutexRead ≠ none ∨ s.owner .cmutexWrite ≠ none)
  | counter (hholds : holds (s.pc t) .cmutexRead = false ∧ holds (s.pc t) .cmutexWrite = false)
      (howner : s.owner .cmutexRead ≠ none ∨ s.owner .cmutexWrite ≠ none)
  | mutex (hpc : s.pc t = .wMutexLock) (howner : s.owner .mutexWrite ≠ none)

omit [Fintype T] [DecidableEq T] in
theorem Standing.of_halted {t : T} (hparked : Parked (file.program T) s)
    (houtside : s.pc t ≠ .idle) (hhalted : Halted (file.program T) s t) : Standing s t := by
  have hwait : ∀ {c m p}, file.code (T := T) (s.pc t) = .wait c m p →
      (s.pc t = .rWait ∨ s.pc t = .wWait) ∧ (m = .cmutexRead ∨ m = .cmutexWrite) := by
    intro c m p hcode
    cases hp : s.pc t <;> rw [hp] at hcode <;> cases hcode
    · exact ⟨.inl rfl, .inr rfl⟩
    · exact ⟨.inr rfl, .inl rfl⟩
  cases hhalted with
  | unborn hmode => exact absurd (hparked.unborn t hmode) houtside
  | asleep hmode hcode => exact .asleep (hwait hcode).1 hmode
  | waking hmode hcode howner =>
      obtain ⟨hpc, rfl | rfl⟩ := hwait hcode
      · exact .waking hpc hmode (.inl howner)
      · exact .waking hpc hmode (.inr howner)
  | lock hmode hcode howner =>
      change file.code (s.pc t) = _ at hcode
      cases hp : s.pc t with
      | rCountLock | rLeaveLock | wTestLock =>
          rw [hp] at hcode
          cases hcode
          exact .counter (by rw [hp]; exact ⟨rfl, rfl⟩) (.inl howner)
      | rTestLock | wCountLock | wLeaveLock =>
          rw [hp] at hcode
          cases hcode
          exact .counter (by rw [hp]; exact ⟨rfl, rfl⟩) (.inr howner)
      | wMutexLock =>
          rw [hp] at hcode
          cases hcode
          exact .mutex hp howner
      | _ =>
          rw [hp] at hcode
          cases hcode
  | create hmode hcode | join hmode hcode | call hmode hcode | exit hmode hcode =>
      change file.code (s.pc t) = _ at hcode
      cases hp : s.pc t <;> rw [hp] at hcode <;> cases hcode

section Stalled

variable (hreach : ((file.program T).system spurious).Reachable s) (hstalled : Stalled file s)

include hreach hstalled

theorem standing {t : T} (houtside : s.pc t ≠ .idle) : Standing s t := by
  have hparked : Parked (file.program T) s := parked (fun _ => rfl) hreach
  apply Standing.of_halted hparked houtside
  apply halted_of_stuck ((discipline file T).owners hreach) hparked
  intro e he
  exact hstalled e (by rwa [he])

theorem standing_of_owner {m : Mutex} (howned : s.owner m ≠ none) :
    ∃ t, (discipline file T).Has s t m ∧ Standing s t := by
  obtain ⟨t, ht⟩ := Option.ne_none_iff_exists'.mp howned
  have hhas := ((discipline file T).owners hreach t m).mp ht
  refine ⟨t, hhas, standing hreach hstalled ?_⟩
  intro hidle
  have hholds : holds (s.pc t) m = true := hhas.1
  rw [hidle] at hholds
  cases hholds

/-- The mutex of a counter is given back before its owner can be kept waiting. -/
theorem owner_counter {m : Mutex} (hm : m = .cmutexRead ∨ m = .cmutexWrite) :
    s.owner m = none := by
  by_contra howned
  obtain ⟨t, ⟨hholds, hawake⟩, hstanding⟩ := standing_of_owner hreach hstalled howned
  change holds (s.pc t) m = true at hholds
  change (file.code (s.pc t)).waitsWith m = true → _ at hawake
  cases hstanding with
  | asleep hpc hmode | waking hpc hmode =>
      rw [hmode] at hawake
      rcases hpc with hpc | hpc <;> rcases hm with rfl | rfl <;> rw [hpc] at hholds hawake <;>
        first | cases hholds; done | cases hawake rfl
  | counter hfree =>
      rcases hm with rfl | rfl
      · rw [hfree.1] at hholds
        cases hholds
      · rw [hfree.2] at hholds
        cases hholds
  | mutex hpc =>
      rw [hpc] at hholds
      cases hholds

theorem counters_free :
    ¬(s.owner .cmutexRead ≠ none ∨ s.owner .cmutexWrite ≠ none) := by
  rintro (howned | howned)
  · exact howned (owner_counter hreach hstalled (.inl rfl))
  · exact howned (owner_counter hreach hstalled (.inr rfl))

theorem asleep_of_stalled {t : T} (houtside : s.pc t ≠ .idle) :
    (s.pc t = .rWait ∨ s.pc t = .wWait) ∧ s.mode t = .asleep := by
  have hfree := counters_free hreach hstalled
  cases standing hreach hstalled houtside with
  | asleep hpc hmode => exact ⟨hpc, hmode⟩
  | waking _ _ howner | counter _ howner => exact absurd howner hfree
  | mutex _ howned =>
      obtain ⟨u, ⟨hholds, -⟩, hstanding⟩ := standing_of_owner hreach hstalled howned
      change holds (s.pc u) .mutexWrite = true at hholds
      cases hstanding with
      | waking _ _ howner | counter _ howner => exact absurd howner hfree
      | asleep hpc =>
          rcases hpc with hpc | hpc <;> rw [hpc] at hholds <;> cases hholds
      | mutex hpc =>
          rw [hpc] at hholds
          cases hholds

/-- What wakes a sleeper is missing: nobody is on the way to a broadcast, so somebody is counted
on the other side, and waits as well. -/
theorem waits_of_counted {counted leaves : Pc → Bool} (hcounted : counted .idle = false)
    (hleaves : ∀ p, leaves p = true → p ≠ .idle ∧ p ≠ .rWait ∧ p ≠ .wWait)
    (h : 0 < count counted s.pc ∨ ∃ u, leaves (s.pc u) = true) :
    ∃ u, counted (s.pc u) = true ∧ (s.pc u = .rWait ∨ s.pc u = .wWait) := by
  rcases h with hpos | ⟨u, hu⟩
  · obtain ⟨u, hu⟩ := exists_of_count_pos hpos
    refine ⟨u, hu, (asleep_of_stalled hreach hstalled ?_).1⟩
    intro hidle
    rw [hidle, hcounted] at hu
    cases hu
  · obtain ⟨hidle, hread, hwrite⟩ := hleaves _ hu
    rcases (asleep_of_stalled hreach hstalled hidle).1 with hpc | hpc
    · exact absurd hpc hread
    · exact absurd hpc hwrite

theorem exists_writer (hasleep : ∃ t, s.pc t = .rWait) :
    ∃ u, writerCounted file (s.pc u) = true ∧ (s.pc u = .rWait ∨ s.pc u = .wWait) := by
  obtain ⟨t, ht⟩ := hasleep
  obtain ⟨-, hmode⟩ := asleep_of_stalled hreach hstalled (t := t) (by rw [ht]; decide)
  have hsleeps : (file.program T).asleepOn s .write t = true := by
    rw [asleepOn, hmode, ht]
    rfl
  have hheard := writers_of_asleep hreach hsleeps
  rw [(counts hreach).writers, Int.natCast_pos] at hheard
  refine waits_of_counted hreach hstalled (by cases file <;> rfl) (fun p hp => ?_) hheard
  cases p <;> first | cases hp; done | decide

theorem exists_reader (hasleep : ∃ t, s.pc t = .wWait) :
    ∃ u, readerCounted file (s.pc u) = true ∧ (s.pc u = .rWait ∨ s.pc u = .wWait) := by
  obtain ⟨t, ht⟩ := hasleep
  obtain ⟨-, hmode⟩ := asleep_of_stalled hreach hstalled (t := t) (by rw [ht]; decide)
  have hsleeps : (file.program T).asleepOn s .read t = true := by
    rw [asleepOn, hmode, ht]
    rfl
  have hheard := readers_of_asleep hreach hsleeps
  rw [(counts hreach).readers, Int.natCast_pos] at hheard
  refine waits_of_counted hreach hstalled (by cases file <;> rfl) (fun p hp => ?_) hheard
  cases p <;> first | cases hp; done | decide

/-- Sleeping readers wait for a sleeping writer only, and the other way round.  One of the
two sides is not counted while it sleeps. -/
theorem idle_of_stalled (t : T) : s.pc t = .idle := by
  by_contra houtside
  have hread : ¬∃ u, s.pc u = .rWait := by
    intro hasleep
    obtain ⟨u, hu, hpc⟩ := exists_writer hreach hstalled hasleep
    cases file with
    | rTest => rcases hpc with hpc | hpc <;> rw [hpc] at hu <;> cases hu
    | wTest =>
        have hpc : s.pc u = .wWait := by
          rcases hpc with hpc | hpc
          · rw [hpc] at hu
            cases hu
          · exact hpc
        obtain ⟨v, hv, hpc⟩ := exists_reader hreach hstalled ⟨u, hpc⟩
        rcases hpc with hpc | hpc <;> rw [hpc] at hv <;> cases hv
  obtain ⟨hpc | hpc, -⟩ := asleep_of_stalled hreach hstalled houtside
  · exact hread ⟨t, hpc⟩
  · obtain ⟨u, hu, hpc⟩ := exists_reader hreach hstalled ⟨t, hpc⟩
    rcases hpc with hpc | hpc
    · exact hread ⟨u, hpc⟩
    · rw [hpc] at hu
      cases file <;> cases hu

end Stalled

/-- In every interleaving of either file, a thread inside one of the functions means that
some thread can take a step; who sleeps has a reason to, or the broadcast is on its way. -/
theorem noDeadlock (hreach : ((file.program T).system spurious).Reachable s) :
    ¬((∃ t, inside (s.pc t) = true) ∧ Stalled file s) ∧
      (∀ t, (file.program T).asleepOn s .write t = true →
        0 < s.data.numWriters ∨ ∃ u, writerLeaves (s.pc u) = true) ∧
      ∀ t, (file.program T).asleepOn s .read t = true →
        0 < s.data.numReaders ∨ ∃ u, readerLeaves (s.pc u) = true := by
  refine ⟨?_, fun _ => writers_of_asleep hreach, fun _ => readers_of_asleep hreach⟩
  rintro ⟨⟨t, ht⟩, hstalled⟩
  rw [idle_of_stalled hreach hstalled t] at ht
  cases ht

/-- `rw_lock-r-test.c`: writer 1 is in its critical section, and reader 0 sleeps. -/
def sleepRun : List (Event (Fin 2) Pc) :=
  [.call writer .wTestLock, .exec writer, .exec writer, .exec writer, .exec writer, .exec writer,
    .exec writer, .exec writer, .call reader .rCountLock, .exec reader, .exec reader, .exec reader,
    .exec reader, .exec reader, .exec reader]

theorem noDeadlock_sleeper :
    ∃ s, ((File.rTest.program (Fin 2)).system false).Reachable s ∧
      (s.pc 0 = .rWait ∧ s.mode 0 = .asleep ∧ s.pc 1 = .wCritical) ∧
      ¬((∃ t, inside (s.pc t) = true) ∧ Stalled .rTest s) ∧
      (∀ t, (File.rTest.program (Fin 2)).asleepOn s .write t = true →
        0 < s.data.numWriters ∨ ∃ u, writerLeaves (s.pc u) = true) ∧
      ∀ t, (File.rTest.program (Fin 2)).asleepOn s .read t = true →
        0 < s.data.numReaders ∨ ∃ u, readerLeaves (s.pc u) = true := by
  obtain ⟨s, hreach, hsleeper⟩ := System.exists_reachable_of_run
    (M := (File.rTest.program (Fin 2)).system false) sleepRun
    (fun s => decide (s.pc 0 = .rWait ∧ s.mode 0 = .asleep ∧ s.pc 1 = .wCritical))
    (initial_init _ _) (by decide +kernel)
  exact ⟨s, hreach, of_decide_eq_true hsleeper, noDeadlock hreach⟩

/-- Writer 1 has left its critical section and made its decrement, but not its broadcast:
reader 0 still sleeps, and there is no writer left. -/
theorem exists_sleeper_without_writer :
    ∃ s, ((File.rTest.program (Fin 2)).system false).Reachable s ∧
      ¬((File.rTest.program (Fin 2)).asleepOn s .write 0 = true → 0 < s.data.numWriters) := by
  obtain ⟨s, hreach, hsleeper⟩ := System.exists_reachable_of_run
    (M := (File.rTest.program (Fin 2)).system false)
    (sleepRun ++ [.call 1 .wLeaveLock, .exec 1, .exec 1])
    (fun s => !decide ((File.rTest.program (Fin 2)).asleepOn s .write 0 = true →
      0 < s.data.numWriters))
    (initial_init _ _) (by decide +kernel)
  exact ⟨s, hreach, by simpa using hsleeper⟩

end Os20.RwLock
