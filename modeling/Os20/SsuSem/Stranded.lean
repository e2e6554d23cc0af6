import Os20.Lib.Notification
import Os20.SsuSem.Permits

/-!
# `SSU_Sem.c`: no stranded permit

A waiter keeps `mutex_down` while it sleeps, and gives up `mutex_counter` only.  When
nobody inside the two functions can go on, all mutexes but `mutex_down` are free, and its
owner sleeps with the counter at -1.  Then every permit was taken.
-/

namespace Os20.SsuSem

open Os20.Lib.Transition Os20.Lib.Pthread Os20.Lib.Pthread.Program

variable {T : Type*} [Fintype T] [DecidableEq T] {value : Int} {spurious : Bool}
  {s : State Data Mutex T Pc}

/-- No thread inside `SSU_Sem_down` or `SSU_Sem_up` can take a step there. -/
def Stalled (value : Int) (s : State Data Mutex T Pc) : Prop :=
  ∀ e : Event T Pc, s.pc e.thread ≠ .idle → (program T value).next false s e = none

inductive Standing (s : State Data Mutex T Pc) (t : T) : Prop
  | asleep (hpc : s.pc t = .downWait) (hmode : s.mode t = .asleep)
  | waking (hpc : s.pc t = .downWait) (hmode : s.mode t = .waking)
      (howner : s.owner .counter ≠ none)
  | counter (hpc : s.pc t = .downLockCounter ∨ s.pc t = .upLockCounter)
      (howner : s.owner .counter ≠ none)
  | down (hpc : s.pc t = .downLock) (howner : s.owner .down ≠ none)
  | up (hpc : s.pc t = .upLock) (howner : s.owner .up ≠ none)

omit [Fintype T] [DecidableEq T] in
theorem Standing.of_halted {t : T} (hparked : Parked (program T value) s)
    (hinside : s.pc t ≠ .idle) (hhalted : Halted (program T value) s t) : Standing s t := by
  have hwait : ∀ {c m p}, code (T := T) (s.pc t) = .wait c m p →
      s.pc t = .downWait ∧ m = .counter := by
    intro c m p hcode
    cases hp : s.pc t <;> rw [hp] at hcode <;> cases hcode
    exact ⟨rfl, rfl⟩
  cases hhalted with
  | unborn hmode => exact absurd (hparked.unborn t hmode) hinside
  | asleep hmode hcode => exact .asleep (hwait hcode).1 hmode
  | waking hmode hcode howner =>
      obtain ⟨hpc, rfl⟩ := hwait hcode
      exact .waking hpc hmode howner
  | lock hmode hcode howner =>
      change code (s.pc t) = _ at hcode
      cases hp : s.pc t <;> rw [hp] at hcode <;> cases hcode
      · exact .down hp howner
      · exact .counter (.inl hp) howner
      · exact .up hp howner
      · exact .counter (.inr hp) howner
  | create hmode hcode | join hmode hcode | call hmode hcode | exit hmode hcode =>
      change code (s.pc t) = _ at hcode
      cases hp : s.pc t <;> rw [hp] at hcode <;> cases hcode

section Stalled

variable (hreach : ((program T value).system spurious).Reachable s) (hstalled : Stalled value s)

include hreach hstalled

theorem standing {t : T} (hinside : s.pc t ≠ .idle) : Standing s t := by
  have hparked : Parked (program T value) s := parked (fun _ => rfl) hreach
  apply Standing.of_halted hparked hinside
  apply halted_of_stuck ((discipline T value).owners hreach) hparked
  intro e he
  exact hstalled e (by rwa [he])

theorem standing_of_owner {m : Mutex} (howned : s.owner m ≠ none) :
    ∃ t, (discipline T value).Has s t m ∧ Standing s t := by
  obtain ⟨t, ht⟩ := Option.ne_none_iff_exists'.mp howned
  have hhas := ((discipline T value).owners hreach t m).mp ht
  refine ⟨t, hhas, standing hreach hstalled ?_⟩
  intro hidle
  have hholds : holds (s.pc t) m = true := hhas.1
  rw [hidle] at hholds
  cases hholds

theorem owner_counter : s.owner .counter = none := by
  by_contra howned
  obtain ⟨t, ⟨hholds, hawake⟩, hstanding⟩ := standing_of_owner hreach hstalled howned
  change holds (s.pc t) .counter = true at hholds
  change (code (s.pc t)).waitsWith .counter = true → _ at hawake
  cases hstanding with
  | asleep hpc hmode | waking hpc hmode =>
      rw [hpc, hmode] at hawake
      cases hawake rfl
  | counter hpc =>
      rcases hpc with hpc | hpc <;> rw [hpc] at hholds <;> cases hholds
  | down hpc | up hpc =>
      rw [hpc] at hholds
      cases hholds

end Stalled

end Os20.SsuSem
