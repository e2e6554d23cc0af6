import Os20.SsuSem.Threads

/-!
# `SSU_Sem.c`: permits

The counter counts the permits that are left, less one for each `SSU_Sem_down` past
its decrement that still waits.  `mutex_down` admits one caller at a time to the
stretch between the decrement and the return, so there is at most one such call.
-/

namespace Os20.SsuSem

open Os20.Lib.Transition Os20.Lib.Pthread Os20.Lib.Pthread.Program

/-- Behind the decrement, and not yet through the loop. -/
def waiting : Pc → Bool
  | .downTest | .downWait => true
  | _ => false

/-- Behind the decrement, and not yet counted as returned. -/
def pending : Pc → Bool
  | .downTest | .downWait | .downUnlockCounter | .downUnlock | .downReturn => true
  | _ => false

structure Balance {T : Type*} [Fintype T] (value : Int) (d : Data) (pc : T → Pc) : Prop where
  permits : d.counter + d.downs + count pending pc = value + d.incremented
  waiters : 0 ≤ d.counter + count waiting pc

variable {T : Type*} [Fintype T] {value : Int}

theorem balance_initial (hvalue : 0 ≤ value) :
    Balance value (program T value).data (program T value).entry := by
  have hpending : count pending (program T value).entry = 0 := count_eq_zero.mpr fun _ => rfl
  have hwaiting : count waiting (program T value).entry = 0 := count_eq_zero.mpr fun _ => rfl
  constructor
  · rw [hpending]
    simp [program]
  · rw [hwaiting]
    simpa [program] using hvalue

variable [DecidableEq T]

theorem balance_effect {d d' : Data} {pc : T → Pc} {t : T} {q : Pc}
    (hbal : Balance value d pc) (heffect : (code (T := T) (pc t)).Effect d d' q) :
    Balance value d' (Function.update pc t q) := by
  obtain ⟨hpermits, hwaiters⟩ := hbal
  have hpending := count_update pending pc t q
  have hwaiting := count_update waiting pc t q
  cases hpc : pc t with
  | idle =>
      simp only [hpc, code, Instr.Effect, List.mem_cons, List.not_mem_nil, or_false] at heffect
      obtain ⟨rfl, rfl | rfl⟩ := heffect <;>
        simp only [hpc, pending, waiting, Bool.toNat_false, Nat.add_zero] at hpending hwaiting <;>
        constructor <;> omega
  | downTest =>
      simp only [hpc, code, Instr.Effect, Prod.mk.injEq] at heffect
      obtain ⟨rfl, rfl⟩ := heffect
      by_cases hneg : d.counter < 0
      · simp only [hneg, if_true] at hpending hwaiting ⊢
        simp only [hpc, pending, waiting] at hpending hwaiting
        constructor <;> omega
      · -- through the loop: the call gives up its place among the waiters
        simp only [hneg, if_false] at hpending hwaiting ⊢
        simp only [hpc, pending, waiting, Bool.toNat_false, Bool.toNat_true] at hpending hwaiting
        constructor <;> omega
  | decrement | downReturn | increment | upReturn =>
      simp only [hpc, code, Instr.Effect, Prod.mk.injEq] at heffect
      obtain ⟨rfl, rfl⟩ := heffect
      simp only [hpc, pending, waiting, Bool.toNat_false, Bool.toNat_true] at hpending hwaiting
      constructor <;> dsimp only <;> omega
  | _ =>
      simp only [hpc, code, Instr.Effect] at heffect
      obtain ⟨rfl, rfl⟩ := heffect
      simp only [hpc, pending, waiting, Bool.toNat_false, Bool.toNat_true] at hpending hwaiting
      constructor <;> omega

theorem balance {spurious : Bool} {s : State Data Mutex T Pc}
    (hvalue : 0 ≤ value) (hreach : ((program T value).system spurious).Reachable s) :
    Balance value s.data s.pc := by
  apply hreach.invariant
  · rintro s rfl
    exact balance_initial hvalue
  · intro s e s' _ hbal _ hnext
    rcases (next_step hnext).moves with ⟨hdata, hpc⟩ | ⟨q, hpc, heffect⟩
    · rwa [hdata, hpc]
    · rw [hpc]
      exact balance_effect hbal heffect

/-- At most one call waits: the waiting stretch holds `mutex_down`, which no condition
wait gives up. -/
theorem count_waiting_le {spurious : Bool} {s : State Data Mutex T Pc}
    (hreach : ((program T value).system spurious).Reachable s) : count waiting s.pc ≤ 1 := by
  apply count_le_one
  intro t u ht hu
  have howners := (discipline T value).owners hreach
  have hholds : ∀ p, waiting p = true → holds p .down = true := by
    intro p hp
    cases p <;> first | rfl | cases hp
  apply howners.eq_of_holds (m := .down)
  · intro v p
    cases p <;> rfl
  · exact hholds _ ht
  · exact hholds _ hu

/-- In every interleaving no more calls of `SSU_Sem_down` have returned than there were
permits, and the counter does not drop below -1. -/
theorem downs_le_permits {spurious : Bool} {s : State Data Mutex T Pc}
    (hvalue : 0 ≤ value) (hreach : ((program T value).system spurious).Reachable s) :
    s.data.downs ≤ value + s.data.incremented ∧ -1 ≤ s.data.counter := by
  have hbal := balance hvalue hreach
  have hle := count_waiting_le hreach
  have hmono : count waiting s.pc ≤ count pending s.pc := by
    apply count_mono
    intro t
    generalize s.pc t = p
    intro hp
    cases p <;> first | rfl | cases hp
  have hpermits := hbal.permits
  have hwaiters := hbal.waiters
  constructor <;> omega

/-- Without a permit, thread 0 sleeps in `SSU_Sem_down` until thread 1 calls `SSU_Sem_up`. -/
theorem downs_le_permits_wakeup :
    ∃ s, ((program (Fin 2) 0).system false).Reachable s ∧ s.data.downs = 1 ∧
      (s.data.downs ≤ 0 + (s.data.incremented : Int) ∧ -1 ≤ s.data.counter) := by
  obtain ⟨s, hreach, hdowns⟩ := System.exists_reachable_of_run
    (M := (program (Fin 2) 0).system false)
    [.call 0 .downLock, .exec 0, .exec 0, .exec 0, .exec 0, .exec 0,
      .call 1 .upLock, .exec 1, .exec 1, .exec 1, .exec 1, .exec 1,
      .exec 0, .exec 0, .exec 0, .exec 0, .exec 0]
    (fun s => s.data.downs == 1) (initial_init _ _) (by decide +kernel)
  exact ⟨s, hreach, by simpa using hdowns, downs_le_permits (le_refl 0) hreach⟩

end Os20.SsuSem
