import Os20.Lib.Blocking
import Os20.MasterWorker.Delivery

/-!
# `master-worker.c`: who wakes a sleeping master

Masters sleep on `cond_can_produce`, which only workers signal: before they sleep
themselves and before they return.  As long as a master sleeps there is a worker that
has such a signal before it, or a master that will see to it that there is one: one that
is about to fill the buffer or to find it full, or one that has left an item in it and
signals `cond_can_consume` when it returns.
-/

namespace Os20.MasterWorker

open Os20.Lib.Transition Os20.Lib.Pthread Os20.Lib.Pthread.Program

variable {cfg : Config} {garbage : Int → Nat}

/-- A worker that will signal `cond_can_produce` before it sleeps or returns. -/
def active : Pc → Mode → Bool
  | .consumeLoop _, _ | .consumeLock _, _ | .consumeTest _, _ | .consumeSignal _, _
  | .take _, _ | .consumeUnlock _, _ | .leaveLock, _ | .leaveSignal, _ => true
  | .consumeWait _, .waking => true
  | _, _ => false

/-- A master that will put an item into the buffer or signal that it is full. -/
def strong : Pc → Mode → Bool
  | .produceLock _, _ | .produceTest _, _ | .produceSignal _, _ | .put _, _ => true
  | .produceWait _, .waking => true
  | _, _ => false

/-- A master that will signal `cond_can_consume` if it finds an item in the buffer, or
goes on with its next item. -/
def weak : Pc → Bool
  | .produceLoop _ | .countItem _ | .produceUnlock _ | .finishLock | .finishTest
  | .finishSignal => true
  | _ => false

/-- A master on its way into `pthread_cond_wait`, with the mutex still held. -/
def retiring : Pc → Mode → Bool
  | .checkItems _, _ => true
  | .produceWait _, m => m.awake
  | _, _ => false

abbrev St (cfg : Config) : Type := State Data Mutex cfg.Threads Pc

def SomeActive (s : St cfg) : Prop := ∃ w, active (s.pc w) (s.mode w) = true

def Lively (s : St cfg) : Prop :=
  SomeActive s ∨ (∃ m, strong (s.pc m) (s.mode m) = true) ∨
    (1 ≤ s.data.currBufSize ∧ ∃ m, weak (s.pc m) = true)

structure Wakeups (cfg : Config) (garbage : Int → Nat) (s : St cfg) : Prop where
  retiring : ∀ t, retiring (s.pc t) (s.mode t) = true → SomeActive s
  sleeping : ∀ t, (cfg.program garbage).asleepOn s .canProduce t = true → Lively s

variable {s s' : St cfg} {t : cfg.Threads}

/-- Masters sleep on `cond_can_produce` and workers on `cond_can_consume`. -/
theorem wait_cases {p q : Pc} {c : Cond} {m : Mutex} (hcode : cfg.code t p = .wait c m q) :
    (∃ idx, p = .produceWait idx ∧ c = .canProduce) ∨
      ∃ k, p = .consumeWait k ∧ c = .canConsume := by
  cases p with
  | produceWait idx =>
      cases hcode
      exact .inl ⟨idx, rfl, rfl⟩
  | consumeWait k =>
      cases hcode
      exact .inr ⟨k, rfl, rfl⟩
  | createMasters | createWorkers | joinMasters | joinWorkers =>
      simp only [Config.code] at hcode
      split at hcode <;> cases hcode
  | _ => cases hcode

/-! ## Threads that do not move -/

theorem active_woken {p : Pc} {m m' : Mode} (hwoken : Woken m m') (h : active p m = true) :
    active p m' = true := by
  cases hwoken <;> cases p <;> first | exact h | cases h

theorem strong_woken {p : Pc} {m m' : Mode} (hwoken : Woken m m') (h : strong p m = true) :
    strong p m' = true := by
  cases hwoken <;> cases p <;> first | exact h | cases h

theorem retiring_woken {p : Pc} {m m' : Mode} (hwoken : Woken m m') (h : retiring p m' = true) :
    retiring p m = true := by
  cases hwoken <;> cases p <;> exact h

/-! ## The thread that moves -/

theorem active_local (hlocal : Local (cfg.program garbage) s t s')
    (h : active (s.pc t) (s.mode t) = true) :
    active (s'.pc t) (s'.mode t) = true ∨
      ∃ q, cfg.code t (s.pc t) = .signal .canProduce q ∧ inside (s.pc t) = true := by
  cases hlocal with
  | sleep hcode hmode =>
      rcases wait_cases hcode with ⟨idx, hp, -⟩ | ⟨k, hp, -⟩ <;> rw [hp, hmode] at h <;> cases h
  | advance hpc heffect _ hmode' =>
      rw [hpc, Function.update_self, hmode']
      cases hp : s.pc t with
      | consumeLoop | consumeTest =>
          rw [hp] at heffect
          obtain ⟨-, rfl⟩ := Prod.mk.inj heffect
          left
          split <;> rfl
      | take =>
          rw [hp] at heffect
          obtain ⟨-, rfl⟩ := Prod.mk.inj heffect
          exact .inl rfl
      | consumeLock | consumeUnlock | consumeWait | leaveLock =>
          rw [hp] at heffect
          obtain ⟨-, rfl⟩ := heffect
          exact .inl rfl
      | consumeSignal | leaveSignal => exact .inr ⟨_, rfl, rfl⟩
      | _ =>
          rw [hp] at h
          cases h

theorem strong_local (hlocal : Local (cfg.program garbage) s t s')
    (h : strong (s.pc t) (s.mode t) = true) :
    strong (s'.pc t) (s'.mode t) = true ∨
      (∃ idx, s'.pc t = .checkItems idx) ∨
      ∃ idx, s'.pc t = .countItem idx ∧ s'.data = s.data.putItem idx := by
  cases hlocal with
  | sleep hcode hmode =>
      rcases wait_cases hcode with ⟨idx, hp, -⟩ | ⟨k, hp, -⟩ <;> rw [hp, hmode] at h <;> cases h
  | advance hpc heffect _ hmode' =>
      rw [hpc, Function.update_self, hmode']
      cases hp : s.pc t with
      | produceTest =>
          rw [hp] at heffect
          obtain ⟨-, rfl⟩ := Prod.mk.inj heffect
          left
          split <;> rfl
      | produceLock | produceWait =>
          rw [hp] at heffect
          obtain ⟨-, rfl⟩ := heffect
          exact .inl rfl
      | produceSignal idx =>
          rw [hp] at heffect
          obtain ⟨-, rfl⟩ := heffect
          exact .inr (.inl ⟨idx, rfl⟩)
      | put idx =>
          rw [hp] at heffect
          obtain ⟨hdata, rfl⟩ := Prod.mk.inj heffect
          exact .inr (.inr ⟨idx, rfl, hdata.symm⟩)
      | _ =>
          rw [hp] at h
          cases h

theorem weak_local (hlocal : Local (cfg.program garbage) s t s')
    (hsize : 1 ≤ s.data.currBufSize) (h : weak (s.pc t) = true) :
    (weak (s'.pc t) = true ∨ strong (s'.pc t) (s'.mode t) = true) ∨ s.pc t = .finishSignal := by
  cases hlocal with
  | sleep hcode =>
      rcases wait_cases hcode with ⟨idx, hp, -⟩ | ⟨k, hp, -⟩ <;> rw [hp] at h <;> cases h
  | advance hpc heffect _ hmode' =>
      rw [hpc, Function.update_self, hmode']
      cases hp : s.pc t with
      | produceLoop =>
          rw [hp] at heffect
          obtain ⟨-, rfl⟩ := Prod.mk.inj heffect
          left
          split
          · exact .inr rfl
          · exact .inl rfl
      | finishTest =>
          rw [hp] at heffect
          obtain ⟨-, rfl⟩ := Prod.mk.inj heffect
          rw [if_pos hsize]
          exact .inl (.inl rfl)
      | countItem =>
          rw [hp] at heffect
          obtain ⟨-, rfl⟩ := Prod.mk.inj heffect
          exact .inl (.inl rfl)
      | produceUnlock | finishLock =>
          rw [hp] at heffect
          obtain ⟨-, rfl⟩ := heffect
          exact .inl (.inl rfl)
      | finishSignal => exact .inr rfl
      | _ =>
          rw [hp] at h
          cases h

theorem retiring_local (hlocal : Local (cfg.program garbage) s t s')
    (h : retiring (s'.pc t) (s'.mode t) = true) :
    retiring (s.pc t) (s.mode t) = true ∨ ∃ idx, s.pc t = .produceSignal idx := by
  cases hlocal with
  | sleep hcode hmode _ _ hpc hmode' =>
      rw [hpc, hmode', Function.update_self] at h
      rcases wait_cases hcode with ⟨idx, hp, -⟩ | ⟨k, hp, -⟩ <;> rw [hp] at h <;> cases h
  | @advance q hpc heffect _ hmode' =>
      rw [hpc, Function.update_self, hmode'] at h
      have hfrom := cameFrom heffect
      cases q with
      | checkItems idx => exact .inr ⟨idx, hfrom⟩
      | produceWait idx =>
          left
          rw [show s.pc t = .checkItems idx from hfrom]
          rfl
      | _ => cases h

theorem someActive_local (hlocal : Local (cfg.program garbage) s t s') (h : SomeActive s) :
    SomeActive s' ∨ ∃ q, cfg.code t (s.pc t) = .signal .canProduce q ∧ inside (s.pc t) = true := by
  obtain ⟨w, hw⟩ := h
  by_cases hwt : w = t
  · subst hwt
    rcases active_local hlocal hw with hw' | hsignal
    · exact .inl ⟨w, hw'⟩
    · exact .inr hsignal
  · refine .inl ⟨w, ?_⟩
    rw [hlocal.pc_of_ne hwt]
    exact active_woken (hlocal.woken_of_ne hwt) hw

/-! ## Signals -/

theorem asleepOn_cases {c : Cond} {w : cfg.Threads}
    (h : (cfg.program garbage).asleepOn s c w = true) :
    s.mode w = .asleep ∧ ((∃ idx, s.pc w = .produceWait idx ∧ c = .canProduce) ∨
      ∃ k, s.pc w = .consumeWait k ∧ c = .canConsume) := by
  refine ⟨mode_of_asleepOn h, ?_⟩
  rw [asleepOn, Bool.and_eq_true] at h
  cases hcode : (cfg.program garbage).code w (s.pc w) with
  | wait c' m q =>
      have hc : c' = c := by simpa [hcode, Instr.waitsOn] using h.2
      subst hc
      exact wait_cases hcode
  | _ => simp [hcode, Instr.waitsOn] at h

/-- A worker that has not returned is active, or on its way out of the mutex, or in its
wait. -/
theorem active_or_leaving {j : Fin cfg.numWorkers} {p : Pc} {m : Mode}
    (hplaced : Placed cfg (.worker j) p) (hdone : isDone p = false) :
    active p m = true ∨ p = .leaveUnlock ∨ ∃ k, p = .consumeWait k ∧ m ≠ .waking := by
  cases p with
  | consumeLoop | consumeLock | consumeTest | consumeSignal | take | consumeUnlock | leaveLock
  | leaveSignal => exact .inl rfl
  | leaveUnlock => exact .inr (.inl rfl)
  | consumeWait k =>
      cases m with
      | waking => exact .inl rfl
      | _ => exact .inr (.inr ⟨k, rfl, by simp⟩)
  | workerDone => cases hdone
  | _ => cases hplaced

theorem not_awake_of_inside {u : cfg.Threads} (howners : (discipline cfg garbage).Owners s)
    (ht : inside (s.pc t) = true) (hu : inside (s.pc u) = false)
    (hholds : holds (s.pc u) .mutex = true) : (s.mode u).awake = false := by
  by_contra hawake
  have howner : s.owner .mutex = some u := by
    rw [howners u .mutex]
    exact ⟨hholds, fun _ => by simpa using hawake⟩
  rw [owner_of_inside howners ht] at howner
  rw [Option.some.inj howner] at ht
  rw [ht] at hu
  cases hu

theorem owner_of_retiring (howners : (discipline cfg garbage).Owners s)
    (ht : retiring (s.pc t) (s.mode t) = true) : s.owner .mutex = some t := by
  cases hp : s.pc t with
  | checkItems => exact owner_of_inside howners (by rw [hp]; rfl)
  | produceWait =>
      rw [hp] at ht
      rw [howners t .mutex]
      exact ⟨show holds (s.pc t) .mutex = true by rw [hp]; rfl, fun _ => ht⟩
  | _ =>
      rw [hp] at ht
      cases ht

/-- A signal on `cond_can_consume` from inside a critical section leaves an active worker,
unless all workers have returned. -/
theorem someActive_of_signal {e : Event cfg.Threads Pc} {q : Pc}
    (howners : (discipline cfg garbage).Owners s) (hledger : Ledger cfg s.data s.pc)
    (hstep : Step (cfg.program garbage) false s e s')
    (hcode : cfg.code e.thread (s.pc e.thread) = .signal .canConsume q)
    (hinside : inside (s.pc e.thread) = true)
    (hworker : ∃ j, isDone (s.pc (.worker j)) = false) : SomeActive s' := by
  have hlocal := hstep.local
  rcases hstep.signal hcode with hnone | ⟨w, hw, hmode'⟩
  · have hactive : SomeActive s := by
      obtain ⟨j, hj⟩ := hworker
      refine ⟨.worker j, ?_⟩
      rcases active_or_leaving (m := s.mode (.worker j)) (hledger.placed _) hj with
        hactive | hleave | ⟨k, hwait, hmode⟩
      · exact hactive
      · have heq := inside_unique howners hinside (u := .worker j) (by rw [hleave]; rfl)
        rw [heq, hleave] at hcode
        cases hcode
      · have hawake := not_awake_of_inside howners hinside (u := .worker j)
          (by rw [hwait]; rfl) (by rw [hwait]; rfl)
        have hasleep : s.mode (.worker j) = .asleep := by
          cases hm : s.mode (.worker j) with
          | asleep => rfl
          | waking => exact absurd hm hmode
          | _ => simp [hm, Mode.awake] at hawake
        have hsleeper := hnone (.worker j)
        simp [asleepOn, hasleep, hwait, Config.program, Config.code, Instr.waitsOn] at hsleeper
    rcases someActive_local hlocal hactive with h | ⟨q', hcode', -⟩
    · exact h
    · rw [hcode] at hcode'
      cases hcode'
  · obtain ⟨hasleep, ⟨idx, hpc, hc⟩ | ⟨k, hpc, -⟩⟩ := asleepOn_cases hw
    · cases hc
    · refine ⟨w, ?_⟩
      have hwt : w ≠ e.thread := by
        rintro rfl
        exact hlocal.mode_ne_asleep hasleep
      rw [hlocal.pc_of_ne hwt, hpc, hmode', Function.update_self]
      rfl

/-! ## Every run -/

theorem consumed_lt_of_size {d : Data} {pc : cfg.Threads → Pc} (hledger : Ledger cfg d pc)
    (hmasters : 0 < cfg.numMasters) (hsize : 1 ≤ d.currBufSize) :
    d.consumed.length < cfg.totalItems := by
  have hlength := hledger.length_produced
  have hle := hledger.length_produced_le hmasters
  omega

theorem Wakeups.retiring_step {e : Event cfg.Threads Pc} (hwakeups : Wakeups cfg garbage s)
    (hmasters : 0 < cfg.numMasters) (hworkers : 0 < cfg.numWorkers)
    (howners : (discipline cfg garbage).Owners s) (hledger : Ledger cfg s.data s.pc)
    (hstep : Step (cfg.program garbage) false s e s') (u : cfg.Threads)
    (hu : MasterWorker.retiring (s'.pc u) (s'.mode u) = true) : SomeActive s' := by
  have hlocal := hstep.local
  by_cases hut : u = e.thread
  · subst hut
    rcases retiring_local hlocal hu with hbefore | ⟨idx, hp⟩
    · -- it was retiring before, and a retiring thread does not signal
      rcases someActive_local hlocal (hwakeups.retiring _ hbefore) with h | ⟨q, hcode, -⟩
      · exact h
      · cases hp : s.pc e.thread <;> rw [hp] at hbefore hcode <;>
          first | cases hbefore; done | cases hcode
    · apply someActive_of_signal howners hledger hstep (by rw [hp]; rfl) (by rw [hp]; rfl)
      apply hledger.exists_worker hworkers
      have hlt := hledger.produced_lt hmasters (t := e.thread) (by rw [hp]; rfl)
      have hlength := hledger.length_produced
      omega
  · have hbefore : MasterWorker.retiring (s.pc u) (s.mode u) = true := by
      rw [hlocal.pc_of_ne hut] at hu
      exact retiring_woken (hlocal.woken_of_ne hut) hu
    rcases someActive_local hlocal (hwakeups.retiring _ hbefore) with h | ⟨q, hcode, hinside⟩
    · exact h
    · have howner := owner_of_retiring howners hbefore
      rw [owner_of_inside howners hinside] at howner
      exact absurd (Option.some.inj howner).symm hut

theorem size_local (hplaced : Placed cfg t (s.pc t)) (hlocal : Local (cfg.program garbage) s t s') :
    s.data.currBufSize ≤ s'.data.currBufSize ∨ SomeActive s' := by
  cases hlocal with
  | sleep _ _ _ hdata =>
      rw [hdata]
      exact .inl (le_refl _)
  | advance hpc heffect _ hmode' =>
      have hchange := change hplaced heffect
      generalize s'.data = d' at hchange ⊢
      cases hchange with
      | quiet => exact .inl (le_refl _)
      | put =>
          left
          simp only [Data.putItem]
          omega
      | count => exact .inl (le_refl _)
      | take hp hq =>
          refine .inr ⟨t, ?_⟩
          rw [hpc, Function.update_self, hq]
          rfl

/-- Whoever keeps the masters from sleeping for good hands this on. -/
theorem Lively.step {e : Event cfg.Threads Pc} {u : cfg.Threads} (hlively : Lively s)
    (hmasters : 0 < cfg.numMasters) (hworkers : 0 < cfg.numWorkers)
    (howners : (discipline cfg garbage).Owners s) (hledger : Ledger cfg s.data s.pc)
    (hstep : Step (cfg.program garbage) false s e s')
    (hretiring : ∀ u, MasterWorker.retiring (s'.pc u) (s'.mode u) = true → SomeActive s')
    (hu : (cfg.program garbage).asleepOn s .canProduce u = true) : Lively s' := by
  have hlocal := hstep.local
  rcases hlively with hactive | ⟨m, hm⟩ | ⟨hsize, m, hm⟩
  · rcases someActive_local hlocal hactive with h | ⟨q, hcode, -⟩
    · exact .inl h
    · rcases hstep.signal hcode with hnone | ⟨w, hw, hmode'⟩
      · rw [hnone u] at hu
        cases hu
      · obtain ⟨hasleep, ⟨idx, hpc, -⟩ | ⟨k, -, hc⟩⟩ := asleepOn_cases hw
        · refine .inr (.inl ⟨w, ?_⟩)
          have hwt : w ≠ e.thread := by
            rintro rfl
            exact hlocal.mode_ne_asleep hasleep
          rw [hlocal.pc_of_ne hwt, hpc, hmode', Function.update_self]
          rfl
        · cases hc
  · by_cases hmt : m = e.thread
    · subst hmt
      rcases strong_local hlocal hm with h | ⟨idx, hpc⟩ | ⟨idx, hpc, hdata⟩
      · exact .inr (.inl ⟨_, h⟩)
      · exact .inl (hretiring e.thread (by rw [hpc]; rfl))
      · refine .inr (.inr ⟨?_, e.thread, by rw [hpc]; rfl⟩)
        have hnonneg := hledger.size.1
        rw [hdata]
        simp only [Data.putItem]
        omega
    · refine .inr (.inl ⟨m, ?_⟩)
      rw [hlocal.pc_of_ne hmt]
      exact strong_woken (hlocal.woken_of_ne hmt) hm
  · rcases size_local (hledger.placed _) hlocal with hle | hactive
    swap
    · exact .inl hactive
    have hsize' : 1 ≤ s'.data.currBufSize := by omega
    by_cases hmt : m = e.thread
    · subst hmt
      rcases weak_local hlocal hsize hm with (h | h) | hp
      · exact .inr (.inr ⟨hsize', _, h⟩)
      · exact .inr (.inl ⟨_, h⟩)
      · refine .inl (someActive_of_signal howners hledger hstep (by rw [hp]; rfl)
          (by rw [hp]; rfl) ?_)
        exact hledger.exists_worker hworkers (consumed_lt_of_size hledger hmasters hsize)
    · exact .inr (.inr ⟨hsize', m, by rwa [hlocal.pc_of_ne hmt]⟩)

theorem Wakeups.sleeping_step {e : Event cfg.Threads Pc} (hwakeups : Wakeups cfg garbage s)
    (hmasters : 0 < cfg.numMasters) (hworkers : 0 < cfg.numWorkers)
    (howners : (discipline cfg garbage).Owners s) (hledger : Ledger cfg s.data s.pc)
    (hstep : Step (cfg.program garbage) false s e s') (u : cfg.Threads)
    (hu : (cfg.program garbage).asleepOn s' .canProduce u = true) : Lively s' := by
  have hlocal := hstep.local
  obtain ⟨hasleep', hwait'⟩ := asleepOn_cases hu
  by_cases hbefore : (cfg.program garbage).asleepOn s .canProduce u = true
  · apply (hwakeups.sleeping u hbefore).step hmasters hworkers howners hledger hstep _ hbefore
    exact hwakeups.retiring_step hmasters hworkers howners hledger hstep
  · -- `u` has just fallen asleep
    have hut : u = e.thread := by
      by_contra hut
      have hwoken := hlocal.woken_of_ne hut
      rw [hasleep'] at hwoken
      apply hbefore
      rw [asleepOn, Bool.and_eq_true] at hu ⊢
      rw [← hlocal.pc_of_ne hut]
      exact ⟨by simp [hwoken.eq_asleep], hu.2⟩
    subst hut
    cases hlocal with
    | sleep hcode hmode _ _ hpc _ =>
        rcases hwait' with ⟨idx, hp, -⟩ | ⟨k, -, hc⟩
        · have hretiring : MasterWorker.retiring (s.pc e.thread) (s.mode e.thread) = true := by
            rw [← hpc, hp, hmode]
            rfl
          rcases someActive_local hstep.local (hwakeups.retiring _ hretiring) with h | ⟨q, hq, -⟩
          · exact .inl h
          · cases hcode.symm.trans hq
        · cases hc
    | advance _ _ _ hmode' =>
        rw [hmode'] at hasleep'
        cases hasleep'

theorem wakeups {ok : St cfg → Event cfg.Threads Pc → Prop} (hmasters : 0 < cfg.numMasters)
    (hworkers : 0 < cfg.numWorkers)
    (hreach : ((cfg.program garbage).system false).ReachableWhere ok s) :
    Wakeups cfg garbage s := by
  apply hreach.invariant
  · rintro s rfl
    constructor
    · intro t ht
      cases t <;> cases ht
    · intro t ht
      cases t <;> cases mode_of_asleepOn ht
  · intro s e s' hreach hwakeups _ hnext
    have howners := (discipline cfg garbage).owners hreach
    have hledger := ledger hreach
    have hstep := next_step hnext
    exact ⟨hwakeups.retiring_step hmasters hworkers howners hledger hstep,
      hwakeups.sleeping_step hmasters hworkers howners hledger hstep⟩

end Os20.MasterWorker
