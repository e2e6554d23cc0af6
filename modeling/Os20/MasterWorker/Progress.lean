import Os20.MasterWorker.Wakeups

/-!
# `master-worker.c`: no stuck state

After the masters are joined `main` signals `cond_can_consume` once, and nobody signals
it any more.  If two workers sleep at that moment, one of them sleeps for good:
`exists_stuck` is such a run.  `notStuck` says that nothing else can go wrong.
-/

namespace Os20.MasterWorker

open Os20.Lib.Transition Os20.Lib.Pthread Os20.Lib.Pthread.Program

variable {cfg : Config} {garbage : Int → Nat}

/-- Some thread has not returned, and no thread can take a step. -/
def Stuck (cfg : Config) (garbage : Int → Nat) (s : St cfg) : Prop :=
  (∃ t, (cfg.program garbage).exited s t = false) ∧
    ∀ e, (cfg.program garbage).next false s e = none

/-- When `main` signals `cond_can_consume`, at most one worker sleeps on it. -/
def oneSleeper (cfg : Config) (garbage : Int → Nat) (s : St cfg)
    (e : Event cfg.Threads Pc) : Prop :=
  s.pc e.thread = .mainSignal →
    ∀ v w, (cfg.program garbage).asleepOn s .canConsume v = true →
      (cfg.program garbage).asleepOn s .canConsume w = true → v = w

/-! ## How far `main` has got -/

def mastersCreated (cfg : Config) : Pc → Nat
  | .createMasters i => i
  | _ => cfg.numMasters

def workersCreated (cfg : Config) : Pc → Nat
  | .createMasters _ => 0
  | .createWorkers j => j
  | _ => cfg.numWorkers

def mastersJoined (cfg : Config) : Pc → Nat
  | .createMasters _ | .createWorkers _ => 0
  | .joinMasters i => i
  | _ => cfg.numMasters

def workersJoined (cfg : Config) : Pc → Nat
  | .joinWorkers j => j
  | .mainBroadcast | .mainDone => cfg.numWorkers
  | _ => 0

def pastSignal : Pc → Bool
  | .mainUnlock | .joinWorkers _ | .mainBroadcast | .mainDone => true
  | _ => false

def drowsy : Pc → Mode → Bool
  | .consumeSignal _, _ => true
  | .consumeWait _, m => m != .waking
  | _, _ => false

structure Housekeeping (cfg : Config) (s : St cfg) : Prop where
  main : s.mode .main ≠ .unborn
  masters : ∀ i : Fin cfg.numMasters,
    s.mode (.master i) = .unborn ↔ mastersCreated cfg (s.pc .main) ≤ i
  workers : ∀ j : Fin cfg.numWorkers,
    s.mode (.worker j) = .unborn ↔ workersCreated cfg (s.pc .main) ≤ j
  mastersDone : ∀ i : Fin cfg.numMasters,
    i < mastersJoined cfg (s.pc .main) → s.pc (.master i) = .masterDone
  workersDone : ∀ j : Fin cfg.numWorkers,
    j < workersJoined cfg (s.pc .main) → s.pc (.worker j) = .workerDone
  /-- Behind the signal no worker is left asleep. -/
  awake : pastSignal (s.pc .main) = true →
    ∀ j, drowsy (s.pc (.worker j)) (s.mode (.worker j)) = false

variable {s s' : St cfg} {t : cfg.Threads}

theorem create_cases {p q : Pc} {u : cfg.Threads} (hcode : cfg.code t p = .create u q) :
    (∃ i, ∃ h : i < cfg.numMasters, p = .createMasters i ∧ u = .master ⟨i, h⟩) ∨
      ∃ j, ∃ h : j < cfg.numWorkers, p = .createWorkers j ∧ u = .worker ⟨j, h⟩ := by
  cases p with
  | createMasters i =>
      simp only [Config.code] at hcode
      split at hcode
      · next h =>
          cases hcode
          exact .inl ⟨i, h, rfl, rfl⟩
      · cases hcode
  | createWorkers j =>
      simp only [Config.code] at hcode
      split at hcode
      · next h =>
          cases hcode
          exact .inr ⟨j, h, rfl, rfl⟩
      · cases hcode
  | joinMasters | joinWorkers =>
      simp only [Config.code] at hcode
      split at hcode <;> cases hcode
  | _ => cases hcode

theorem pc_of_isDone (hlocal : Local (cfg.program garbage) s t s') {u : cfg.Threads}
    (hdone : isDone (s.pc u) = true) : s'.pc u = s.pc u := by
  by_cases hut : u = t
  · subst hut
    cases hlocal with
    | sleep _ _ _ _ hpc => rw [hpc]
    | advance _ heffect =>
        cases hp : s.pc u with
        | mainDone | masterDone | workerDone =>
            rw [hp] at heffect
            cases heffect
        | _ =>
            rw [hp] at hdone
            cases hdone
  · exact hlocal.pc_of_ne hut

theorem drowsy_woken {p : Pc} {m m' : Mode} (hwoken : Woken m m') (h : drowsy p m' = true) :
    drowsy p m = true := by
  cases hwoken <;> cases p <;> first | exact h | rfl

theorem drowsy_local (hlocal : Local (cfg.program garbage) s t s')
    (h : drowsy (s'.pc t) (s'.mode t) = true) :
    drowsy (s.pc t) (s.mode t) = true ∨ ∃ k, s.pc t = .consumeTest k ∧ s.data.currBufSize ≤ 0 := by
  cases hlocal with
  | sleep hcode hmode _ _ hpc hmode' =>
      left
      rcases wait_cases hcode with ⟨idx, hp, -⟩ | ⟨k, hp, -⟩
      · rw [hpc, hp] at h
        cases h
      · rw [hp, hmode]
        rfl
  | @advance q hpc heffect _ hmode' =>
      rw [hpc, Function.update_self, hmode'] at h
      have hfrom := cameFrom heffect
      cases q with
      | consumeSignal k => exact .inr ⟨k, hfrom⟩
      | consumeWait k =>
          left
          rw [show s.pc t = .consumeSignal k from hfrom]
          rfl
      | _ => cases h

/-! ## What a step of `main` does to the others -/

inductive MainStep (cfg : Config) (d : Data) : Pc → Pc → Prop
  | createMaster {i : Nat} (h : i < cfg.numMasters) :
      MainStep cfg d (.createMasters i) (.createMasters (i + 1))
  | mastersCreated {i : Nat} (h : i = cfg.numMasters) :
      MainStep cfg d (.createMasters i) (.createWorkers 0)
  | createWorker {j : Nat} (h : j < cfg.numWorkers) :
      MainStep cfg d (.createWorkers j) (.createWorkers (j + 1))
  | workersCreated {j : Nat} (h : j = cfg.numWorkers) :
      MainStep cfg d (.createWorkers j) (.joinMasters 0)
  | joinMaster {i : Nat} (h : i < cfg.numMasters) :
      MainStep cfg d (.joinMasters i) (.joinMasters (i + 1))
  | mastersJoined {i : Nat} (h : i = cfg.numMasters) : MainStep cfg d (.joinMasters i) .mainLock
  | lock : MainStep cfg d .mainLock .mainTest
  | nonempty : MainStep cfg d .mainTest .mainSignal
  | empty (h : d.currBufSize < 1) : MainStep cfg d .mainTest .mainUnlock
  | signal : MainStep cfg d .mainSignal .mainUnlock
  | unlock : MainStep cfg d .mainUnlock (.joinWorkers 0)
  | joinWorker {j : Nat} (h : j < cfg.numWorkers) :
      MainStep cfg d (.joinWorkers j) (.joinWorkers (j + 1))
  | workersJoined {j : Nat} (h : j = cfg.numWorkers) :
      MainStep cfg d (.joinWorkers j) .mainBroadcast
  | broadcast : MainStep cfg d .mainBroadcast .mainDone

variable {p q : Pc} {d d' : Data}

theorem mainStep (hplaced : Placed cfg .main p) (heffect : (cfg.code .main p).Effect d d' q) :
    MainStep cfg d p q := by
  cases p with
  | createMasters i | createWorkers i | joinMasters i | joinWorkers i =>
      simp only [Config.code] at heffect
      split at heffect
      · next h =>
          obtain ⟨-, rfl⟩ := heffect
          constructor
          exact h
      · next h =>
          obtain ⟨-, rfl⟩ := Prod.mk.inj heffect
          constructor
          exact Nat.le_antisymm hplaced (Nat.not_lt.mp h)
  | mainTest =>
      obtain ⟨-, rfl⟩ := Prod.mk.inj heffect
      split
      · exact .nonempty
      · next hsize => exact .empty (Int.not_le.mp hsize)
  | mainLock | mainSignal | mainUnlock | mainBroadcast =>
      obtain ⟨-, rfl⟩ := heffect
      constructor
  | mainDone => cases heffect
  | _ => cases hplaced

theorem mastersCreated_main (hstep : MainStep cfg d p q) (i : Fin cfg.numMasters) :
    (mastersCreated cfg p ≤ i ∧ ∀ q', cfg.code .main p ≠ .create (.master i) q') ↔
      mastersCreated cfg q ≤ i := by
  have hi := i.isLt
  cases hstep with
  | @createMaster k h =>
      simp only [mastersCreated, Config.code, h, dif_pos, ne_eq, Instr.create.injEq,
        Thread.master.injEq, not_and, Fin.ext_iff]
      constructor
      · rintro ⟨hle, hne⟩
        have hne' : k ≠ i := fun heq => hne _ heq rfl
        omega
      · intro hle
        exact ⟨by omega, fun _ heq => by omega⟩
  | _ =>
      simp only [mastersCreated]
      omega

theorem workersCreated_main (hstep : MainStep cfg d p q) (j : Fin cfg.numWorkers) :
    (workersCreated cfg p ≤ j ∧ ∀ q', cfg.code .main p ≠ .create (.worker j) q') ↔
      workersCreated cfg q ≤ j := by
  have hj := j.isLt
  cases hstep with
  | createMaster h => simp [workersCreated, Config.code, h]
  | mastersCreated h => simp [workersCreated, Config.code, h]
  | @createWorker k h =>
      simp only [workersCreated, Config.code, h, dif_pos, ne_eq, Instr.create.injEq,
        Thread.worker.injEq, not_and, Fin.ext_iff]
      constructor
      · rintro ⟨hle, hne⟩
        have hne' : k ≠ j := fun heq => hne _ heq rfl
        omega
      · intro hle
        exact ⟨by omega, fun _ heq => by omega⟩
  | _ =>
      simp only [workersCreated]
      omega

theorem mastersJoined_main (hstep : MainStep cfg d p q) :
    mastersJoined cfg q = mastersJoined cfg p ∨
      ∃ k, ∃ h : k < cfg.numMasters, mastersJoined cfg q = k + 1 ∧ mastersJoined cfg p = k ∧
        cfg.code .main p = .join (.master ⟨k, h⟩) q := by
  cases hstep with
  | @joinMaster k h => exact .inr ⟨k, h, rfl, rfl, by simp [Config.code, h]⟩
  | mastersJoined h => exact .inl h.symm
  | _ => exact .inl rfl

theorem workersJoined_main (hstep : MainStep cfg d p q) :
    workersJoined cfg q = workersJoined cfg p ∨
      ∃ k, ∃ h : k < cfg.numWorkers, workersJoined cfg q = k + 1 ∧ workersJoined cfg p = k ∧
        cfg.code .main p = .join (.worker ⟨k, h⟩) q := by
  cases hstep with
  | @joinWorker k h => exact .inr ⟨k, h, rfl, rfl, by simp [Config.code, h]⟩
  | workersJoined h => exact .inl h.symm
  | _ => exact .inl rfl

theorem main_local (hplaced : Placed cfg .main (s.pc .main))
    (hlocal : Local (cfg.program garbage) s .main s') :
    MainStep cfg s.data (s.pc .main) (s'.pc .main) := by
  cases hlocal with
  | sleep hcode =>
      rcases wait_cases hcode with ⟨idx, hp, -⟩ | ⟨k, hp, -⟩ <;> rw [hp] at hplaced <;>
        cases hplaced
  | advance hpc heffect =>
      rw [hpc, Function.update_self]
      exact mainStep hplaced heffect

theorem code_ne_create (hplaced : Placed cfg t (s.pc t)) (ht : t ≠ .main) (u : cfg.Threads)
    (q : Pc) : cfg.code t (s.pc t) ≠ .create u q := by
  intro hcode
  rcases create_cases hcode with ⟨i, -, hp, -⟩ | ⟨j, -, hp, -⟩ <;> rw [hp] at hplaced <;>
    cases t <;> first | exact ht rfl | cases hplaced

theorem isDone_of_exited {u : cfg.Threads}
    (hexited : (cfg.program garbage).exited s u = true) : isDone (s.pc u) = true := by
  rw [Program.exited, Bool.and_eq_true] at hexited
  rw [← isExit_code u]
  exact hexited.2

theorem eq_masterDone {i : Fin cfg.numMasters} (hplaced : Placed cfg (.master i) p)
    (hdone : isDone p = true) : p = .masterDone := by
  cases p <;> first | rfl | exact False.elim hplaced | cases hdone

theorem eq_workerDone {j : Fin cfg.numWorkers} (hplaced : Placed cfg (.worker j) p)
    (hdone : isDone p = true) : p = .workerDone := by
  cases p <;> first | rfl | exact False.elim hplaced | cases hdone

/-! ## Housekeeping is kept -/

section Step

variable {e : Event cfg.Threads Pc} (hkeep : Housekeeping cfg s)
  (hledger : Ledger cfg s.data s.pc) (hstep : Step (cfg.program garbage) false s e s')

include hkeep hledger hstep

theorem masters_step (i : Fin cfg.numMasters) :
    s'.mode (.master i) = .unborn ↔ mastersCreated cfg (s'.pc .main) ≤ i := by
  rw [hstep.unborn_iff, hkeep.masters i]
  by_cases hmain : e.thread = .main
  · have hlocal := hstep.local
    rw [hmain] at hlocal ⊢
    exact mastersCreated_main (main_local (hledger.placed _) hlocal) i
  · rw [hstep.local.pc_of_ne (Ne.symm hmain)]
    have hne := code_ne_create (hledger.placed _) hmain (.master i)
    exact ⟨fun h => h.1, fun h => ⟨h, hne⟩⟩

theorem workers_step (j : Fin cfg.numWorkers) :
    s'.mode (.worker j) = .unborn ↔ workersCreated cfg (s'.pc .main) ≤ j := by
  rw [hstep.unborn_iff, hkeep.workers j]
  by_cases hmain : e.thread = .main
  · have hlocal := hstep.local
    rw [hmain] at hlocal ⊢
    exact workersCreated_main (main_local (hledger.placed _) hlocal) j
  · rw [hstep.local.pc_of_ne (Ne.symm hmain)]
    have hne := code_ne_create (hledger.placed _) hmain (.worker j)
    exact ⟨fun h => h.1, fun h => ⟨h, hne⟩⟩

theorem mastersDone_step (i : Fin cfg.numMasters) (hi : i < mastersJoined cfg (s'.pc .main)) :
    s'.pc (.master i) = .masterDone := by
  have hdone : s.pc (.master i) = .masterDone := by
    by_cases hmain : e.thread = .main
    · have hlocal := hstep.local
      rw [hmain] at hlocal
      rcases mastersJoined_main (main_local (hledger.placed _) hlocal) with
        heq | ⟨k, h, hq, hp, hcode⟩
      · exact hkeep.mastersDone i (by rwa [heq] at hi)
      · by_cases hik : (i : Nat) = k
        · subst hik
          have hexited := hstep.join_exited (by rw [hmain]; exact hcode)
          exact eq_masterDone (hledger.placed _) (isDone_of_exited hexited)
        · exact hkeep.mastersDone i (by omega)
    · rw [hstep.local.pc_of_ne (Ne.symm hmain)] at hi
      exact hkeep.mastersDone i hi
  rw [pc_of_isDone hstep.local (by rw [hdone]; rfl), hdone]

theorem workersDone_step (j : Fin cfg.numWorkers) (hj : j < workersJoined cfg (s'.pc .main)) :
    s'.pc (.worker j) = .workerDone := by
  have hdone : s.pc (.worker j) = .workerDone := by
    by_cases hmain : e.thread = .main
    · have hlocal := hstep.local
      rw [hmain] at hlocal
      rcases workersJoined_main (main_local (hledger.placed _) hlocal) with
        heq | ⟨k, h, hq, hp, hcode⟩
      · exact hkeep.workersDone j (by rwa [heq] at hj)
      · by_cases hjk : (j : Nat) = k
        · subst hjk
          have hexited := hstep.join_exited (by rw [hmain]; exact hcode)
          exact eq_workerDone (hledger.placed _) (isDone_of_exited hexited)
        · exact hkeep.workersDone j (by omega)
    · rw [hstep.local.pc_of_ne (Ne.symm hmain)] at hj
      exact hkeep.workersDone j hj
  rw [pc_of_isDone hstep.local (by rw [hdone]; rfl), hdone]

theorem mastersDone_of_pastSignal (hpast : pastSignal (s'.pc .main) = true)
    (i : Fin cfg.numMasters) : isDone (s.pc (.master i)) = true := by
  have hjoined : mastersJoined cfg (s.pc .main) = cfg.numMasters := by
    by_cases hmain : e.thread = .main
    · have hlocal := hstep.local
      rw [hmain] at hlocal
      have hmove := main_local (hledger.placed _) hlocal
      generalize s.pc .main = p at hmove ⊢
      generalize s'.pc .main = q at hmove hpast
      cases hmove <;> first | rfl | cases hpast
    · rw [hstep.local.pc_of_ne (Ne.symm hmain)] at hpast
      generalize s.pc .main = p at hpast ⊢
      cases p <;> first | rfl | cases hpast
  rw [hkeep.mastersDone i (by rw [hjoined]; exact i.isLt)]
  rfl

omit hkeep hledger in
/-- The signal of `main` wakes the only worker that sleeps. -/
theorem not_drowsy_of_signal (howners : (discipline cfg garbage).Owners s)
    (hok : oneSleeper cfg garbage s e) (hmain : e.thread = .main) (hp : s.pc .main = .mainSignal)
    {j : Fin cfg.numWorkers} (hdrowsy : drowsy (s.pc (.worker j)) (s.mode (.worker j)) = true) :
    drowsy (s'.pc (.worker j)) (s'.mode (.worker j)) = false := by
  have hinside : inside (s.pc .main) = true := by rw [hp]; rfl
  cases hw : s.pc (.worker j) with
  | consumeSignal k =>
      have heq := inside_unique howners hinside (u := .worker j) (by rw [hw]; rfl)
      cases heq
  | consumeWait k =>
      have hnot := not_awake_of_inside howners hinside (u := .worker j)
        (by rw [hw]; rfl) (by rw [hw]; rfl)
      have hasleep : s.mode (.worker j) = .asleep := by
        cases hm : s.mode (.worker j) with
        | asleep => rfl
        | waking =>
            rw [hw, hm] at hdrowsy
            cases hdrowsy
        | _ =>
            rw [hm] at hnot
            cases hnot
      have hsleeper : (cfg.program garbage).asleepOn s .canConsume (.worker j) = true := by
        simp [asleepOn, hasleep, hw, Config.program, Config.code, Instr.waitsOn]
      have hcode : (cfg.program garbage).code e.thread (s.pc e.thread) =
          .signal .canConsume .mainUnlock := by
        rw [hmain, hp]
        rfl
      rcases hstep.signal hcode with hnone | ⟨w, hwaits, hmode'⟩
      · rw [hnone] at hsleeper
        cases hsleeper
      · have heq := hok (by rw [hmain, hp]) (.worker j) w hsleeper hwaits
        rw [hstep.local.pc_of_ne (by rw [hmain]; simp), hw, hmode', ← heq, Function.update_self]
        rfl
  | _ =>
      rw [hw] at hdrowsy
      cases hdrowsy

omit hkeep hledger hstep in
theorem wantsTake_of_drowsy {m : Mode} (h : drowsy p m = true) : wantsTake p = true := by
  cases p <;> first | rfl | cases h

theorem awake_step (hmasters : 0 < cfg.numMasters) (hworkers : 0 < cfg.numWorkers)
    (howners : (discipline cfg garbage).Owners s) (hok : oneSleeper cfg garbage s e)
    (hpast : pastSignal (s'.pc .main) = true) (j : Fin cfg.numWorkers) :
    drowsy (s'.pc (.worker j)) (s'.mode (.worker j)) = false := by
  have hlocal := hstep.local
  have hsize : wantsTake (s.pc (.worker j)) = true → 1 ≤ s.data.currBufSize :=
    hledger.size_pos hmasters hworkers (mastersDone_of_pastSignal hkeep hledger hstep hpast)
  by_contra hdrowsy'
  rw [Bool.not_eq_false] at hdrowsy'
  have hdrowsy : drowsy (s.pc (.worker j)) (s.mode (.worker j)) = true := by
    by_cases hj : .worker j = e.thread
    · rw [← hj] at hlocal
      rcases drowsy_local hlocal hdrowsy' with h | ⟨k, hp, hempty⟩
      · exact h
      · have hpos := hsize (by rw [hp]; rfl)
        omega
    · rw [hlocal.pc_of_ne hj] at hdrowsy'
      exact drowsy_woken (hlocal.woken_of_ne hj) hdrowsy'
  by_cases hmain : e.thread = .main
  · rw [hmain] at hlocal
    have hmove := main_local (hledger.placed _) hlocal
    generalize hp : s.pc .main = p at hmove
    generalize s'.pc .main = q at hmove hpast
    cases hmove with
    | empty hempty =>
        have hpos := hsize (wantsTake_of_drowsy hdrowsy)
        omega
    | signal =>
        rw [not_drowsy_of_signal hstep howners hok hmain hp hdrowsy] at hdrowsy'
        cases hdrowsy'
    | unlock | joinWorker | workersJoined | broadcast =>
        rw [hkeep.awake (by rw [hp]; rfl) j] at hdrowsy
        cases hdrowsy
    | _ => cases hpast
  · rw [hlocal.pc_of_ne (Ne.symm hmain)] at hpast
    rw [hkeep.awake hpast j] at hdrowsy
    cases hdrowsy

end Step

theorem housekeeping (hmasters : 0 < cfg.numMasters) (hworkers : 0 < cfg.numWorkers)
    (hreach : ((cfg.program garbage).system false).ReachableWhere (oneSleeper cfg garbage) s) :
    Housekeeping cfg s := by
  apply hreach.invariant
  · rintro s rfl
    constructor
    case main => simp [initial, Config.program]
    case masters => simp [initial, Config.program, Config.entry, mastersCreated]
    case workers => simp [initial, Config.program, Config.entry, workersCreated]
    case mastersDone => simp [initial, Config.program, Config.entry, mastersJoined]
    case workersDone => simp [initial, Config.program, Config.entry, workersJoined]
    case awake => simp [initial, Config.program, Config.entry, pastSignal]
  · intro s e s' hreach hkeep hok hnext
    have hledger := ledger hreach
    have howners := (discipline cfg garbage).owners hreach
    have hstep := next_step hnext
    have hmain : s'.mode .main ≠ .unborn := fun h => hkeep.main ((hstep.unborn_iff _).mp h).1
    exact ⟨hmain, masters_step hkeep hledger hstep, workers_step hkeep hledger hstep,
      mastersDone_step hkeep hledger hstep, workersDone_step hkeep hledger hstep,
      awake_step hkeep hledger hstep hmasters hworkers howners hok⟩

/-! ## States without a step -/

theorem exited_of_isDone (hmode : s.mode t = .ready) (hdone : isDone (s.pc t) = true) :
    (cfg.program garbage).exited s t = true := by
  rw [exited, Bool.and_eq_true]
  exact ⟨by simp [hmode], (isExit_code t _).trans hdone⟩

/-- Nobody who sleeps, has returned or waits for another thread to return sees to it that
a master is woken. -/
theorem not_lively (hidle : ∀ t, (s.mode t = .asleep ∧ ((∃ idx, s.pc t = .produceWait idx) ∨
      ∃ k, s.pc t = .consumeWait k)) ∨ (s.mode t = .ready ∧ (isDone (s.pc t) = true ∨
      (∃ i, s.pc t = .joinMasters i) ∨ ∃ j, s.pc t = .joinWorkers j))) : ¬Lively s := by
  have hnone : ∀ t, active (s.pc t) (s.mode t) = false ∧ strong (s.pc t) (s.mode t) = false ∧
      weak (s.pc t) = false := by
    intro t
    rcases hidle t with ⟨hmode, ⟨idx, hp⟩ | ⟨k, hp⟩⟩ | ⟨-, hdone | ⟨i, hp⟩ | ⟨j, hp⟩⟩
    · simp [hmode, hp, active, strong, weak]
    · simp [hmode, hp, active, strong, weak]
    · cases hp : s.pc t <;> rw [hp] at hdone <;> first | exact ⟨rfl, rfl, rfl⟩ | cases hdone
    · simp [hp, active, strong, weak]
    · simp [hp, active, strong, weak]
  rintro (⟨w, hw⟩ | ⟨m, hm⟩ | ⟨-, m, hm⟩)
  · rw [(hnone w).1] at hw
    cases hw
  · rw [(hnone m).2.1] at hm
    cases hm
  · rw [(hnone m).2.2] at hm
    cases hm

section Stuck

variable (hstuck : ∀ e, (cfg.program garbage).next false s e = none)
  (howners : (discipline cfg garbage).Owners s) (hparked : Parked (cfg.program garbage) s)

include hstuck howners hparked

theorem free_of_stuck : s.owner .mutex = none := by
  by_contra howned
  obtain ⟨t, ht⟩ := Option.ne_none_iff_exists'.mp howned
  obtain ⟨hholds, hawake⟩ := (howners t .mutex).mp ht
  change holds (s.pc t) .mutex = true at hholds
  cases hmode : s.mode t with
  | unborn =>
      rw [hparked.unborn t hmode] at hholds
      cases t <;> cases hholds
  | ready =>
      have hblocked := blocked_of_stuck (fun e _ => hstuck e) hmode
      cases hp : s.pc t <;> rw [hp] at hholds hblocked <;>
        first | cases hholds; done | exact hblocked ht | exact hblocked
  | asleep | waking =>
      obtain ⟨c, m, q, hcode⟩ := hparked.asleep t (by rw [hmode]; rfl)
      rw [hcode, hmode] at hawake
      cases m
      cases hawake (by simp [Instr.waitsWith])

theorem not_holds_of_stuck (hmode : s.mode t = .ready) : holds (s.pc t) .mutex = false := by
  by_contra hholds
  have howner : s.owner .mutex = some t := by
    rw [howners t .mutex]
    exact ⟨(Bool.not_eq_false _).mp hholds, fun _ => by rw [hmode]; rfl⟩
  rw [free_of_stuck hstuck howners hparked] at howner
  cases howner

theorem asleep_or_done (hplaced : Placed cfg t (s.pc t)) (ht : t ≠ .main)
    (hborn : s.mode t ≠ .unborn) :
    (s.mode t = .asleep ∧ ((∃ idx, s.pc t = .produceWait idx) ∨ ∃ k, s.pc t = .consumeWait k)) ∨
      (s.mode t = .ready ∧ isDone (s.pc t) = true) := by
  have hfree := free_of_stuck hstuck howners hparked
  cases hmode : s.mode t with
  | unborn => exact absurd hmode hborn
  | asleep =>
      obtain ⟨c, m, q, hcode⟩ := hparked.asleep t (by rw [hmode]; rfl)
      rcases wait_cases hcode with ⟨idx, hp, -⟩ | ⟨k, hp, -⟩
      · exact .inl ⟨rfl, .inl ⟨idx, hp⟩⟩
      · exact .inl ⟨rfl, .inr ⟨k, hp⟩⟩
  | waking =>
      obtain ⟨c, m, q, hcode⟩ := hparked.asleep t (by rw [hmode]; rfl)
      cases m
      exact absurd hfree (owner_ne_none_of_stuck (hstuck _) hmode hcode)
  | ready =>
      right
      refine ⟨rfl, ?_⟩
      have hholds := not_holds_of_stuck hstuck howners hparked hmode
      have hblocked := blocked_of_stuck (fun e _ => hstuck e) hmode
      cases hp : s.pc t with
      | produceLock | finishLock | consumeLock | leaveLock =>
          rw [hp] at hblocked
          exact absurd hfree hblocked
      | produceLoop | consumeLoop =>
          rw [hp] at hblocked
          cases hblocked
      | masterDone | workerDone | mainDone => rfl
      | createMasters | createWorkers | joinMasters | joinWorkers | mainLock | mainBroadcast =>
          rw [hp] at hplaced
          cases t <;> first | exact absurd rfl ht | cases hplaced
      | _ =>
          rw [hp] at hholds
          cases hholds

theorem main_of_stuck (hplaced : Placed cfg .main (s.pc .main)) (hkeep : Housekeeping cfg s) :
    s.mode .main = .ready ∧ (s.pc .main = .mainDone ∨
      (∃ i, s.pc .main = .joinMasters i ∧
        ∃ h : i < cfg.numMasters, (cfg.program garbage).exited s (.master ⟨i, h⟩) = false) ∨
      ∃ j, s.pc .main = .joinWorkers j ∧
        ∃ h : j < cfg.numWorkers, (cfg.program garbage).exited s (.worker ⟨j, h⟩) = false) := by
  have hmode : s.mode .main = .ready := by
    cases hmode : s.mode .main with
    | unborn => exact absurd hmode hkeep.main
    | ready => rfl
    | asleep | waking =>
        obtain ⟨c, m, q, hcode⟩ := hparked.asleep .main (by rw [hmode]; rfl)
        rcases wait_cases hcode with ⟨idx, hp, -⟩ | ⟨k, hp, -⟩ <;> rw [hp] at hplaced <;>
          cases hplaced
  refine ⟨hmode, ?_⟩
  have hholds := not_holds_of_stuck hstuck howners hparked hmode
  have hblocked := blocked_of_stuck (fun e _ => hstuck e) hmode
  have hmasters := hkeep.masters
  have hworkers := hkeep.workers
  cases hp : s.pc .main with
  | createMasters i =>
      rw [hp] at hblocked hmasters
      simp only [Config.program, Config.code] at hblocked
      split at hblocked
      · next h => exact absurd ((hmasters ⟨i, h⟩).mpr (le_refl i)) hblocked
      · cases hblocked
  | createWorkers j =>
      rw [hp] at hblocked hworkers
      simp only [Config.program, Config.code] at hblocked
      split at hblocked
      · next h => exact absurd ((hworkers ⟨j, h⟩).mpr (le_refl j)) hblocked
      · cases hblocked
  | joinMasters i =>
      rw [hp] at hblocked
      simp only [Config.program, Config.code] at hblocked
      split at hblocked
      · next h => exact .inr (.inl ⟨i, rfl, h, hblocked⟩)
      · cases hblocked
  | joinWorkers j =>
      rw [hp] at hblocked
      simp only [Config.program, Config.code] at hblocked
      split at hblocked
      · next h => exact .inr (.inr ⟨j, rfl, h, hblocked⟩)
      · cases hblocked
  | mainLock =>
      rw [hp] at hblocked
      exact absurd (free_of_stuck hstuck howners hparked) hblocked
  | mainBroadcast =>
      rw [hp] at hblocked
      cases hblocked
  | mainDone => exact .inl rfl
  | mainTest | mainSignal | mainUnlock =>
      rw [hp] at hholds
      cases hholds
  | _ =>
      rw [hp] at hplaced
      cases hplaced

variable (hplaced : ∀ t, Placed cfg t (s.pc t)) (hkeep : Housekeeping cfg s)

include hplaced hkeep

theorem born_of_stuck (t : cfg.Threads) : s.mode t ≠ .unborn := by
  obtain ⟨-, hmain⟩ := main_of_stuck hstuck howners hparked (hplaced .main) hkeep
  have hcreated : mastersCreated cfg (s.pc .main) = cfg.numMasters ∧
      workersCreated cfg (s.pc .main) = cfg.numWorkers := by
    rcases hmain with hp | ⟨i, hp, -⟩ | ⟨j, hp, -⟩ <;> rw [hp] <;> exact ⟨rfl, rfl⟩
  cases t with
  | main => exact hkeep.main
  | master i =>
      rw [ne_eq, hkeep.masters, hcreated.1]
      exact Nat.not_le.mpr i.isLt
  | worker j =>
      rw [ne_eq, hkeep.workers, hcreated.2]
      exact Nat.not_le.mpr j.isLt

theorem not_lively_of_stuck : ¬Lively s := by
  apply not_lively
  intro t
  by_cases ht : t = .main
  · subst ht
    obtain ⟨hmode, hmain⟩ := main_of_stuck hstuck howners hparked (hplaced .main) hkeep
    refine .inr ⟨hmode, ?_⟩
    rcases hmain with hp | ⟨i, hp, -⟩ | ⟨j, hp, -⟩
    · exact .inl (by rw [hp]; rfl)
    · exact .inr (.inl ⟨i, hp⟩)
    · exact .inr (.inr ⟨j, hp⟩)
  · have hborn := born_of_stuck hstuck howners hparked hplaced hkeep t
    rcases asleep_or_done hstuck howners hparked (hplaced t) ht hborn with h | ⟨hready, hdone⟩
    · exact .inl h
    · exact .inr ⟨hready, .inl hdone⟩

/-- A master that sleeps would have somebody who sees to it that it is woken. -/
theorem master_exited_of_stuck (hwakeups : Wakeups cfg garbage s) (i : Fin cfg.numMasters) :
    (cfg.program garbage).exited s (.master i) = true := by
  have hborn := born_of_stuck hstuck howners hparked hplaced hkeep (.master i)
  rcases asleep_or_done hstuck howners hparked (hplaced (.master i)) (by simp) hborn with
    ⟨hasleep, ⟨idx, hp⟩ | ⟨k, hp⟩⟩ | ⟨hready, hdone⟩
  · have hlively : Lively s := by
      apply hwakeups.sleeping (.master i)
      simp [asleepOn, hasleep, hp, Config.program, Config.code, Instr.waitsOn]
    exact absurd hlively (not_lively_of_stuck hstuck howners hparked hplaced hkeep)
  · have hmaster := hplaced (.master i)
    rw [hp] at hmaster
    cases hmaster
  · exact exited_of_isDone hready hdone

theorem pastSignal_of_stuck (hwakeups : Wakeups cfg garbage s) :
    pastSignal (s.pc .main) = true := by
  obtain ⟨-, hmain⟩ := main_of_stuck hstuck howners hparked (hplaced .main) hkeep
  rcases hmain with hp | ⟨i, hp, h, hexited⟩ | ⟨j, hp, -⟩
  · rw [hp]
    rfl
  · rw [master_exited_of_stuck hstuck howners hparked hplaced hkeep hwakeups] at hexited
    cases hexited
  · rw [hp]
    rfl

theorem worker_exited_of_stuck (hwakeups : Wakeups cfg garbage s) (j : Fin cfg.numWorkers) :
    (cfg.program garbage).exited s (.worker j) = true := by
  have hborn := born_of_stuck hstuck howners hparked hplaced hkeep (.worker j)
  rcases asleep_or_done hstuck howners hparked (hplaced (.worker j)) (by simp) hborn with
    ⟨hasleep, ⟨idx, hp⟩ | ⟨k, hp⟩⟩ | ⟨hready, hdone⟩
  · have hworker := hplaced (.worker j)
    rw [hp] at hworker
    cases hworker
  · have hpast := pastSignal_of_stuck hstuck howners hparked hplaced hkeep hwakeups
    have hawake := hkeep.awake hpast j
    rw [hp, hasleep] at hawake
    cases hawake
  · exact exited_of_isDone hready hdone

theorem exited_of_stuck (hwakeups : Wakeups cfg garbage s) (t : cfg.Threads) :
    (cfg.program garbage).exited s t = true := by
  have hmasters := master_exited_of_stuck hstuck howners hparked hplaced hkeep hwakeups
  have hworkers := worker_exited_of_stuck hstuck howners hparked hplaced hkeep hwakeups
  cases t with
  | master i => exact hmasters i
  | worker j => exact hworkers j
  | main =>
      obtain ⟨hmode, hmain⟩ := main_of_stuck hstuck howners hparked (hplaced .main) hkeep
      rcases hmain with hp | ⟨i, hp, h, hexited⟩ | ⟨j, hp, h, hexited⟩
      · exact exited_of_isDone hmode (by rw [hp]; rfl)
      · rw [hmasters] at hexited
        cases hexited
      · rw [hworkers] at hexited
        cases hexited

end Stuck

/-- In every run in which at most one worker sleeps when `main` signals, no reachable
state has an unfinished thread and no step. -/
theorem notStuck (hmasters : 1 ≤ cfg.numMasters) (hworkers : 1 ≤ cfg.numWorkers)
    (hreach : ((cfg.program garbage).system false).ReachableWhere (oneSleeper cfg garbage) s) :
    ¬Stuck cfg garbage s := by
  rintro ⟨⟨u, hu⟩, hstuck⟩
  have hstart : ∀ t, ((cfg.program garbage).start t).awake = true := by
    rintro (_ | _ | _) <;> rfl
  have howners := (discipline cfg garbage).owners hreach
  have hparked := parked hstart hreach
  have hplaced := (ledger hreach).placed
  have hkeep := housekeeping hmasters hworkers hreach
  have hwakeups := wakeups hmasters hworkers hreach
  rw [exited_of_stuck hstuck howners hparked hplaced hkeep hwakeups u] at hu
  cases hu

instance (cfg : Config) (garbage : Int → Nat) (s : St cfg) (e : Event cfg.Threads Pc) :
    Decidable (oneSleeper cfg garbage s e) :=
  inferInstanceAs (Decidable (_ → ∀ _ _, _ → _ → _))

def pair : Config :=
  { totalItems := 2, maxBufSize := 2, numWorkers := 2, numMasters := 1 }

open Event Thread in
/-- Both workers sleep before the master runs; the master's last signal wakes one of them
and that of `main` the other one. -/
def pairRun : List (Event pair.Threads Pc) :=
  List.replicate 5 (exec main) ++
    List.replicate 5 (exec (worker ⟨0, by decide⟩)) ++
    List.replicate 5 (exec (worker ⟨1, by decide⟩)) ++
    List.replicate 15 (exec (master ⟨0, by decide⟩)) ++
    [wake (master ⟨0, by decide⟩) (worker ⟨0, by decide⟩), exec (master ⟨0, by decide⟩)] ++
    List.replicate 4 (exec main) ++
    [wake main (worker ⟨1, by decide⟩)]

theorem notStuck_pair :
    ∃ s, ((pair.program fun _ => 0).system false).ReachableWhere
        (oneSleeper pair fun _ => 0) s ∧
      s.pc .main = .mainUnlock ∧ ¬Stuck pair (fun _ => 0) s := by
  obtain ⟨s, hreach, hmain⟩ := System.exists_reachableWhere_of_run
    (M := (pair.program fun _ => 0).system false) (oneSleeper pair fun _ => 0) pairRun
    (fun s => s.pc .main == .mainUnlock) (initial_init _ _) (by decide +kernel)
  exact ⟨s, hreach, by simpa using hmain, notStuck (by decide) (by decide) hreach⟩

def triple : Config :=
  { totalItems := 3, maxBufSize := 3, numWorkers := 3, numMasters := 1 }

open Event Thread in
/-- All three workers sleep before the master runs.  Its last signal wakes worker 0 and
that of `main` worker 1; both take their item and return. -/
def tripleRun : List (Event triple.Threads Pc) :=
  List.replicate 6 (exec main) ++
    List.replicate 5 (exec (worker ⟨0, by decide⟩)) ++
    List.replicate 5 (exec (worker ⟨1, by decide⟩)) ++
    List.replicate 5 (exec (worker ⟨2, by decide⟩)) ++
    List.replicate 21 (exec (master ⟨0, by decide⟩)) ++
    [wake (master ⟨0, by decide⟩) (worker ⟨0, by decide⟩), exec (master ⟨0, by decide⟩)] ++
    List.replicate 4 (exec main) ++
    [wake main (worker ⟨1, by decide⟩), exec main] ++
    List.replicate 8 (exec (worker ⟨0, by decide⟩)) ++
    List.replicate 8 (exec (worker ⟨1, by decide⟩)) ++
    List.replicate 2 (exec main)

theorem next_call (t : cfg.Threads) (p : Pc) :
    (cfg.program garbage).next false s (.call t p) = none := by
  by_contra hsome
  obtain ⟨s', hs'⟩ := Option.ne_none_iff_exists'.mp hsome
  cases next_step hs' with
  | call _ hcode =>
      cases hp : s.pc t with
      | createMasters | createWorkers | joinMasters | joinWorkers =>
          rw [hp] at hcode
          simp only [Config.program, Config.code] at hcode
          split at hcode <;> cases hcode
      | _ =>
          rw [hp] at hcode
          cases hcode

theorem stuck_of_test (hunfinished : ∃ t, (cfg.program garbage).exited s t = false)
    (hexec : ∀ t, ((cfg.program garbage).next false s (.exec t)).isNone = true)
    (hwake : ∀ t w, ((cfg.program garbage).next false s (.wake t w)).isNone = true) :
    Stuck cfg garbage s := by
  refine ⟨hunfinished, fun e => ?_⟩
  cases e with
  | exec t => exact Option.isNone_iff_eq_none.mp (hexec t)
  | wake t w => exact Option.isNone_iff_eq_none.mp (hwake t w)
  | call t p => exact next_call t p
  | spurious t => rfl

theorem exists_stuck :
    ∃ s, ((triple.program fun _ => 0).system false).Reachable s ∧
      Stuck triple (fun _ => 0) s := by
  obtain ⟨s, hreach, hstuck⟩ := System.exists_reachable_of_run
    (M := (triple.program fun _ => 0).system false) tripleRun
    (fun s => decide (∃ t, (triple.program fun _ => 0).exited s t = false) &&
      (decide (∀ t, ((triple.program fun _ => 0).next false s (.exec t)).isNone = true) &&
        decide (∀ t w, ((triple.program fun _ => 0).next false s (.wake t w)).isNone = true)))
    (initial_init _ _) (by decide +kernel)
  rw [Bool.and_eq_true, Bool.and_eq_true, decide_eq_true_eq, decide_eq_true_eq,
    decide_eq_true_eq] at hstuck
  exact ⟨s, hreach, stuck_of_test hstuck.1 hstuck.2.1 hstuck.2.2⟩

end Os20.MasterWorker
