import Mathlib.Algebra.BigOperators.Group.Finset.Piecewise
import Mathlib.Algebra.Order.BigOperators.Group.Finset
import Mathlib.Data.Fintype.Basic
import Mathlib.Data.Fintype.Pi
import Os20.Lib.Transition

/-!
# Threads, mutexes and condition variables

A `Program` gives each thread a control-flow graph over program points whose
nodes are single steps: an atomic action on the shared data, or one call of the
pthread interface.  The scheduler picks the thread that moves, which waiter a
signal wakes and, where the program leaves it open, which function is called
next; all interleavings of a program are the runs of `Program.system`.

A condition wait is two steps: falling asleep releases the mutex, and a woken
thread goes on only once it has taken the mutex again.  The program point is that
of the wait until then.
-/

namespace Os20.Lib.Pthread

open Transition

/-- One step of a thread.  `D` is the shared data, `M` the mutexes, `C` the
condition variables, `T` the threads and `P` the program points. -/
inductive Instr (D M C T P : Type*) where
  | act (f : D → D × P)
  | lock (m : M) (next : P)
  | unlock (m : M) (next : P)
  | wait (c : C) (m : M) (next : P)
  | signal (c : C) (next : P)
  | broadcast (c : C) (next : P)
  | create (t : T) (next : P)
  | join (t : T) (next : P)
  /-- The thread goes on with any of the listed functions. -/
  | call (next : List P)
  | exit

inductive Mode where
  | unborn
  | ready
  | asleep
  /-- Woken, and about to take its mutex again. -/
  | waking
  deriving DecidableEq, Repr

def Mode.awake : Mode → Bool
  | .unborn | .ready => true
  | .asleep | .waking => false

structure State (D M T P : Type*) where
  data : D
  owner : M → Option T
  pc : T → P
  mode : T → Mode

inductive Event (T P : Type*) where
  | exec (t : T)
  /-- `t` signals and wakes `w`. -/
  | wake (t w : T)
  | call (t : T) (p : P)
  | spurious (t : T)

def Event.thread {T P : Type*} : Event T P → T
  | .exec t | .wake t _ | .call t _ | .spurious t => t

structure Program (D M C T P : Type*) where
  data : D
  code : T → P → Instr D M C T P
  entry : T → P
  /-- `ready` for the threads that run from the start. -/
  start : T → Mode

namespace Instr

variable {D M C T P : Type*}

def waitsOn [DecidableEq C] (c : C) : Instr D M C T P → Bool
  | .wait c' _ _ => c' = c
  | _ => false

def waitsWith [DecidableEq M] (m : M) : Instr D M C T P → Bool
  | .wait _ m' _ => m' = m
  | _ => false

def isExit : Instr D M C T P → Bool
  | .exit => true
  | _ => false

def Effect (d d' : D) (q : P) : Instr D M C T P → Prop
  | .act f => f d = (d', q)
  | .lock _ p | .unlock _ p | .wait _ _ p | .signal _ p | .broadcast _ p | .create _ p
  | .join _ p => d' = d ∧ q = p
  | .call ps => d' = d ∧ q ∈ ps
  | .exit => False

end Instr

namespace Program

variable {D M C T P : Type*}

section Semantics

variable [DecidableEq M] [DecidableEq C] [DecidableEq T]

def asleepOn (prog : Program D M C T P) (s : State D M T P) (c : C) (t : T) : Bool :=
  s.mode t = .asleep && (prog.code t (s.pc t)).waitsOn c

def exited (prog : Program D M C T P) (s : State D M T P) (t : T) : Bool :=
  s.mode t = .ready && (prog.code t (s.pc t)).isExit

def wakeAll (prog : Program D M C T P) (s : State D M T P) (c : C) : T → Mode :=
  fun u => if prog.asleepOn s c u then .waking else s.mode u

/-- One step of the running thread `t` that leaves nothing to choose.  Unlocking
and waiting need the mutex to be held by `t`. -/
def exec [Fintype T] (prog : Program D M C T P) (s : State D M T P) (t : T) :
    Instr D M C T P → Option (State D M T P)
  | .act f =>
      some { s with data := (f s.data).1, pc := Function.update s.pc t (f s.data).2 }
  | .lock m p =>
      if s.owner m = none then
        some { s with
          owner := Function.update s.owner m (some t), pc := Function.update s.pc t p }
      else none
  | .unlock m p =>
      if s.owner m = some t then
        some { s with owner := Function.update s.owner m none, pc := Function.update s.pc t p }
      else none
  | .wait _ m _ =>
      if s.owner m = some t then
        some { s with
          owner := Function.update s.owner m none, mode := Function.update s.mode t .asleep }
      else none
  | .signal c p =>
      -- without a waiter the signal is lost
      if ∃ w, prog.asleepOn s c w = true then none
      else some { s with pc := Function.update s.pc t p }
  | .broadcast c p => some { s with mode := prog.wakeAll s c, pc := Function.update s.pc t p }
  | .create u p =>
      if s.mode u = .unborn then
        some { s with mode := Function.update s.mode u .ready, pc := Function.update s.pc t p }
      else none
  | .join u p => if prog.exited s u then some { s with pc := Function.update s.pc t p } else none
  | .call _ | .exit => none

/-- A woken thread takes its mutex again and goes on behind the wait. -/
def reacquire (s : State D M T P) (t : T) : Instr D M C T P → Option (State D M T P)
  | .wait _ m p =>
      if s.owner m = none then
        some { s with
          owner := Function.update s.owner m (some t)
          pc := Function.update s.pc t p
          mode := Function.update s.mode t .ready }
      else none
  | _ => none

def next [Fintype T] [DecidableEq P] (prog : Program D M C T P) (spurious : Bool)
    (s : State D M T P) : Event T P → Option (State D M T P)
  | .exec t =>
      match s.mode t with
      | .ready => prog.exec s t (prog.code t (s.pc t))
      | .waking => reacquire s t (prog.code t (s.pc t))
      | .unborn | .asleep => none
  | .wake t w =>
      match s.mode t, prog.code t (s.pc t) with
      | .ready, .signal c p =>
          if prog.asleepOn s c w then
            some { s with mode := Function.update s.mode w .waking, pc := Function.update s.pc t p }
          else none
      | _, _ => none
  | .call t q =>
      match s.mode t, prog.code t (s.pc t) with
      | .ready, .call ps =>
          if q ∈ ps then some { s with pc := Function.update s.pc t q } else none
      | _, _ => none
  | .spurious t =>
      if spurious ∧ s.mode t = .asleep then
        some { s with mode := Function.update s.mode t .waking }
      else none

def initial (prog : Program D M C T P) : State D M T P :=
  { data := prog.data, owner := fun _ => none, pc := prog.entry, mode := prog.start }

/-- All interleavings of the threads; with `spurious` sleeping threads may also wake
up by themselves. -/
def system [Fintype T] [DecidableEq P] (prog : Program D M C T P) (spurious : Bool) :
    System (State D M T P) (Event T P) where
  init s := s = prog.initial
  next := prog.next spurious

theorem initial_init [Fintype T] [DecidableEq P] (prog : Program D M C T P) (spurious : Bool) :
    (prog.system spurious).init prog.initial := rfl

inductive Step (prog : Program D M C T P) (spurious : Bool) (s : State D M T P) :
    Event T P → State D M T P → Prop
  | act {t f} (hmode : s.mode t = .ready) (hcode : prog.code t (s.pc t) = .act f) :
      Step prog spurious s (.exec t)
        { s with data := (f s.data).1, pc := Function.update s.pc t (f s.data).2 }
  | lock {t m p} (hmode : s.mode t = .ready) (hcode : prog.code t (s.pc t) = .lock m p)
      (hfree : s.owner m = none) :
      Step prog spurious s (.exec t)
        { s with owner := Function.update s.owner m (some t), pc := Function.update s.pc t p }
  | unlock {t m p} (hmode : s.mode t = .ready) (hcode : prog.code t (s.pc t) = .unlock m p)
      (howner : s.owner m = some t) :
      Step prog spurious s (.exec t)
        { s with owner := Function.update s.owner m none, pc := Function.update s.pc t p }
  | sleep {t c m p} (hmode : s.mode t = .ready) (hcode : prog.code t (s.pc t) = .wait c m p)
      (howner : s.owner m = some t) :
      Step prog spurious s (.exec t)
        { s with
          owner := Function.update s.owner m none, mode := Function.update s.mode t .asleep }
  | reacquire {t c m p} (hmode : s.mode t = .waking)
      (hcode : prog.code t (s.pc t) = .wait c m p) (hfree : s.owner m = none) :
      Step prog spurious s (.exec t)
        { s with
          owner := Function.update s.owner m (some t)
          pc := Function.update s.pc t p
          mode := Function.update s.mode t .ready }
  | lost {t c p} (hmode : s.mode t = .ready) (hcode : prog.code t (s.pc t) = .signal c p)
      (hnone : ∀ w, prog.asleepOn s c w = false) :
      Step prog spurious s (.exec t) { s with pc := Function.update s.pc t p }
  | wake {t w c p} (hmode : s.mode t = .ready) (hcode : prog.code t (s.pc t) = .signal c p)
      (hwaits : prog.asleepOn s c w = true) :
      Step prog spurious s (.wake t w)
        { s with mode := Function.update s.mode w .waking, pc := Function.update s.pc t p }
  | broadcast {t c p} (hmode : s.mode t = .ready)
      (hcode : prog.code t (s.pc t) = .broadcast c p) :
      Step prog spurious s (.exec t)
        { s with mode := prog.wakeAll s c, pc := Function.update s.pc t p }
  | create {t u p} (hmode : s.mode t = .ready) (hcode : prog.code t (s.pc t) = .create u p)
      (hunborn : s.mode u = .unborn) :
      Step prog spurious s (.exec t)
        { s with mode := Function.update s.mode u .ready, pc := Function.update s.pc t p }
  | join {t u p} (hmode : s.mode t = .ready) (hcode : prog.code t (s.pc t) = .join u p)
      (hexited : prog.exited s u = true) :
      Step prog spurious s (.exec t) { s with pc := Function.update s.pc t p }
  | call {t q ps} (hmode : s.mode t = .ready) (hcode : prog.code t (s.pc t) = .call ps)
      (hmem : q ∈ ps) :
      Step prog spurious s (.call t q) { s with pc := Function.update s.pc t q }
  | spurious {t} (hspurious : spurious = true) (hmode : s.mode t = .asleep) :
      Step prog spurious s (.spurious t) { s with mode := Function.update s.mode t .waking }

variable {prog : Program D M C T P} {spurious : Bool} {s s' : State D M T P} {e : Event T P}

theorem exec_step [Fintype T] {t : T} {i : Instr D M C T P} (hmode : s.mode t = .ready)
    (hcode : prog.code t (s.pc t) = i) (h : prog.exec s t i = some s') :
    Step prog spurious s (.exec t) s' := by
  cases i with
  | act f =>
      cases h
      exact .act hmode hcode
  | lock m p =>
      obtain ⟨hfree, rfl⟩ := by simpa [exec] using h
      exact .lock hmode hcode hfree
  | unlock m p =>
      obtain ⟨howner, rfl⟩ := by simpa [exec] using h
      exact .unlock hmode hcode howner
  | wait c m p =>
      obtain ⟨howner, rfl⟩ := by simpa [exec] using h
      exact .sleep hmode hcode howner
  | signal c p =>
      obtain ⟨hnone, rfl⟩ := by simpa [exec] using h
      exact .lost hmode hcode hnone
  | broadcast c p =>
      cases h
      exact .broadcast hmode hcode
  | create u p =>
      obtain ⟨hunborn, rfl⟩ := by simpa [exec] using h
      exact .create hmode hcode hunborn
  | join u p =>
      obtain ⟨hexited, rfl⟩ := by simpa [exec] using h
      exact .join hmode hcode hexited
  | call ps => cases h
  | exit => cases h

theorem next_step [Fintype T] [DecidableEq P] (h : prog.next spurious s e = some s') :
    Step prog spurious s e s' := by
  cases e with
  | exec t =>
      simp only [next] at h
      split at h
      · next hmode => exact exec_step hmode rfl h
      · next hmode =>
          cases hcode : prog.code t (s.pc t) <;> simp only [hcode, reacquire] at h
          case wait c m p =>
            obtain ⟨hfree, rfl⟩ := by simpa using h
            exact .reacquire hmode hcode hfree
          all_goals cases h
      · cases h
      · cases h
  | wake t w =>
      simp only [next] at h
      split at h
      · next hmode hcode =>
          obtain ⟨hwaits, rfl⟩ := by simpa using h
          exact .wake hmode hcode hwaits
      · cases h
  | call t q =>
      simp only [next] at h
      split at h
      · next hmode hcode =>
          obtain ⟨hmem, rfl⟩ := by simpa using h
          exact .call hmode hcode hmem
      · cases h
  | spurious t =>
      obtain ⟨⟨hspurious, hmode⟩, rfl⟩ := by simpa [next] using h
      exact .spurious hspurious hmode

/-! ## The data and the program points -/

/-- A step leaves the data and all program points alone, or takes one thread through
its instruction. -/
theorem Step.moves (h : Step prog spurious s e s') :
    (s'.data = s.data ∧ s'.pc = s.pc) ∨
      ∃ q, s'.pc = Function.update s.pc e.thread q ∧
        (prog.code e.thread (s.pc e.thread)).Effect s.data s'.data q := by
  cases h with
  | sleep => exact .inl ⟨rfl, rfl⟩
  | spurious => exact .inl ⟨rfl, rfl⟩
  | call _ hcode hmem => exact .inr ⟨_, rfl, by simpa [Event.thread, hcode, Instr.Effect]⟩
  | act _ hcode | lock _ hcode | unlock _ hcode | reacquire _ hcode | lost _ hcode
  | wake _ hcode | broadcast _ hcode | create _ hcode | join _ hcode =>
      exact .inr ⟨_, rfl, by simp [Event.thread, hcode, Instr.Effect]⟩

theorem Step.exec_of_act {f : D → D × P} (h : Step prog spurious s e s')
    (hcode : prog.code e.thread (s.pc e.thread) = .act f) :
    e = .exec e.thread ∨ s'.pc = s.pc := by
  cases h with
  | spurious => exact .inr rfl
  | wake _ h | call _ h => simp [Event.thread, h] at hcode
  | act | lock | unlock | sleep | reacquire | lost | broadcast | create | join => exact .inl rfl

theorem sum_update_add {A : Type*} [AddCommMonoid A] [Fintype T] (f : T → P → A) (pc : T → P)
    (t : T) (p : P) :
    ∑ u, f u (Function.update pc t p u) + f t (pc t) = ∑ u, f u (pc u) + f t p := by
  have hrest : ∑ u ∈ Finset.univ.erase t, f u (Function.update pc t p u) =
      ∑ u ∈ Finset.univ.erase t, f u (pc u) := by
    apply Finset.sum_congr rfl
    intro u hu
    rw [Function.update_of_ne (Finset.ne_of_mem_erase hu)]
  rw [← Finset.sum_erase_add _ _ (Finset.mem_univ t), hrest, Function.update_self,
    ← Finset.sum_erase_add _ (fun u => f u (pc u)) (Finset.mem_univ t), add_right_comm]

end Semantics

def count [Fintype T] (q : P → Bool) (pc : T → P) : Nat := ∑ t, (q (pc t)).toNat

theorem count_update [Fintype T] [DecidableEq T] (q : P → Bool) (pc : T → P) (t : T) (p : P) :
    count q (Function.update pc t p) + (q (pc t)).toNat = count q pc + (q p).toNat :=
  sum_update_add (fun _ p => (q p).toNat) pc t p

theorem count_eq_zero [Fintype T] {q : P → Bool} {pc : T → P} :
    count q pc = 0 ↔ ∀ t, q (pc t) = false := by
  simp [count]

theorem count_pos [Fintype T] {q : P → Bool} {pc : T → P} {t : T} (h : q (pc t) = true) :
    0 < count q pc := by
  apply Nat.pos_of_ne_zero
  intro hzero
  simp [count_eq_zero.mp hzero t] at h

theorem exists_of_count_pos [Fintype T] {q : P → Bool} {pc : T → P} (h : 0 < count q pc) :
    ∃ t, q (pc t) = true := by
  by_contra hnone
  rw [count_eq_zero.mpr fun t => by simpa using not_exists.mp hnone t] at h
  exact Nat.lt_irrefl 0 h

theorem count_mono [Fintype T] {q r : P → Bool} {pc : T → P}
    (h : ∀ t, q (pc t) = true → r (pc t) = true) : count q pc ≤ count r pc := by
  apply Finset.sum_le_sum
  intro t _
  have ht := h t
  cases hq : q (pc t) with
  | false => exact Nat.zero_le _
  | true => rw [ht hq]

theorem count_le_one [Fintype T] {q : P → Bool} {pc : T → P}
    (h : ∀ t u, q (pc t) = true → q (pc u) = true → t = u) : count q pc ≤ 1 := by
  have hcard : count q pc = (Finset.univ.filter fun t => q (pc t) = true).card := by
    rw [Finset.card_filter]
    apply Finset.sum_congr rfl
    intro t _
    cases q (pc t) <;> rfl
  rw [hcard, Finset.card_le_one]
  intro t ht u hu
  exact h t u (Finset.mem_filter.mp ht).2 (Finset.mem_filter.mp hu).2

section Sleepers

variable [DecidableEq C] {prog : Program D M C T P} {s : State D M T P}

theorem mode_of_asleepOn {c : C} {t : T} (h : prog.asleepOn s c t = true) :
    s.mode t = .asleep := by
  simp only [asleepOn, Bool.and_eq_true, decide_eq_true_eq] at h
  exact h.1

theorem awake_wakeAll {c : C} (u : T) :
    (prog.wakeAll s c u).awake = (s.mode u).awake := by
  by_cases hu : prog.asleepOn s c u = true
  · simp [wakeAll, hu, mode_of_asleepOn hu, Mode.awake]
  · simp [wakeAll, hu]

end Sleepers

/-! ## Lock discipline

The text of a program says which mutexes a thread holds at each of its program
points.  `Balanced` checks this annotation instruction by instruction; it then
agrees with the owners of the mutexes in every reachable state. -/

/-- `holds` is kept by one instruction at the program point `p`. -/
def Balanced [DecidableEq M] (holds : P → M → Bool) (p : P) : Instr D M C T P → Prop
  | .act f => ∀ d, holds (f d).2 = holds p
  | .lock m q => holds p m = false ∧ holds q = Function.update (holds p) m true
  | .unlock m q => holds p m = true ∧ holds q = Function.update (holds p) m false
  | .wait _ m q => holds p m = true ∧ holds q = holds p
  | .signal _ q | .broadcast _ q | .create _ q | .join _ q => holds q = holds p
  | .call qs => ∀ q ∈ qs, holds q = holds p
  | .exit => True

structure Discipline [DecidableEq M] (prog : Program D M C T P) where
  holds : T → P → M → Bool
  entry : ∀ t m, holds t (prog.entry t) m = false
  balanced : ∀ t p, Balanced (holds t) p (prog.code t p)

namespace Discipline

variable [DecidableEq M] {prog : Program D M C T P} {spurious : Bool} {s s' : State D M T P}
  {e : Event T P}

/-- `t` has `m`: it is at a point that holds `m` and not inside a wait that gave
`m` up. -/
def Has (disc : Discipline prog) (s : State D M T P) (t : T) (m : M) : Prop :=
  disc.holds t (s.pc t) m = true ∧
    ((prog.code t (s.pc t)).waitsWith m = true → (s.mode t).awake = true)

def Owners (disc : Discipline prog) (s : State D M T P) : Prop :=
  ∀ t m, s.owner m = some t ↔ disc.Has s t m

variable {disc : Discipline prog}

theorem has_of_ready {t : T} {m : M} (hmode : s.mode t = .ready) :
    disc.Has s t m ↔ disc.holds t (s.pc t) m = true := by
  simp [Has, hmode, Mode.awake]

theorem has_congr {t : T} {m : M} (hpc : s'.pc t = s.pc t)
    (hawake : (s'.mode t).awake = (s.mode t).awake) :
    disc.Has s' t m ↔ disc.Has s t m := by
  simp [Has, hpc, hawake]

/-- A step of `t` keeps the owners right if each mutex is kept, taken or given up
by `t`. -/
theorem Owners.step {t : T} (howners : disc.Owners s)
    (hothers : ∀ u, u ≠ t → s'.pc u = s.pc u ∧ (s'.mode u).awake = (s.mode u).awake)
    (hstep : ∀ m, (s'.owner m = s.owner m ∧ (disc.Has s' t m ↔ disc.Has s t m)) ∨
      (s.owner m = none ∧ s'.owner m = some t ∧ disc.Has s' t m) ∨
      (s.owner m = some t ∧ s'.owner m = none ∧ ¬disc.Has s' t m)) :
    disc.Owners s' := by
  intro u m
  have hu := howners u m
  by_cases hut : u = t
  · subst hut
    rcases hstep m with ⟨howner, hhas⟩ | ⟨-, howner, hhas⟩ | ⟨-, howner, hhas⟩
    · rw [howner, hhas, hu]
    · simp [howner, hhas]
    · simp [howner, hhas]
  · rw [has_congr (hothers u hut).1 (hothers u hut).2, ← hu]
    rcases hstep m with ⟨howner, -⟩ | ⟨hfree, howner, -⟩ | ⟨hheld, howner, -⟩
    · rw [howner]
    · simp [hfree, howner, Ne.symm hut]
    · simp [hheld, howner, Ne.symm hut]

theorem owners_initial : disc.Owners prog.initial := by
  intro t m
  simp [Has, initial, disc.entry]

/-- Outside its waits with `m`, a thread at a point that holds `m` is the owner. -/
theorem Owners.owner_eq {t : T} {m : M} (howners : disc.Owners s)
    (hwait : (prog.code t (s.pc t)).waitsWith m = false)
    (hholds : disc.holds t (s.pc t) m = true) : s.owner m = some t := by
  rw [howners t m]
  exact ⟨hholds, by simp [hwait]⟩

/-- Two threads are never both at points that hold a mutex no wait gives up. -/
theorem Owners.eq_of_holds {t u : T} {m : M} (howners : disc.Owners s)
    (hwait : ∀ v p, (prog.code v p).waitsWith m = false)
    (ht : disc.holds t (s.pc t) m = true) (hu : disc.holds u (s.pc u) m = true) : t = u := by
  have hown := howners.owner_eq (hwait t _) ht
  rw [howners.owner_eq (hwait u _) hu] at hown
  exact (Option.some.inj hown).symm

variable [DecidableEq T]

theorem Owners.move {t : T} {q : P} (howners : disc.Owners s) (hmode : s.mode t = .ready)
    (hmode' : s'.mode t = .ready)
    (hpc : s'.pc = Function.update s.pc t q) (howner : s'.owner = s.owner)
    (hholds : disc.holds t q = disc.holds t (s.pc t))
    (hothers : ∀ u, u ≠ t → (s'.mode u).awake = (s.mode u).awake) :
    disc.Owners s' := by
  apply howners.step (t := t)
  · intro u hu
    exact ⟨by simp [hpc, hu], hothers u hu⟩
  · intro m
    left
    rw [howner, has_of_ready hmode, has_of_ready hmode', hpc, Function.update_self, hholds]
    simp

theorem awake_update {mode : T → Mode} {w u : T} {x : Mode} (h : x.awake = (mode w).awake) :
    (Function.update mode w x u).awake = (mode u).awake := by
  by_cases hu : u = w
  · rw [hu, Function.update_self, h]
  · rw [Function.update_of_ne hu]

variable [DecidableEq C]

theorem owners_step (howners : disc.Owners s) (hstep : Step prog spurious s e s') :
    disc.Owners s' := by
  have hbal := disc.balanced e.thread (s.pc e.thread)
  cases hstep with
  | act hmode hcode =>
      simp only [Event.thread, hcode, Balanced] at hbal
      exact howners.move hmode hmode rfl rfl (hbal _) fun _ _ => rfl
  | @lock t m p hmode hcode hfree =>
      simp only [Event.thread, hcode, Balanced] at hbal
      apply howners.step (t := t)
      · intro u hu
        simp [hu]
      · intro n
        by_cases hn : n = m
        · subst hn
          simp [Has, hmode, Mode.awake, hfree, hbal]
        · simp [Has, hmode, Mode.awake, hn, hbal]
  | @unlock t m p hmode hcode howner =>
      simp only [Event.thread, hcode, Balanced] at hbal
      apply howners.step (t := t)
      · intro u hu
        simp [hu]
      · intro n
        by_cases hn : n = m
        · subst hn
          simp [Has, hmode, Mode.awake, howner, hbal]
        · simp [Has, hmode, Mode.awake, hn, hbal]
  | @sleep t c m p hmode hcode howner =>
      apply howners.step (t := t)
      · intro u hu
        simp [hu]
      · intro n
        by_cases hn : n = m
        · subst hn
          simp [Has, Mode.awake, hcode, howner, Instr.waitsWith]
        · simp [Has, hcode, Instr.waitsWith, hn, Ne.symm hn]
  | @reacquire t c m p hmode hcode hfree =>
      simp only [Event.thread, hcode, Balanced] at hbal
      apply howners.step (t := t)
      · intro u hu
        simp [hu]
      · intro n
        by_cases hn : n = m
        · subst hn
          simp [Has, Mode.awake, hfree, hbal]
        · simp [Has, Mode.awake, hcode, Instr.waitsWith, hn, Ne.symm hn, hbal]
  | lost hmode hcode =>
      simp only [Event.thread, hcode, Balanced] at hbal
      exact howners.move hmode hmode rfl rfl hbal fun _ _ => rfl
  | @wake t w c p hmode hcode hwaits =>
      simp only [Event.thread, hcode, Balanced] at hbal
      have hasleep := mode_of_asleepOn hwaits
      have hwt : t ≠ w := by
        rintro rfl
        simp [hmode] at hasleep
      refine howners.move hmode ?_ rfl rfl hbal fun u _ => ?_
      · simp [hmode, hwt]
      · exact awake_update (by rw [hasleep]; rfl)
  | @broadcast t c p hmode hcode =>
      simp only [Event.thread, hcode, Balanced] at hbal
      refine howners.move hmode ?_ rfl rfl hbal fun u _ => awake_wakeAll u
      simp [wakeAll, asleepOn, hmode]
  | @create t u p hmode hcode hunborn =>
      simp only [Event.thread, hcode, Balanced] at hbal
      have hut : t ≠ u := by
        rintro rfl
        simp [hmode] at hunborn
      refine howners.move hmode ?_ rfl rfl hbal fun v _ => ?_
      · simp [hmode, hut]
      · exact awake_update (by rw [hunborn]; rfl)
  | join hmode hcode =>
      simp only [Event.thread, hcode, Balanced] at hbal
      exact howners.move hmode hmode rfl rfl hbal fun _ _ => rfl
  | @call t q ps hmode hcode hmem =>
      simp only [Event.thread, hcode, Balanced] at hbal
      exact howners.move hmode hmode rfl rfl (hbal q hmem) fun _ _ => rfl
  | @spurious t hspurious hmode =>
      intro u m
      apply (howners u m).trans
      symm
      apply has_congr
      · rfl
      · exact awake_update (by rw [hmode]; rfl)

/-- In every reachable state of every run the owners are the threads whose program
point says so. -/
theorem owners [Fintype T] [DecidableEq P] {ok : State D M T P → Event T P → Prop}
    (hreach : (prog.system spurious).ReachableWhere ok s) : disc.Owners s := by
  apply hreach.invariant
  · rintro s rfl
    exact owners_initial
  · intro s e s' _ howners _ hnext
    exact owners_step howners (next_step hnext)

end Discipline

end Program

end Os20.Lib.Pthread
