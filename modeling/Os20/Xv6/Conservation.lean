import Os20.Xv6.Orderly
import Os20.Xv6.Priority

/-!
# What a round dispatches

`highest` starts at 0.  When all RUNNABLE processes have negative priorities, the second loop
looks for a process of priority 0 and finds none: the round ends and nobody has run.  When one
of them has a priority of at least 0, `highest` is the maximum, and the first process with that
priority is switched to.
-/

namespace Os20.Xv6

open Os20.Lib.Transition

namespace Ptable

variable {pt pt' pt'' : Ptable}

def Runnable (pt : Ptable) (p : Slot) : Prop := (pt.proc p).state = .runnable

instance (pt : Ptable) : DecidablePred pt.Runnable := fun p =>
  inferInstanceAs (Decidable ((pt.proc p).state = .runnable))

def SameRunnable (pt pt' : Ptable) : Prop :=
  ∀ p, (pt'.Runnable p ↔ pt.Runnable p) ∧ (pt.Runnable p → (pt'.proc p).prio = (pt.proc p).prio)

instance (pt pt' : Ptable) : Decidable (SameRunnable pt pt') :=
  inferInstanceAs (Decidable (∀ p, (pt'.Runnable p ↔ pt.Runnable p) ∧
    (pt.Runnable p → (pt'.proc p).prio = (pt.proc p).prio)))

theorem SameRunnable.refl (pt : Ptable) : SameRunnable pt pt := fun _ => ⟨Iff.rfl, fun _ => rfl⟩

theorem SameRunnable.trans (h : SameRunnable pt pt') (h' : SameRunnable pt' pt'') :
    SameRunnable pt pt'' := fun p =>
  ⟨(h' p).1.trans (h p).1, fun hp => ((h' p).2 ((h p).1.mpr hp)).trans ((h p).2 hp)⟩

theorem SameRunnable.modify {np : Slot} {f : Proc → Proc}
    (hstate : (f (pt.proc np)).state = .runnable ↔ (pt.proc np).state = .runnable)
    (hprio : (f (pt.proc np)).prio = (pt.proc np).prio) : SameRunnable pt (pt.modify np f) := by
  intro p
  by_cases hp : p = np
  · subst hp
    rw [Runnable, modify_self]
    exact ⟨hstate, fun _ => hprio⟩
  · rw [Runnable, modify_of_ne pt hp]
    exact ⟨Iff.rfl, fun _ => rfl⟩

/-- `p` is a RUNNABLE process of maximal priority. -/
structure Foremost (pt : Ptable) (p : Slot) : Prop where
  runnable : pt.Runnable p
  maximal : ∀ q, pt.Runnable q → (pt.proc q).prio ≤ (pt.proc p).prio

/-- What the first loop knows at slot `i`. -/
structure Scanned (pt : Ptable) (i : Nat) (highest : Int) : Prop where
  nonneg : 0 ≤ highest
  le : ∀ q : Slot, q < i → pt.Runnable q → (pt.proc q).prio ≤ highest
  met : highest = 0 ∨ ∃ q : Slot, q < i ∧ pt.Runnable q ∧ (pt.proc q).prio = highest

namespace Scanned

variable {i : Nat} {p : Slot} {highest : Int}

theorem zero (pt : Ptable) : Scanned pt 0 0 :=
  ⟨le_rfl, fun _ hq => absurd hq (Nat.not_lt_zero _), .inl rfl⟩

theorem skip (h : Scanned pt p highest) (hp : ¬pt.Runnable p) : Scanned pt (p + 1) highest where
  nonneg := h.nonneg
  le q hq hrunnable := by
    rcases Nat.lt_succ_iff_lt_or_eq.mp hq with hlt | heq
    · exact h.le q hlt hrunnable
    · obtain rfl : q = p := Fin.ext heq
      exact absurd hrunnable hp
  met := h.met.imp_right fun ⟨q, hq, hmet⟩ => ⟨q, by omega, hmet⟩

theorem read (h : Scanned pt p highest) (hp : pt.Runnable p) :
    Scanned pt (p + 1) (max (pt.proc p).prio highest) where
  nonneg := h.nonneg.trans (le_max_right _ _)
  le q hq hrunnable := by
    rcases Nat.lt_succ_iff_lt_or_eq.mp hq with hlt | heq
    · exact (h.le q hlt hrunnable).trans (le_max_right _ _)
    · obtain rfl : q = p := Fin.ext heq
      exact le_max_left _ _
  met := by
    rcases le_total highest (pt.proc p).prio with hle | hle
    · rw [max_eq_left hle]
      exact .inr ⟨p, Nat.lt_succ_self _, hp, rfl⟩
    · rw [max_eq_right hle]
      exact h.met.imp_right fun ⟨q, hq, hmet⟩ => ⟨q, by omega, hmet⟩

end Scanned

end Ptable

variable {C : Type*} [DecidableEq C] {k k' : Kernel C} {e : Event C} {c c' : C} {p : Slot}
  {highest : Int}

namespace Kernel

/-- A call that needs the lock has to wait for it; the others do not touch RUNNABLE processes. -/
theorem Orderly.sameRunnable_of_call (h : k.Orderly) (hlock : k.lock ≠ none)
    (hcritical : k.critical c = none) (hcpu : k.cpu c = .running p highest) {f : Frame}
    (htask : k.task p = .run f) {call : Call} (hcall : k.call c p f call = some k') :
    k.ptable.SameRunnable k'.ptable := by
  have hwait {l : Kernel C} {todo : List Write} {after : After}
      (hacquire : l.acquire c todo after = some k') (hsame : l.lock = k.lock) : False :=
    hlock (hsame ▸ (acquire_eq_some hacquire).1)
  cases call with
  | allocproc =>
      simp only [Kernel.call] at hcall
      split at hcall
      · exact (hwait hcall rfl).elim
      · exact (hwait hcall rfl).elim
      · cases hcall
  | forkFails =>
      simp only [Kernel.call] at hcall
      split at hcall
      · next np =>
          cases hcall
          have hembryo : (k.ptable.proc np).state = .embryo :=
            h.embryo (by rw [htask]; rfl) hcpu hcritical
          rw [setTask_ptable, modify_ptable]
          refine .modify ?_ ?_
          · simp [hembryo]
          · rfl
      · cases hcall
  | copyuvm =>
      simp only [Kernel.call] at hcall
      split at hcall
      · cases hcall
        rw [setTask_ptable, modify_ptable]
        refine .modify ?_ ?_
        · rfl
        · rfl
      · cases hcall
  | forkEnds =>
      simp only [Kernel.call] at hcall
      split at hcall
      · exact (hwait hcall rfl).elim
      · cases hcall
  | yield => exact (hwait hcall rfl).elim
  | growproc sz =>
      simp only [Kernel.call] at hcall
      split at hcall
      · cases hcall
        rw [modify_ptable]
        refine .modify ?_ ?_
        · rfl
        · rfl
      · cases hcall
  | exit | wait | sleep | wakeup | kill | setPrio =>
      simp only [Kernel.call] at hcall
      split at hcall
      · exact (hwait hcall rfl).elim
      · cases hcall

/-- While `c` is in the second loop, the other CPUs leave the RUNNABLE processes alone. -/
theorem Orderly.sameRunnable (h : k.Orderly) (hsweeps : (k.cpu c).Sweeps)
    (hnext : k.next e = some k') (hother : e ≠ .scheduler c) :
    k.ptable.SameRunnable k'.ptable := by
  obtain ⟨hlock, hcritical⟩ := h.sweeps c hsweeps
  have hheld : k.lock ≠ none := by simp [hlock]
  cases e with
  | scheduler c' =>
      simp only [Kernel.next] at hnext
      split at hnext
      · next hnone =>
          have hidle : ¬(k.cpu c').Sweeps := by
            intro hc'
            exact hother (by rw [h.eq_of_sweeps hlock hc'])
          cases scheduled hnone hnext with
          | skip _ _ _ _ hstep | found _ _ _ _ hstep | read _ _ _ hstep =>
              subst hstep
              exact .refl _
          | lock i highest hcpu hi hstep => exact absurd (lock_eq_none hcpu hi hnext) hheld
          | pass _ _ hcpu _ _ | round _ _ hcpu _ _ | back _ _ hcpu _ =>
              exact absurd (by rw [hcpu]; trivial) hidle
          | switch _ hswitch _ => exact absurd (by rw [hswitch.cpu]; trivial) hidle
      · cases hnext
  | resume c' =>
      simp only [Kernel.next] at hnext
      split at hnext
      · next p highest hnone hcpu =>
          -- whoever comes out of `sched` has the lock
          have hrun : ∃ f, k.task p = .run f := by
            by_contra hnot
            have hheld' := (h.switched c' p highest hcpu (not_exists.mp hnot)).1
            obtain rfl : c = c' := Option.some.inj (hlock.symm.trans hheld')
            rw [hcpu] at hsweeps
            exact hsweeps
          obtain ⟨f, hf⟩ := hrun
          rw [hf] at hnext
          cases hnext
      · cases hnext
  | call c' call =>
      simp only [Kernel.next] at hnext
      split at hnext
      · next hnone hcpu =>
          split at hnext
          · next htask => exact h.sameRunnable_of_call hheld hnone hcpu htask hnext
          · cases hnext
      · cases hnext
  | interrupt c' a =>
      simp only [Kernel.next] at hnext
      split at hnext
      · exact absurd (acquire_eq_some hnext).1 hheld
      · cases hnext
  | write c' =>
      simp only [Kernel.next] at hnext
      split at hnext
      · next hsome =>
          have hc : c' = c := h.eq_of_critical hlock (by simp [hsome])
          rw [hc, hcritical] at hsome
          cases hsome
      · cases hnext

theorem cpu_eq_of_ne (hnext : k.next e = some k') (hother : e ≠ .scheduler c)
    (hcpu : ∀ p highest, k.cpu c ≠ .running p highest) : k'.cpu c = k.cpu c := by
  cases stepped hnext with
  | quiet _ hquiet => rw [hquiet.cpu]
  | scheduler c' he hscheduled =>
      refine hscheduled.cpu_of_ne ?_
      rintro rfl
      exact hother he
  | sched c' p highest _ hrun hcpu' =>
      have hne : c ≠ c' := by
        rintro rfl
        exact hcpu p highest hrun
      rw [hcpu', Function.update_of_ne hne]

/-- The process that `scheduler` on `c` switches to next, if its next step does so. -/
def picks (k : Kernel C) (c : C) : List Slot :=
  (List.finRange nproc).filter fun p => k.Switches c p

omit [DecidableEq C] in
theorem mem_picks : p ∈ k.picks c ↔ k.Switches c p := by
  simp [picks]

omit [DecidableEq C] in
theorem picks_eq_nil (hswitch : ∀ p, ¬k.Switches c p) : k.picks c = [] :=
  List.eq_nil_iff_forall_not_mem.mpr fun p hp => hswitch p (mem_picks.mp hp)

end Kernel

def Cpu.Scans : Cpu → Prop
  | .scan _ _ | .peek _ _ => True
  | _ => False

instance : DecidablePred Cpu.Scans
  | .scan _ _ | .peek _ _ => .isTrue trivial
  | .sweep _ _ | .running _ _ | .back _ _ => .isFalse id

/-- The machine from the start of a round of one CPU on. -/
structure Round (C : Type*) where
  kernel : Kernel C
  /-- The steps of `scheduler` in this round. -/
  steps : Nat
  /-- What it has switched to in this round. -/
  picks : List Slot
  /-- The round is over. -/
  ended : Bool

def Round.start (k : Kernel C) : Round C := ⟨k, 0, [], false⟩

def rounds (c : C) : System (Round C) (Event C) where
  init s := ∃ k, (booted C).init k ∧ s = .start k
  next s e := (s.kernel.next e).map fun k' =>
    if s.ended = false ∧ e = .scheduler c then
      { kernel := k'
        steps := s.steps + 1
        picks := s.picks ++ s.kernel.picks c
        ended := decide (k'.cpu c = .scan 0 0) }
    else { s with kernel := k' }

/-- Up to the acquisition of the lock, the RUNNABLE processes are those of `pt`. -/
def Steady (pt : Ptable) (c : C) (s : Round C) : Prop :=
  s.ended = false → (s.kernel.cpu c).Scans → pt.SameRunnable s.kernel.ptable

instance (pt : Ptable) (c : C) : DecidablePred (Steady pt c) := fun s =>
  inferInstanceAs (Decidable (s.ended = false → (s.kernel.cpu c).Scans →
    pt.SameRunnable s.kernel.ptable))

inductive Underway (pt : Ptable) (c : C) (s : Round C) : Prop
  | scan (i : Nat) (highest : Int) (hended : s.ended = false) (hpicks : s.picks = [])
      (hcpu : s.kernel.cpu c = .scan i highest) (hi : i ≤ nproc) (hsteps : s.steps ≤ 2 * i)
      (hscanned : pt.Scanned i highest)
  | peek (p : Slot) (highest : Int) (hended : s.ended = false) (hpicks : s.picks = [])
      (hcpu : s.kernel.cpu c = .peek p highest) (hsteps : s.steps ≤ 2 * p + 1)
      (hp : pt.Runnable p) (hscanned : pt.Scanned p highest)
  | sweep (i : Nat) (highest : Int) (hended : s.ended = false) (hpicks : s.picks = [])
      (hcpu : s.kernel.cpu c = .sweep i highest) (hi : i ≤ nproc)
      (hsteps : s.steps ≤ 2 * nproc + 1 + i) (hscanned : pt.Scanned nproc highest)
      (hsame : pt.SameRunnable s.kernel.ptable)
      (hnone : ∀ q : Slot, q < i → pt.Runnable q → (pt.proc q).prio ≠ highest)
  | picked (p : Slot) (hp : p ∈ s.picks) (hforemost : pt.Foremost p)
      (hprio : 0 ≤ (pt.proc p).prio)
  | missed (hended : s.ended = true) (hpicks : s.picks = [])
      (hprio : ∀ q, pt.Runnable q → (pt.proc q).prio < 0)

namespace Underway

variable {pt : Ptable} {s s' : Round C}

theorem other (h : Underway pt c s) (horderly : s.kernel.Orderly)
    (hnext : s.kernel.next e = some k') (hother : s.ended = false → e ≠ .scheduler c) :
    Underway pt c { s with kernel := k' } := by
  cases h with
  | scan i highest hended hpicks hcpu hi hsteps hscanned =>
      have hcpu' := Kernel.cpu_eq_of_ne hnext (hother hended) (by simp [hcpu])
      exact .scan i highest hended hpicks (hcpu'.trans hcpu) hi hsteps hscanned
  | peek p highest hended hpicks hcpu hsteps hp hscanned =>
      have hcpu' := Kernel.cpu_eq_of_ne hnext (hother hended) (by simp [hcpu])
      exact .peek p highest hended hpicks (hcpu'.trans hcpu) hsteps hp hscanned
  | sweep i highest hended hpicks hcpu hi hsteps hscanned hsame hnone =>
      have hcpu' := Kernel.cpu_eq_of_ne hnext (hother hended) (by simp [hcpu])
      have hsame' := horderly.sameRunnable (by rw [hcpu]; trivial) hnext (hother hended)
      exact .sweep i highest hended hpicks (hcpu'.trans hcpu) hi hsteps hscanned
        (hsame.trans hsame') hnone
  | picked p hp hforemost hprio => exact .picked p hp hforemost hprio
  | missed hended hpicks hprio => exact .missed hended hpicks hprio

theorem swept (hscheduled : k.Scheduled c k') {i n : Nat} (hcpu : k.cpu c = .sweep i highest)
    (hsteps : n ≤ 2 * nproc + 1 + i) (hscanned : pt.Scanned nproc highest)
    (hsame : pt.SameRunnable k.ptable)
    (hnone : ∀ q : Slot, q < i → pt.Runnable q → (pt.proc q).prio ≠ highest) :
    Underway pt c ⟨k', n + 1, k.picks c, decide (k'.cpu c = .scan 0 0)⟩ := by
  have hpicked {q : Slot} (hq : k.Switches c q) : i = q ∧ highest = (k.ptable.proc q).prio :=
    Cpu.sweep.inj (hcpu.symm.trans hq.cpu)
  cases hscheduled with
  | skip _ _ hcpu' _ _ | found _ _ hcpu' _ _ | read _ _ hcpu' _ | lock _ _ hcpu' _ _
  | back _ _ hcpu' _ =>
      rw [hcpu] at hcpu'
      cases hcpu'
  | pass p h hcpu' hother hstep =>
      obtain ⟨rfl, rfl⟩ := Cpu.sweep.inj (hcpu.symm.trans hcpu')
      subst hstep
      refine .sweep (p + 1) highest (by simp) (Kernel.picks_eq_nil fun q hq => ?_) (by simp)
        p.isLt (Nat.succ_le_succ hsteps) hscanned hsame fun q hq hrunnable => ?_
      · obtain ⟨hqp, hprio⟩ := hpicked hq
        obtain rfl : p = q := Fin.ext hqp
        exact hother.elim (absurd hq.state) (absurd hprio.symm)
      · rcases Nat.lt_succ_iff_lt_or_eq.mp hq with hlt | heq
        · exact hnone q hlt hrunnable
        · obtain rfl : q = p := Fin.ext heq
          rcases hother with hstate | hprio
          · exact absurd ((hsame q).1.mpr hrunnable) hstate
          · rwa [(hsame q).2 hrunnable] at hprio
  | switch p hswitch hstep =>
      have hp : pt.Runnable p := (hsame p).1.mp hswitch.state
      have hprio : (pt.proc p).prio = highest :=
        ((hsame p).2 hp).symm.trans (hpicked hswitch).2.symm
      refine .picked p (Kernel.mem_picks.mpr hswitch) ⟨hp, fun q hq => ?_⟩ ?_
      · rw [hprio]
        exact hscanned.le q q.isLt hq
      · rw [hprio]
        exact hscanned.nonneg
  | round j h hcpu' hj hstep =>
      obtain ⟨rfl, rfl⟩ := Cpu.sweep.inj (hcpu.symm.trans hcpu')
      subst hstep
      have hnone' (q : Slot) : pt.Runnable q → (pt.proc q).prio ≠ highest :=
        hnone q (q.isLt.trans_le hj)
      -- a maximum that nobody has is the 0 of the start
      have hzero : highest = 0 := by
        refine hscanned.met.resolve_right ?_
        rintro ⟨q, -, hq, hprio⟩
        exact hnone' q hq hprio
      refine .missed (by simp) (Kernel.picks_eq_nil fun q hq => ?_) fun q hq => ?_
      · have hq' := (hpicked hq).1
        omega
      · have hle := hscanned.le q q.isLt hq
        have hne := hnone' q hq
        omega

theorem own (h : Underway pt c s) (hended : s.ended = false)
    (hsteady : (s.kernel.cpu c).Scans → pt.SameRunnable s.kernel.ptable)
    (hscheduled : s.kernel.Scheduled c k') :
    Underway pt c ⟨k', s.steps + 1, s.picks ++ s.kernel.picks c,
      decide (k'.cpu c = .scan 0 0)⟩ := by
  cases h with
  | scan i highest _ hpicks hcpu hi hsteps hscanned =>
      have hsame := hsteady (by rw [hcpu]; trivial)
      have hpicks' : s.picks ++ s.kernel.picks c = [] := by
        rw [hpicks, Kernel.picks_eq_nil fun q hq => by simp [hq.cpu] at hcpu]
        rfl
      cases hscheduled with
      | skip p h hcpu' hstate hstep =>
          obtain ⟨rfl, rfl⟩ := Cpu.scan.inj (hcpu.symm.trans hcpu')
          subst hstep
          refine .scan (p + 1) highest (by simp) hpicks' (by simp) p.isLt ?_ (hscanned.skip ?_)
          · exact Nat.succ_le_succ (hsteps.trans (Nat.le_succ _))
          · exact fun hp => hstate ((hsame p).1.mpr hp)
      | found p h hcpu' hstate hstep =>
          obtain ⟨rfl, rfl⟩ := Cpu.scan.inj (hcpu.symm.trans hcpu')
          subst hstep
          exact .peek p highest (by simp) hpicks' (by simp) (Nat.succ_le_succ hsteps)
            ((hsame p).1.mp hstate) hscanned
      | lock j h hcpu' hj hstep =>
          obtain ⟨rfl, rfl⟩ := Cpu.scan.inj (hcpu.symm.trans hcpu')
          obtain rfl : i = nproc := Nat.le_antisymm hi hj
          subst hstep
          exact .sweep 0 highest (by simp) hpicks' (by simp) (Nat.zero_le _)
            (Nat.succ_le_succ hsteps) hscanned hsame fun q hq => absurd hq (Nat.not_lt_zero _)
      | switch p hswitch _ =>
          have hcpu' := hswitch.cpu
          rw [hcpu] at hcpu'
          cases hcpu'
      | read _ _ hcpu' _ | pass _ _ hcpu' _ _ | round _ _ hcpu' _ _ | back _ _ hcpu' _ =>
          rw [hcpu] at hcpu'
          cases hcpu'
  | peek p highest _ hpicks hcpu hsteps hp hscanned =>
      have hsame := hsteady (by rw [hcpu]; trivial)
      have hpicks' : s.picks ++ s.kernel.picks c = [] := by
        rw [hpicks, Kernel.picks_eq_nil fun q hq => by simp [hq.cpu] at hcpu]
        rfl
      cases hscheduled with
      | read q h hcpu' hstep =>
          obtain ⟨rfl, rfl⟩ := Cpu.peek.inj (hcpu.symm.trans hcpu')
          subst hstep
          rw [(hsame p).2 hp]
          exact .scan (p + 1) _ (by simp) hpicks' (by simp) p.isLt (Nat.succ_le_succ hsteps)
            (hscanned.read hp)
      | switch p hswitch _ =>
          have hcpu' := hswitch.cpu
          rw [hcpu] at hcpu'
          cases hcpu'
      | skip _ _ hcpu' _ _ | found _ _ hcpu' _ _ | lock _ _ hcpu' _ _ | pass _ _ hcpu' _ _
      | round _ _ hcpu' _ _ | back _ _ hcpu' _ =>
          rw [hcpu] at hcpu'
          cases hcpu'
  | sweep i highest _ hpicks hcpu hi hsteps hscanned hsame hnone =>
      rw [hpicks]
      exact swept hscheduled hcpu hsteps hscanned hsame hnone
  | picked p hp hforemost hprio => exact .picked p (List.mem_append_left _ hp) hforemost hprio
  | missed hended' hpicks hprio =>
      rw [hended] at hended'
      cases hended'

theorem step (h : Underway pt c s) (horderly : s.kernel.Orderly) (hsteady : Steady pt c s)
    (hnext : (rounds c).next s e = some s') : Underway pt c s' := by
  obtain ⟨k', hk, rfl⟩ := Option.map_eq_some_iff.mp hnext
  split
  · next hown =>
      obtain ⟨hended, rfl⟩ := hown
      cases Kernel.stepped hk with
      | scheduler c' he hscheduled =>
          obtain rfl := Event.scheduler.inj he
          exact h.own hended (hsteady hended) hscheduled
      | quiet hscheduler _ => exact absurd rfl (hscheduler c)
      | sched _ _ _ hscheduler _ _ _ _ => exact absurd rfl (hscheduler c)
  · next hother => exact h.other horderly hk fun hended he => hother ⟨hended, he⟩

end Underway

/-- In a round of `c` before whose second loop the RUNNABLE processes stay what they are, one
of them with the highest priority is switched to if and only if some priority among them is not
negative.  The round is over, or `scheduler` has made more steps in it than its loops have
without a switch. -/
theorem workConserving {es : List (Event C)} {s : Round C} (hreach : (booted C).Reachable k)
    (hstart : k.cpu c = .scan 0 0)
    (hsteady : (rounds c).Along (Steady k.ptable c) (.start k) es)
    (hrun : (rounds c).run (.start k) es = some s)
    (hover : s.ended = true ∨ 3 * nproc + 2 ≤ s.steps) :
    (∃ p ∈ s.picks, k.ptable.Foremost p) ↔
      ∃ q, k.ptable.Runnable q ∧ 0 ≤ (k.ptable.proc q).prio := by
  have hunderway : s.kernel.Orderly ∧ Underway k.ptable c s := by
    refine hsteady.invariant (I := fun s => s.kernel.Orderly ∧ Underway k.ptable c s)
      ⟨orderly hreach, ?_⟩ ?_ hrun
    · exact .scan 0 0 rfl rfl hstart (Nat.zero_le _) le_rfl (.zero _)
    · intro s e s' hsteady _ hs hnext
      refine ⟨?_, hs.2.step hs.1 hsteady hnext⟩
      obtain ⟨k', hk, rfl⟩ := Option.map_eq_some_iff.mp hnext
      split
      · exact hs.1.next hk
      · exact hs.1.next hk
  have hlong (hended : s.ended = false) : 3 * nproc + 2 ≤ s.steps :=
    hover.resolve_left (by simp [hended])
  cases hunderway.2 with
  | scan i highest hended _ _ hi hsteps _ =>
      have hlong := hlong hended
      omega
  | peek p highest hended _ _ hsteps _ _ =>
      have hlong := hlong hended
      omega
  | sweep i highest hended _ _ hi hsteps _ _ _ =>
      have hlong := hlong hended
      omega
  | picked p hp hforemost hprio =>
      exact ⟨fun _ => ⟨p, hforemost.runnable, hprio⟩, fun _ => ⟨p, hp, hforemost⟩⟩
  | missed _ hpicks hprio =>
      rw [hpicks]
      constructor
      · rintro ⟨p, hp, -⟩
        cases hp
      · rintro ⟨q, hq, hnonneg⟩
        exact absurd (hprio q hq) (not_lt.mpr hnonneg)

theorem workConserving_start :
    ∃ es s, (rounds ()).run (.start startKernel) es = some s ∧
      ∃ p ∈ s.picks, startKernel.ptable.Foremost p := by
  obtain ⟨s, hrun, hsteady, hended⟩ := System.exists_along_of_run (M := rounds ())
    (φ := Steady startKernel.ptable ()) (s := .start startKernel)
    (firstTurn [] ++ [.scheduler (), .resume (), .call () .yield, .write (), .write ()] ++
      List.replicate 64 (.scheduler ())) (fun s => s.ended) (by decide +kernel)
  have hinit : (booted Unit).init startKernel := ⟨⟨rfl, fun _ => ⟨rfl, rfl⟩⟩, fun _ => rfl⟩
  refine ⟨_, s, hrun, ?_⟩
  exact (workConserving (.init hinit) rfl hsteady hrun (.inl hended)).mpr ⟨0, rfl, by decide⟩

def loneKernel : Kernel Unit :=
  { startKernel with
    ptable :=
      { startKernel.ptable with
        proc := fun p =>
          if p = startKernel.ptable.initproc then { state := .runnable, pid := 1 } else {} } }

open Event in
/-- A round in which the process calls `set_prio(-1)` and yields. -/
def lowered : List (Event Unit) :=
  List.replicate 67 (scheduler ()) ++ [resume (), call () (.setPrio (-1)), write (), write (),
    call () .yield, write (), write ()] ++ List.replicate 65 (scheduler ())

/-- The process is RUNNABLE, and a whole round passes without a switch to it. -/
theorem exists_idle_round :
    ∃ k, (booted Unit).Reachable k ∧ k.cpu () = .scan 0 0 ∧ k.ptable.Runnable 0 ∧
      ∃ es s, (rounds ()).run (.start k) es = some s ∧
        (rounds ()).Along (Steady k.ptable ()) (.start k) es ∧ s.ended = true ∧ s.picks = [] := by
  obtain ⟨k, hreach, htest⟩ := System.exists_reachable_of_run (M := booted Unit)
    (s := loneKernel) lowered
    (fun k : Kernel Unit => decide (k.cpu () = .scan 0 0 ∧ k.ptable.Runnable 0) &&
      ((rounds ()).runWhere (fun s _ => Steady k.ptable () s) (.start k)
        (List.replicate 131 (.scheduler ()))).any
        fun s => decide (Steady k.ptable () s) && decide (s.ended = true ∧ s.picks = []))
    ⟨⟨rfl, fun _ => ⟨rfl, rfl⟩⟩, fun _ => rfl⟩ (by decide +kernel)
  rw [Bool.and_eq_true] at htest
  obtain ⟨hstart, hround⟩ := htest
  obtain ⟨hcpu, hrunnable⟩ := of_decide_eq_true hstart
  obtain ⟨s, hrun, hsteady, hidle⟩ := System.exists_along_of_run _ _ hround
  exact ⟨k, hreach, hcpu, hrunnable, _, s, hrun, hsteady, of_decide_eq_true hidle⟩

end Os20.Xv6
