import Os20.Xv6.Machine

/-!
# Steps of the machine

What a step can do to the CPUs and to the states of the processes, said once.
-/

namespace Os20.Xv6

open Os20.Lib.Transition

theorem Ptable.running_of_modify {pt : Ptable} {p q : Slot} {f : Proc → Proc}
    (h : ((pt.modify p f).proc q).state = .running)
    (hf : ∀ x, (f x).state = .running → x.state = .running) : (pt.proc q).state = .running := by
  by_cases hq : q = p
  · subst hq
    rw [modify_self] at h
    exact hf _ h
  · rwa [modify_of_ne pt hq] at h

theorem running_of_wakeSlot {chan : Option Chan} (x : Proc)
    (h : (wakeSlot chan x).state = .running) : x.state = .running := by
  unfold wakeSlot at h
  split at h
  · cases h
  · exact h

theorem Write.running_of_apply {pt : Ptable} {q : Slot} (w : Write)
    (h : ((w.apply pt).proc q).state = .running) : (pt.proc q).state = .running := by
  cases w with
  | claim np | runnable np | zombie np | reap np | doze np chan =>
      simp only [Write.apply] at h
      exact Ptable.running_of_modify h fun x hx => by cases hx
  | inherit np p | setPrio np n =>
      simp only [Write.apply] at h
      exact Ptable.running_of_modify h fun x hx => hx
  | wake p chan => exact Ptable.running_of_modify h running_of_wakeSlot
  | kill p =>
      simp only [Write.apply] at h
      refine Ptable.running_of_modify h fun x hx => ?_
      dsimp only at hx
      split at hx
      · cases hx
      · exact hx
  | adopt p cur =>
      simp only [Write.apply] at h
      split at h
      · split at h
        · exact Ptable.running_of_modify (running_of_wakeSlot _ h) fun x hx => hx
        · exact Ptable.running_of_modify h fun x hx => hx
      · exact h

variable {C : Type*} [DecidableEq C] {k k' : Kernel C} {e : Event C} {c : C}

namespace Kernel

@[simp] theorem setCpu_self (k : Kernel C) (c : C) (cpu : Cpu) : (k.setCpu c cpu).cpu c = cpu := by
  simp [setCpu]

@[simp] theorem setCpu_ptable (k : Kernel C) (c : C) (cpu : Cpu) :
    (k.setCpu c cpu).ptable = k.ptable := rfl

omit [DecidableEq C] in
@[simp] theorem modify_ptable (k : Kernel C) (p : Slot) (f : Proc → Proc) :
    (k.modify p f).ptable = k.ptable.modify p f := rfl

omit [DecidableEq C] in
@[simp] theorem setTask_ptable (k : Kernel C) (p : Slot) (task : Task) :
    (k.setTask p task).ptable = k.ptable := rfl

theorem acquire_eq_some {todo : List Write} {after : After} (h : k.acquire c todo after = some k') :
    k.lock = none ∧ k' =
      { k with lock := some c, critical := Function.update k.critical c (some (todo, after)) } := by
  simpa [acquire, eq_comm] using h

/-- `k'` has all CPUs where they are in `k`, and no other RUNNING process. -/
structure Quiet (k k' : Kernel C) : Prop where
  cpu : k'.cpu = k.cpu
  running : ∀ q, (k'.ptable.proc q).state = .running → (k.ptable.proc q).state = .running

omit [DecidableEq C] in
theorem Quiet.of_eq (hcpu : k'.cpu = k.cpu) (hptable : k'.ptable = k.ptable) : Quiet k k' :=
  ⟨hcpu, fun q hq => by rwa [hptable] at hq⟩

theorem Quiet.of_acquire {l : Kernel C} {todo : List Write} {after : After}
    (h : l.acquire c todo after = some k') (hcpu : l.cpu = k.cpu) (hptable : l.ptable = k.ptable) :
    Quiet k k' := by
  rw [(acquire_eq_some h).2]
  exact .of_eq hcpu hptable

omit [DecidableEq C] in
theorem Quiet.modify {p : Slot} {f : Proc → Proc}
    (hf : ∀ x, (f x).state = .running → x.state = .running) : Quiet k (k.modify p f) :=
  ⟨rfl, fun _ hq => Ptable.running_of_modify hq hf⟩

omit [DecidableEq C] in
theorem Quiet.setTask (h : Quiet k k') (p : Slot) (task : Task) : Quiet k (k'.setTask p task) :=
  ⟨h.cpu, h.running⟩

theorem quiet_of_call {p : Slot} {f : Frame} {call : Call} (h : k.call c p f call = some k') :
    Quiet k k' := by
  cases call with
  | allocproc =>
      simp only [Kernel.call] at h
      split at h
      · exact .of_acquire h rfl rfl
      · exact .of_acquire h rfl rfl
      · cases h
  | forkFails =>
      simp only [Kernel.call] at h
      split at h
      · cases h
        refine Quiet.setTask (.modify ?_) p _
        exact fun x hx => by cases hx
      · cases h
  | copyuvm =>
      simp only [Kernel.call] at h
      split at h
      · cases h
        refine Quiet.setTask (.modify ?_) p _
        exact fun x hx => hx
      · cases h
  | forkEnds =>
      simp only [Kernel.call] at h
      split at h
      · exact .of_acquire h rfl rfl
      · cases h
  | yield => exact .of_acquire h rfl rfl
  | growproc sz =>
      simp only [Kernel.call] at h
      split at h
      · cases h
        refine .modify ?_
        exact fun x hx => hx
      · cases h
  | exit | wait | sleep | wakeup | kill | setPrio =>
      simp only [Kernel.call] at h
      split at h
      · exact .of_acquire h rfl rfl
      · cases h

theorem quiet_of_resume {p : Slot} {task : Task} (h : k.resume c p task = some k') :
    Quiet k k' := by
  cases task with
  | forkret =>
      cases h
      exact .of_eq rfl rfl
  | sched r =>
      cases r with
      | yield f =>
          cases h
          exact .of_eq rfl rfl
      | sleep f | wait =>
          cases h
          have hquiet : Quiet k (k.modify p fun p => { p with chan := none }) :=
            .modify fun x hx => hx
          exact ⟨rfl, hquiet.running⟩
      | exit => cases h
  | run f => cases h

inductive Scheduled (k : Kernel C) (c : C) (k' : Kernel C) : Prop
  | skip (p : Slot) (highest : Int) (hcpu : k.cpu c = .scan p highest)
      (hstate : (k.ptable.proc p).state ≠ .runnable)
      (hstep : k' = k.setCpu c (.scan (p + 1) highest))
  | found (p : Slot) (highest : Int) (hcpu : k.cpu c = .scan p highest)
      (hstate : (k.ptable.proc p).state = .runnable)
      (hstep : k' = k.setCpu c (.peek p highest))
  | read (p : Slot) (highest : Int) (hcpu : k.cpu c = .peek p highest)
      (hstep : k' = k.setCpu c (.scan (p + 1) (max (k.ptable.proc p).prio highest)))
  | lock (i : Nat) (highest : Int) (hcpu : k.cpu c = .scan i highest) (hi : nproc ≤ i)
      (hstep : k' = { k.setCpu c (.sweep 0 highest) with lock := some c })
  | pass (p : Slot) (highest : Int) (hcpu : k.cpu c = .sweep p highest)
      (hother : (k.ptable.proc p).state ≠ .runnable ∨ (k.ptable.proc p).prio ≠ highest)
      (hstep : k' = k.setCpu c (.sweep (p + 1) highest))
  | switch (p : Slot) (hswitch : k.Switches c p)
      (hstep : k' = (k.modify p fun p => { p with state := .running }).setCpu c
        (.running p (k.ptable.proc p).prio))
  | round (i : Nat) (highest : Int) (hcpu : k.cpu c = .sweep i highest) (hi : nproc ≤ i)
      (hstep : k' = { k.setCpu c (.scan 0 0) with lock := none })
  | back (p : Slot) (highest : Int) (hcpu : k.cpu c = .back p highest)
      (hstep : k' = (k.modify p fun p => { p with nice := p.nice + 1 }).setCpu c
        (.sweep (p + 1) highest))

theorem scheduled (hcritical : k.critical c = none)
    (h : k.scheduler c (k.cpu c) = some k') : Scheduled k c k' := by
  cases hcpu : k.cpu c with
  | scan i highest =>
      simp only [hcpu, scheduler] at h
      split at h
      · next hi =>
          split at h
          · next hstate => exact .skip ⟨i, hi⟩ highest hcpu hstate (Option.some.inj h).symm
          · next hstate =>
              exact .found ⟨i, hi⟩ highest hcpu (not_not.mp hstate) (Option.some.inj h).symm
      · next hi =>
          split at h
          · exact .lock i highest hcpu (Nat.le_of_not_lt hi) (Option.some.inj h).symm
          · cases h
  | peek p highest =>
      simp only [hcpu, scheduler, ge_iff_le] at h
      refine .read p highest hcpu ?_
      rw [max_comm, max_def]
      exact (Option.some.inj h).symm
  | sweep i highest =>
      simp only [hcpu, scheduler] at h
      split at h
      · next hi =>
          split at h
          · next hother => exact .pass ⟨i, hi⟩ highest hcpu hother (Option.some.inj h).symm
          · next hsame =>
              obtain ⟨hstate, hprio⟩ := not_or.mp hsame
              rw [not_not] at hstate hprio
              refine .switch ⟨i, hi⟩ ⟨hcritical, ?_, hstate⟩ ?_
              · rw [hcpu, hprio]
              · rw [← Option.some.inj h, hprio]
      · next hi => exact .round i highest hcpu (Nat.le_of_not_lt hi) (Option.some.inj h).symm
  | running p highest =>
      rw [hcpu] at h
      cases h
  | back p highest =>
      rw [hcpu] at h
      exact .back p highest hcpu (Option.some.inj h).symm

/-- `Switches` holds before those steps of `scheduler` that leave `c` running `p`, and no
others. -/
theorem switches_iff (h : Scheduled k c k') :
    k.Switches c p ↔ ∃ highest, k'.cpu c = .running p highest := by
  have hnot {cpu : Cpu} (hcpu : k.cpu c = cpu) (hother : ∀ highest, cpu ≠ .sweep p highest) :
      ¬k.Switches c p := fun hswitch => hother _ (hcpu.symm.trans hswitch.cpu)
  cases h with
  | skip q highest hcpu hstate hstep => simp [hstep, hnot hcpu]
  | found q highest hcpu hstate hstep => simp [hstep, hnot hcpu]
  | read q highest hcpu hstep => simp [hstep, hnot hcpu]
  | lock i highest hcpu hi hstep =>
      rw [hstep]
      simp [hnot hcpu]
  | pass q highest hcpu hother hstep =>
      have hpass : ¬k.Switches c p := by
        intro hswitch
        have heq := hcpu.symm.trans hswitch.cpu
        obtain ⟨hq, hprio⟩ := Cpu.sweep.inj heq
        obtain rfl : q = p := Fin.ext hq
        exact hother.elim (fun hstate => hstate hswitch.state) fun hne => hne hprio.symm
      simp [hstep, hpass]
  | switch q hswitch hstep =>
      have hself : k'.cpu c = .running q (k.ptable.proc q).prio := by simp [hstep]
      rw [hself]
      constructor
      · intro hp
        have heq := hswitch.cpu.symm.trans hp.cpu
        obtain rfl : q = p := Fin.ext (Cpu.sweep.inj heq).1
        exact ⟨_, rfl⟩
      · rintro ⟨highest, heq⟩
        obtain ⟨rfl, -⟩ := Cpu.running.inj heq
        exact hswitch
  | round i highest hcpu hi hstep =>
      have hround : ¬k.Switches c p := by
        intro hswitch
        have heq := Cpu.sweep.inj (hcpu.symm.trans hswitch.cpu)
        exact absurd p.isLt (Nat.not_lt.mpr (heq.1 ▸ hi))
      rw [hstep]
      simp [hround]
  | back q highest hcpu hstep => simp [hstep, hnot hcpu]

theorem Scheduled.cpu_of_ne (h : Scheduled k c k') {c' : C} (hne : c' ≠ c) :
    k'.cpu c' = k.cpu c' := by
  cases h <;> simp_all [setCpu, modify]

inductive Stepped (k : Kernel C) (e : Event C) (k' : Kernel C) : Prop
  | quiet (hscheduler : ∀ c, e ≠ .scheduler c) (hquiet : Quiet k k')
  | scheduler (c : C) (he : e = .scheduler c) (hscheduled : Scheduled k c k')
  /-- A process calls `sched`. -/
  | sched (c : C) (p : Slot) (highest : Int) (hscheduler : ∀ c, e ≠ .scheduler c)
      (hcpu : k.cpu c = .running p highest)
      (hcpu' : k'.cpu = Function.update k.cpu c (.back p highest))
      (hstate : (k.ptable.proc p).state ≠ .running) (hptable : k'.ptable = k.ptable)

theorem stepped (h : k.next e = some k') : Stepped k e k' := by
  cases e with
  | scheduler c =>
      simp only [next] at h
      split at h
      · next hcritical => exact .scheduler c rfl (scheduled hcritical h)
      · cases h
  | resume c =>
      simp only [next] at h
      split at h
      · exact .quiet (fun _ => nofun) (quiet_of_resume h)
      · cases h
  | call c call =>
      simp only [next] at h
      split at h
      · split at h
        · exact .quiet (fun _ => nofun) (quiet_of_call h)
        · cases h
      · cases h
  | interrupt c a =>
      simp only [next] at h
      split at h
      · exact .quiet (fun _ => nofun) (.of_acquire h rfl rfl)
      · cases h
  | write c =>
      simp only [next] at h
      split at h
      · next rest _ =>
          obtain ⟨todo, after⟩ := rest
          cases todo with
          | cons w todo =>
              cases h
              exact .quiet (fun _ => nofun) ⟨rfl, fun q hq => w.running_of_apply hq⟩
          | nil =>
              cases after with
              | release =>
                  cases h
                  exact .quiet (fun _ => nofun) (.of_eq rfl rfl)
              | sched r =>
                  simp only [Kernel.write] at h
                  split at h
                  · next p highest hcpu =>
                      split at h
                      · cases h
                      · next hstate =>
                          cases h
                          exact .sched c p highest (fun _ => nofun) hcpu rfl hstate rfl
                  · cases h
      · cases h

end Kernel

end Os20.Xv6
