import Os20.Xv6.Boot

/-!
# Counting context switches

`scheduler` increments `nice` behind `swtch`, when the process may have exited already.  An
observer counts for every slot the visits of the process in it: a switch to the process and
the switch back.  Both counts agree whenever the lock is free, because the CPU holds the lock
from the switch back to the increment, and no slot changes hands in between.
-/

namespace Os20.Xv6

open Os20.Lib.Transition

variable {C : Type*} [DecidableEq C]

namespace Kernel

/-- The process that `scheduler` has switched to in a step to `k'`. -/
def switchedTo (k' : Kernel C) : Event C → Option Slot
  | .scheduler c =>
      match k'.cpu c with
      | .running p _ => some p
      | _ => none
  | _ => none

/-- The turns and picks, which are counted by the state before the step, are these switches. -/
theorem switchedTo_iff {k k' : Kernel C} {c : C} {p : Slot}
    (hnext : k.next (.scheduler c) = some k') :
    k'.switchedTo (.scheduler c) = some p ↔ k.Switches c p := by
  obtain ⟨hcritical, hstep⟩ := Option.ite_none_right_eq_some.mp hnext
  rw [switches_iff (scheduled hcritical hstep), switchedTo]
  cases k'.cpu c with
  | running q highest => simp
  | scan | peek | sweep | back => simp

/-- The process that switches back to `scheduler` in this step. -/
def switchesBack (k : Kernel C) : Event C → Option Slot
  | .write c =>
      match k.critical c, k.cpu c with
      | some ([], .sched _), .running p _ => some p
      | _, _ => none
  | _ => none

end Kernel

/-- What an observer knows of the process in each slot since its `allocproc`. -/
structure Observer where
  /-- The process has been switched to. -/
  inside : Slot → Bool
  /-- How often it has been switched to and has switched back. -/
  visits : Slot → Nat

namespace Observer

def start : Observer := ⟨fun _ => false, fun _ => 0⟩

def forget (o : Observer) (np : Slot) : Observer :=
  ⟨Function.update o.inside np false, Function.update o.visits np 0⟩

def enter (o : Observer) (p : Slot) : Observer :=
  { o with inside := Function.update o.inside p true }

def leave (o : Observer) (p : Slot) : Observer :=
  if o.inside p then
    ⟨Function.update o.inside p false, Function.update o.visits p (o.visits p + 1)⟩
  else o

def see (o : Observer) (k : Kernel C) (e : Event C) (k' : Kernel C) : Observer :=
  match k.claimed e, k'.switchedTo e, k.switchesBack e with
  | some np, _, _ => o.forget np
  | none, some p, _ => o.enter p
  | none, none, some p => o.leave p
  | none, none, none => o

end Observer

structure Watched (C : Type*) where
  kernel : Kernel C
  observer : Observer

/-- The machine from boot, under the eyes of the observer. -/
def watched (C : Type*) [DecidableEq C] : System (Watched C) (Event C) where
  init w := (fromBoot C).init w.kernel ∧ w.observer = .start
  next w e := (w.kernel.next e).map fun k' => ⟨k', w.observer.see w.kernel e k'⟩

variable {k k' : Kernel C} {e : Event C} {o : Observer} {w w' : Watched C}

/-- `c` is between the switch back from `p` and the increment. -/
def Kernel.Pending (k : Kernel C) (p : Slot) : Prop := ∃ c highest, k.cpu c = .back p highest

/-- The observer knows who is running, and `nice` is what it has counted, less the visit that
`scheduler` has still to count. -/
structure Counted (k : Kernel C) (o : Observer) : Prop where
  inside : ∀ c p highest, k.cpu c = .running p highest → o.inside p = true
  settled : ∀ p, k.state p ≠ .unused → ¬k.Pending p →
    (k.ptable.proc p).nice = UInt32.ofNat (o.visits p)
  pending : ∀ p, k.state p ≠ .unused → k.Pending p →
    (k.ptable.proc p).nice + 1 = UInt32.ofNat (o.visits p)

/-! ## Steps of the CPUs -/

inductive Moved (k : Kernel C) (e : Event C) (k' : Kernel C) : Prop
  | quiet (hcpu : k'.cpu = k.cpu) (hto : k'.switchedTo e = none) (hback : k.switchesBack e = none)
      (hscheduler : ∀ c, e ≠ .scheduler c)
  | scheduler (c : C) (he : e = .scheduler c) (hscheduled : k.Scheduled c k')
  | sched (c : C) (p : Slot) (highest : Int) (he : e = .write c)
      (hback : k.switchesBack e = some p) (hclaimed : k.claimed e = none)
      (hcritical : k.critical c ≠ none) (hcpu : k.cpu c = .running p highest)
      (hcpu' : k'.cpu = Function.update k.cpu c (.back p highest)) (hptable : k'.ptable = k.ptable)

theorem moved (hnext : k.next e = some k') : Moved k e k' := by
  cases e with
  | scheduler c =>
      simp only [Kernel.next] at hnext
      split at hnext
      · next hcritical => exact .scheduler c rfl (Kernel.scheduled hcritical hnext)
      · cases hnext
  | resume c =>
      simp only [Kernel.next] at hnext
      split at hnext
      · exact .quiet (Kernel.quiet_of_resume hnext).cpu rfl rfl (by simp)
      · cases hnext
  | call c call =>
      simp only [Kernel.next] at hnext
      split at hnext
      · split at hnext
        · exact .quiet (Kernel.quiet_of_call hnext).cpu rfl rfl (by simp)
        · cases hnext
      · cases hnext
  | interrupt c a =>
      simp only [Kernel.next] at hnext
      split at hnext
      · exact .quiet (Kernel.Quiet.of_acquire hnext rfl rfl).cpu rfl rfl (by simp)
      · cases hnext
  | write c =>
      simp only [Kernel.next] at hnext
      split at hnext
      · next x hcritical =>
          obtain ⟨todo, after⟩ := x
          cases todo with
          | cons v todo =>
              cases hnext
              exact .quiet rfl rfl (by simp [Kernel.switchesBack, hcritical]) (by simp)
          | nil =>
              cases after with
              | release =>
                  cases hnext
                  exact .quiet rfl rfl (by simp [Kernel.switchesBack, hcritical]) (by simp)
              | sched r =>
                  simp only [Kernel.write] at hnext
                  split at hnext
                  · next p highest hcpu =>
                      split at hnext
                      · cases hnext
                      · cases hnext
                        exact .sched c p highest rfl
                          (by simp [Kernel.switchesBack, hcritical, hcpu])
                          (by simp [Kernel.claimed, hcritical]) (by simp [hcritical]) hcpu rfl rfl
                  · cases hnext
      · cases hnext

/-! ## The invariant -/

/-- The CPU is in one of the loops of `scheduler`, with no process of its own. -/
def Cpu.Walks : Cpu → Prop
  | .scan _ _ | .peek _ _ | .sweep _ _ => True
  | .running _ _ | .back _ _ => False

omit [DecidableEq C] in
/-- While a process or a handler is in a critical section, no visit is pending. -/
theorem Kernel.Orderly.not_pending (h : k.Orderly) {c : C} (hcritical : k.critical c ≠ none)
    (p : Slot) : ¬k.Pending p := by
  rintro ⟨c', highest, hcpu⟩
  obtain ⟨hlock, hnone⟩ := h.sweeps c' (by rw [hcpu]; trivial)
  rw [← h.eq_of_critical hlock hcritical] at hnone
  exact hcritical hnone

omit [DecidableEq C] in
theorem Kernel.Orderly.eq_of_pending (h : k.Orderly) {c c' : C} {p q : Slot}
    {highest highest' : Int} (hcpu : k.cpu c = .back p highest)
    (hcpu' : k.cpu c' = .back q highest') : c' = c ∧ q = p := by
  obtain ⟨hlock, -⟩ := h.sweeps c (by rw [hcpu]; trivial)
  obtain rfl := h.eq_of_sweeps hlock (by rw [hcpu']; trivial : (k.cpu c').Sweeps)
  rw [hcpu] at hcpu'
  exact ⟨rfl, (Cpu.back.inj hcpu').1.symm⟩

namespace Counted

omit [DecidableEq C] in
theorem congr (h : Counted k o)
    (hrunning : ∀ c p highest, k'.cpu c = .running p highest →
      ∃ c' highest', k.cpu c' = .running p highest')
    (hpending : ∀ p, k'.Pending p ↔ k.Pending p)
    (hused : ∀ p, k'.state p ≠ .unused → k.state p ≠ .unused ∧
      (k'.ptable.proc p).nice = (k.ptable.proc p).nice) : Counted k' o where
  inside c p highest hcpu := by
    obtain ⟨c', highest', hcpu'⟩ := hrunning c p highest hcpu
    exact h.inside c' p highest' hcpu'
  settled p hp hnot := by
    obtain ⟨hp, hnice⟩ := hused p hp
    rw [hnice]
    exact h.settled p hp fun hpend => hnot ((hpending p).mpr hpend)
  pending p hp hpend := by
    obtain ⟨hp, hnice⟩ := hused p hp
    rw [hnice]
    exact h.pending p hp ((hpending p).mp hpend)

theorem walk (h : Counted k o) {c : C} {cpu : Cpu}
    (hcpu : k'.cpu = Function.update k.cpu c cpu) (hptable : k'.ptable = k.ptable)
    (hold : (k.cpu c).Walks) (hnew : cpu.Walks) : Counted k' o := by
  have hsame {x : Cpu} (hx : ¬x.Walks) (c' : C) : k'.cpu c' = x ↔ k.cpu c' = x := by
    rw [hcpu]
    by_cases hc : c' = c
    · subst hc
      rw [Function.update_self]
      constructor
      · rintro rfl
        exact absurd hnew hx
      · rintro rfl
        exact absurd hold hx
    · rw [Function.update_of_ne hc]
  refine h.congr (fun c' p highest hrun => ?_) (fun p => ?_) fun p hp => ?_
  · exact ⟨c', highest, (hsame id c').mp hrun⟩
  · exact exists_congr fun c' => exists_congr fun highest => hsame id c'
  · rw [Kernel.state, hptable] at hp
    exact ⟨hp, by rw [hptable]⟩

theorem switch (h : Counted k o) {c : C} {p : Slot} (hswitch : k.Switches c p) :
    Counted ((k.modify p fun p => { p with state := .running }).setCpu c
      (.running p (k.ptable.proc p).prio)) (o.enter p) := by
  have hpending (q : Slot) : ((k.modify p fun p => { p with state := .running }).setCpu c
      (.running p (k.ptable.proc p).prio)).Pending q ↔ k.Pending q := by
    refine exists_congr fun c' => exists_congr fun highest => ?_
    by_cases hc : c' = c
    · subst hc
      simp [hswitch.cpu]
    · simp [Kernel.setCpu, Kernel.modify, hc]
  have hused (q : Slot) (hq : ((k.ptable.modify p fun p =>
      { p with state := .running }).proc q).state ≠ .unused) : k.state q ≠ .unused := by
    rwa [ne_eq, hswitch.same.unused q] at hq
  refine ⟨fun c' q highest hcpu => ?_, fun q hq hnot => ?_, fun q hq hpend => ?_⟩
  · unfold Observer.enter
    dsimp only
    by_cases hq : q = p
    · rw [hq, Function.update_self]
    · rw [Function.update_of_ne hq]
      by_cases hc : c' = c
      · subst hc
        rw [Kernel.setCpu_self] at hcpu
        exact absurd (Cpu.running.inj hcpu).1.symm hq
      · simp only [Kernel.setCpu, Kernel.modify, Function.update_of_ne hc] at hcpu
        exact h.inside c' q highest hcpu
  · rw [Kernel.setCpu_ptable, Kernel.modify_ptable, hswitch.same.nice]
    exact h.settled q (hused q hq) fun hpend => hnot ((hpending q).mpr hpend)
  · rw [Kernel.setCpu_ptable, Kernel.modify_ptable, hswitch.same.nice]
    exact h.pending q (hused q hq) ((hpending q).mp hpend)

theorem back (h : Counted k o) (ho : k.Orderly) {c : C} {p : Slot} {highest : Int}
    (hcpu : k.cpu c = .back p highest) :
    Counted ((k.modify p fun p => { p with nice := p.nice + 1 }).setCpu c
      (.sweep (p + 1) highest)) o := by
  have hcpu_of {c' : C} {x : Cpu} (hx : ¬x.Walks)
      (hc' : Function.update k.cpu c (.sweep (p + 1) highest) c' = x) :
      c' ≠ c ∧ k.cpu c' = x := by
    by_cases hc : c' = c
    · subst hc
      rw [Function.update_self] at hc'
      rw [← hc'] at hx
      exact absurd trivial hx
    · rw [Function.update_of_ne hc] at hc'
      exact ⟨hc, hc'⟩
  have hpending (q : Slot) : ¬((k.modify p fun p => { p with nice := p.nice + 1 }).setCpu c
      (.sweep (p + 1) highest)).Pending q := by
    rintro ⟨c', highest', hc'⟩
    obtain ⟨hc, hback⟩ := hcpu_of id hc'
    exact hc (ho.eq_of_pending hcpu hback).1
  refine ⟨fun c' q highest' hc' => ?_, fun q hq hnot => ?_, fun q hq hpend => ?_⟩
  · exact h.inside c' q highest' (hcpu_of id hc').2
  · rw [Kernel.setCpu_ptable, Kernel.modify_ptable]
    rw [Kernel.state, Kernel.setCpu_ptable, Kernel.modify_ptable] at hq
    by_cases hqp : q = p
    · rw [hqp, Ptable.modify_self] at hq ⊢
      exact h.pending p hq ⟨c, highest, hcpu⟩
    · rw [Ptable.modify_of_ne _ hqp] at hq ⊢
      refine h.settled q hq ?_
      rintro ⟨c', highest', hback⟩
      exact hqp (ho.eq_of_pending hcpu hback).2
  · exact absurd hpend (hpending q)

theorem scheduled (h : Counted k o) (ho : k.Orderly) {c : C} (hstep : k.Scheduled c k') :
    Counted k' (o.see k (.scheduler c) k') := by
  have hsee (hwalks : (k'.cpu c).Walks) : o.see k (.scheduler c) k' = o := by
    have hto : k'.switchedTo (.scheduler c) = none := by
      unfold Kernel.switchedTo
      dsimp only
      split
      · next p highest hcpu =>
          rw [hcpu] at hwalks
          exact hwalks.elim
      · rfl
    simp [Observer.see, Kernel.claimed, hto, Kernel.switchesBack]
  cases hstep with
  | skip p highest hcpu _ hstep | found p highest hcpu _ hstep | read p highest hcpu hstep
  | lock i highest hcpu _ hstep | pass p highest hcpu _ hstep | round i highest hcpu _ hstep =>
      subst hstep
      rw [hsee (by simp [Kernel.setCpu, Cpu.Walks])]
      exact h.walk rfl rfl (by simp [hcpu, Cpu.Walks]) (by simp [Cpu.Walks])
  | switch p hswitch hstep =>
      subst hstep
      have hsee : o.see k (.scheduler c) ((k.modify p fun p =>
          { p with state := .running }).setCpu c (.running p (k.ptable.proc p).prio)) =
          o.enter p := by
        simp [Observer.see, Kernel.claimed, Kernel.switchedTo]
      rw [hsee]
      exact h.switch hswitch
  | back p highest hcpu hstep =>
      subst hstep
      rw [hsee (by simp [Cpu.Walks])]
      exact h.back ho hcpu

omit [DecidableEq C] in
theorem claim (h : Counted k o) (ho : k.Orderly) {c : C} {np : Slot} {todo : List Write}
    {after : After} (hsection : k.critical c = some (.claim np :: todo, after))
    (hcpu : k'.cpu = k.cpu) (hunused : k.state np = .unused)
    (hptable : k'.ptable = (Write.claim np).apply k.ptable) : Counted k' (o.forget np) := by
  have hcritical : k.critical c ≠ none := by simp [hsection]
  have hlock := ho.critical c hcritical
  -- nobody runs in an unused slot
  have hfresh {c' : C} {highest : Int} : k.cpu c' ≠ .running np highest := by
    intro hrun
    rcases ho.running c' np highest hrun with hstate | ⟨r, hr⟩
    · rw [hunused] at hstate
      cases hstate
    · have hinside : k.critical c' ≠ none := by simp [hr]
      rw [ho.eq_of_critical hlock hinside, hsection] at hr
      cases hr
  refine ⟨fun c' p highest hrun => ?_, fun p hp hnot => ?_, fun p hp hpend => ?_⟩
  · rw [hcpu] at hrun
    have hp : p ≠ np := by
      rintro rfl
      exact hfresh hrun
    unfold Observer.forget
    dsimp only
    rw [Function.update_of_ne hp]
    exact h.inside c' p highest hrun
  · unfold Observer.forget
    dsimp only
    rw [Kernel.state, hptable] at hp
    rw [hptable]
    by_cases hnp : p = np
    · rw [hnp, Function.update_self]
      simp [Write.apply]
    · simp only [Write.apply, Ptable.modify_of_ne _ hnp] at hp ⊢
      rw [Function.update_of_ne hnp]
      exact h.settled p hp (ho.not_pending hcritical p)
  · obtain ⟨c', highest, hback⟩ := hpend
    rw [hcpu] at hback
    exact absurd ⟨c', highest, hback⟩ (ho.not_pending hcritical p)

theorem sched (h : Counted k o) (ho : k.Orderly) {c : C} {p : Slot} {highest : Int}
    (hcritical : k.critical c ≠ none) (hcpu : k.cpu c = .running p highest)
    (hcpu' : k'.cpu = Function.update k.cpu c (.back p highest))
    (hptable : k'.ptable = k.ptable) : Counted k' (o.leave p) := by
  have hleave : o.leave p =
      ⟨Function.update o.inside p false, Function.update o.visits p (o.visits p + 1)⟩ := by
    rw [Observer.leave, if_pos (h.inside c p highest hcpu)]
  have hsettled (q : Slot) (hq : k'.state q ≠ .unused) :
      (k'.ptable.proc q).nice = UInt32.ofNat (o.visits q) := by
    rw [Kernel.state, hptable] at hq
    rw [hptable]
    exact h.settled q hq (ho.not_pending hcritical q)
  have hother {c' : C} (hc : c' ≠ c) : k'.cpu c' = k.cpu c' := by
    rw [hcpu', Function.update_of_ne hc]
  have hself : k'.cpu c = .back p highest := by rw [hcpu', Function.update_self]
  rw [hleave]
  refine ⟨fun c' q highest' hrun => ?_, fun q hq hnot => ?_, fun q hq hpend => ?_⟩
  · have hc : c' ≠ c := by
      rintro rfl
      rw [hself] at hrun
      cases hrun
    rw [hother hc] at hrun
    have hqp : q ≠ p := by
      rintro rfl
      exact hc (ho.alone c' c q _ _ hrun hcpu)
    dsimp only
    rw [Function.update_of_ne hqp]
    exact h.inside c' q highest' hrun
  · have hqp : q ≠ p := by
      rintro rfl
      exact hnot ⟨c, highest, hself⟩
    dsimp only
    rw [Function.update_of_ne hqp]
    exact hsettled q hq
  · obtain ⟨c', highest', hback⟩ := hpend
    obtain rfl : q = p := by
      by_cases hc : c' = c
      · rw [hc, hself] at hback
        exact (Cpu.back.inj hback).1.symm
      · rw [hother hc] at hback
        exact absurd ⟨c', highest', hback⟩ (ho.not_pending hcritical q)
    dsimp only
    rw [Function.update_self, hsettled q hq, UInt32.ofNat_add]
    rfl

end Counted

omit [DecidableEq C] in
/-- A slot that is taken in this step is the first thing its critical section writes. -/
theorem Kernel.claimed_eq_some {np : Slot} (h : k.claimed e = some np) :
    ∃ c todo after, e = .write c ∧ k.critical c = some (.claim np :: todo, after) := by
  cases e with
  | write c =>
      simp only [Kernel.claimed] at h
      split at h
      · next np' todo after hcritical =>
          obtain rfl := Option.some.inj h
          exact ⟨c, todo, after, rfl, hcritical⟩
      · cases h
  | scheduler | resume | call | interrupt => cases h

theorem Counted.step (h : Counted k o) (ho : k.Orderly) (hnext : k.next e = some k') :
    Counted k' (o.see k e k') := by
  cases moved hnext with
  | scheduler c he hscheduled =>
      subst he
      exact h.scheduled ho hscheduled
  | sched c p highest he hback hclaimed hcritical hcpu hcpu' hptable =>
      have hsee : o.see k e k' = o.leave p := by
        subst he
        simp only [Observer.see, hclaimed, hback, Kernel.switchedTo]
      rw [hsee]
      exact h.sched ho hcritical hcpu hcpu' hptable
  | quiet hcpu hto hback hscheduler =>
      have hkeep (hclaimed : k.claimed e = none)
          (hused : ∀ p, k'.state p ≠ .unused → k.state p ≠ .unused ∧
            (k'.ptable.proc p).nice = (k.ptable.proc p).nice) : Counted k' (o.see k e k') := by
        simp only [Observer.see, hclaimed, hto, hback]
        refine h.congr (fun c p highest hrun => ?_) (fun p => ?_) hused
        · rw [hcpu] at hrun
          exact ⟨c, highest, hrun⟩
        · rw [Kernel.Pending, hcpu]
          rfl
      cases Kernel.turnover ho hnext with
      | same hclaimed hsame =>
          refine hkeep hclaimed fun p hp => ⟨?_, hsame.nice p⟩
          rwa [Kernel.state, ne_eq, hsame.unused p] at hp
      | claim np hclaimed hunused hptable =>
          obtain ⟨c, todo, after, rfl, hcritical⟩ := Kernel.claimed_eq_some hclaimed
          have hsee : o.see k (.write c) k' = o.forget np := by
            simp only [Observer.see, hclaimed]
          rw [hsee]
          exact h.claim ho hcritical hcpu hunused hptable
      | reap p hclaimed hptable =>
          refine hkeep hclaimed fun q hq => ?_
          rw [Kernel.state, hptable] at hq
          rw [Kernel.state, hptable]
          simp only [Write.apply] at hq ⊢
          have hsame := Ptable.modify_of_used (fun _ => rfl) hq
          rw [hsame] at hq ⊢
          exact ⟨hq, rfl⟩
      | fail c np he hptable =>
          refine hkeep (by rw [he]; rfl) fun q hq => ?_
          rw [Kernel.state, hptable] at hq
          rw [Kernel.state, hptable]
          have hsame := Ptable.modify_of_used (fun _ => rfl) hq
          rw [hsame] at hq ⊢
          exact ⟨hq, rfl⟩
      | count c p highest he _ _ => exact absurd he (hscheduler c)

/-! ## Runs -/

theorem Counted.boot (hinit : (fromBoot C).init k) : Counted k .start := by
  obtain ⟨⟨-, hcpu⟩, hboot, -⟩ := hinit
  obtain ⟨-, -, hnice, -⟩ := boot_table hboot
  refine ⟨fun c p highest hrun => ?_, fun p _ _ => hnice p, fun p _ hpend => ?_⟩
  · rw [(hcpu c).1] at hrun
    cases hrun
  · obtain ⟨c, highest, hback⟩ := hpend
    rw [(hcpu c).1] at hback
    cases hback

theorem counts_of_reachable (hreach : (watched C).Reachable w) :
    (fromBoot C).Reachable w.kernel ∧ Counted w.kernel w.observer := by
  induction hreach with
  | init hinit =>
      obtain ⟨hboot, hobserver⟩ := hinit
      rw [hobserver]
      exact ⟨.init hboot, .boot hboot⟩
  | step e _ _ hnext ih =>
      obtain ⟨k', hstep, rfl⟩ := Option.map_eq_some_iff.mp hnext
      exact ⟨.step e ih.1 trivial hstep, ih.2.step (orderly (reachable_booted ih.1)) hstep⟩

/-- Whenever the lock is free, `nice` is the number of visits of the process in the slot. -/
theorem nice_eq_visits (hreach : (watched C).Reachable w) (hlock : w.kernel.lock = none)
    (p : Slot) (hused : w.kernel.state p ≠ .unused) :
    (w.kernel.ptable.proc p).nice = UInt32.ofNat (w.observer.visits p) := by
  obtain ⟨hboot, hcounted⟩ := counts_of_reachable hreach
  refine hcounted.settled p hused ?_
  rintro ⟨c, highest, hcpu⟩
  have hheld := ((orderly (reachable_booted hboot)).sweeps c (by rw [hcpu]; trivial)).1
  rw [hlock] at hheld
  cases hheld

open Event in
/-- The first process runs and yields, and `scheduler` ends its round. -/
def firstVisit : List (Event Unit) :=
  List.replicate 67 (scheduler ()) ++ [resume (), call () .yield, write (), write ()] ++
    List.replicate 65 (scheduler ())

theorem nice_eq_visits_firstVisit :
    ∃ w, (watched Unit).Reachable w ∧ w.kernel.lock = none ∧
      (w.kernel.ptable.proc ⟨0, by decide⟩).nice = 1 := by
  obtain ⟨w, hreach, htest⟩ := System.exists_reachable_of_run (M := watched Unit)
    (s := ⟨bootKernel, .start⟩) firstVisit
    (fun w : Watched Unit => decide (w.kernel.lock = none ∧
      w.kernel.state ⟨0, by decide⟩ ≠ .unused ∧ w.observer.visits ⟨0, by decide⟩ = 1))
    ⟨bootKernel_init, rfl⟩ (by decide +kernel)
  obtain ⟨hlock, hused, hvisits⟩ := of_decide_eq_true htest
  refine ⟨w, hreach, hlock, ?_⟩
  rw [nice_eq_visits hreach hlock _ hused, hvisits]
  rfl

end Os20.Xv6
