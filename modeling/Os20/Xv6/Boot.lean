import Os20.Xv6.Orderly

/-!
# Processes come and go

The machine from the table that `userinit` leaves.  `Turnover` says once what a step does to
the fields that say which process is in a slot, and to its count of context switches: a slot is
taken by `allocproc`, and given back by `wait` or by a `fork` that fails.
-/

namespace Os20.Xv6

open Os20.Lib.Transition

def Ptable.zero : Ptable where
  proc _ := {}
  nextpid := 1
  initproc := ⟨0, by decide⟩

def pgsize : Nat := 4096

def userinit (pt : Ptable) : Option Ptable :=
  pt.firstUnused.map fun p =>
    (Write.runnable p).apply
      (({ (Write.claim p).apply pt with initproc := p } : Ptable).modify p fun p =>
        { p with sz := pgsize })

/-- All runs from boot. -/
def fromBoot (C : Type*) [DecidableEq C] : System (Kernel C) (Event C) where
  init k := (kernel C).init k ∧ userinit .zero = some k.ptable ∧ ∀ p, k.task p = .forkret
  next := Kernel.next

theorem Ptable.field_modify {α : Type*} {pt : Ptable} {p : Slot} {f : Proc → Proc}
    (field : Proc → α) (hf : ∀ x, field (f x) = field x) (q : Slot) :
    field ((pt.modify p f).proc q) = field (pt.proc q) := by
  by_cases hq : q = p
  · rw [hq, modify_self, hf]
  · rw [modify_of_ne pt hq]

theorem Ptable.modify_of_used {pt : Ptable} {p q : Slot} {f : Proc → Proc}
    (hf : ∀ x, (f x).state = .unused) (hq : ((pt.modify p f).proc q).state ≠ .unused) :
    (pt.modify p f).proc q = pt.proc q := by
  apply modify_of_ne
  rintro rfl
  rw [modify_self] at hq
  exact hq (hf _)

structure Ptable.Same (pt pt' : Ptable) : Prop where
  nextpid : pt'.nextpid = pt.nextpid
  pid : ∀ p, (pt'.proc p).pid = (pt.proc p).pid
  nice : ∀ p, (pt'.proc p).nice = (pt.proc p).nice
  unused : ∀ p, (pt'.proc p).state = .unused ↔ (pt.proc p).state = .unused

namespace Ptable.Same

variable {pt pt' pt'' : Ptable}

theorem refl (pt : Ptable) : pt.Same pt :=
  ⟨rfl, fun _ => rfl, fun _ => rfl, fun _ => Iff.rfl⟩

theorem trans (h : pt.Same pt') (h' : pt'.Same pt'') : pt.Same pt'' where
  nextpid := h'.nextpid.trans h.nextpid
  pid p := (h'.pid p).trans (h.pid p)
  nice p := (h'.nice p).trans (h.nice p)
  unused p := (h'.unused p).trans (h.unused p)

theorem modify (pt : Ptable) (p : Slot) {f : Proc → Proc}
    (hf : ∀ x, (f x).pid = x.pid ∧ (f x).nice = x.nice)
    (hunused : (f (pt.proc p)).state = .unused ↔ (pt.proc p).state = .unused) :
    pt.Same (pt.modify p f) where
  nextpid := rfl
  pid := field_modify (·.pid) fun x => (hf x).1
  nice := field_modify (·.nice) fun x => (hf x).2
  unused q := by
    by_cases hq : q = p
    · rw [hq, modify_self]
      exact hunused
    · rw [modify_of_ne pt hq]

theorem wakeSlot_same (chan : Option Chan) (x : Proc) :
    (wakeSlot chan x).pid = x.pid ∧ (wakeSlot chan x).nice = x.nice ∧
      ((wakeSlot chan x).state = .unused ↔ x.state = .unused) := by
  unfold wakeSlot
  split
  · next hsleeping => simp [hsleeping.1]
  · simp

end Ptable.Same

theorem Write.Benign.same {w : Write} (hw : w.Benign) (pt : Ptable) : pt.Same (w.apply pt) := by
  cases w with
  | claim | runnable | zombie | reap | doze => cases hw
  | inherit np p | setPrio np n =>
      simp only [Write.apply]
      exact .modify pt np (by simp) (by simp)
  | wake p chan =>
      have hwake := Ptable.Same.wakeSlot_same chan
      exact .modify pt p (fun x => ⟨(hwake x).1, (hwake x).2.1⟩) (hwake _).2.2
  | kill p =>
      simp only [Write.apply]
      refine .modify pt p (by simp) ?_
      dsimp only
      split
      · next hsleeping => simp [hsleeping]
      · exact Iff.rfl
  | adopt p cur =>
      have hparent : pt.Same (pt.modify p fun p => { p with parent := some pt.initproc }) :=
        .modify pt p (by simp) (by simp)
      simp only [Write.apply]
      split
      · split
        · refine hparent.trans ⟨rfl, fun q => ?_, fun q => ?_, fun q => ?_⟩
          · exact (Ptable.Same.wakeSlot_same _ _).1
          · exact (Ptable.Same.wakeSlot_same _ _).2.1
          · exact (Ptable.Same.wakeSlot_same _ _).2.2
        · exact hparent
      · exact .refl pt

theorem Write.Leaves.same {w : Write} {p : Slot} (hw : w.Leaves p) {pt : Ptable}
    (hstate : (pt.proc p).state = .running) : pt.Same (w.apply pt) := by
  cases w with
  | runnable x | zombie x | doze x chan =>
      obtain rfl : x = p := hw
      simp only [Write.apply]
      exact .modify pt x (by simp) (by simp [hstate])
  | claim | inherit | setPrio | wake | kill | reap | adopt => cases hw

variable {C : Type*} [DecidableEq C] {k k' : Kernel C} {e : Event C} {c : C} {p : Slot}
  {highest : Int}

namespace Kernel

/-- The slot that `allocproc` takes in this step. -/
def claimed (k : Kernel C) : Event C → Option Slot
  | .write c =>
      match k.critical c with
      | some (.claim np :: _, _) => some np
      | _ => none
  | _ => none

inductive Turnover (k : Kernel C) (e : Event C) (k' : Kernel C) : Prop
  | same (hclaimed : k.claimed e = none) (hsame : k.ptable.Same k'.ptable)
  | claim (np : Slot) (hclaimed : k.claimed e = some np) (hunused : k.state np = .unused)
      (hptable : k'.ptable = (Write.claim np).apply k.ptable)
  | reap (p : Slot) (hclaimed : k.claimed e = none)
      (hptable : k'.ptable = (Write.reap p).apply k.ptable)
  | fail (c : C) (np : Slot) (he : e = .call c .forkFails)
      (hptable : k'.ptable = k.ptable.modify np fun np => { np with state := .unused })
  | count (c : C) (p : Slot) (highest : Int) (he : e = .scheduler c)
      (hcpu : k.cpu c = .back p highest)
      (hptable : k'.ptable = k.ptable.modify p fun p => { p with nice := p.nice + 1 })

omit [DecidableEq C] in
theorem Switches.same (h : k.Switches c p) :
    k.ptable.Same (k.ptable.modify p fun p => { p with state := .running }) :=
  .modify _ p (by simp) (by simp [h.state])

namespace Turnover

omit [DecidableEq C] in
theorem of_eq (hclaimed : k.claimed e = none) (hptable : k'.ptable = k.ptable) :
    Turnover k e k' :=
  .same hclaimed (by rw [hptable]; exact .refl _)

theorem of_acquire {l : Kernel C} {todo : List Write} {after : After}
    (hclaimed : k.claimed e = none) (h : l.acquire c todo after = some k')
    (hptable : l.ptable = k.ptable) : Turnover k e k' := by
  obtain ⟨-, rfl⟩ := acquire_eq_some h
  exact .of_eq hclaimed hptable

theorem of_scheduled (h : Scheduled k c k') : Turnover k (.scheduler c) k' := by
  cases h with
  | skip p highest hcpu hstate hstep | found p highest hcpu hstate hstep
  | read p highest hcpu hstep | lock p highest hcpu hi hstep | pass p highest hcpu hother hstep
  | round i highest hcpu hi hstep =>
      subst hstep
      exact .of_eq rfl rfl
  | switch p hswitch hstep =>
      subst hstep
      exact .same rfl hswitch.same
  | back p highest hcpu hstep =>
      subst hstep
      exact .count c p highest rfl hcpu rfl

theorem of_resume (h : k.resume c p (k.task p) = some k') : Turnover k (.resume c) k' := by
  have hchan : k.ptable.Same (k.ptable.modify p fun p => { p with chan := none }) :=
    .modify _ p (by simp) (by simp)
  cases htask : k.task p with
  | forkret =>
      rw [htask] at h
      cases h
      exact .of_eq rfl rfl
  | sched r =>
      rw [htask] at h
      cases r with
      | yield f =>
          cases h
          exact .of_eq rfl rfl
      | sleep f | wait =>
          cases h
          exact .same rfl hchan
      | exit => cases h
  | run f =>
      rw [htask] at h
      cases h

theorem of_call {f : Frame} {call : Call} (h : k.call c p f call = some k') :
    Turnover k (.call c call) k' := by
  cases call with
  | allocproc =>
      simp only [Kernel.call] at h
      split at h
      · exact .of_acquire rfl h rfl
      · exact .of_acquire rfl h rfl
      · cases h
  | forkFails =>
      simp only [Kernel.call] at h
      split at h
      · next np =>
          cases h
          exact .fail c np rfl rfl
      · cases h
  | copyuvm =>
      simp only [Kernel.call] at h
      split at h
      · next np =>
          cases h
          refine .same rfl ?_
          rw [setTask_ptable, modify_ptable]
          exact .modify _ np (by simp) (by simp)
      · cases h
  | forkEnds =>
      simp only [Kernel.call] at h
      split at h
      · exact .of_acquire rfl h rfl
      · cases h
  | yield => exact .of_acquire rfl h rfl
  | growproc sz =>
      simp only [Kernel.call] at h
      split at h
      · cases h
        refine .same rfl ?_
        rw [modify_ptable]
        exact .modify _ p (by simp) (by simp)
      · cases h
  | exit | wait | sleep | wakeup | kill | setPrio =>
      simp only [Kernel.call] at h
      split at h
      · exact .of_acquire rfl h rfl
      · cases h

omit [DecidableEq C] in
/-- A write of a critical section does what its section is for. -/
theorem of_section {w : Write} {todo : List Write} {after : After}
    (hcritical : k.critical c = some (w :: todo, after))
    (hsection : k.Section c (w :: todo) after) (hptable : k'.ptable = w.apply k.ptable) :
    Turnover k (.write c) k' := by
  have hother (hw : ∀ np, w ≠ .claim np) : k.claimed (.write c) = none := by
    simp only [claimed, hcritical]
    split
    · next np _ _ heq =>
        obtain ⟨rfl, -⟩ := List.cons.inj (Prod.mk.inj (Option.some.inj heq)).1
        exact absurd rfl (hw np)
    · rfl
  generalize htodo : w :: todo = writes at hsection
  cases hsection with
  | benign hbenign =>
      subst htodo
      have hw := hbenign w (by simp)
      refine .same (hother ?_) (by rw [hptable]; exact hw.same _)
      rintro np rfl
      cases hw
  | @claim np hunused =>
      cases htodo
      refine .claim np ?_ hunused hptable
      simp only [claimed, hcritical]
  | @start np p hembryo hnone =>
      cases htodo
      refine .same (hother (by simp)) ?_
      have hstate : (k.ptable.proc np).state = .embryo := hembryo
      simp only [hptable, Write.apply]
      exact .modify _ np (by simp) (by simp [hstate])
  | @reap p hzombie =>
      cases htodo
      exact .reap p (hother (by simp)) hptable
  | @leave first v r p highest hfirst hv hcpu hrunning hchild =>
      cases first with
      | nil =>
          cases htodo
          refine .same (hother ?_) (by rw [hptable]; exact hv.same hrunning)
          rintro np rfl
          cases hv
      | cons u first =>
          cases htodo
          have hw := hfirst w (by simp)
          refine .same (hother ?_) (by rw [hptable]; exact hw.same _)
          rintro np rfl
          cases hw
  | left => cases htodo

end Turnover

theorem turnover (h : k.Orderly) (hnext : k.next e = some k') : Turnover k e k' := by
  cases e with
  | scheduler c =>
      simp only [next] at hnext
      split at hnext
      · next hcritical => exact .of_scheduled (scheduled hcritical hnext)
      · cases hnext
  | resume c =>
      simp only [next] at hnext
      split at hnext
      · exact .of_resume hnext
      · cases hnext
  | call c call =>
      simp only [next] at hnext
      split at hnext
      · split at hnext
        · exact .of_call hnext
        · cases hnext
      · cases hnext
  | interrupt c a =>
      simp only [next] at hnext
      split at hnext
      · exact .of_acquire rfl hnext rfl
      · cases hnext
  | write c =>
      simp only [next] at hnext
      split at hnext
      · next x hcritical =>
          obtain ⟨todo, after⟩ := x
          cases todo with
          | cons w todo =>
              cases hnext
              exact .of_section hcritical (h.sections c _ _ hcritical) rfl
          | nil =>
              have hclaimed : k.claimed (.write c) = none := by simp only [claimed, hcritical]
              cases after with
              | release =>
                  cases hnext
                  exact .of_eq hclaimed rfl
              | sched r =>
                  simp only [Kernel.write] at hnext
                  split at hnext
                  · split at hnext
                    · cases hnext
                    · cases hnext
                      exact .of_eq hclaimed rfl
                  · cases hnext
      · cases hnext

end Kernel

/-! ## Boot -/

theorem reachable_booted {ok : Kernel C → Event C → Prop}
    (hreach : (fromBoot C).ReachableWhere ok k) : (booted C).Reachable k := by
  induction hreach with
  | init hinit =>
      obtain ⟨hkernel, -, htask⟩ := hinit
      exact .init ⟨hkernel, fun p => by rw [htask p]; rfl⟩
  | step e _ _ hnext ih => exact .step e ih trivial hnext

/-- At boot there is one process, with pid 1. -/
theorem boot_table {pt : Ptable} (hboot : userinit .zero = some pt) :
    pt.nextpid = 2 ∧
      ((pt.proc pt.initproc).pid = 1 ∧ (pt.proc pt.initproc).state = .runnable) ∧
      (∀ p, (pt.proc p).nice = 0) ∧
      ∀ p, p ≠ pt.initproc → (pt.proc p).pid = 0 ∧ (pt.proc p).state = .unused := by
  obtain rfl : pt = _ := (Option.some.inj hboot).symm
  decide +kernel

def bootKernel : Kernel Unit where
  ptable := (userinit .zero).getD .zero
  task _ := .forkret
  lock := none
  cpu _ := .scan 0 0
  critical _ := none

theorem bootKernel_init : (fromBoot Unit).init bootKernel :=
  ⟨⟨rfl, fun _ => ⟨rfl, rfl⟩⟩, rfl, fun _ => rfl⟩

end Os20.Xv6
