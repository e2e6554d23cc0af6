import Os20.Xv6.Family

/-!
# Nobody is orphaned, and no exit goes unnoticed

The tree along the runs of the machine.  A critical section goes through the table write by
write, so `Unfinished` says what is left to do of it: an `exit` that has not made its process a
ZOMBIE yet still has to wake the parent and to give every child to `initproc`.
-/

namespace Os20.Xv6

open Os20.Lib.Transition

def Task.frame : Task → Frame
  | .forkret => .user
  | .sched r => r.frame
  | .run f => f

@[simp] theorem Task.frame_child (t : Task) : t.frame.child = t.child := by
  cases t with
  | forkret => rfl
  | sched r => rfl
  | run f => rfl

/-- It changes nobody's place in the tree, or that of its slot only. -/
def Write.Free : Write → Prop
  | .claim _ | .inherit _ _ | .setPrio _ _ | .wake _ _ | .kill _ | .reap _ => True
  | .runnable _ | .zombie _ | .doze _ _ | .adopt _ _ => False

namespace Ptable

/-- Slot `np`, with process `p` in frame `f` of its `fork`. -/
structure Filled (pt : Ptable) (p np : Slot) (f : Frame) : Prop where
  forker : (pt.proc p).state.Alive
  age : (pt.proc np).state = .embryo → (pt.proc p).pid < (pt.proc np).pid
  parent : (pt.proc np).parent = if f = .forked np then some p else none

variable {pt pt' : Ptable} {p np : Slot} {f : Frame}

theorem Filled.of_fields (h : pt.Filled p np f)
    (halive : (pt.proc p).state.Alive → (pt'.proc p).state.Alive)
    (hembryo : (pt'.proc np).state = .embryo → (pt.proc np).state = .embryo)
    (hpid : (pt'.proc p).pid = (pt.proc p).pid) (hpid' : (pt'.proc np).pid = (pt.proc np).pid)
    (hparent : (pt'.proc np).parent = (pt.proc np).parent) : pt'.Filled p np f where
  forker := halive h.forker
  age hnp := by
    rw [hpid, hpid']
    exact h.age (hembryo hnp)
  parent := hparent.trans h.parent

theorem Filled.modify (h : pt.Filled p np f) (x : Slot) {u : Proc → Proc}
    (hpid : ∀ y, (u y).pid = y.pid) (hparent : ∀ y, (u y).parent = y.parent)
    (halive : p = x → (u (pt.proc x)).state.Alive) (hembryo : (u (pt.proc x)).state ≠ .embryo) :
    (pt.modify x u).Filled p np f := by
  apply h.of_fields
  · intro hp
    by_cases hpx : p = x
    · rw [hpx, modify_self]
      exact halive hpx
    · rwa [modify_of_ne _ hpx]
  · intro hnp
    by_cases hnx : np = x
    · rw [hnx, modify_self] at hnp
      exact absurd hnp hembryo
    · rwa [modify_of_ne _ hnx] at hnp
  · exact field_modify (·.pid) hpid p
  · exact field_modify (·.pid) hpid np
  · exact field_modify (·.parent) hparent np

theorem Filled.kept (h : pt.Filled p np f) (hkept : pt.Kept pt') : pt'.Filled p np f :=
  h.of_fields (hkept.alive p).mpr (hkept.embryo np).mp (hkept.pid p) (hkept.pid np)
    (hkept.parent np)

theorem Filled.elsewhere (h : pt.Filled p np f) {x : Slot} (hp : p ≠ x) (hnp : np ≠ x)
    (u : Proc → Proc) : (pt.modify x u).Filled p np f := by
  apply h.of_fields
  · rw [modify_of_ne _ hp]
    exact id
  · rw [modify_of_ne _ hnp]
    exact id
  · rw [modify_of_ne _ hp]
  · rw [modify_of_ne _ hnp]
  · rw [modify_of_ne _ hnp]

end Ptable

variable {C : Type*} {k k' : Kernel C} {e : Event C} {c c' : C} {p q np cur : Slot}
  {highest : Int} {w : Write} {todo : List Write} {after : After} {r : Resume}

namespace Kernel

/-- What a critical section relies on in its next writes. -/
structure Unfinished (k : Kernel C) (c : C) (todo : List Write) (after : After) : Prop where
  frame : ∀ r p highest, after = .sched r → k.cpu c = .running p highest →
    (k.task p).frame = r.frame
  runnable : ∀ p, .runnable p ∈ todo →
    p = k.ptable.initproc ∨ (k.ptable.proc p).parent ≠ none
  doze : ∀ p chan, .doze p chan ∈ todo → todo = [.doze p chan] ∧
    (chan = .proc p → (∃ q, (k.ptable.proc q).parent = some p) ∧
      ∀ q, (k.ptable.proc q).parent = some p → k.state q ≠ .zombie)
  adopt : ∀ p cur, .adopt p cur ∈ todo → .zombie cur ∈ todo
  exit : ∀ cur, .zombie cur ∈ todo → (k.task cur).frame = .user ∧
    k.state cur = .running ∧ cur ≠ k.ptable.initproc ∧
    (∀ p, (k.ptable.proc p).parent = some cur → .adopt p cur ∈ todo) ∧
    ∀ q, (k.ptable.proc cur).parent = some q → k.ptable.Waits q →
      .wake q (some (.proc q)) ∈ todo

structure Family (k : Kernel C) : Prop where
  tree : k.ptable.Tree
  filled : ∀ p np, (k.task p).child = some np → k.ptable.Filled p np (k.task p).frame
  pending : ∀ c todo after, k.critical c = some (todo, after) → k.Unfinished c todo after

structure Written (k : Kernel C) (c : C) (w : Write) (todo : List Write) (after : After) :
    Prop where
  tree : (w.apply k.ptable).Tree
  filled : ∀ p np, (k.task p).child = some np →
    (w.apply k.ptable).Filled p np (k.task p).frame
  pending : Unfinished { k with ptable := w.apply k.ptable } c todo after

namespace Unfinished

/-- Sections in which nothing of the tree is at stake. -/
theorem of_free (htodo : ∀ w ∈ todo, w.Free) : k.Unfinished c todo .release where
  frame r p highest hafter := by cases hafter
  runnable p hp := (htodo _ hp).elim
  doze p chan hp := (htodo _ hp).elim
  adopt p cur hp := (htodo _ hp).elim
  exit cur hcur := (htodo _ hcur).elim

theorem of_nil (h : k.Unfinished c todo after) (htask : k'.task = k.task) (hcpu : k'.cpu = k.cpu) :
    k'.Unfinished c [] after where
  frame r p highest hafter hrun := by
    rw [htask]
    exact h.frame r p highest hafter (by rwa [← hcpu])
  runnable p hp := by cases hp
  doze p chan hp := by cases hp
  adopt p cur hp := by cases hp
  exit cur hcur := by cases hcur

theorem of_leave (hframe : (k.task p).frame = r.frame)
    (hcpu : k.cpu c = .running p highest) (hw : w.Leaves p) (hzombie : ∀ p, w ≠ .zombie p)
    (hrunnable : w = .runnable p → p = k.ptable.initproc ∨ (k.ptable.proc p).parent ≠ none)
    (hdoze : w = .doze p (.proc p) → (∃ q, (k.ptable.proc q).parent = some p) ∧
      ∀ q, (k.ptable.proc q).parent = some p → k.state q ≠ .zombie) :
    k.Unfinished c [w] (.sched r) := by
  refine ⟨fun r' q highest' hr hq => ?_, fun q hq => ?_, fun q chan hq => ?_,
    fun q cur hq => ?_, fun cur hcur => ?_⟩
  · cases hr
    obtain ⟨rfl, -⟩ := Cpu.running.inj (hcpu.symm.trans hq)
    exact hframe
  · obtain rfl := List.mem_singleton.mp hq
    obtain rfl : q = p := hw
    exact hrunnable rfl
  · obtain rfl := List.mem_singleton.mp hq
    obtain rfl : q = p := hw
    refine ⟨rfl, ?_⟩
    rintro rfl
    exact hdoze rfl
  · obtain rfl := List.mem_singleton.mp hq
    cases hw
  · exact absurd (List.mem_singleton.mp hcur).symm (hzombie cur)

/-- Another CPU works on without the lock. -/
theorem congr (h : k.Unfinished c todo after) (hcpu : k'.cpu c = k.cpu c)
    (hinit : k'.ptable.initproc = k.ptable.initproc)
    (hframe : ∀ p highest, k.cpu c = .running p highest → (k'.task p).frame = (k.task p).frame)
    (huser : ∀ p, (k.task p).frame = .user → (k'.task p).frame = .user)
    (hrunning : ∀ p, k.state p = .running → k'.state p = .running)
    (hparent : ∀ p q, (k.ptable.proc p).parent = some q → (k'.ptable.proc p).parent = some q)
    (hnew : ∀ p q, (k'.ptable.proc p).parent = some q → (k.ptable.proc p).parent = some q ∨
      (k.task q).frame ≠ .user ∧ ¬k.ptable.Waits q ∧ k'.state p ≠ .zombie)
    (hzombie : ∀ p, k'.state p = .zombie → k.state p = .zombie)
    (hwaits : ∀ p, k'.ptable.Waits p → k.ptable.Waits p) : k'.Unfinished c todo after where
  frame r p highest hafter hrun := by
    rw [hcpu] at hrun
    rw [hframe p highest hrun]
    exact h.frame r p highest hafter hrun
  runnable p hp := by
    rw [hinit]
    refine (h.runnable p hp).imp_right fun hsome => ?_
    obtain ⟨q, hq⟩ := Option.ne_none_iff_exists'.mp hsome
    rw [hparent p q hq]
    simp
  doze p chan hp := by
    obtain ⟨honly, hwait⟩ := h.doze p chan hp
    refine ⟨honly, fun hchan => ?_⟩
    obtain ⟨⟨q, hq⟩, hnone⟩ := hwait hchan
    refine ⟨⟨q, hparent q p hq⟩, fun x hx hexited => ?_⟩
    rcases hnew x p hx with hold | ⟨-, -, hlive⟩
    · exact hnone x hold (hzombie x hexited)
    · exact hlive hexited
  adopt := h.adopt
  exit cur hcur := by
    obtain ⟨hfr, hstate, hroot, hchildren, hwake⟩ := h.exit cur hcur
    rw [hinit]
    refine ⟨huser cur hfr, hrunning cur hstate, hroot, fun p hp => ?_, fun q hq hw => ?_⟩
    · rcases hnew p cur hp with hold | ⟨hbusy, -⟩
      · exact hchildren p hold
      · exact absurd hfr hbusy
    · rcases hnew cur q hq with hold | ⟨-, hawake, -⟩
      · exact hwake q hold (hwaits q hw)
      · exact absurd (hwaits q hw) hawake

/-- A process writes to the slot of its `fork`, while another CPU has the lock. -/
theorem modify_child (h : k.Unfinished c todo after)
    (hother : ∀ q highest, k.cpu c = .running q highest → q ≠ p)
    (hbusy : (k.task p).frame ≠ .user) (hawake : ¬k.ptable.Waits p)
    (hembryo : k.state np = .embryo) (hnone : (k.ptable.proc np).parent = none) {u : Proc → Proc}
    (hstate : (u (k.ptable.proc np)).state = .embryo ∨ (u (k.ptable.proc np)).state = .unused)
    (hparent : (u (k.ptable.proc np)).parent = none ∨ (u (k.ptable.proc np)).parent = some p)
    (t : Task) : ((k.modify np u).setTask p t).Unfinished c todo after := by
  have hproc {x : Slot} (hx : x ≠ np) :
      ((k.modify np u).setTask p t).ptable.proc x = k.ptable.proc x :=
    Ptable.modify_of_ne _ hx u
  have hself : ((k.modify np u).setTask p t).ptable.proc np = u (k.ptable.proc np) :=
    Ptable.modify_self _ np u
  have htask {x : Slot} (hx : x ≠ p) : ((k.modify np u).setTask p t).task x = k.task x := by
    simp [Kernel.setTask, Kernel.modify, hx]
  have hnew : ((k.modify np u).setTask p t).state np = .embryo ∨
      ((k.modify np u).setTask p t).state np = .unused := by
    unfold Kernel.state
    rwa [hself]
  have hrest {x : Slot} (hx : x ≠ np) : ((k.modify np u).setTask p t).state x = k.state x := by
    unfold Kernel.state
    rw [hproc hx]
  refine h.congr rfl rfl ?_ ?_ ?_ ?_ ?_ ?_ ?_
  · intro q highest hq
    rw [htask (hother q highest hq)]
  · intro q hq
    have hqp : q ≠ p := by
      rintro rfl
      exact hbusy hq
    rwa [htask hqp]
  · intro q hq
    have hqn : q ≠ np := by
      rintro rfl
      rw [hembryo] at hq
      cases hq
    rwa [hrest hqn]
  · intro x q hx
    have hxn : x ≠ np := by
      rintro rfl
      rw [hnone] at hx
      cases hx
    rwa [hproc hxn]
  · intro x q hx
    by_cases hxn : x = np
    · subst hxn
      rw [hself] at hx
      obtain rfl : p = q := by
        rcases hparent with hno | hsome
        · rw [hno] at hx
          cases hx
        · exact Option.some.inj (hsome.symm.trans hx)
      refine .inr ⟨hbusy, hawake, fun hzombie => ?_⟩
      simp [hzombie] at hnew
    · rw [hproc hxn] at hx
      exact .inl hx
  · intro q hq
    have hqn : q ≠ np := by
      rintro rfl
      simp [hq] at hnew
    rwa [hrest hqn] at hq
  · intro q hq
    have hqn : q ≠ np := by
      rintro rfl
      have hsleeping : ((k.modify q u).setTask p t).state q = .sleeping := hq.1
      simp [hsleeping] at hnew
    unfold Ptable.Waits at hq ⊢
    rwa [hproc hqn] at hq

theorem of_exit (hframe : (k.task p).frame = .user) (hcpu : k.cpu c = .running p highest)
    (hstate : k.state p = .running) (hroot : p ≠ k.ptable.initproc) :
    k.Unfinished c (exitWrites k.ptable p) (.sched .exit) := by
  have hmem {w : Write} (hw : w ∈ exitWrites k.ptable p) :
      (∃ q, w = .wake q ((k.ptable.proc p).parent.map .proc)) ∨ (∃ q, w = .adopt q p) ∨
        w = .zombie p := by
    simpa [exitWrites, wakeup1, eq_comm, or_assoc] using hw
  have hzombie : Write.zombie p ∈ exitWrites k.ptable p := by simp [exitWrites]
  refine ⟨fun r q highest' hr hq => ?_, fun q hq => ?_, fun q chan hq => ?_, fun q cur hq => ?_,
    fun cur hcur => ?_⟩
  · cases hr
    obtain ⟨rfl, -⟩ := Cpu.running.inj (hcpu.symm.trans hq)
    exact hframe
  · simpa using hmem hq
  · simpa using hmem hq
  · obtain rfl : cur = p := by simpa using hmem hq
    exact hzombie
  · obtain rfl : cur = p := by simpa using hmem hcur
    refine ⟨hframe, hstate, hroot, fun q _ => by simp [exitWrites], fun q hq _ => ?_⟩
    simp [exitWrites, wakeup1, hq]

/-- `wait` falls asleep only over children none of which has exited. -/
theorem of_wait (hframe : (k.task p).frame = .user) (hcpu : k.cpu c = .running p highest) :
    k.Unfinished c (k.waitSection p).1 (k.waitSection p).2 := by
  unfold waitSection
  split
  · exact of_free (by simp [Write.Free])
  · next hnone =>
      split
      · exact of_free (by simp)
      · next hkids =>
          refine of_leave hframe hcpu rfl (by simp) (by simp) fun _ => ⟨?_, fun q hq hz => ?_⟩
          · have hhave : k.ptable.haveKids p = true := by
              simpa using (not_or.mp hkids).1
            simpa [Ptable.haveKids] using hhave
          · have hall := List.find?_eq_none.mp hnone q (List.mem_finRange q)
            exact hall (by simpa using ⟨hq, hz⟩)

end Unfinished

namespace Family

theorem kept (h : k.Family) (hkept : k.ptable.Kept k'.ptable)
    (hframe : ∀ p, (k'.task p).frame = (k.task p).frame)
    (hpending : ∀ c todo after, k'.critical c = some (todo, after) → k'.Unfinished c todo after) :
    k'.Family where
  tree := h.tree.kept hkept
  filled p np hp := by
    rw [← Task.frame_child, hframe, Task.frame_child] at hp
    rw [hframe]
    exact (h.filled p np hp).kept hkept
  pending := hpending

theorem same (h : k.Family) (hptable : k'.ptable = k.ptable)
    (htask : ∀ p, (k'.task p).frame = (k.task p).frame)
    (hpending : ∀ c todo after, k'.critical c = some (todo, after) →
      k.critical c = some (todo, after) ∧ k'.cpu c = k.cpu c) : k'.Family := by
  have hstate (p : Slot) : k'.state p = k.state p := by
    unfold Kernel.state
    rw [hptable]
  refine h.kept (by rw [hptable]; exact .refl _) htask fun c todo after hc => ?_
  obtain ⟨hold, hcpu⟩ := hpending c todo after hc
  refine (h.pending c todo after hold).congr hcpu (by rw [hptable]) (fun p _ _ => htask p)
    (fun p hp => (htask p).trans hp) (fun p hp => (hstate p).trans hp)
    (fun p q hq => by rwa [hptable]) (fun p q hq => .inl (by rwa [← hptable]))
    (fun p hp => (hstate p).symm.trans hp) fun p hp => by rwa [← hptable]

variable [DecidableEq C]

theorem acquire (h : k.Family) (ho : k.Orderly)
    (hacquire : k.acquire c todo after = some k') (hpending : k.Unfinished c todo after) :
    k'.Family := by
  obtain ⟨hlock, rfl⟩ := acquire_eq_some hacquire
  refine h.kept (.refl _) (fun _ => rfl) fun c' todo' after' hc' => ?_
  dsimp only at hc'
  by_cases hc : c' = c
  · subst hc
    rw [Function.update_self] at hc'
    obtain ⟨rfl, rfl⟩ := Prod.mk.inj (Option.some.inj hc')
    exact ⟨hpending.frame, hpending.runnable, hpending.doze, hpending.adopt, hpending.exit⟩
  · rw [Function.update_of_ne hc, ho.critical_eq_none (by simp [hlock])] at hc'
    cases hc'

/-! ## Calls -/

omit [DecidableEq C] in
/-- A process that runs without the lock is in its frame. -/
theorem state_alive (ho : k.Orderly) (hcritical : k.critical c = none)
    (hcpu : k.cpu c = .running p highest) : (k.ptable.proc p).state.Alive := by
  have hrunning : (k.ptable.proc p).state = .running := ho.state_running hcpu hcritical
  simp [hrunning, ProcState.Alive]

omit [DecidableEq C] in
theorem not_waits (ho : k.Orderly) (hcritical : k.critical c = none)
    (hcpu : k.cpu c = .running p highest) : ¬k.ptable.Waits p := by
  have hrunning : (k.ptable.proc p).state = .running := ho.state_running hcpu hcritical
  rintro ⟨hsleeping, -⟩
  rw [hrunning] at hsleeping
  cases hsleeping

omit [DecidableEq C] in
/-- The slot of a `fork` is the process's own, and has no parent until `copyuvm` is through. -/
theorem forking (h : k.Family) (ho : k.Orderly) (hcritical : k.critical c = none)
    (hcpu : k.cpu c = .running p highest) (htask : k.task p = .run (.forking np)) :
    (k.task p).child = some np ∧ (k.ptable.proc np).state = .embryo ∧
      (k.ptable.proc np).parent = none := by
  have hchild : (k.task p).child = some np := by rw [htask]; rfl
  refine ⟨hchild, ho.embryo hchild hcpu hcritical, ?_⟩
  rw [(h.filled p np hchild).parent, htask]
  simp [Task.frame]

theorem allocproc (h : k.Family) (ho : k.Orderly) (hcritical : k.critical c = none)
    (hcpu : k.cpu c = .running p highest) (hunused : k.ptable.firstUnused = some np)
    (hacquire : ((k.setTask np .forkret).setTask p (.run (.forking np))).acquire c [.claim np]
      .release = some k') : k'.Family := by
  obtain ⟨hlock, rfl⟩ := acquire_eq_some hacquire
  have hstate : (k.ptable.proc np).state = .unused := by
    have hfound := List.find?_some hunused
    simpa using hfound
  have halive := state_alive ho hcritical hcpu
  refine ⟨h.tree, fun q x hq => ?_, fun c' todo after hc' => ?_⟩
  · by_cases hqp : q = p
    · subst hqp
      obtain rfl : np = x := by
        simpa [Kernel.setTask, Task.child, Frame.child] using hq
      refine ⟨halive, fun hembryo => ?_, ?_⟩
      · exact absurd (hstate.symm.trans hembryo) (by simp)
      · simpa [Kernel.setTask, Task.frame] using h.tree.unused np hstate
    · by_cases hqn : q = np
      · subst hqn
        simp [Kernel.setTask, hqp, Task.child] at hq
      · have hold : (k.task q).child = some x := by
          simpa [Kernel.setTask, hqp, hqn] using hq
        simpa [Kernel.setTask, hqp, hqn] using h.filled q x hold
  · by_cases hc : c' = c
    · subst hc
      simp only [Function.update_self, Option.some.injEq, Prod.mk.injEq] at hc'
      obtain ⟨rfl, rfl⟩ := hc'
      exact .of_free (by simp [Write.Free])
    · have hnone := ho.critical_eq_none (c := c') (by simp [show k.lock = none from hlock])
      simp only [Kernel.setTask, Function.update_of_ne hc, hnone] at hc'
      cases hc'

omit [DecidableEq C] in
theorem modify_child (h : k.Family) (ho : k.Orderly) (hcritical : k.critical c = none)
    (hcpu : k.cpu c = .running p highest) {f : Frame} (htask : k.task p = .run (.forking np))
    {u : Proc → Proc} (htree : (k.ptable.modify np u).Tree)
    (hfilled : ∀ x, f.child = some x → (k.ptable.modify np u).Filled p x f)
    (hstate : (u (k.ptable.proc np)).state = .embryo ∨ (u (k.ptable.proc np)).state = .unused)
    (hparent : (u (k.ptable.proc np)).parent = none ∨ (u (k.ptable.proc np)).parent = some p) :
    ((k.modify np u).setTask p (.run f)).Family := by
  obtain ⟨hchild, hembryo, hnone⟩ := h.forking ho hcritical hcpu htask
  refine ⟨htree, fun q x hq => ?_, fun c' todo after hc' => ?_⟩
  · by_cases hqp : q = p
    · subst hqp
      have hself : ((k.modify np u).setTask q (.run f)).task q = .run f := by
        simp [Kernel.setTask]
      rw [hself] at hq ⊢
      exact hfilled x hq
    · have hsame : ((k.modify np u).setTask p (.run f)).task q = k.task q := by
        simp [Kernel.setTask, Kernel.modify, hqp]
      rw [hsame] at hq ⊢
      have hold := h.filled q x hq
      have hx : x ≠ np := by
        rintro rfl
        exact hqp (ho.injective q p x hq hchild)
      have hqn : q ≠ np := by
        rintro rfl
        exact hold.forker.2.1 hembryo
      exact hold.elsewhere hqn hx u
  · have hold : k.critical c' = some (todo, after) := hc'
    have hother (q : Slot) (highest' : Int) (hq : k.cpu c' = .running q highest') : q ≠ p := by
      rintro rfl
      obtain rfl := ho.alone c c' q _ _ hcpu hq
      rw [hcritical] at hold
      cases hold
    have hbusy : (k.task p).frame ≠ .user := by
      rw [htask]
      simp [Task.frame]
    exact (h.pending c' todo after hold).modify_child hother hbusy (not_waits ho hcritical hcpu)
      hembryo hnone hstate hparent _

omit [DecidableEq C] in
theorem forkFails (h : k.Family) (ho : k.Orderly) (hcritical : k.critical c = none)
    (hcpu : k.cpu c = .running p highest) (htask : k.task p = .run (.forking np)) :
    ((k.modify np fun np => { np with state := .unused }).setTask p (.run .user)).Family := by
  obtain ⟨-, hembryo, hnone⟩ := h.forking ho hcritical hcpu htask
  refine h.modify_child ho hcritical hcpu htask (h.tree.fail hembryo hnone) (fun x hx => ?_)
    (.inr rfl) (.inl hnone)
  cases hx

omit [DecidableEq C] in
theorem copyuvm (h : k.Family) (ho : k.Orderly) (hcritical : k.critical c = none)
    (hcpu : k.cpu c = .running p highest) (htask : k.task p = .run (.forking np)) :
    ((k.modify np fun np => { np with sz := (k.ptable.proc p).sz, parent := some p }).setTask p
      (.run (.forked np))).Family := by
  obtain ⟨hchild, hembryo, hnone⟩ := h.forking ho hcritical hcpu htask
  have hfilled := h.filled p np hchild
  have hroot : np ≠ k.ptable.initproc := by
    rintro rfl
    exact h.tree.root.2.1.2.1 hembryo
  have hne : p ≠ np := by
    rintro rfl
    exact hfilled.forker.2.1 hembryo
  refine h.modify_child ho hcritical hcpu htask ?_ (fun x hx => ?_) (.inl hembryo) (.inr rfl)
  · refine h.tree.setParent _ rfl rfl rfl rfl hroot (by simp [hembryo]) hfilled.forker
      (hfilled.age hembryo) (fun _ => not_waits ho hcritical hcpu) fun x hx => ?_
    rw [hnone] at hx
    cases hx
  · obtain rfl : np = x := by simpa [Frame.child] using hx
    refine ⟨?_, fun _ => ?_, ?_⟩
    · rw [Ptable.modify_of_ne _ hne]
      exact hfilled.forker
    · rw [Ptable.modify_of_ne _ hne, Ptable.modify_self]
      exact hfilled.age hembryo
    · rw [Ptable.modify_self]
      simp

theorem forkEnds (h : k.Family) (ho : k.Orderly) (htask : k.task p = .run (.forked np))
    (hacquire : (k.setTask p (.run .user)).acquire c [.runnable np, .inherit np p] .release =
      some k') : k'.Family := by
  obtain ⟨hlock, rfl⟩ := acquire_eq_some hacquire
  have hchild : (k.task p).child = some np := by rw [htask]; rfl
  have hparent : (k.ptable.proc np).parent = some p := by
    rw [(h.filled p np hchild).parent, htask]
    simp [Task.frame]
  refine ⟨h.tree, fun q x hq => ?_, fun c' todo after hc' => ?_⟩
  · by_cases hqp : q = p
    · subst hqp
      simp [Kernel.setTask, Task.child, Frame.child] at hq
    · have hold : (k.task q).child = some x := by simpa [Kernel.setTask, hqp] using hq
      simpa [Kernel.setTask, hqp] using h.filled q x hold
  · by_cases hc : c' = c
    · subst hc
      simp only [Function.update_self, Option.some.injEq, Prod.mk.injEq] at hc'
      obtain ⟨rfl, rfl⟩ := hc'
      refine ⟨?_, fun q hq => ?_, by simp, by simp, by simp⟩
      · intro r q highest' hr
        cases hr
      · obtain rfl : q = np := by simpa using hq
        refine .inr ?_
        simp [Kernel.setTask, hparent]
    · have hnone := ho.critical_eq_none (c := c') (by simp [show k.lock = none from hlock])
      simp only [Kernel.setTask, Function.update_of_ne hc, hnone] at hc'
      cases hc'

omit [DecidableEq C] in
theorem growproc (h : k.Family) (p : Slot) (sz : Nat) :
    (k.modify p fun p => { p with sz := sz }).Family := by
  have hkept : k.ptable.Kept (k.ptable.modify p fun p => { p with sz := sz }) :=
    .modify _ p rfl rfl (.inl rfl) fun hsleeping hchan => ⟨hsleeping, hchan⟩
  have hstate (q : Slot) : (k.modify p fun p => { p with sz := sz }).state q = k.state q := by
    unfold Kernel.state
    rw [modify_ptable]
    exact Ptable.field_modify (·.state) (by simp) q
  refine h.kept hkept (fun _ => rfl) fun c' todo after hc' => ?_
  exact (h.pending c' todo after hc').congr rfl rfl (fun _ _ _ => rfl) (fun _ => id)
    (fun q hq => (hstate q).trans hq) (fun q x hq => (hkept.parent q).trans hq)
    (fun q x hq => .inl ((hkept.parent q).symm.trans hq))
    (fun q hq => (hstate q).symm.trans hq) hkept.waits

theorem call (h : k.Family) (ho : k.Orderly) (hcritical : k.critical c = none)
    (hcpu : k.cpu c = .running p highest) {f : Frame} (htask : k.task p = .run f) {call : Call}
    (hnext : k.call c p f call = some k') : k'.Family := by
  have hframe : (k.task p).frame = f := by rw [htask]; rfl
  have hrunning : k.state p = .running := ho.state_running hcpu hcritical
  cases call with
  | allocproc =>
      simp only [Kernel.call] at hnext
      split at hnext
      · next hunused => exact h.allocproc ho hcritical hcpu hunused hnext
      · exact h.acquire ho hnext (.of_free (by simp))
      · cases hnext
  | forkFails =>
      simp only [Kernel.call] at hnext
      split at hnext
      · cases hnext
        exact h.forkFails ho hcritical hcpu htask
      · cases hnext
  | copyuvm =>
      simp only [Kernel.call] at hnext
      split at hnext
      · cases hnext
        exact h.copyuvm ho hcritical hcpu htask
      · cases hnext
  | forkEnds =>
      simp only [Kernel.call] at hnext
      split at hnext
      · exact h.forkEnds ho htask hnext
      · cases hnext
  | exit =>
      simp only [Kernel.call] at hnext
      split at hnext
      · next hexit =>
          exact h.acquire ho hnext (.of_exit (hframe.trans hexit.1) hcpu hrunning hexit.2)
      · cases hnext
  | wait =>
      simp only [Kernel.call] at hnext
      split at hnext
      · next huser => exact h.acquire ho hnext (.of_wait (hframe.trans huser) hcpu)
      · cases hnext
  | sleep a =>
      simp only [Kernel.call] at hnext
      split at hnext
      · exact h.acquire ho hnext (.of_leave hframe hcpu rfl (by simp) (by simp) (by simp))
      · cases hnext
  | wakeup a =>
      simp only [Kernel.call] at hnext
      split at hnext
      · exact h.acquire ho hnext (.of_free (by simp [wakeup1, Write.Free]))
      · cases hnext
  | kill pid =>
      simp only [Kernel.call] at hnext
      split at hnext
      · exact h.acquire ho hnext (.of_free (by simp [Write.Free]))
      · cases hnext
  | yield =>
      refine h.acquire ho hnext (.of_leave hframe hcpu rfl (by simp) (fun _ => ?_) (by simp))
      by_cases hnone : (k.ptable.proc p).parent = none
      · rcases h.tree.adopted p hnone with hroot | hunused | hembryo
        · exact .inl hroot
        · exact absurd (hrunning.symm.trans hunused) (by simp)
        · exact absurd (hrunning.symm.trans hembryo) (by simp)
      · exact .inr hnone
  | setPrio n =>
      simp only [Kernel.call] at hnext
      split at hnext
      · exact h.acquire ho hnext (.of_free (by simp [Write.Free]))
      · cases hnext
  | growproc sz =>
      simp only [Kernel.call] at hnext
      split at hnext
      · cases hnext
        exact h.growproc p sz
      · cases hnext

/-! ## Switches -/

theorem resume (h : k.Family) (ho : k.Orderly) (hcritical : k.critical c = none)
    (hcpu : k.cpu c = .running p highest) (hnext : k.resume c p (k.task p) = some k') :
    k'.Family := by
  have hkept : k.ptable.Kept (k.ptable.modify p fun p => { p with chan := none }) :=
    .modify _ p rfl rfl (.inl rfl) (by simp)
  have hframe {t : Task} (ht : t.frame = (k.task p).frame) (q : Slot) :
      (Function.update k.task p t q).frame = (k.task q).frame := by
    by_cases hq : q = p
    · subst hq
      rwa [Function.update_self]
    · rw [Function.update_of_ne hq]
  have hnone (hnot : ∀ f, k.task p ≠ .run f) (c' : C) : k.critical c' = none := by
    have hlock := (ho.switched c p highest hcpu hnot).1
    by_contra hinside
    rw [ho.eq_of_critical hlock hinside] at hinside
    exact hinside hcritical
  cases htask : k.task p with
  | forkret =>
      rw [htask] at hnext
      cases hnext
      exact h.same rfl (hframe (by rw [htask]; rfl)) fun _ _ _ hc => ⟨hc, rfl⟩
  | sched r =>
      have hidle := hnone (by simp [htask])
      rw [htask] at hnext
      cases r with
      | yield f =>
          cases hnext
          exact h.same rfl (hframe (by rw [htask]; rfl)) fun _ _ _ hc => ⟨hc, rfl⟩
      | sleep f =>
          cases hnext
          refine h.kept hkept (hframe (by rw [htask]; rfl)) fun c' todo after hc => ?_
          exact absurd (hidle c') (by simp [show k.critical c' = some (todo, after) from hc])
      | wait =>
          cases hnext
          refine h.kept hkept (hframe (by rw [htask]; rfl)) fun c' todo after hc => ?_
          dsimp only at hc
          by_cases hcc : c' = c
          · subst hcc
            rw [Function.update_self] at hc
            set l := (k.modify p fun p => { p with chan := none }).setTask p (.run .user)
            have hwait : l.Unfinished c' (l.waitSection p).1 (l.waitSection p).2 :=
              .of_wait (by simp [l, Kernel.setTask, Task.frame]) hcpu
            rw [Option.some.inj hc] at hwait
            exact ⟨hwait.frame, hwait.runnable, hwait.doze, hwait.adopt, hwait.exit⟩
          · rw [Function.update_of_ne hcc] at hc
            exact absurd (hidle c') (by simp [show k.critical c' = some (todo, after) from hc])
      | exit => cases hnext
  | run f =>
      rw [htask] at hnext
      cases hnext

theorem scheduler (h : k.Family) (ho : k.Orderly) (hcritical : k.critical c = none)
    (hnext : k.scheduler c (k.cpu c) = some k') : k'.Family := by
  have hcpu (cpu : Cpu) (c' : C) (todo : List Write) (after : After)
      (hc : k.critical c' = some (todo, after)) :
      Function.update k.cpu c cpu c' = k.cpu c' := by
    have hne : c' ≠ c := by
      rintro rfl
      rw [hcritical] at hc
      cases hc
    rw [Function.update_of_ne hne]
  have hidle (hsweeps : (k.cpu c).Sweeps) (c' : C) : k.critical c' = none := by
    by_contra hinside
    rw [ho.eq_of_critical (ho.sweeps c hsweeps).1 hinside] at hinside
    exact hinside hcritical
  cases scheduled hcritical hnext with
  | skip p highest hat hstate hstep | found p highest hat hstate hstep
  | read p highest hat hstep | lock i highest hat hi hstep | pass p highest hat hother hstep
  | round i highest hat hi hstep =>
      subst hstep
      exact h.same rfl (fun _ => rfl) fun c' todo after hc => ⟨hc, hcpu _ c' todo after hc⟩
  | switch p hswitch hstep =>
      subst hstep
      refine h.kept ?_ (fun _ => rfl) fun c' todo after hc => ?_
      · rw [setCpu_ptable, modify_ptable]
        refine .modify _ p rfl rfl (.inr ?_) (by simp)
        simp [hswitch.state, ProcState.Alive]
      · exact absurd (hidle (by rw [hswitch.cpu]; trivial) c')
          (by simp [show k.critical c' = some (todo, after) from hc])
  | back p highest hat hstep =>
      subst hstep
      refine h.kept ?_ (fun _ => rfl) fun c' todo after hc => ?_
      · rw [setCpu_ptable, modify_ptable]
        exact .modify _ p rfl rfl (.inl rfl) fun hsleeping hchan => ⟨hsleeping, hchan⟩
      · exact absurd (hidle (by rw [hat]; trivial) c')
          (by simp [show k.critical c' = some (todo, after) from hc])

/-! ## Writes -/

theorem written (ho : k.Orderly) (hcritical : k.critical c = some (w :: todo, after))
    (h : k.Written c w todo after) :
    Family { k with
      ptable := w.apply k.ptable
      critical := Function.update k.critical c (some (todo, after)) } := by
  have hpending := h.pending
  refine ⟨h.tree, h.filled, fun c' todo' after' hc' => ?_⟩
  dsimp only at hc'
  by_cases hc : c' = c
  · subst hc
    rw [Function.update_self] at hc'
    obtain ⟨rfl, rfl⟩ := Prod.mk.inj (Option.some.inj hc')
    exact ⟨hpending.frame, hpending.runnable, hpending.doze, hpending.adopt, hpending.exit⟩
  · have hlock := ho.critical c (by simp [hcritical])
    rw [Function.update_of_ne hc] at hc'
    exact absurd (ho.eq_of_critical hlock (by simp [hc'])) hc

omit [DecidableEq C] in
/-- What a write of `exit` leaves to do. -/
theorem pending_exit (h : k.Family) (hcritical : k.critical c = some (w :: todo, after))
    (hw : w.Benign) {v : Write} (honly : ∀ u ∈ w :: todo, u.Benign ∨ u = v) :
    Unfinished { k with ptable := w.apply k.ptable } c todo after := by
  have hp := h.pending c _ _ hcritical
  have hkin := Ptable.Kin.of_benign hw k.ptable
  have hmem {u : Write} (hu : u ∈ todo) : u ∈ w :: todo := List.mem_cons_of_mem _ hu
  have hback {u : Write} (hu : u ∈ w :: todo) (hb : u ≠ w) : u ∈ todo :=
    (List.mem_cons.mp hu).resolve_left hb
  have hzombie {cur : Slot} (hcur : .zombie cur ∈ w :: todo) : .zombie cur ∈ todo := by
    refine hback hcur ?_
    rintro rfl
    cases hw
  have hexits {cur cur' : Slot} (hcur : .zombie cur ∈ w :: todo)
      (hcur' : .zombie cur' ∈ w :: todo) : cur = cur' := by
    have hv := (honly _ hcur).resolve_left id
    have hv' := (honly _ hcur').resolve_left id
    exact Write.zombie.inj (hv.trans hv'.symm)
  refine ⟨hp.frame, fun p hrun => ?_, fun p chan hdoze => ?_, fun p cur hadopt => ?_,
    fun cur hcur => ?_⟩
  · refine (hp.runnable p (hmem hrun)).imp (fun hroot => hroot.trans hkin.initproc.symm) ?_
    intro hsome hnone
    dsimp only at hnone
    by_cases hadopt : ∃ cur, w = .adopt p cur ∧ (k.ptable.proc p).parent = some cur
    · obtain ⟨cur, heq, hparent⟩ := hadopt
      rw [hkin.adopted p cur heq hparent] at hnone
      cases hnone
    · refine hsome ((hkin.parent p fun cur heq hparent => ?_).symm.trans hnone)
      exact hadopt ⟨cur, heq, hparent⟩
  · -- `sleep` is a section of one write
    have honly := (hp.doze p chan (hmem hdoze)).1
    rw [(List.cons.inj honly).2] at hdoze
    cases hdoze
  · exact hzombie (hp.adopt p cur (hmem hadopt))
  · obtain ⟨hframe, hrunning, hroot, hchildren, hwake⟩ := hp.exit cur (hmem hcur)
    refine ⟨hframe, ?_, fun heq => hroot (heq.trans hkin.initproc), fun p hparent => ?_,
      fun q hparent hwaits => ?_⟩
    · have hstate : (k.ptable.proc cur).state = .running := hrunning
      exact (hw.state_eq _ (by simp [hstate])).trans hstate
    · dsimp only at hparent
      by_cases hadopt : ∃ cur', w = .adopt p cur' ∧ (k.ptable.proc p).parent = some cur'
      · obtain ⟨cur', heq, hparent'⟩ := hadopt
        rw [hkin.adopted p cur' heq hparent'] at hparent
        exact absurd (Option.some.inj hparent).symm hroot
      · have hold : (k.ptable.proc p).parent = some cur :=
          (hkin.parent p fun cur' heq hp' => hadopt ⟨cur', heq, hp'⟩).symm.trans hparent
        refine hback (hchildren p hold) ?_
        rintro rfl
        exact hadopt ⟨cur, rfl, hold⟩
    · dsimp only at hparent hwaits
      obtain ⟨hold, hnot⟩ := hkin.waits q hwaits
      refine hback (hwake q ?_ hold) hnot.symm
      rw [← hkin.parent cur ?_, hparent]
      -- a process that exits does not adopt itself
      rintro cur' rfl hself
      obtain rfl := hexits (hmem hcur) (hp.adopt cur cur' (by simp))
      exact h.tree.ne_of_parent hself rfl

omit [DecidableEq C] in
theorem filled_benign (h : k.Family) (hw : w.Benign)
    (hadopt : ∀ p cur, w = .adopt p cur → (k.task cur).frame = .user) (p np : Slot)
    (hchild : (k.task p).child = some np) :
    (w.apply k.ptable).Filled p np (k.task p).frame := by
  have hfilled := h.filled p np hchild
  have hsame := hw.same k.ptable
  refine hfilled.of_fields (fun halive => ?_) (fun hembryo => ?_) (hsame.pid p) (hsame.pid np)
    ((Ptable.Kin.of_benign hw k.ptable).parent np ?_)
  · rcases hw.apply_state k.ptable p with hstate | ⟨-, hstate⟩
    · rwa [hstate]
    · simp [hstate, ProcState.Alive]
  · rcases hw.apply_state k.ptable np with hstate | ⟨-, hstate⟩
    · rwa [← hstate]
    · rw [hstate] at hembryo
      cases hembryo
  · intro cur heq hparent
    rw [hfilled.parent] at hparent
    split at hparent
    · next hforked =>
        obtain rfl := Option.some.inj hparent
        rw [hadopt np _ heq] at hforked
        cases hforked
    · cases hparent

omit [DecidableEq C] in
/-- The sections of `wakeup`, `kill`, `set_prio` and of the end of `fork`. -/
theorem written_benign (h : k.Family) (hcritical : k.critical c = some (w :: todo, after))
    (hbenign : ∀ u ∈ w :: todo, u.Benign) : k.Written c w todo .release := by
  have hw := hbenign w (List.mem_cons_self ..)
  have hfree {u : Write} (hu : u ∈ w :: todo) : u.Free := by
    have hb := hbenign u hu
    cases u with
    | claim | inherit | setPrio | wake | kill | reap => trivial
    | runnable | zombie | doze => cases hb
    | adopt p cur => exact (hbenign _ ((h.pending c _ _ hcritical).adopt p cur hu)).elim
  have hnot (p cur : Slot) : w ≠ .adopt p cur := by
    rintro rfl
    exact hfree (List.mem_cons_self ..)
  exact ⟨h.tree.kept (.of_benign hw hnot _),
    h.filled_benign hw fun p cur heq => absurd heq (hnot p cur),
    .of_free fun u hu => hfree (List.mem_cons_of_mem _ hu)⟩

omit [DecidableEq C] in
theorem written_claim (h : k.Family) (hpids : k.ptable.Pids)
    (hcritical : k.critical c = some ([.claim np], after))
    (hunused : (k.ptable.proc np).state = .unused) : k.Written c (.claim np) [] after := by
  refine ⟨h.tree.claim hunused, fun p x hx => ?_, (h.pending c _ _ hcritical).of_nil rfl rfl⟩
  have hfilled := h.filled p x hx
  have hpn : p ≠ np := by
    rintro rfl
    exact hfilled.forker.1 hunused
  simp only [Write.apply]
  refine ⟨?_, fun hembryo => ?_, ?_⟩
  · dsimp only
    rw [Ptable.modify_of_ne _ hpn]
    exact hfilled.forker
  · dsimp only at hembryo ⊢
    rw [Ptable.modify_of_ne _ hpn]
    by_cases hxn : x = np
    · rw [hxn, Ptable.modify_self]
      exact (hpids.bound p).2
    · rw [Ptable.modify_of_ne _ hxn] at hembryo ⊢
      exact hfilled.age hembryo
  · dsimp only
    rw [Ptable.field_modify (·.parent) (by simp)]
    exact hfilled.parent

omit [DecidableEq C] in
theorem written_reap (h : k.Family) (ho : k.Orderly)
    (hcritical : k.critical c = some ([.reap q], after))
    (hzombie : (k.ptable.proc q).state = .zombie) : k.Written c (.reap q) [] after := by
  refine ⟨h.tree.reap hzombie, fun p x hx => ?_, (h.pending c _ _ hcritical).of_nil rfl rfl⟩
  have hfilled := h.filled p x hx
  have hpq : p ≠ q := by
    rintro rfl
    exact hfilled.forker.2.2 hzombie
  have hxq : x ≠ q := by
    rintro rfl
    have hstate : k.state x = .zombie := hzombie
    rcases ho.child_embryo hcritical hx with hembryo | ⟨hunused, -⟩
    · simp [hstate] at hembryo
    · simp [hstate] at hunused
  simp only [Write.apply]
  exact hfilled.elsewhere hpq hxq _

omit [DecidableEq C] in
/-- `yield`, and `fork` for the new process. -/
theorem written_runnable (h : k.Family)
    (hcritical : k.critical c = some (.runnable q :: todo, after))
    (hpending : Unfinished { k with ptable := (Write.runnable q).apply k.ptable } c todo after) :
    k.Written c (.runnable q) todo after := by
  have hparent := (h.pending c _ _ hcritical).runnable q (List.mem_cons_self ..)
  refine ⟨h.tree.runnable hparent, fun p x hx => ?_, hpending⟩
  simp only [Write.apply]
  exact (h.filled p x hx).modify q (by simp) (by simp) (by simp [ProcState.Alive]) (by simp)

omit [DecidableEq C] in
theorem written_zombie (h : k.Family) (hcritical : k.critical c = some ([.zombie q], after))
    (hstate : (k.ptable.proc q).state = .running) : k.Written c (.zombie q) [] after := by
  have hp := h.pending c _ _ hcritical
  obtain ⟨hframe, -, hroot, hchildren, hwake⟩ := hp.exit q (by simp)
  have halive : (k.ptable.proc q).state.Alive := by simp [hstate, ProcState.Alive]
  have htree := h.tree.zombie halive hroot (fun x hx => by simpa using hchildren x hx)
    fun x hx hwaits => by simpa using hwake x hx hwaits
  refine ⟨htree, fun p x hx => ?_, hp.of_nil rfl rfl⟩
  simp only [Write.apply]
  refine (h.filled p x hx).modify q (by simp) (by simp) (fun hpq => ?_) (by simp)
  -- it runs in its program, not in `fork`
  rw [hpq, ← Task.frame_child, hframe] at hx
  cases hx

omit [DecidableEq C] in
theorem written_doze {chan : Chan} (h : k.Family)
    (hcritical : k.critical c = some ([.doze q chan], after))
    (hstate : (k.ptable.proc q).state = .running) : k.Written c (.doze q chan) [] after := by
  have hp := h.pending c _ _ hcritical
  have halive : (k.ptable.proc q).state.Alive := by simp [hstate, ProcState.Alive]
  refine ⟨h.tree.doze halive (hp.doze q chan (by simp)).2, fun p x hx => ?_, hp.of_nil rfl rfl⟩
  simp only [Write.apply]
  exact (h.filled p x hx).modify q (by simp) (by simp) (by simp [ProcState.Alive]) (by simp)

omit [DecidableEq C] in
theorem written_before {first : List Write} {v : Write} (h : k.Family) (hpids : k.ptable.Pids)
    (hcritical : k.critical c = some (w :: (first ++ [v]), after))
    (hfirst : ∀ u ∈ w :: first, u.Benign) : k.Written c w (first ++ [v]) after := by
  have hp := h.pending c _ _ hcritical
  have hw := hfirst w (List.mem_cons_self ..)
  have honly (u : Write) (hu : u ∈ w :: (first ++ [v])) : u.Benign ∨ u = v := by
    rw [← List.cons_append] at hu
    exact (List.mem_append.mp hu).imp (hfirst u) List.mem_singleton.mp
  have hexits (x cur : Slot) (heq : w = .adopt x cur) :=
    hp.exit cur (hp.adopt x cur (by rw [heq]; exact List.mem_cons_self ..))
  have htree : (w.apply k.ptable).Tree := by
    by_cases hadopt : ∃ x cur, w = .adopt x cur
    · obtain ⟨x, cur, rfl⟩ := hadopt
      obtain ⟨-, hcur, -⟩ := hexits x cur rfl
      refine h.tree.adopt hpids fun hwaits => ?_
      have hsleeping : k.state cur = .sleeping := hwaits.1
      rw [hcur] at hsleeping
      cases hsleeping
    · exact h.tree.kept (.of_benign hw (fun x cur heq => hadopt ⟨x, cur, heq⟩) _)
  exact ⟨htree, h.filled_benign hw fun x cur heq => (hexits x cur heq).1,
    h.pending_exit hcritical hw honly⟩

omit [DecidableEq C] in
theorem written_leaves (h : k.Family) (hcritical : k.critical c = some ([w], after))
    (hw : w.Leaves p) (hstate : (k.ptable.proc p).state = .running) : k.Written c w [] after := by
  cases w with
  | runnable x => exact h.written_runnable hcritical ((h.pending c _ _ hcritical).of_nil rfl rfl)
  | zombie x =>
      obtain rfl : x = p := hw
      exact h.written_zombie hcritical hstate
  | doze x chan =>
      obtain rfl : x = p := hw
      exact h.written_doze hcritical hstate
  | claim | inherit | setPrio | wake | kill | reap | adopt => cases hw

omit [DecidableEq C] in
theorem written_cons (h : k.Family) (ho : k.Orderly) (hpids : k.ptable.Pids)
    (hcritical : k.critical c = some (w :: todo, after)) : k.Written c w todo after := by
  have hsection := ho.sections c _ _ hcritical
  generalize htodo : w :: todo = writes at hsection
  cases hsection with
  | benign hbenign =>
      subst htodo
      exact h.written_benign hcritical hbenign
  | claim hunused =>
      cases htodo
      exact h.written_claim hpids hcritical hunused
  | start hembryo hnone =>
      cases htodo
      exact h.written_runnable hcritical (.of_free (by simp [Write.Free]))
  | reap hzombie =>
      cases htodo
      exact h.written_reap ho hcritical hzombie
  | leave first hfirst hv hcpu hrunning hchild =>
      cases first with
      | nil =>
          cases htodo
          exact h.written_leaves hcritical hv hrunning
      | cons u first =>
          cases htodo
          exact h.written_before hpids hcritical hfirst
  | left => cases htodo

theorem write (h : k.Family) (ho : k.Orderly) (hpids : k.ptable.Pids) {x : List Write × After}
    (hcritical : k.critical c = some x) (hwrite : k.write c x = some k') : k'.Family := by
  obtain ⟨todo, after⟩ := x
  have hother {c' : C} {y : List Write × After}
      (hc : Function.update k.critical c none c' = some y) :
      c' ≠ c ∧ k.critical c' = some y := by
    by_cases hcc : c' = c
    · subst hcc
      rw [Function.update_self] at hc
      cases hc
    · rw [Function.update_of_ne hcc] at hc
      exact ⟨hcc, hc⟩
  cases todo with
  | cons w todo =>
      cases hwrite
      exact written ho hcritical (h.written_cons ho hpids hcritical)
  | nil =>
      cases after with
      | release =>
          cases hwrite
          exact h.same rfl (fun _ => rfl) fun _ _ _ hc => ⟨(hother hc).2, rfl⟩
      | sched r =>
          simp only [Kernel.write] at hwrite
          split at hwrite
          · next p highest hcpu =>
              split at hwrite
              · cases hwrite
              · cases hwrite
                have hframe := (h.pending c _ _ hcritical).frame r p highest rfl hcpu
                refine h.same rfl (fun q => ?_) fun c' _ _ hc => ⟨(hother hc).2, ?_⟩
                · by_cases hq : q = p
                  · subst hq
                    rw [hframe]
                    simp [Kernel.setTask, Task.frame]
                  · simp [Kernel.setTask, Kernel.setCpu, hq]
                · simp [Kernel.setTask, Kernel.setCpu, (hother hc).1]
          · cases hwrite

theorem next (h : k.Family) (ho : k.Orderly) (hpids : k.ptable.Pids)
    (hnext : k.next e = some k') : k'.Family := by
  cases e with
  | scheduler c =>
      simp only [Kernel.next] at hnext
      split at hnext
      · next hcritical => exact h.scheduler ho hcritical hnext
      · cases hnext
  | resume c =>
      simp only [Kernel.next] at hnext
      split at hnext
      · next hcritical hcpu => exact h.resume ho hcritical hcpu hnext
      · cases hnext
  | call c call =>
      simp only [Kernel.next] at hnext
      split at hnext
      · next hcritical hcpu =>
          split at hnext
          · next htask => exact h.call ho hcritical hcpu htask hnext
          · cases hnext
      · cases hnext
  | interrupt c a =>
      simp only [Kernel.next] at hnext
      split at hnext
      · exact h.acquire ho hnext (.of_free (by simp [wakeup1, Write.Free]))
      · cases hnext
  | write c =>
      simp only [Kernel.next] at hnext
      split at hnext
      · next hcritical => exact h.write ho hpids hcritical hnext
      · cases hnext

end Family

end Kernel

/-! ## Runs from boot -/

theorem Ptable.Tree.boot {pt : Ptable} (hboot : userinit .zero = some pt) : pt.Tree := by
  have hnone : (∀ p, (pt.proc p).parent = none) ∧ ∀ p, (pt.proc p).state ≠ .sleeping := by
    obtain rfl : pt = _ := (Option.some.inj hboot).symm
    decide +kernel
  obtain ⟨-, ⟨hpid, hstate⟩, -, hother⟩ := boot_table hboot
  refine ⟨⟨hpid, by simp [hstate, ProcState.Alive], hnone.1 _⟩, fun p _ => hnone.1 p,
    fun p q hq => ?_, fun p _ => ?_, fun p q _ hq => ?_, fun q hq => absurd hq.1 (hnone.2 q)⟩
  · rw [hnone.1 p] at hq
    cases hq
  · by_cases hp : p = pt.initproc
    · exact .inl hp
    · exact .inr (.inl (hother p hp).2)
  · rw [hnone.1 p] at hq
    cases hq

theorem family [DecidableEq C] (hreach : (fromBoot C).Reachable k) : k.Family := by
  induction hreach with
  | init hinit =>
      obtain ⟨⟨-, hcpu⟩, hboot, htask⟩ := hinit
      refine ⟨.boot hboot, fun p np hp => ?_, fun c todo after hc => ?_⟩
      · rw [htask p] at hp
        cases hp
      · rw [(hcpu c).2] at hc
        cases hc
  | step e hreach _ hnext ih =>
      exact ih.next (orderly (reachable_booted hreach)) (pids hreach) hnext

def Ptable.ancestor (pt : Ptable) : Nat → Slot → Option Slot
  | 0, p => some p
  | n + 1, p => (pt.proc p).parent.bind (pt.ancestor n)

/-- `parent` leads from every process to `initproc`: pids fall on the way. -/
theorem Ptable.Tree.exists_ancestor {pt : Ptable} (h : pt.Tree) (hpids : pt.Pids) {p : Slot}
    (hused : (pt.proc p).state ≠ .unused) (hembryo : (pt.proc p).state ≠ .embryo) :
    ∃ n, pt.ancestor n p = some pt.initproc := by
  induction hn : (pt.proc p).pid.toNat using Nat.strong_induction_on generalizing p with
  | h n ih =>
      subst hn
      cases hparent : (pt.proc p).parent with
      | none =>
          have hroot := (h.adopted p hparent).resolve_right (not_or.mpr ⟨hused, hembryo⟩)
          exact ⟨0, congrArg some hroot⟩
      | some q =>
          obtain ⟨⟨hq, hq', -⟩, hage⟩ := h.parent p q hparent
          have hlt : (pt.proc q).pid.toNat < (pt.proc p).pid.toNat := by
            have hbound := (hpids.bound q).1
            omega
          obtain ⟨n, hn⟩ := ih _ hlt hq hq' rfl
          exact ⟨n + 1, by rw [Ptable.ancestor, hparent]; exact hn⟩

/-- Parents are still there and older than their children, so that they lead from every process
that `fork` has made to `initproc`, which never exits.  A free slot has no parent. -/
theorem parents_lead_to_initproc [DecidableEq C] (hreach : (fromBoot C).Reachable k) :
    (k.ptable.proc k.ptable.initproc).state.Alive ∧
      ∀ p, (∀ q, (k.ptable.proc p).parent = some q → (k.ptable.proc p).state ≠ .unused ∧
          (k.ptable.proc q).state.Alive ∧ (k.ptable.proc q).pid < (k.ptable.proc p).pid) ∧
        ((k.ptable.proc p).state ≠ .unused → (k.ptable.proc p).state ≠ .embryo →
          ∃ n, k.ptable.ancestor n p = some k.ptable.initproc) := by
  have h := (family hreach).tree
  refine ⟨h.root.2.1, fun p => ⟨fun q hq => ⟨fun hunused => ?_, h.parent p q hq⟩,
    h.exists_ancestor (pids hreach)⟩⟩
  rw [h.unused p hunused] at hq
  cases hq

open Event in
def forkAndWait : List (Event Unit) :=
  firstFork ++ [call () .copyuvm, call () .forkEnds, write (), write (), write (),
    call () .wait, write (), write (), scheduler (), scheduler (), resume ()]

theorem parents_lead_to_initproc_forkAndWait :
    ∃ k, (fromBoot Unit).Reachable k ∧ (k.ptable.proc ⟨1, by decide⟩).state = .running ∧
      ∃ n, k.ptable.ancestor n ⟨1, by decide⟩ = some k.ptable.initproc := by
  obtain ⟨k, hreach, htest⟩ := System.exists_reachable_of_run (M := fromBoot Unit) forkAndWait
    (fun k : Kernel Unit => decide ((k.ptable.proc ⟨1, by decide⟩).state = .running))
    bootKernel_init (by decide +kernel)
  have hrunning := of_decide_eq_true htest
  refine ⟨k, hreach, hrunning, ((parents_lead_to_initproc hreach).2 _).2 ?_ ?_⟩
  · rw [hrunning]
    decide
  · rw [hrunning]
    decide

/-- A process that has exited has a parent that can still run and is not asleep in `wait`; and
whoever is asleep in `wait` has a child, and none that has exited. -/
theorem exit_wakes_parent [DecidableEq C] (hreach : (fromBoot C).Reachable k) :
    (∀ p, (k.ptable.proc p).state = .zombie → ∃ q, (k.ptable.proc p).parent = some q ∧
        (k.ptable.proc q).state.Alive ∧ ¬k.ptable.Waits q) ∧
      ∀ q, k.ptable.Waits q → (∃ p, (k.ptable.proc p).parent = some q) ∧
        ∀ p, (k.ptable.proc p).parent = some q → (k.ptable.proc p).state ≠ .zombie := by
  have h := (family hreach).tree
  refine ⟨fun p hp => ?_, fun q hq => ⟨h.waits q hq, fun p hp hz => h.reported p q hz hp hq⟩⟩
  have hsome : (k.ptable.proc p).parent ≠ none := by
    intro hnone
    rcases h.adopted p hnone with rfl | hunused | hembryo
    · exact h.root.2.1.2.2 hp
    · rw [hp] at hunused
      cases hunused
    · rw [hp] at hembryo
      cases hembryo
  obtain ⟨q, hq⟩ := Option.ne_none_iff_exists'.mp hsome
  exact ⟨q, hq, (h.parent p q hq).1, h.reported p q hp hq⟩

/-- The first process waits for its child; then the child exits, and it is awake. -/
theorem exit_wakes_parent_forkAndWait :
    (∃ k, (fromBoot Unit).Reachable k ∧ k.ptable.Waits ⟨0, by decide⟩ ∧
      ∃ p, (k.ptable.proc p).parent = some ⟨0, by decide⟩) ∧
    ∃ k, (fromBoot Unit).Reachable k ∧ (k.ptable.proc ⟨1, by decide⟩).state = .zombie ∧
      ∃ q, (k.ptable.proc ⟨1, by decide⟩).parent = some q ∧ ¬k.ptable.Waits q := by
  constructor
  · obtain ⟨k, hreach, htest⟩ := System.exists_reachable_of_run (M := fromBoot Unit) forkAndWait
      (fun k : Kernel Unit => decide (k.ptable.Waits ⟨0, by decide⟩))
      bootKernel_init (by decide +kernel)
    have hwaits := of_decide_eq_true htest
    exact ⟨k, hreach, hwaits, ((exit_wakes_parent hreach).2 _ hwaits).1⟩
  · obtain ⟨k, hreach, htest⟩ := System.exists_reachable_of_run (M := fromBoot Unit)
      (forkAndWait ++ .call () .exit :: List.replicate 130 (.write ()))
      (fun k : Kernel Unit => decide ((k.ptable.proc ⟨1, by decide⟩).state = .zombie))
      bootKernel_init (by decide +kernel)
    have hzombie := of_decide_eq_true htest
    obtain ⟨q, hparent, -, hawake⟩ := (exit_wakes_parent hreach).1 _ hzombie
    exact ⟨k, hreach, hzombie, q, hparent, hawake⟩

end Os20.Xv6
