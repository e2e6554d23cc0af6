import Os20.Xv6.Steps

/-!
# The discipline of `ptable.lock`

Whoever writes to the table has the lock, but for `fork`: it fills in the slot that
`allocproc` has given it without the lock, and gives it back so when it fails.  `Orderly` says
who holds the lock where, what a critical section still has to write, and that the slot of a
`fork` is EMBRYO and nobody else's.  Every run keeps it that starts with no process in `fork`.
-/

namespace Os20.Xv6

open Os20.Lib.Transition

/-- The slot that a process in `fork` has from `allocproc`. -/
def Frame.child : Frame → Option Slot
  | .user => none
  | .forking np | .forked np => some np

/-- Where a process goes on behind `sched`. -/
def Resume.frame : Resume → Frame
  | .yield f | .sleep f => f
  | .wait | .exit => .user

def Task.child : Task → Option Slot
  | .forkret => none
  | .sched r => r.frame.child
  | .run f => f.child

def Cpu.Sweeps : Cpu → Prop
  | .sweep _ _ | .back _ _ => True
  | _ => False

/-- Of the states it changes SLEEPING only, to RUNNABLE. -/
def Write.Benign : Write → Prop
  | .wake _ _ | .kill _ | .inherit _ _ | .setPrio _ _ | .adopt _ _ => True
  | _ => False

/-- It takes the state RUNNING from `p`. -/
def Write.Leaves (p : Slot) : Write → Prop
  | .runnable q | .zombie q | .doze q _ => q = p
  | _ => False

variable {C : Type*} {k k' : Kernel C} {e : Event C} {c c' : C} {p q : Slot} {highest : Int}

namespace Kernel

def state (k : Kernel C) (p : Slot) : ProcState := (k.ptable.proc p).state

/-- What `c` may have left of a critical section. -/
inductive Section (k : Kernel C) (c : C) : List Write → After → Prop
  | benign {todo : List Write} (htodo : ∀ w ∈ todo, w.Benign) : Section k c todo .release
  | claim {np : Slot} (hstate : k.state np = .unused) : Section k c [.claim np] .release
  | start {np p : Slot} (hstate : k.state np = .embryo)
      (hchild : ∀ q, (k.task q).child ≠ some np) :
      Section k c [.runnable np, .inherit np p] .release
  | reap {p : Slot} (hstate : k.state p = .zombie) : Section k c [.reap p] .release
  | leave (todo : List Write) {w : Write} {r : Resume} {p : Slot} {highest : Int}
      (htodo : ∀ w ∈ todo, w.Benign) (hw : w.Leaves p) (hcpu : k.cpu c = .running p highest)
      (hstate : k.state p = .running) (hchild : (k.task p).child = r.frame.child) :
      Section k c (todo ++ [w]) (.sched r)
  | left {r : Resume} {p : Slot} {highest : Int} (hcpu : k.cpu c = .running p highest)
      (hstate : k.state p = .runnable ∨ k.state p = .sleeping ∨ k.state p = .zombie)
      (hchild : (k.task p).child = r.frame.child) : Section k c [] (.sched r)

structure Orderly (k : Kernel C) : Prop where
  critical : ∀ c, k.critical c ≠ none → k.lock = some c
  sweeps : ∀ c, (k.cpu c).Sweeps → k.lock = some c ∧ k.critical c = none
  /-- A process that has just been switched to has the lock. -/
  switched : ∀ c p highest, k.cpu c = .running p highest → (∀ f, k.task p ≠ .run f) →
    k.lock = some c ∧ k.critical c = none
  alone : ∀ c c' p highest highest', k.cpu c = .running p highest →
    k.cpu c' = .running p highest' → c = c'
  running : ∀ c p highest, k.cpu c = .running p highest →
    k.state p = .running ∨ ∃ r, k.critical c = some ([], .sched r)
  child : ∀ p np, (k.task p).child = some np → k.state np = .embryo ∨
    k.state np = .unused ∧ ∃ c highest, k.cpu c = .running p highest ∧
      k.critical c = some ([.claim np], .release)
  injective : ∀ p q np, (k.task p).child = some np → (k.task q).child = some np → p = q
  sections : ∀ c todo after, k.critical c = some (todo, after) → k.Section c todo after

/-- A section depends on the states, on its own CPU and on who is in `fork`. -/
theorem Section.congr {todo : List Write} {after : After} (h : k.Section c todo after)
    (hstate : ∀ p, k'.state p = k.state p) (hcpu : k'.cpu c = k.cpu c)
    (hchild : ∀ p, (k'.task p).child = (k.task p).child) : k'.Section c todo after := by
  cases h with
  | benign htodo => exact .benign htodo
  | claim hunused => exact .claim (by rwa [hstate])
  | start hembryo hnone => exact .start (by rwa [hstate]) fun q => by rw [hchild]; exact hnone q
  | reap hzombie => exact .reap (by rwa [hstate])
  | leave todo htodo hw hrun hrunning htask =>
      exact .leave _ htodo hw (hcpu.trans hrun) (by rwa [hstate]) (by rwa [hchild])
  | left hrun hgone htask => exact .left (hcpu.trans hrun) (by rwa [hstate]) (by rwa [hchild])

namespace Orderly

theorem critical_eq_none (h : k.Orderly) (hlock : k.lock ≠ some c) : k.critical c = none := by
  by_contra hcritical
  exact hlock (h.critical c hcritical)

theorem eq_of_critical (h : k.Orderly) (hlock : k.lock = some c)
    (hcritical : k.critical c' ≠ none) : c' = c :=
  (Option.some.inj (hlock.symm.trans (h.critical c' hcritical))).symm

theorem eq_of_sweeps (h : k.Orderly) (hlock : k.lock = some c) (hsweeps : (k.cpu c').Sweeps) :
    c' = c :=
  (Option.some.inj (hlock.symm.trans (h.sweeps c' hsweeps).1)).symm

theorem state_running (h : k.Orderly) (hcpu : k.cpu c = .running p highest)
    (hcritical : k.critical c = none) : k.state p = .running := by
  rcases h.running c p highest hcpu with hstate | ⟨r, hr⟩
  · exact hstate
  · rw [hcritical] at hr
    cases hr

theorem embryo (h : k.Orderly) {np : Slot} (hchild : (k.task p).child = some np)
    (hcpu : k.cpu c = .running p highest) (hcritical : k.critical c = none) :
    k.state np = .embryo := by
  rcases h.child p np hchild with hembryo | ⟨-, c', highest', hcpu', hclaim⟩
  · exact hembryo
  · obtain rfl := h.alone c c' p _ _ hcpu hcpu'
    rw [hcritical] at hclaim
    cases hclaim

theorem congr (h : k.Orderly) (hlock : k'.lock = k.lock) (hcpu : k'.cpu = k.cpu)
    (hcritical : k'.critical = k.critical) (hstate : ∀ p, k'.state p = k.state p)
    (hchild : ∀ p, (k'.task p).child = (k.task p).child)
    (hrun : ∀ p f, k.task p = .run f → ∃ f', k'.task p = .run f') : k'.Orderly where
  critical c := by rw [hcritical, hlock]; exact h.critical c
  sweeps c := by rw [hcpu, hcritical, hlock]; exact h.sweeps c
  switched c p highest hrunning htask := by
    rw [hcpu] at hrunning
    rw [hcritical, hlock]
    refine h.switched c p highest hrunning fun f hf => ?_
    obtain ⟨f', hf'⟩ := hrun p f hf
    exact htask f' hf'
  alone := by rw [hcpu]; exact h.alone
  running c p highest := by rw [hcpu, hcritical, hstate]; exact h.running c p highest
  child p np := by rw [hchild, hcpu, hcritical, hstate]; exact h.child p np
  injective p q np := by rw [hchild, hchild]; exact h.injective p q np
  sections c todo after hc := by
    rw [hcritical] at hc
    exact (h.sections c todo after hc).congr hstate (by rw [hcpu]) hchild

variable [DecidableEq C]

theorem setCpu (h : k.Orderly) {cpu : Cpu} (hcpu : k'.cpu = Function.update k.cpu c cpu)
    (hcritical : k'.critical = k.critical) (htask : k'.task = k.task)
    (hstate : ∀ p, k'.state p = k.state p) (hnone : k.critical c = none)
    (hnew : ∀ p highest, cpu ≠ .running p highest)
    (hsweeps : cpu.Sweeps → k'.lock = some c)
    (hlock : ∀ c' ≠ c, k.lock = some c' → k'.lock = some c') : k'.Orderly := by
  have hne {c' : C} {p : Slot} {highest : Int} (hrun : k'.cpu c' = .running p highest) :
      c' ≠ c ∧ k.cpu c' = .running p highest := by
    rw [hcpu] at hrun
    by_cases hc : c' = c
    · subst hc
      rw [Function.update_self] at hrun
      exact absurd hrun (hnew p highest)
    · rw [Function.update_of_ne hc] at hrun
      exact ⟨hc, hrun⟩
  have hcritical_ne {c' : C} (hc : k.critical c' ≠ none) : c' ≠ c := by
    rintro rfl
    exact hc hnone
  refine ⟨fun c' hc' => ?_, fun c' hc' => ?_, fun c' p highest hrun hnot => ?_,
    fun c₁ c₂ p _ _ h₁ h₂ => h.alone c₁ c₂ p _ _ (hne h₁).2 (hne h₂).2,
    fun c' p highest hrun => ?_, fun p np hchild => ?_, ?_, fun c' todo after hc' => ?_⟩
  · rw [hcritical] at hc'
    exact hlock c' (hcritical_ne hc') (h.critical c' hc')
  · rw [hcpu] at hc'
    rw [hcritical]
    by_cases hc : c' = c
    · subst hc
      rw [Function.update_self] at hc'
      exact ⟨hsweeps hc', hnone⟩
    · rw [Function.update_of_ne hc] at hc'
      exact ⟨hlock c' hc (h.sweeps c' hc').1, (h.sweeps c' hc').2⟩
  · obtain ⟨hc, hrun⟩ := hne hrun
    rw [htask] at hnot
    rw [hcritical]
    have hheld := h.switched c' p highest hrun hnot
    exact ⟨hlock c' hc hheld.1, hheld.2⟩
  · rw [hcritical, hstate]
    exact h.running c' p highest (hne hrun).2
  · rw [htask] at hchild
    rw [hstate, hcritical]
    refine (h.child p np hchild).imp_right ?_
    rintro ⟨hunused, c', highest, hrun, hclaim⟩
    refine ⟨hunused, c', highest, ?_, hclaim⟩
    rwa [hcpu, Function.update_of_ne (hcritical_ne (by simp [hclaim]))]
  · rw [htask]
    exact h.injective
  · rw [hcritical] at hc'
    refine (h.sections c' todo after hc').congr hstate ?_ (by simp [htask])
    rw [hcpu, Function.update_of_ne (hcritical_ne (by simp [hc']))]

theorem acquire (h : k.Orderly) (hlock : k.lock = none) {task : Slot → Task}
    {todo : List Write} {after : After}
    (hrun : ∀ c p highest, k.cpu c = .running p highest → ∀ f, k.task p = .run f →
      ∃ f', task p = .run f')
    (hchild : ∀ p np, (task p).child = some np → k.state np = .embryo ∨
      k.state np = .unused ∧ (∃ highest, k.cpu c = .running p highest) ∧
        todo = [.claim np] ∧ after = .release)
    (hinj : ∀ p q np, (task p).child = some np → (task q).child = some np → p = q)
    (hsection : Section { k with task := task } c todo after) :
    Orderly { k with
      task := task
      lock := some c
      critical := Function.update k.critical c (some (todo, after)) } := by
  have hnone (c' : C) : k.critical c' = none := h.critical_eq_none (by simp [hlock])
  have honly {c' : C} {x : List Write × After}
      (hc' : Function.update k.critical c (some (todo, after)) c' = some x) :
      c' = c ∧ x = (todo, after) := by
    by_cases hc : c' = c
    · subst hc
      rw [Function.update_self] at hc'
      exact ⟨rfl, (Option.some.inj hc').symm⟩
    · rw [Function.update_of_ne hc, hnone] at hc'
      cases hc'
  refine ⟨fun c' hc' => ?_, fun c' hc' => ?_, fun c' p highest hcpu hnot => ?_, h.alone,
    fun c' p highest hcpu => .inl (h.state_running hcpu (hnone c')), fun p np hp => ?_, hinj,
    fun c' todo' after' hc' => ?_⟩
  · obtain ⟨x, hx⟩ := Option.ne_none_iff_exists'.mp hc'
    rw [(honly hx).1]
  · have := (h.sweeps c' hc').1
    simp [hlock] at this
  · have := (h.switched c' p highest hcpu fun f hf => ?_).1
    · simp [hlock] at this
    · obtain ⟨f', hf'⟩ := hrun c' p highest hcpu f hf
      exact hnot f' hf'
  · refine (hchild p np hp).imp_right ?_
    rintro ⟨hunused, ⟨highest, hcpu⟩, rfl, rfl⟩
    exact ⟨hunused, c, highest, hcpu, Function.update_self ..⟩
  · obtain ⟨rfl, hx⟩ := honly hc'
    obtain ⟨rfl, rfl⟩ := Prod.mk.inj hx
    exact hsection.congr (fun _ => rfl) rfl fun _ => rfl

theorem acquire_same (h : k.Orderly) {todo : List Write} {after : After}
    (hacquire : k.acquire c todo after = some k') (hsection : k.Section c todo after) :
    k'.Orderly := by
  obtain ⟨hlock, rfl⟩ := acquire_eq_some hacquire
  refine h.acquire hlock (fun _ _ _ _ f hf => ⟨f, hf⟩) (fun p np hp => ?_) h.injective hsection
  refine (h.child p np hp).imp_right ?_
  rintro ⟨-, c', -, -, hclaim⟩
  rw [h.critical_eq_none (by simp [hlock])] at hclaim
  cases hclaim

/-! ## Calls -/

omit [DecidableEq C] in
theorem forkFails (h : k.Orderly) (hcritical : k.critical c = none)
    (hcpu : k.cpu c = .running p highest) {np : Slot} (htask : k.task p = .run (.forking np)) :
    Orderly ((k.modify np fun np => { np with state := .unused }).setTask p (.run .user)) := by
  have hchild : (k.task p).child = some np := by rw [htask]; rfl
  have hembryo := h.embryo hchild hcpu hcritical
  have hstate {x : Slot} (hx : k.state x ≠ .embryo) :
      state ((k.modify np fun np => { np with state := .unused }).setTask p (.run .user)) x =
        k.state x := by
    have hne : x ≠ np := by
      rintro rfl
      exact hx hembryo
    simp [state, Kernel.modify, Kernel.setTask, Ptable.modify_of_ne _ hne]
  have hembryo_ne {x : Slot} (hx : x ≠ np) :
      state ((k.modify np fun np => { np with state := .unused }).setTask p (.run .user)) x =
        k.state x := by
    simp [state, Kernel.modify, Kernel.setTask, Ptable.modify_of_ne _ hx]
  have htask_of_ne {x : Slot} (hx : x ≠ p) :
      ((k.modify np fun np => { np with state := .unused }).setTask p (.run .user)).task x =
        k.task x := by
    simp [Kernel.setTask, Kernel.modify, hx]
  have hsub {x y : Slot} (hx : (((k.modify np fun np =>
      { np with state := .unused }).setTask p (.run .user)).task x).child = some y) :
      x ≠ p ∧ (k.task x).child = some y := by
    by_cases hxp : x = p
    · subst hxp
      simp [Kernel.setTask, Task.child, Frame.child] at hx
    · rw [htask_of_ne hxp] at hx
      exact ⟨hxp, hx⟩
  refine ⟨h.critical, h.sweeps, fun c' q highest' hrun hnot => ?_, h.alone,
    fun c' q highest' hrun => ?_, fun q nq hq => ?_,
    fun q q' nq hq hq' => h.injective q q' nq (hsub hq).2 (hsub hq').2,
    fun c' todo after hc' => ?_⟩
  · refine h.switched c' q highest' hrun fun f hf => ?_
    by_cases hqp : q = p
    · subst hqp
      exact hnot .user (by simp [Kernel.setTask])
    · exact hnot f (by rw [htask_of_ne hqp, hf])
  · rcases h.running c' q highest' hrun with hrunning | hleft
    · exact .inl (by rw [hstate (by simp [hrunning]), hrunning])
    · exact .inr hleft
  · obtain ⟨hqp, hold⟩ := hsub hq
    have hne : nq ≠ np := by
      rintro rfl
      exact hqp (h.injective q p nq hold hchild)
    rw [hembryo_ne hne]
    exact h.child q nq hold
  · -- the section is another CPU's
    have hother {q : Slot} {highest' : Int} (hrun : k.cpu c' = .running q highest') : q ≠ p := by
      rintro rfl
      obtain rfl := h.alone c c' q _ _ hcpu hrun
      simp [Kernel.setTask, Kernel.modify, hcritical] at hc'
    cases h.sections c' todo after hc' with
    | benign htodo => exact .benign htodo
    | claim hunused => exact .claim (by rw [hstate (by simp [hunused]), hunused])
    | @start x _ hemb hnone =>
        have hne : x ≠ np := by
          rintro rfl
          exact hnone p hchild
        refine .start ?_ fun q hq => hnone q (hsub hq).2
        rw [hembryo_ne hne, hemb]
    | reap hzombie => exact .reap (by rw [hstate (by simp [hzombie]), hzombie])
    | leave todo htodo hw hrun hrunning hframe =>
        refine .leave todo htodo hw hrun ?_ ?_
        · rw [hstate (by simp [hrunning]), hrunning]
        · rw [htask_of_ne (hother hrun), hframe]
    | left hrun hgone hframe =>
        refine .left hrun ?_ ?_
        · rwa [hstate (by rcases hgone with hg | hg | hg <;> simp [hg])]
        · rw [htask_of_ne (hother hrun), hframe]

theorem allocproc (h : k.Orderly) (hcpu : k.cpu c = .running p highest) {np : Slot}
    (hunused : k.ptable.firstUnused = some np)
    (hacquire : ((k.setTask np .forkret).setTask p (.run (.forking np))).acquire c [.claim np]
      .release = some k') : k'.Orderly := by
  obtain ⟨hfree, rfl⟩ := acquire_eq_some hacquire
  have hlock : k.lock = none := hfree
  have hstate : k.state np = .unused := by
    have hfound := List.find?_some hunused
    simpa [state] using hfound
  have hnone (c' : C) : k.critical c' = none := h.critical_eq_none (by simp [hlock])
  have hne : p ≠ np := by
    rintro rfl
    have hrunning := h.state_running hcpu (hnone c)
    rw [hstate] at hrunning
    cases hrunning
  -- the others' slots are EMBRYO
  have hold {q nq : Slot} (hq : (k.task q).child = some nq) : k.state nq = .embryo := by
    rcases h.child q nq hq with hembryo | ⟨-, c', _, -, hclaim⟩
    · exact hembryo
    · rw [hnone c'] at hclaim
      cases hclaim
  have hcases {q nq : Slot} (hq : ((((k.setTask np .forkret).setTask p
      (.run (.forking np))).task q).child = some nq)) :
      q = p ∧ nq = np ∨ q ≠ p ∧ (k.task q).child = some nq := by
    by_cases hqp : q = p
    · subst hqp
      refine .inl ⟨rfl, ?_⟩
      simpa [Kernel.setTask, Task.child, Frame.child, eq_comm] using hq
    · refine .inr ⟨hqp, ?_⟩
      by_cases hqn : q = np
      · subst hqn
        simp [Kernel.setTask, hqp, Task.child] at hq
      · simpa [Kernel.setTask, hqp, hqn] using hq
  refine h.acquire hlock (fun c' q highest' hrun f hf => ?_) (fun q nq hq => ?_)
    (fun q q' nq hq hq' => ?_) (.claim hstate)
  · by_cases hqp : q = p
    · subst hqp
      exact ⟨.forking np, by simp [Kernel.setTask]⟩
    · by_cases hqn : q = np
      · subst hqn
        have hrunning := h.state_running hrun (hnone c')
        rw [hstate] at hrunning
        cases hrunning
      · exact ⟨f, by simpa [Kernel.setTask, hqp, hqn] using hf⟩
  · rcases hcases hq with ⟨rfl, rfl⟩ | ⟨-, hq⟩
    · exact .inr ⟨hstate, ⟨highest, hcpu⟩, rfl, rfl⟩
    · exact .inl (hold hq)
  · have hnew {x : Slot} (hx : (k.task x).child = some np) : False := by
      have hembryo := hold hx
      rw [hstate] at hembryo
      cases hembryo
    rcases hcases hq with ⟨rfl, rfl⟩ | ⟨-, hq₁⟩
    · rcases hcases hq' with ⟨rfl, -⟩ | ⟨-, hq₂⟩
      · rfl
      · exact (hnew hq₂).elim
    · rcases hcases hq' with ⟨-, rfl⟩ | ⟨-, hq₂⟩
      · exact (hnew hq₁).elim
      · exact h.injective q q' nq hq₁ hq₂

theorem forkEnds (h : k.Orderly) (hcpu : k.cpu c = .running p highest) {np : Slot}
    (htask : k.task p = .run (.forked np))
    (hacquire : (k.setTask p (.run .user)).acquire c [.runnable np, .inherit np p] .release =
      some k') : k'.Orderly := by
  obtain ⟨hfree, rfl⟩ := acquire_eq_some hacquire
  have hlock : k.lock = none := hfree
  have hnone (c' : C) : k.critical c' = none := h.critical_eq_none (by simp [hlock])
  have hchild : (k.task p).child = some np := by rw [htask]; rfl
  have hsub {q nq : Slot} (hq : ((k.setTask p (.run .user)).task q).child = some nq) :
      q ≠ p ∧ (k.task q).child = some nq := by
    by_cases hqp : q = p
    · subst hqp
      simp [Kernel.setTask, Task.child, Frame.child] at hq
    · exact ⟨hqp, by simpa [Kernel.setTask, hqp] using hq⟩
  refine h.acquire hlock (fun c' q highest' hrun f hf => ?_) (fun q nq hq => ?_)
    (fun q q' nq hq hq' => h.injective q q' nq (hsub hq).2 (hsub hq').2) (.start ?_ ?_)
  · by_cases hqp : q = p
    · subst hqp
      exact ⟨.user, by simp [Kernel.setTask]⟩
    · exact ⟨f, by simpa [Kernel.setTask, hqp] using hf⟩
  · rcases h.child q nq (hsub hq).2 with hembryo | ⟨-, c', _, -, hclaim⟩
    · exact .inl hembryo
    · rw [hnone c'] at hclaim
      cases hclaim
  · exact h.embryo hchild hcpu (hnone c)
  · intro q hq
    exact (hsub hq).1 (h.injective q p np (hsub hq).2 hchild)

theorem benign_wakeup1 {chan : Option Chan} : ∀ w ∈ wakeup1 chan, w.Benign := by
  intro w hw
  obtain ⟨q, -, rfl⟩ := List.mem_map.mp hw
  trivial

omit [DecidableEq C] in
theorem section_exit (hcpu : k.cpu c = .running p highest) (hstate : k.state p = .running)
    (htask : k.task p = .run .user) : k.Section c (exitWrites k.ptable p) (.sched .exit) := by
  refine .leave _ ?_ rfl hcpu hstate (by rw [htask]; rfl)
  intro w hw
  rcases List.mem_append.mp hw with hw | hw
  · exact benign_wakeup1 w hw
  · obtain ⟨q, -, rfl⟩ := List.mem_map.mp hw
    trivial

omit [DecidableEq C] in
theorem section_wait (hcpu : k.cpu c = .running p highest) (hstate : k.state p = .running)
    (htask : k.task p = .run .user) :
    k.Section c (k.waitSection p).1 (k.waitSection p).2 := by
  unfold waitSection
  split
  · next child hchild =>
      have hfound := List.find?_some hchild
      simp only [decide_eq_true_eq] at hfound
      exact .reap hfound.2
  · split
    · exact .benign (by simp)
    · exact .leave [] (by simp) rfl hcpu hstate (by rw [htask]; rfl)

theorem call (h : k.Orderly) (hcritical : k.critical c = none)
    (hcpu : k.cpu c = .running p highest) {f : Frame} (htask : k.task p = .run f) {call : Call}
    (hcall : k.call c p f call = some k') : k'.Orderly := by
  have hstate := h.state_running hcpu hcritical
  cases call with
  | allocproc =>
      simp only [Kernel.call] at hcall
      split at hcall
      · next hunused => exact h.allocproc hcpu hunused hcall
      · exact h.acquire_same hcall (.benign (by simp))
      · cases hcall
  | forkFails =>
      simp only [Kernel.call] at hcall
      split at hcall
      · cases hcall
        exact h.forkFails hcritical hcpu htask
      · cases hcall
  | copyuvm =>
      simp only [Kernel.call] at hcall
      split at hcall
      · next np =>
          cases hcall
          refine h.congr rfl rfl rfl (fun q => ?_) (fun q => ?_) fun q f hf => ?_
          · by_cases hq : q = np
            · subst hq
              simp [state, Kernel.setTask, Kernel.modify]
            · simp [state, Kernel.setTask, Kernel.modify, Ptable.modify_of_ne _ hq]
          · by_cases hq : q = p
            · subst hq
              simp [Kernel.setTask, htask, Task.child, Frame.child]
            · simp [Kernel.setTask, Kernel.modify, hq]
          · by_cases hq : q = p
            · subst hq
              exact ⟨.forked np, by simp [Kernel.setTask]⟩
            · exact ⟨f, by simpa [Kernel.setTask, Kernel.modify, hq] using hf⟩
      · cases hcall
  | forkEnds =>
      simp only [Kernel.call] at hcall
      split at hcall
      · exact h.forkEnds hcpu htask hcall
      · cases hcall
  | exit =>
      simp only [Kernel.call] at hcall
      split at hcall
      · next huser =>
          obtain ⟨rfl, -⟩ := huser
          exact h.acquire_same hcall (section_exit hcpu hstate htask)
      · cases hcall
  | wait =>
      simp only [Kernel.call] at hcall
      split at hcall
      · next huser =>
          subst huser
          exact h.acquire_same hcall (section_wait hcpu hstate htask)
      · cases hcall
  | sleep a =>
      simp only [Kernel.call] at hcall
      split at hcall
      · exact h.acquire_same hcall
          (.leave [] (by simp) rfl hcpu hstate (by rw [htask]; rfl))
      · cases hcall
  | yield =>
      exact h.acquire_same hcall
        (.leave [] (by simp) rfl hcpu hstate (by rw [htask]; rfl))
  | wakeup a =>
      simp only [Kernel.call] at hcall
      split at hcall
      · exact h.acquire_same hcall (.benign benign_wakeup1)
      · cases hcall
  | kill pid =>
      simp only [Kernel.call] at hcall
      split at hcall
      · refine h.acquire_same hcall (.benign fun w hw => ?_)
        obtain ⟨q, -, rfl⟩ := List.mem_map.mp hw
        trivial
      · cases hcall
  | setPrio n =>
      simp only [Kernel.call] at hcall
      split at hcall
      · exact h.acquire_same hcall (.benign (by simp [Write.Benign]))
      · cases hcall
  | growproc sz =>
      simp only [Kernel.call] at hcall
      split at hcall
      · cases hcall
        refine h.congr rfl rfl rfl (fun q => ?_) (fun _ => rfl) fun q f hf => ⟨f, hf⟩
        by_cases hq : q = p
        · subst hq
          simp [state, Kernel.modify]
        · simp [state, Kernel.modify, Ptable.modify_of_ne _ hq]
      · cases hcall

/-! ## Coming out of `sched` -/

/-- The process on `c` goes on behind `sched` with what it was in the middle of, and gives the
lock back or begins a critical section with it. -/
theorem resumed (h : k.Orderly) (hcpu : k.cpu c = .running p highest)
    (hswitched : ∀ f, k.task p ≠ .run f) {f : Frame} (hframe : (k.task p).child = f.child)
    (hcpus : k'.cpu = k.cpu) (htask : k'.task = Function.update k.task p (.run f))
    (hstate : ∀ q, k'.state q = k.state q) {x : Option (List Write × After)}
    (hcritical : k'.critical = Function.update k.critical c x)
    (hlock : x ≠ none → k'.lock = some c)
    (hsection : ∀ todo after, x = some (todo, after) → k'.Section c todo after) :
    k'.Orderly := by
  obtain ⟨hheld, hnone⟩ := h.switched c p highest hcpu hswitched
  have hnones (c' : C) : k.critical c' = none := by
    by_contra hne
    rw [h.eq_of_critical hheld hne] at hne
    exact hne hnone
  have honly {c' : C} {y : List Write × After} (hy : k'.critical c' = some y) :
      c' = c ∧ x = some y := by
    rw [hcritical] at hy
    by_cases hc : c' = c
    · subst hc
      rw [Function.update_self] at hy
      exact ⟨rfl, hy⟩
    · rw [Function.update_of_ne hc, hnones] at hy
      cases hy
  have hchild (q : Slot) : (k'.task q).child = (k.task q).child := by
    rw [htask]
    by_cases hq : q = p
    · subst hq
      rw [Function.update_self, hframe]
      rfl
    · rw [Function.update_of_ne hq]
  refine ⟨fun c' hc' => ?_, fun c' hc' => ?_, fun c' q highest' hrun hnot => ?_,
    fun c₁ c₂ q _ _ => by rw [hcpus]; exact h.alone c₁ c₂ q _ _, fun c' q highest' hrun => ?_,
    fun q nq hq => ?_, fun q q' nq => by rw [hchild, hchild]; exact h.injective q q' nq,
    fun c' todo after hc' => ?_⟩
  · obtain ⟨y, hy⟩ := Option.ne_none_iff_exists'.mp hc'
    obtain ⟨rfl, hx⟩ := honly hy
    exact hlock (by simp [hx])
  · rw [hcpus] at hc'
    rw [h.eq_of_sweeps hheld hc', hcpu] at hc'
    exact hc'.elim
  · rw [hcpus] at hrun
    by_cases hq : q = p
    · subst hq
      exact absurd (by rw [htask, Function.update_self]) (hnot f)
    · rw [htask, Function.update_of_ne hq] at hnot
      obtain rfl : c' = c :=
        Option.some.inj ((h.switched c' q highest' hrun hnot).1.symm.trans hheld)
      rw [hcpu] at hrun
      exact absurd (Cpu.running.inj hrun).1.symm hq
  · rw [hcpus] at hrun
    rw [hstate]
    exact .inl (h.state_running hrun (hnones c'))
  · rw [hchild] at hq
    rw [hstate]
    rcases h.child q nq hq with hembryo | ⟨-, c', _, -, hclaim⟩
    · exact .inl hembryo
    · rw [hnones c'] at hclaim
      cases hclaim
  · obtain ⟨rfl, hx⟩ := honly hc'
    exact hsection todo after hx

theorem resume (h : k.Orderly) (hcpu : k.cpu c = .running p highest) (hnone : k.critical c = none)
    (hresume : k.resume c p (k.task p) = some k') : k'.Orderly := by
  have hsame : k.critical = Function.update k.critical c none := by
    rw [← hnone, Function.update_eq_self]
  have hstate := h.state_running hcpu hnone
  have hchan (q : Slot) :
      (((k.ptable.modify p fun p => { p with chan := none }).proc q).state) = k.state q := by
    by_cases hq : q = p
    · subst hq
      simp [state]
    · simp [state, Ptable.modify_of_ne _ hq]
  cases htask : k.task p with
  | forkret =>
      rw [htask] at hresume
      cases hresume
      exact h.resumed hcpu (by simp [htask]) (f := .user) (by rw [htask]; rfl) rfl rfl
        (fun _ => rfl) hsame (by simp) (by simp)
  | sched r =>
      rw [htask] at hresume
      cases r with
      | yield f =>
          cases hresume
          exact h.resumed hcpu (by simp [htask]) (by rw [htask]; rfl) rfl rfl (fun _ => rfl)
            hsame (by simp) (by simp)
      | sleep f =>
          cases hresume
          exact h.resumed hcpu (by simp [htask]) (by rw [htask]; rfl) rfl rfl hchan hsame
            (by simp) (by simp)
      | wait =>
          cases hresume
          refine h.resumed hcpu (by simp [htask]) (f := .user) (by rw [htask]; rfl) rfl rfl hchan
            rfl (fun _ => (h.switched c p highest hcpu (by simp [htask])).1) ?_
          intro todo after hx
          obtain ⟨rfl, rfl⟩ := Prod.mk.inj (Option.some.inj hx)
          exact (section_wait (k := (k.modify p fun p => { p with chan := none }).setTask p
            (.run .user)) hcpu ((hchan p).trans hstate) (by simp [Kernel.setTask])).congr
            (fun _ => rfl) rfl fun _ => rfl
      | exit => cases hresume
  | run f =>
      rw [htask] at hresume
      cases hresume

end Orderly

end Kernel

end Os20.Xv6
