import Os20.Xv6.Discipline

/-!
# Every step keeps the discipline

Writes, the end of a critical section and the steps of `scheduler`; with the calls of
`Os20.Xv6.Discipline` these are all steps of the machine.
-/

namespace Os20.Xv6

open Os20.Lib.Transition

variable {C : Type*} {k k' : Kernel C} {e : Event C} {c c' : C} {p q : Slot} {highest : Int}

namespace Kernel

namespace Orderly

variable [DecidableEq C]

/-! ## Writes -/

/-- A write of the section of `c`: it takes RUNNING from its own process only, and then has
to call `sched`. -/
theorem written (h : k.Orderly) {w : Write} {todo : List Write} {after : After}
    (hcritical : k.critical c = some (w :: todo, after))
    (hrunning : ∀ q, k.state q = .running → ((w.apply k.ptable).proc q).state = .running ∨
      (∃ highest, k.cpu c = .running q highest) ∧ todo = [] ∧ ∃ r, after = .sched r)
    (hchild : ∀ q np, (k.task q).child = some np →
      ((w.apply k.ptable).proc np).state = .embryo)
    (hsection : Section { k with ptable := w.apply k.ptable } c todo after) :
    Orderly { k with
      ptable := w.apply k.ptable
      critical := Function.update k.critical c (some (todo, after)) } := by
  have hlock : k.lock = some c := h.critical c (by simp [hcritical])
  have honly {c' : C} (hc' : k.lock = some c') : c' = c := Option.some.inj (hc'.symm.trans hlock)
  have hcrit {c' : C} {y : List Write × After}
      (hy : Function.update k.critical c (some (todo, after)) c' = some y) :
      c' = c ∧ y = (todo, after) := by
    by_cases hc : c' = c
    · subst hc
      rw [Function.update_self] at hy
      exact ⟨rfl, (Option.some.inj hy).symm⟩
    · rw [Function.update_of_ne hc] at hy
      exact absurd (h.eq_of_critical hlock (by simp [hy])) hc
  refine ⟨fun c' hc' => ?_, fun c' hc' => ?_, fun c' q highest' hrun hnot => ?_, h.alone,
    fun c' q highest' hrun => ?_, fun q nq hq => .inl (hchild q nq hq), h.injective,
    fun c' todo' after' hc' => ?_⟩
  · obtain ⟨y, hy⟩ := Option.ne_none_iff_exists'.mp hc'
    rw [(hcrit hy).1]
    exact hlock
  · obtain ⟨hheld, hnone⟩ := h.sweeps c' hc'
    rw [honly hheld, hcritical] at hnone
    cases hnone
  · obtain ⟨hheld, hnone⟩ := h.switched c' q highest' hrun hnot
    rw [honly hheld, hcritical] at hnone
    cases hnone
  · rcases h.running c' q highest' hrun with hstate | ⟨r, hr⟩
    · rcases hrunning q hstate with hstate' | ⟨⟨highest'', hrun'⟩, rfl, r, rfl⟩
      · exact .inl hstate'
      · obtain rfl := h.alone c c' q _ _ hrun' hrun
        exact .inr ⟨r, Function.update_self ..⟩
    · have hinside : k.critical c' ≠ none := by simp [hr]
      rw [h.eq_of_critical hlock hinside, hcritical] at hr
      cases hr
  · obtain ⟨rfl, hy⟩ := hcrit hc'
    obtain ⟨rfl, rfl⟩ := Prod.mk.inj hy
    exact hsection.congr (fun _ => rfl) rfl fun _ => rfl

omit [DecidableEq C] in
/-- The slot of a `fork` is EMBRYO, unless the section that claims it is under way. -/
theorem child_embryo (h : k.Orderly) {w : Write} {todo : List Write} {after : After}
    (hcritical : k.critical c = some (w :: todo, after)) {np : Slot}
    (hchild : (k.task q).child = some np) :
    k.state np = .embryo ∨ k.state np = .unused ∧ w = .claim np := by
  refine (h.child q np hchild).imp_right ?_
  rintro ⟨hunused, c', highest, -, hclaim⟩
  have hlock := h.critical c (by simp [hcritical])
  have hinside : k.critical c' ≠ none := by simp [hclaim]
  rw [h.eq_of_critical hlock hinside, hcritical] at hclaim
  cases hclaim
  exact ⟨hunused, rfl⟩

end Orderly

end Kernel

theorem wakeSlot_state (chan : Option Chan) (x : Proc) :
    (wakeSlot chan x).state = x.state ∨
      x.state = .sleeping ∧ (wakeSlot chan x).state = .runnable := by
  unfold wakeSlot
  split
  · next h => exact .inr ⟨h.1, rfl⟩
  · exact .inl rfl

theorem Ptable.modify_state {pt : Ptable} {f : Proc → Proc} (p q : Slot)
    (hf : ∀ x, (f x).state = x.state ∨ x.state = .sleeping ∧ (f x).state = .runnable) :
    ((pt.modify p f).proc q).state = (pt.proc q).state ∨
      (pt.proc q).state = .sleeping ∧ ((pt.modify p f).proc q).state = .runnable := by
  by_cases hq : q = p
  · subst hq
    rw [Ptable.modify_self]
    exact hf _
  · rw [Ptable.modify_of_ne _ hq]
    exact .inl rfl

theorem Write.Benign.apply_state {w : Write} (hw : w.Benign) (pt : Ptable) (q : Slot) :
    ((w.apply pt).proc q).state = (pt.proc q).state ∨
      (pt.proc q).state = .sleeping ∧ ((w.apply pt).proc q).state = .runnable := by
  cases w with
  | claim | runnable | zombie | reap | doze => cases hw
  | inherit np p | setPrio np n =>
      simp only [Write.apply]
      exact Ptable.modify_state np q fun _ => .inl rfl
  | wake p chan =>
      simp only [Write.apply]
      exact Ptable.modify_state p q (wakeSlot_state chan)
  | kill p =>
      simp only [Write.apply]
      refine Ptable.modify_state p q fun x => ?_
      by_cases hx : x.state = .sleeping
      · exact .inr ⟨hx, if_pos hx⟩
      · exact .inl (if_neg hx)
  | adopt p cur =>
      simp only [Write.apply]
      split
      · have hparent (x : Slot) : ((pt.modify p fun p =>
            { p with parent := some pt.initproc }).proc x).state = (pt.proc x).state := by
          by_cases hx : x = p
          · subst hx
            simp
          · simp [Ptable.modify_of_ne _ hx]
        split
        · rw [← hparent q]
          exact wakeSlot_state _ _
        · exact .inl (hparent q)
      · exact .inl rfl

theorem Write.Benign.state_eq {w : Write} (hw : w.Benign) (pt : Ptable)
    (hq : (pt.proc q).state ≠ .sleeping) : ((w.apply pt).proc q).state = (pt.proc q).state :=
  (hw.apply_state pt q).resolve_right fun h => hq h.1

theorem Write.Leaves.apply_state {w : Write} (hw : w.Leaves p) (pt : Ptable) :
    (((w.apply pt).proc p).state = .runnable ∨ ((w.apply pt).proc p).state = .sleeping ∨
      ((w.apply pt).proc p).state = .zombie) ∧
    ∀ q ≠ p, ((w.apply pt).proc q).state = (pt.proc q).state := by
  cases w with
  | runnable x | zombie x | doze x chan =>
      obtain rfl : x = p := hw
      refine ⟨by simp [Write.apply], fun q hq => ?_⟩
      simp [Write.apply, Ptable.modify_of_ne _ hq]
  | claim | inherit | setPrio | wake | kill | reap | adopt => cases hw

namespace Kernel.Orderly

variable [DecidableEq C]

theorem write_benign (h : k.Orderly) {w : Write} {todo : List Write} {after : After}
    (hcritical : k.critical c = some (w :: todo, after)) (hw : w.Benign)
    (hsection : Section { k with ptable := w.apply k.ptable } c todo after) :
    Orderly { k with
      ptable := w.apply k.ptable
      critical := Function.update k.critical c (some (todo, after)) } := by
  refine h.written hcritical (fun q hq => .inl ?_) (fun q np hq => ?_) hsection
  · have hrunning : (k.ptable.proc q).state = .running := hq
    rw [hw.state_eq _ (by simp [hrunning]), hrunning]
  · rcases h.child_embryo hcritical hq with hembryo | ⟨-, rfl⟩
    · have hstate : (k.ptable.proc np).state = .embryo := hembryo
      rw [hw.state_eq _ (by simp [hstate]), hstate]
    · cases hw

theorem write_slot (h : k.Orderly) {w : Write} {todo : List Write} {after : After}
    (hcritical : k.critical c = some (w :: todo, after)) {x : Slot}
    (hx : k.state x ≠ .running)
    (hsame : ∀ q ≠ x, ((w.apply k.ptable).proc q).state = k.state q)
    (hfork : ∀ q, (k.task q).child = some x → ((w.apply k.ptable).proc x).state = .embryo)
    (hclaim : ∀ np, w = .claim np → np = x)
    (hsection : Section { k with ptable := w.apply k.ptable } c todo after) :
    Orderly { k with
      ptable := w.apply k.ptable
      critical := Function.update k.critical c (some (todo, after)) } := by
  refine h.written hcritical (fun q hq => .inl ?_) (fun q np hq => ?_) hsection
  · have hne : q ≠ x := by
      rintro rfl
      exact hx hq
    rw [hsame q hne, hq]
  · by_cases hnp : np = x
    · subst hnp
      exact hfork q hq
    · rcases h.child_embryo hcritical hq with hembryo | ⟨-, hw⟩
      · rw [hsame np hnp, hembryo]
      · exact absurd (hclaim np hw) hnp

theorem write_cons (h : k.Orderly) {w : Write} {todo : List Write} {after : After}
    (hcritical : k.critical c = some (w :: todo, after)) :
    Orderly { k with
      ptable := w.apply k.ptable
      critical := Function.update k.critical c (some (todo, after)) } := by
  have hsection := h.sections c _ _ hcritical
  generalize htodo : w :: todo = writes at hsection
  cases hsection with
  | benign hbenign =>
      subst htodo
      exact h.write_benign hcritical (hbenign w (by simp))
        (.benign fun v hv => hbenign v (List.mem_cons_of_mem _ hv))
  | @claim np hunused =>
      cases htodo
      refine h.write_slot hcritical (x := np) (by simp [hunused]) (fun q hq => ?_)
        (fun _ _ => by simp [Write.apply]) (fun _ heq => (Write.claim.inj heq).symm)
        (.benign (by simp))
      simp [Write.apply, Ptable.modify_of_ne _ hq, state]
  | @start np p hembryo hnone =>
      cases htodo
      refine h.write_slot hcritical (x := np) (by simp [hembryo]) (fun q hq => ?_)
        (fun q hq => absurd hq (hnone q)) (by simp) (.benign (by simp [Write.Benign]))
      simp [Write.apply, Ptable.modify_of_ne _ hq, state]
  | @reap p hzombie =>
      cases htodo
      refine h.write_slot hcritical (x := p) (by simp [hzombie]) (fun q hq => ?_)
        (fun q hq => ?_) (by simp) (.benign (by simp))
      · simp [Write.apply, Ptable.modify_of_ne _ hq, state]
      · rcases h.child_embryo hcritical hq with hembryo | ⟨hunused, -⟩
        · rw [hzombie] at hembryo
          cases hembryo
        · rw [hzombie] at hunused
          cases hunused
  | @leave first v r p highest hfirst hv hcpu hrunning hchild =>
      cases first with
      | nil =>
          cases htodo
          obtain ⟨hgone, hsame⟩ := hv.apply_state k.ptable
          refine h.written hcritical (fun q hq => ?_) (fun q np hq => ?_)
            (.left hcpu hgone hchild)
          · by_cases hqp : q = p
            · subst hqp
              exact .inr ⟨⟨highest, hcpu⟩, rfl, r, rfl⟩
            · exact .inl ((hsame q hqp).trans hq)
          · rcases h.child_embryo hcritical hq with hembryo | ⟨-, rfl⟩
            · have hne : np ≠ p := by
                rintro rfl
                rw [hrunning] at hembryo
                cases hembryo
              exact (hsame np hne).trans hembryo
            · cases hv
      | cons u first =>
          cases htodo
          have hu := hfirst w (by simp)
          have hstate : (k.ptable.proc p).state = .running := hrunning
          refine h.write_benign hcritical hu (.leave first
            (fun v' hv' => hfirst v' (List.mem_cons_of_mem _ hv')) hv hcpu ?_ hchild)
          exact (hu.state_eq _ (by simp [hstate])).trans hstate
  | left => cases htodo

theorem release (h : k.Orderly) (hcritical : k.critical c = some ([], .release)) :
    Orderly { k with lock := none, critical := Function.update k.critical c none } := by
  have hlock : k.lock = some c := h.critical c (by simp [hcritical])
  have honly {c' : C} (hc' : k.lock = some c') : c' = c := Option.some.inj (hc'.symm.trans hlock)
  have hnone (c' : C) : Function.update k.critical c none c' = none := by
    by_cases hc : c' = c
    · subst hc
      rw [Function.update_self]
    · rw [Function.update_of_ne hc]
      by_contra hne
      exact hc (honly (h.critical c' hne))
  refine ⟨fun c' hc' => absurd (hnone c') hc', fun c' hc' => ?_,
    fun c' p highest hcpu hnot => ?_, h.alone, fun c' p highest hcpu => ?_, fun p np hp => ?_,
    h.injective, fun c' todo after hc' => ?_⟩
  · obtain ⟨hheld, hfree⟩ := h.sweeps c' hc'
    rw [honly hheld, hcritical] at hfree
    cases hfree
  · obtain ⟨hheld, hfree⟩ := h.switched c' p highest hcpu hnot
    rw [honly hheld, hcritical] at hfree
    cases hfree
  · rcases h.running c' p highest hcpu with hstate | ⟨r, hr⟩
    · exact .inl hstate
    · have hinside : k.critical c' ≠ none := by simp [hr]
      rw [h.eq_of_critical hlock hinside, hcritical] at hr
      cases hr
  · rcases h.child p np hp with hembryo | ⟨-, c', _, -, hclaim⟩
    · exact .inl hembryo
    · have hinside : k.critical c' ≠ none := by simp [hclaim]
      rw [h.eq_of_critical hlock hinside, hcritical] at hclaim
      cases hclaim
  · cases (hnone c').symm.trans hc'

theorem sched (h : k.Orderly) {r : Resume} (hcritical : k.critical c = some ([], .sched r))
    (hcpu : k.cpu c = .running p highest) :
    Orderly { (k.setCpu c (.back p highest)).setTask p (.sched r) with
      critical := Function.update k.critical c none } := by
  have hlock : k.lock = some c := h.critical c (by simp [hcritical])
  have honly {c' : C} (hc' : k.lock = some c') : c' = c := Option.some.inj (hc'.symm.trans hlock)
  have hcrit {c' : C} {y : List Write × After}
      (hy : Function.update k.critical c none c' = some y) : False := by
    by_cases hc : c' = c
    · subst hc
      rw [Function.update_self] at hy
      cases hy
    · rw [Function.update_of_ne hc] at hy
      exact hc (honly (h.critical c' (by simp [hy])))
  have hframe : (k.task p).child = r.frame.child := by
    have hsection := h.sections c _ _ hcritical
    generalize htodo : ([] : List Write) = todo at hsection
    cases hsection with
    | leave => simp at htodo
    | left hcpu' _ hchild =>
        obtain ⟨rfl, -⟩ := Cpu.running.inj (hcpu.symm.trans hcpu')
        exact hchild
  have hchild (q : Slot) :
      (Function.update k.task p (.sched r) q).child = (k.task q).child := by
    by_cases hq : q = p
    · subst hq
      rw [Function.update_self, hframe]
      rfl
    · rw [Function.update_of_ne hq]
  have hrun {c' : C} {q : Slot} {highest' : Int}
      (hc' : Function.update k.cpu c (.back p highest) c' = .running q highest') :
      c' ≠ c ∧ k.cpu c' = .running q highest' := by
    by_cases hc : c' = c
    · subst hc
      rw [Function.update_self] at hc'
      cases hc'
    · rw [Function.update_of_ne hc] at hc'
      exact ⟨hc, hc'⟩
  refine ⟨fun c' hc' => ?_, fun c' hc' => ?_, fun c' q highest' hc' hnot => ?_,
    fun c₁ c₂ q _ _ h₁ h₂ => h.alone c₁ c₂ q _ _ (hrun h₁).2 (hrun h₂).2,
    fun c' q highest' hc' => ?_, fun q np hq => ?_,
    fun q q' np hq hq' => h.injective q q' np ((hchild q).symm.trans hq)
      ((hchild q').symm.trans hq'), fun c' todo after hc' => (hcrit hc').elim⟩
  · obtain ⟨y, hy⟩ := Option.ne_none_iff_exists'.mp hc'
    exact (hcrit hy).elim
  · by_cases hc : c' = c
    · subst hc
      exact ⟨hlock, Function.update_self ..⟩
    · have hold : (k.cpu c').Sweeps := by
        simpa only [Kernel.setCpu, Kernel.setTask, Function.update_of_ne hc] using hc'
      exact absurd (honly (h.sweeps c' hold).1) hc
  · obtain ⟨hc, hold⟩ := hrun hc'
    have hq : q ≠ p := by
      rintro rfl
      exact hc (h.alone c' c q _ _ hold hcpu)
    refine absurd (honly (h.switched c' q highest' hold fun f hf => hnot f ?_).1) hc
    simpa only [Kernel.setCpu, Kernel.setTask, Function.update_of_ne hq] using hf
  · obtain ⟨hc, hold⟩ := hrun hc'
    rcases h.running c' q highest' hold with hstate | ⟨r', hr'⟩
    · exact .inl hstate
    · exact absurd (honly (h.critical c' (by simp [hr']))) hc
  · have hold : (k.task q).child = some np := (hchild q).symm.trans hq
    rcases h.child q np hold with hembryo | ⟨-, c', _, -, hclaim⟩
    · exact .inl hembryo
    · have hinside : k.critical c' ≠ none := by simp [hclaim]
      rw [h.eq_of_critical hlock hinside, hcritical] at hclaim
      cases hclaim

theorem write (h : k.Orderly) {x : List Write × After} (hcritical : k.critical c = some x)
    (hwrite : k.write c x = some k') : k'.Orderly := by
  obtain ⟨todo, after⟩ := x
  cases todo with
  | cons w todo =>
      cases hwrite
      exact h.write_cons hcritical
  | nil =>
      cases after with
      | release =>
          cases hwrite
          exact h.release hcritical
      | sched r =>
          simp only [Kernel.write] at hwrite
          split at hwrite
          · next p highest hcpu =>
              split at hwrite
              · cases hwrite
              · cases hwrite
                exact h.sched hcritical hcpu
          · cases hwrite

/-! ## `scheduler` -/

theorem lock_eq_none {i : Nat} (hcpu : k.cpu c = .scan i highest) (hi : nproc ≤ i)
    (hnext : k.scheduler c (k.cpu c) = some k') : k.lock = none := by
  simp only [hcpu, Kernel.scheduler, dif_neg (Nat.not_lt.mpr hi)] at hnext
  split at hnext
  · assumption
  · cases hnext

theorem switch (h : k.Orderly) (hswitch : k.Switches c p) :
    Orderly ((k.modify p fun p => { p with state := .running }).setCpu c
      (.running p (k.ptable.proc p).prio)) := by
  obtain ⟨hlock, -⟩ := h.sweeps c (by rw [hswitch.cpu]; trivial)
  have honly {c' : C} (hc' : k.lock = some c') : c' = c := Option.some.inj (hc'.symm.trans hlock)
  have hnone (c' : C) : k.critical c' = none := by
    by_contra hne
    rw [h.eq_of_critical hlock hne] at hne
    exact hne hswitch.critical
  have hstate {q : Slot} (hq : q ≠ p) :
      state ((k.modify p fun p => { p with state := .running }).setCpu c
        (.running p (k.ptable.proc p).prio)) q = k.state q := by
    simp [state, Kernel.setCpu, Kernel.modify, Ptable.modify_of_ne _ hq]
  -- nobody has been switched to `p` before
  have hfresh {c' : C} {highest' : Int} (hc' : k.cpu c' = .running p highest') : False := by
    have hrunning := h.state_running hc' (hnone c')
    have hrunnable : k.state p = .runnable := hswitch.state
    rw [hrunnable] at hrunning
    cases hrunning
  have hrun {c' : C} {q : Slot} {highest' : Int}
      (hc' : Function.update k.cpu c (.running p (k.ptable.proc p).prio) c' =
        .running q highest') : c' = c ∧ q = p ∨ c' ≠ c ∧ k.cpu c' = .running q highest' := by
    by_cases hc : c' = c
    · subst hc
      rw [Function.update_self] at hc'
      exact .inl ⟨rfl, (Cpu.running.inj hc').1.symm⟩
    · rw [Function.update_of_ne hc] at hc'
      exact .inr ⟨hc, hc'⟩
  refine ⟨fun c' hc' => absurd (hnone c') hc', fun c' hc' => ?_,
    fun c' q highest' hc' hnot => ?_, fun c₁ c₂ q _ _ h₁ h₂ => ?_, fun c' q highest' hc' => ?_,
    fun q np hq => ?_, h.injective, fun c' todo after hc' => ?_⟩
  · by_cases hc : c' = c
    · subst hc
      simp [Kernel.setCpu, Cpu.Sweeps] at hc'
    · have hold : (k.cpu c').Sweeps := by
        simpa only [Kernel.setCpu, Kernel.modify, Function.update_of_ne hc] using hc'
      exact absurd (honly (h.sweeps c' hold).1) hc
  · rcases hrun hc' with ⟨rfl, -⟩ | ⟨hc, hold⟩
    · exact ⟨hlock, hswitch.critical⟩
    · exact absurd (honly (h.switched c' q highest' hold hnot).1) hc
  · rcases hrun h₁ with ⟨rfl, rfl⟩ | ⟨-, hold₁⟩
    · rcases hrun h₂ with ⟨rfl, -⟩ | ⟨-, hold₂⟩
      · rfl
      · exact (hfresh hold₂).elim
    · rcases hrun h₂ with ⟨rfl, rfl⟩ | ⟨-, hold₂⟩
      · exact (hfresh hold₁).elim
      · exact h.alone c₁ c₂ q _ _ hold₁ hold₂
  · rcases hrun hc' with ⟨rfl, rfl⟩ | ⟨-, hold⟩
    · exact .inl (by simp [state, Kernel.setCpu, Kernel.modify])
    · have hq : q ≠ p := by
        rintro rfl
        exact hfresh hold
      rw [hstate hq]
      exact .inl (h.state_running hold (hnone c'))
  · rcases h.child q np hq with hembryo | ⟨-, c', _, -, hclaim⟩
    · have hne : np ≠ p := by
        rintro rfl
        have hrunnable : k.state np = .runnable := hswitch.state
        rw [hrunnable] at hembryo
        cases hembryo
      rw [hstate hne]
      exact .inl hembryo
    · rw [hnone c'] at hclaim
      cases hclaim
  · have hfree : k.critical c' = some (todo, after) := hc'
    rw [hnone c'] at hfree
    cases hfree

theorem scheduler (h : k.Orderly) (hcritical : k.critical c = none)
    (hnext : k.scheduler c (k.cpu c) = some k') : k'.Orderly := by
  cases scheduled hcritical hnext with
  | skip p highest hcpu hstate hstep | found p highest hcpu hstate hstep
  | read p highest hcpu hstep =>
      subst hstep
      exact h.setCpu rfl rfl rfl (fun _ => rfl) hcritical (by simp) (by simp [Cpu.Sweeps])
        fun _ _ hc => hc
  | lock i highest hcpu hi hstep =>
      subst hstep
      have hfree := lock_eq_none hcpu hi hnext
      exact h.setCpu rfl rfl rfl (fun _ => rfl) hcritical (by simp) (fun _ => rfl)
        fun _ _ hc => by simp [hfree] at hc
  | pass p highest hcpu hother hstep =>
      subst hstep
      have hheld := (h.sweeps c (by rw [hcpu]; trivial)).1
      exact h.setCpu rfl rfl rfl (fun _ => rfl) hcritical (by simp) (fun _ => hheld)
        fun _ _ hc => hc
  | switch p hswitch hstep =>
      subst hstep
      exact h.switch hswitch
  | round i highest hcpu hi hstep =>
      subst hstep
      have hheld := (h.sweeps c (by rw [hcpu]; trivial)).1
      refine h.setCpu rfl rfl rfl (fun _ => rfl) hcritical (by simp) (by simp [Cpu.Sweeps])
        fun c' hc hc' => ?_
      exact absurd (Option.some.inj (hc'.symm.trans hheld)) hc
  | back p highest hcpu hstep =>
      subst hstep
      have hheld := (h.sweeps c (by rw [hcpu]; trivial)).1
      refine h.setCpu rfl rfl rfl (fun q => ?_) hcritical (by simp) (fun _ => hheld)
        fun _ _ hc => hc
      by_cases hq : q = p
      · subst hq
        simp [state, Kernel.setCpu, Kernel.modify]
      · simp [state, Kernel.setCpu, Kernel.modify, Ptable.modify_of_ne _ hq]

theorem next (h : k.Orderly) (hnext : k.next e = some k') : k'.Orderly := by
  cases e with
  | scheduler c =>
      simp only [Kernel.next] at hnext
      split at hnext
      · next hcritical => exact h.scheduler hcritical hnext
      · cases hnext
  | resume c =>
      simp only [Kernel.next] at hnext
      split at hnext
      · next hcritical hcpu => exact h.resume hcpu hcritical hnext
      · cases hnext
  | call c call =>
      simp only [Kernel.next] at hnext
      split at hnext
      · next hcritical hcpu =>
          split at hnext
          · next htask => exact h.call hcritical hcpu htask hnext
          · cases hnext
      · cases hnext
  | interrupt c a =>
      simp only [Kernel.next] at hnext
      split at hnext
      · exact h.acquire_same hnext (.benign benign_wakeup1)
      · cases hnext
  | write c =>
      simp only [Kernel.next] at hnext
      split at hnext
      · next hcritical => exact h.write hcritical hnext
      · cases hnext

end Kernel.Orderly

/-- All runs from a table of processes none of which is in `fork`. -/
def booted (C : Type*) [DecidableEq C] : System (Kernel C) (Event C) where
  init k := (kernel C).init k ∧ ∀ p, (k.task p).child = none
  next := Kernel.next

theorem orderly [DecidableEq C] (hreach : (booted C).Reachable k) : k.Orderly := by
  induction hreach with
  | init hinit =>
      obtain ⟨⟨hlock, hcpu⟩, hchild⟩ := hinit
      exact ⟨fun c hc => absurd (hcpu c).2 hc, fun c hc => by simp [(hcpu c).1, Cpu.Sweeps] at hc,
        fun c p highest hc => by simp [(hcpu c).1] at hc,
        fun c c' p _ _ hc => by simp [(hcpu c).1] at hc,
        fun c p highest hc => by simp [(hcpu c).1] at hc,
        fun p np hp => by simp [hchild p] at hp, fun p q np hp => by simp [hchild p] at hp,
        fun c todo after hc => by simp [(hcpu c).2] at hc⟩
  | step e _ _ hnext ih => exact ih.next hnext

end Os20.Xv6
