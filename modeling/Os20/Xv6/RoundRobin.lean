import Os20.Xv6.Priority

/-!
# Rounds on one CPU

In every round all processes of the priority that is served have one turn.  Two of them that
are never away get the same number of turns, whatever priority the rounds between serve.
-/

namespace Os20.Xv6

open Os20.Lib.Transition

variable {C : Type*} [DecidableEq C]

/-- The turns that event `e` gives to `p`. -/
def Kernel.turn (k : Kernel C) (p : Slot) : Event C → Nat
  | .scheduler c => if k.Switches c p then 1 else 0
  | _ => 0

/-- The machine, with a count of the turns of each process. -/
def counted (C : Type*) [DecidableEq C] : System (Kernel C × (Slot → Nat)) (Event C) where
  init s := (kernel C).init s.1 ∧ ∀ p, s.2 p = 0
  next s e := (s.1.next e).map fun k => (k, fun p => s.2 p + s.1.turn p e)

/-- `p` wants the CPU, with priority `prio`. -/
structure Kernel.Present (k : Kernel C) (p : Slot) (prio : Int) : Prop where
  state : (k.ptable.proc p).state = .runnable ∨ (k.ptable.proc p).state = .running
  prio : (k.ptable.proc p).prio = prio

instance (k : Kernel C) (p : Slot) (prio : Int) : Decidable (k.Present p prio) :=
  decidable_of_iff (((k.ptable.proc p).state = .runnable ∨ (k.ptable.proc p).state = .running) ∧
    (k.ptable.proc p).prio = prio) ⟨fun ⟨h₁, h₂⟩ => ⟨h₁, h₂⟩, fun ⟨h₁, h₂⟩ => ⟨h₁, h₂⟩⟩

variable {k k' : Kernel C} {e : Event C} {c : C} {p q : Slot} {prio : Int} {n n' : Slot → Nat}

omit [DecidableEq C] in
theorem Kernel.Present.runnable (h : k.Present p prio)
    (hrunning : (k.ptable.proc p).state ≠ .running) : (k.ptable.proc p).state = .runnable :=
  h.state.resolve_right hrunning

/-- The second loop, at slot `i` with maximum `highest`, has given `p` its turn. -/
def served (p : Slot) (prio : Int) (i : Nat) (highest : Int) : Nat :=
  if highest = prio ∧ p < i then 1 else 0

def Cpu.swept : Cpu → Nat
  | .scan _ _ | .peek _ _ => 0
  | .sweep i _ => i
  | .running p _ | .back p _ => p + 1

/-- What holds of a process with `m` turns before this round: it is RUNNING where it has been
switched to and nowhere else, and has had its turn of this round. -/
structure Turns (k : Kernel C) (c : C) (p : Slot) (prio : Int) (m turns : Nat) : Prop where
  running : (k.ptable.proc p).state = .running → ∃ highest, k.cpu c = .running p highest
  turns : turns = m + served p prio (k.cpu c).swept (k.cpu c).highest

theorem served_zero (p : Slot) (prio highest : Int) : served p prio 0 highest = 0 := by
  simp [served]

theorem served_le_one (p : Slot) (prio highest : Int) (i : Nat) : served p prio i highest ≤ 1 := by
  unfold served
  split
  · exact Nat.le_refl 1
  · exact Nat.zero_le 1

theorem served_succ_of_ne {i : Nat} (hne : (p : Nat) ≠ i) (highest : Int) :
    served p prio (i + 1) highest = served p prio i highest := by
  have hlt : (p : Nat) < i + 1 ↔ (p : Nat) < i := by omega
  simp only [served, hlt]

theorem served_of_ge {i : Nat} (hi : nproc ≤ i) (highest : Int) :
    served p prio i highest = if highest = prio then 1 else 0 := by
  have hlt : (p : Nat) < i := p.isLt.trans_le hi
  simp only [served, hlt, and_true]

omit [DecidableEq C] in
theorem Kernel.turn_eq_zero (hne : ∀ c, e = .scheduler c → ¬k.Switches c p) : k.turn p e = 0 := by
  cases e with
  | scheduler c => exact if_neg (hne c rfl)
  | resume | call | interrupt | write => rfl

namespace Turns

variable {m t : Nat}

omit [DecidableEq C] in
theorem not_running (h : Turns k c p prio m t) (hcpu : ∀ highest, k.cpu c ≠ .running p highest) :
    (k.ptable.proc p).state ≠ .running := by
  intro hrunning
  obtain ⟨highest, hcpu'⟩ := h.running hrunning
  exact hcpu highest hcpu'

omit [DecidableEq C] in
theorem stay (h : Turns k c p prio m t) (hcpu : ∀ highest, k.cpu c ≠ .running p highest)
    (hswitch : ¬k.Switches c p)
    (hrunning : (k'.ptable.proc p).state = .running → (k.ptable.proc p).state = .running)
    (hserved : served p prio (k'.cpu c).swept (k'.cpu c).highest =
      served p prio (k.cpu c).swept (k.cpu c).highest) :
    Turns k' c p prio m (t + k.turn p (.scheduler c)) := by
  refine ⟨fun h' => absurd (hrunning h') (h.not_running hcpu), ?_⟩
  rw [hserved, Kernel.turn, if_neg hswitch]
  exact h.turns

theorem scheduled (hscheduled : k.Scheduled c k') (prio : Int) (m : Nat) :
    ∃ m', ∀ p t, k.Present p prio → Turns k c p prio m t →
      Turns k' c p prio m' (t + k.turn p (.scheduler c)) := by
  cases hscheduled with
  | skip x highest hcpu _ hstep | found x highest hcpu _ hstep | read x highest hcpu hstep
  | lock x highest hcpu _ hstep =>
      subst hstep
      refine ⟨m, fun p t _ h => h.stay (by simp [hcpu]) (fun hswitch => ?_) (fun h' => h') ?_⟩
      · simp [hswitch.cpu] at hcpu
      · simp [hcpu, Cpu.swept, served_zero]
  | pass x highest hcpu hother hstep =>
      subst hstep
      refine ⟨m, fun p t hpresent h =>
        h.stay (by simp [hcpu]) (fun hswitch => ?_) (fun h' => h') ?_⟩
      · obtain ⟨hx, hprio⟩ := Cpu.sweep.inj (hcpu.symm.trans hswitch.cpu)
        obtain rfl : x = p := Fin.ext hx
        exact hother.elim (absurd hswitch.state) (absurd hprio.symm)
      · rw [Kernel.setCpu_self, hcpu]
        by_cases hx : p = x
        · subst hx
          have hrunnable := hpresent.runnable (h.not_running (by simp [hcpu]))
          have hprio : highest ≠ prio := by
            rw [← hpresent.prio]
            exact fun heq => hother.elim (absurd hrunnable) (absurd heq.symm)
          simp [served, Cpu.highest, hprio]
        · exact served_succ_of_ne (Fin.val_ne_of_ne hx) highest
  | switch x hswitch hstep =>
      subst hstep
      refine ⟨m, fun p t hpresent h => ?_⟩
      have hrunning := h.not_running (by simp [hswitch.cpu])
      by_cases hx : p = x
      · subst hx
        refine ⟨fun _ => ⟨_, Kernel.setCpu_self _ _ _⟩, ?_⟩
        have hturns := h.turns
        rw [hswitch.cpu, hpresent.prio] at hturns
        rw [Kernel.setCpu_self, Kernel.turn, if_pos hswitch, hpresent.prio, hturns]
        simp [served, Cpu.swept, Cpu.highest]
      · refine h.stay (by simp [hswitch.cpu]) (fun hswitch' => ?_) (fun h' => ?_) ?_
        · obtain ⟨hx', -⟩ := Cpu.sweep.inj (hswitch.cpu.symm.trans hswitch'.cpu)
          exact hx (Fin.ext hx'.symm)
        · rwa [Kernel.setCpu_ptable, Kernel.modify_ptable, Ptable.modify_of_ne _ hx] at h'
        · rw [Kernel.setCpu_self, hswitch.cpu]
          exact served_succ_of_ne (Fin.val_ne_of_ne hx) _
  | round i highest hcpu hi hstep =>
      subst hstep
      refine ⟨m + if highest = prio then 1 else 0, fun p t _ h => ⟨fun hrunning => ?_, ?_⟩⟩
      · exact absurd hrunning (h.not_running (by simp [hcpu]))
      · have hturns := h.turns
        rw [hcpu] at hturns
        have hswitch : ¬k.Switches c p := by
          intro hswitch
          obtain ⟨rfl, -⟩ := Cpu.sweep.inj (hcpu.symm.trans hswitch.cpu)
          exact absurd p.isLt (Nat.not_lt.mpr hi)
        rw [Kernel.turn, if_neg hswitch, hturns, Cpu.swept, Cpu.highest, served_of_ge hi]
        simp [Cpu.swept, served_zero]
  | back x highest hcpu hstep =>
      subst hstep
      refine ⟨m, fun p t _ h => h.stay (by simp [hcpu]) (fun hswitch => ?_) (fun h' => ?_) ?_⟩
      · simp [hswitch.cpu] at hcpu
      · rw [Kernel.setCpu_ptable, Kernel.modify_ptable] at h'
        exact Ptable.running_of_modify h' fun _ hx => hx
      · simp [hcpu, Cpu.swept, Cpu.highest]

/-- One step, with the turns that it adds.  `m'` is `m` unless the step ends the round. -/
theorem step [Subsingleton C] (hnext : k.next e = some k') (c : C) (prio : Int) (m : Nat) :
    ∃ m', ∀ p t, k.Present p prio → Turns k c p prio m t →
      Turns k' c p prio m' (t + k.turn p e) := by
  cases Kernel.stepped hnext with
  | quiet hscheduler hquiet =>
      refine ⟨m, fun p t _ h => ⟨fun hrunning => ?_, ?_⟩⟩
      · rw [hquiet.cpu]
        exact h.running (hquiet.running p hrunning)
      · rw [hquiet.cpu, Kernel.turn_eq_zero fun c he => absurd he (hscheduler c)]
        exact h.turns
  | sched c' x highest hscheduler hcpu hcpu' hstate hptable =>
      obtain rfl : c' = c := Subsingleton.elim _ _
      refine ⟨m, fun p t _ h => ⟨fun hrunning => ?_, ?_⟩⟩
      · rw [hptable] at hrunning
        obtain ⟨highest', hcpu''⟩ := h.running hrunning
        obtain ⟨rfl, -⟩ := Cpu.running.inj (hcpu.symm.trans hcpu'')
        exact absurd hrunning hstate
      · rw [Kernel.turn_eq_zero fun c he => absurd he (hscheduler c), hcpu']
        simpa [hcpu, Cpu.swept, Cpu.highest] using h.turns
  | scheduler c' he hscheduled =>
      obtain rfl : c' = c := Subsingleton.elim _ _
      subst he
      exact scheduled hscheduled prio m

end Turns

/-- Two processes of one priority that are never away have the same number of turns at the end
of every round, and differ by at most one inside a round. -/
theorem roundRobin [Subsingleton C] {es : List (Event C)} (hstart : k.cpu c = .scan 0 0)
    (hp : (k.ptable.proc p).state = .runnable) (hq : (k.ptable.proc q).state = .runnable)
    (hpresent : (counted C).Along (fun s => s.1.Present p prio ∧ s.1.Present q prio)
      (k, fun _ => 0) es)
    (hrun : (counted C).run (k, fun _ => 0) es = some (k', n)) :
    n p ≤ n q + 1 ∧ n q ≤ n p + 1 ∧ (k'.cpu c = .scan 0 0 → n p = n q) := by
  have hinit {x : Slot} (hx : (k.ptable.proc x).state = .runnable) : Turns k c x prio 0 0 := by
    refine ⟨fun hrunning => ?_, ?_⟩
    · rw [hx] at hrunning
      cases hrunning
    · simp [hstart, Cpu.swept, served_zero]
  obtain ⟨m, hturns⟩ : ∃ m, Turns k' c p prio m (n p) ∧ Turns k' c q prio m (n q) := by
    refine hpresent.invariant
      (I := fun s => ∃ m, Turns s.1 c p prio m (s.2 p) ∧ Turns s.1 c q prio m (s.2 q))
      ⟨0, hinit hp, hinit hq⟩ ?_ hrun
    intro s e s' hs _ hI hnext
    obtain ⟨m, hmp, hmq⟩ := hI
    obtain ⟨l, hnext', rfl⟩ := Option.map_eq_some_iff.mp hnext
    obtain ⟨m', hstep⟩ := Turns.step hnext' c prio m
    exact ⟨m', hstep p _ hs.1 hmp, hstep q _ hs.2 hmq⟩
  have hle := served_le_one p prio (k'.cpu c).highest (k'.cpu c).swept
  have hle' := served_le_one q prio (k'.cpu c).highest (k'.cpu c).swept
  have heq := hturns.1.turns
  have heq' := hturns.2.turns
  refine ⟨by omega, by omega, fun hend => ?_⟩
  simp only [hend, Cpu.swept, served_zero] at heq heq'
  rw [heq, heq']

/-- A whole round. -/
theorem roundRobin_round :
    ∃ es k n, (counted Unit).run (startKernel, fun _ => 0) es = some (k, n) ∧
      k.cpu () = .scan 0 0 ∧ n 0 = 1 ∧ n 1 = 1 := by
  obtain ⟨⟨k, n⟩, hrun, hpresent, hend⟩ := System.exists_along_of_run (M := counted Unit)
    (φ := fun s => s.1.Present 0 5 ∧ s.1.Present 1 5) (s := (startKernel, fun _ => 0))
    (firstTurn [] ++ [.scheduler (), .resume (), .call () .yield, .write (), .write ()] ++
      List.replicate 64 (.scheduler ()))
    (fun s => decide (s.1.cpu () = .scan 0 0 ∧ s.2 0 = 1)) (by decide +kernel)
  obtain ⟨hcpu, hzero⟩ := of_decide_eq_true hend
  have heq := (roundRobin (c := ()) rfl rfl rfl hpresent hrun).2.2 hcpu
  exact ⟨_, k, n, hrun, hcpu, hzero, heq.symm.trans hzero⟩

end Os20.Xv6
