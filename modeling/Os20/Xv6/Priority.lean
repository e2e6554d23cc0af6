import Mathlib.Logic.Relation
import Os20.Xv6.Steps

/-!
# Priorities

A round of `scheduler` serves the processes whose priority is the maximum that its first
loop has found.  What becomes RUNNABLE behind the back of that loop, or is given a higher
priority there, waits for the next round.
-/

namespace Os20.Xv6

open Os20.Lib.Transition
open Relation

variable {C : Type*} [DecidableEq C] {k k' : Kernel C} {e : Event C} {c : C} {q : Slot}

namespace Kernel

/-- In the step from `k` to `k'` the first loop of `scheduler` on `c` is done with slot `q`: it
has found it not RUNNABLE, or reads a priority there that is at most `v`. -/
structure Passes (k : Kernel C) (c : C) (q : Slot) (v : Int) (k' : Kernel C) : Prop where
  step : k.next (.scheduler c) = some k'
  look : (∃ highest, k.cpu c = .scan q highest ∧ (k.ptable.proc q).state ≠ .runnable) ∨
    ∃ highest, k.cpu c = .peek q highest ∧ (k.ptable.proc q).prio ≤ v

def SameRound (c : C) (k k' : Kernel C) : Prop :=
  (∃ e, k.next e = some k') ∧ k'.cpu c ≠ .scan 0 0

/-- `c` is in a round whose first loop is done with slot `q`, where it has met no priority
above `v`. -/
def Passed (k : Kernel C) (c : C) (q : Slot) (v : Int) : Prop :=
  ∃ s t, (kernel C).Reachable s ∧ s.Passes c q v t ∧ ReflTransGen (SameRound c) t k

theorem Passed.mono {v w : Int} (h : k.Passed c q v) (hvw : v ≤ w) : k.Passed c q w := by
  obtain ⟨s, t, hreach, hpasses, hround⟩ := h
  refine ⟨s, t, hreach, ⟨hpasses.step, ?_⟩, hround⟩
  obtain hscan | ⟨highest, hpeek, hprio⟩ := hpasses.look
  · exact .inl hscan
  · exact .inr ⟨highest, hpeek, hprio.trans hvw⟩

theorem Passed.step {v : Int} (h : k.Passed c q v) (hnext : k.next e = some k')
    (hround : k'.cpu c ≠ .scan 0 0) : k'.Passed c q v := by
  obtain ⟨s, t, hreach, hpasses, hrest⟩ := h
  exact ⟨s, t, hreach, hpasses, hrest.tail ⟨⟨e, hnext⟩, hround⟩⟩

end Kernel

def Cpu.done : Cpu → Nat
  | .scan i _ => i
  | .peek p _ => p
  | .sweep _ _ | .running _ _ | .back _ _ => nproc

def Cpu.highest : Cpu → Int
  | .scan _ highest | .peek _ highest | .sweep _ highest | .running _ highest
  | .back _ highest => highest

/-- `highest` is a maximum: it is no less than what the first loop has met. -/
def Kernel.Maximal (k : Kernel C) (c : C) : Prop :=
  ∀ q : Slot, q < (k.cpu c).done → k.Passed c q (k.cpu c).highest

theorem Kernel.Maximal.step (hreach : (kernel C).Reachable k) (h : k.Maximal c)
    (hnext : k.next e = some k') : k'.Maximal c := by
  intro q hq
  have hround : k'.cpu c ≠ .scan 0 0 := by
    intro hstart
    rw [hstart] at hq
    exact absurd hq (Nat.not_lt_zero _)
  -- the step keeps `highest`, and is not the one that is done with `q`
  have hold (hlt : q < (k.cpu c).done) (hle : (k.cpu c).highest ≤ (k'.cpu c).highest) :
      k'.Passed c q (k'.cpu c).highest :=
    ((h q hlt).mono hle).step hnext hround
  have hsame (hcpu : k'.cpu c = k.cpu c) : k'.Passed c q (k'.cpu c).highest := by
    rw [hcpu] at hq
    exact hold hq (by rw [hcpu])
  cases stepped hnext with
  | quiet _ hquiet => exact hsame (by rw [hquiet.cpu])
  | sched c' p highest _ hcpu hcpu' =>
      by_cases hc : c = c'
      · subst hc
        exact hold (by rw [hcpu]; exact q.isLt) (by rw [hcpu, hcpu']; simp [Cpu.highest])
      · exact hsame (by rw [hcpu', Function.update_of_ne hc])
  | scheduler c' he hscheduled =>
      by_cases hc : c = c'
      · subst he hc
        cases hscheduled with
        | skip p highest hcpu hstate hstep =>
            subst hstep
            rw [setCpu_self] at hq hold ⊢
            rcases Nat.lt_succ_iff_lt_or_eq.mp hq with hlt | heq
            · exact hold (by rwa [hcpu]) (by rw [hcpu]; rfl)
            · obtain rfl : q = p := Fin.ext heq
              exact ⟨k, _, hreach, ⟨hnext, .inl ⟨highest, hcpu, hstate⟩⟩, .refl⟩
        | found p highest hcpu hstate hstep =>
            subst hstep
            rw [setCpu_self] at hq hold ⊢
            exact hold (by rwa [hcpu]) (by rw [hcpu]; rfl)
        | read p highest hcpu hstep =>
            subst hstep
            rw [setCpu_self] at hq hold ⊢
            rcases Nat.lt_succ_iff_lt_or_eq.mp hq with hlt | heq
            · exact hold (by rwa [hcpu]) (by rw [hcpu]; exact le_max_right _ _)
            · obtain rfl : q = p := Fin.ext heq
              exact ⟨k, _, hreach, ⟨hnext, .inr ⟨highest, hcpu, le_max_left _ _⟩⟩, .refl⟩
        | lock i highest hcpu hi hstep =>
            subst hstep
            exact hold (by rw [hcpu]; exact q.isLt.trans_le hi) (by simp [hcpu, Cpu.highest])
        | pass p highest hcpu hother hstep =>
            subst hstep
            exact hold (by rw [hcpu]; exact q.isLt) (by simp [hcpu, Cpu.highest])
        | switch p hswitch hstep =>
            subst hstep
            exact hold (by rw [hswitch.cpu]; exact q.isLt) (by simp [hswitch.cpu, Cpu.highest])
        | round i highest hcpu hi hstep =>
            subst hstep
            exact absurd (by simp) hround
        | back p highest hcpu hstep =>
            subst hstep
            exact hold (by rw [hcpu]; exact q.isLt) (by simp [hcpu, Cpu.highest])
      · exact hsame (hscheduled.cpu_of_ne hc)

theorem Kernel.maximal (hreach : (kernel C).Reachable k) (c : C) : k.Maximal c := by
  induction hreach with
  | init hinit =>
      intro q hq
      rw [(hinit.2 c).1] at hq
      exact absurd hq (Nat.not_lt_zero _)
  | step e hreach _ hnext ih => exact ih.step hreach hnext

/-- One CPU, about to start a round.  Processes 0 and 1 are RUNNABLE, process 2 sleeps. -/
def startKernel : Kernel Unit where
  ptable :=
    { proc := fun p =>
        if p = 0 then { state := .runnable, pid := 1, prio := 5 }
        else if p = 1 then { state := .runnable, pid := 2, prio := 5 }
        else if p = 2 then { state := .sleeping, pid := 3, chan := some (.addr 7), prio := 9 }
        else {}
      nextpid := 4
      initproc := 0 }
  task _ := .sched (.yield .user)
  lock := none
  cpu _ := .scan 0 0
  critical _ := none

open Event in
def firstTurn (calls : List (Event Unit)) : List (Event Unit) :=
  List.replicate 68 (scheduler ()) ++ [resume ()] ++ calls ++
    [call () .yield, write (), write (), scheduler ()]

end Os20.Xv6
