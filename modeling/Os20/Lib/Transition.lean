import Mathlib.Tactic.TypeStar

/-!
# Labelled transition systems

A `System` is an initial predicate together with an executable transition
function.  A label names everything that the environment decides about a step
(which operation is called, which thread runs, which waiter is woken), so a run
is determined by its initial state and its list of labels, and a partial
transition function says which labels a state admits.

`ReachableWhere ok` restricts runs to those in which every step taken meets the
condition `ok`, read in the state before the step.
-/

namespace Os20.Lib.Transition

structure System (σ ℓ : Type*) where
  init : σ → Prop
  next : σ → ℓ → Option σ

namespace System

variable {σ ℓ : Type*} (M : System σ ℓ)

/-- States of the runs of `M` all of whose steps meet `ok`. -/
inductive ReachableWhere (ok : σ → ℓ → Prop) : σ → Prop
  | init {s : σ} (hinit : M.init s) : ReachableWhere ok s
  | step {s s' : σ} (l : ℓ) (hreach : ReachableWhere ok s) (hok : ok s l)
      (hnext : M.next s l = some s') : ReachableWhere ok s'

def Reachable (s : σ) : Prop := M.ReachableWhere (fun _ _ => True) s

def run (s : σ) : List ℓ → Option σ
  | [] => some s
  | l :: ls => (M.next s l).bind fun s' => run s' ls

def runWhere (ok : σ → ℓ → Prop) [∀ s l, Decidable (ok s l)] (s : σ) : List ℓ → Option σ
  | [] => some s
  | l :: ls => if ok s l then (M.next s l).bind fun s' => runWhere ok s' ls else none

def Along (φ : σ → Prop) (s : σ) : List ℓ → Prop
  | [] => φ s
  | l :: ls => φ s ∧ ∀ s', M.next s l = some s' → Along φ s' ls

variable {M}

/-- The invariant rule.  The step may use that its source state is reachable,
and with it every invariant proved before. -/
theorem ReachableWhere.invariant {ok : σ → ℓ → Prop} {I : σ → Prop} {s : σ}
    (hinit : ∀ s, M.init s → I s)
    (hstep : ∀ s l s', M.ReachableWhere ok s → I s → ok s l →
      M.next s l = some s' → I s')
    (hreach : M.ReachableWhere ok s) : I s := by
  induction hreach with
  | init h => exact hinit _ h
  | step l hr hok hnext ih => exact hstep _ l _ hr ih hok hnext

theorem ReachableWhere.mono {ok ok' : σ → ℓ → Prop} {s : σ}
    (hok : ∀ s l, ok s l → ok' s l) (hreach : M.ReachableWhere ok s) :
    M.ReachableWhere ok' s := by
  induction hreach with
  | init h => exact .init h
  | step l _ h hnext ih => exact .step l ih (hok _ _ h) hnext

theorem ReachableWhere.reachable {ok : σ → ℓ → Prop} {s : σ}
    (hreach : M.ReachableWhere ok s) : M.Reachable s :=
  hreach.mono fun _ _ _ => trivial

theorem runWhere_invariant {ok : σ → ℓ → Prop} [∀ s l, Decidable (ok s l)] {I : σ → Prop} {s s' : σ}
    {ls : List ℓ} (hI : I s)
    (hstep : ∀ u l u', I u → ok u l → M.next u l = some u' → I u')
    (hrun : M.runWhere ok s ls = some s') : I s' := by
  induction ls generalizing s with
  | nil =>
      obtain rfl : s = s' := by simpa [System.runWhere] using hrun
      exact hI
  | cons l ls ih =>
      rw [System.runWhere] at hrun
      split at hrun
      · next hok =>
          obtain ⟨t, hnext, hrest⟩ := Option.bind_eq_some_iff.mp hrun
          exact ih (hstep s l t hI hok hnext) hrest
      · simp at hrun

theorem ReachableWhere.runWhere {ok : σ → ℓ → Prop} [∀ s l, Decidable (ok s l)] {s s' : σ}
    {ls : List ℓ} (hreach : M.ReachableWhere ok s) (hrun : M.runWhere ok s ls = some s') :
    M.ReachableWhere ok s' :=
  runWhere_invariant hreach (fun _ l _ hr hok hnext => .step l hr hok hnext) hrun

theorem Along.start {φ : σ → Prop} {s : σ} {ls : List ℓ} (h : M.Along φ s ls) : φ s := by
  cases ls with
  | nil => exact h
  | cons => exact h.1

theorem Along.invariant {φ I : σ → Prop} {s s' : σ} {ls : List ℓ} (hI : I s)
    (hstep : ∀ u l u', φ u → φ u' → I u → M.next u l = some u' → I u')
    (halong : M.Along φ s ls) (hrun : M.run s ls = some s') : I s' := by
  induction ls generalizing s with
  | nil =>
      obtain rfl : s = s' := Option.some.inj hrun
      exact hI
  | cons l ls ih =>
      obtain ⟨t, hnext, hrest⟩ := Option.bind_eq_some_iff.mp hrun
      have halong' := halong.2 t hnext
      exact ih (hstep s l t halong.1 halong'.start hI hnext) halong' hrest

theorem run_append (s : σ) (ls ls' : List ℓ) :
    M.run s (ls ++ ls') = (M.run s ls).bind fun s' => M.run s' ls' := by
  induction ls generalizing s with
  | nil => rfl
  | cons l ls ih =>
      cases hnext : M.next s l with
      | none => simp [System.run, hnext]
      | some t => simp [System.run, hnext, ih]

theorem Reachable.run {s s' : σ} {ls : List ℓ} (hreach : M.Reachable s)
    (hrun : M.run s ls = some s') : M.Reachable s' := by
  induction ls generalizing s with
  | nil =>
      obtain rfl : s = s' := by simpa [System.run] using hrun
      exact hreach
  | cons l ls ih =>
      obtain ⟨t, hnext, hrest⟩ := Option.bind_eq_some_iff.mp hrun
      exact ih (.step l hreach trivial hnext) hrest

/-- A run from an initial state that ends where the Boolean test `p` succeeds.
Both premises are closed terms for a concrete run. -/
theorem exists_reachable_of_run {s : σ} (ls : List ℓ) (p : σ → Bool)
    (hinit : M.init s) (hrun : (M.run s ls).any p = true) :
    ∃ s', M.Reachable s' ∧ p s' = true := by
  cases hs : M.run s ls with
  | none => simp [hs] at hrun
  | some s' =>
      refine ⟨s', Reachable.run (.init hinit) hs, ?_⟩
      simpa [hs] using hrun

theorem exists_reachableWhere_of_run (ok : σ → ℓ → Prop) [∀ s l, Decidable (ok s l)] {s : σ}
    (ls : List ℓ) (p : σ → Bool) (hinit : M.init s)
    (hrun : (M.runWhere ok s ls).any p = true) :
    ∃ s', M.ReachableWhere ok s' ∧ p s' = true := by
  cases hs : M.runWhere ok s ls with
  | none => simp [hs] at hrun
  | some s' =>
      refine ⟨s', ReachableWhere.runWhere (.init hinit) hs, ?_⟩
      simpa [hs] using hrun

theorem exists_along_of_run {φ : σ → Prop} [DecidablePred φ] {s : σ} (ls : List ℓ) (p : σ → Bool)
    (hrun : (M.runWhere (fun s _ => φ s) s ls).any (fun s' => decide (φ s') && p s') = true) :
    ∃ s', M.run s ls = some s' ∧ M.Along φ s ls ∧ p s' = true := by
  induction ls generalizing s with
  | nil =>
      obtain ⟨hφ, hp⟩ : φ s ∧ p s = true := by simpa [System.runWhere] using hrun
      exact ⟨s, rfl, hφ, hp⟩
  | cons l ls ih =>
      rw [System.runWhere] at hrun
      split at hrun
      · next hφ =>
          cases hnext : M.next s l with
          | none => simp [hnext] at hrun
          | some t =>
              rw [hnext] at hrun
              obtain ⟨s', hrest, halong, hp⟩ := ih hrun
              refine ⟨s', by rw [System.run, hnext]; exact hrest, ⟨hφ, fun u hu => ?_⟩, hp⟩
              obtain rfl : t = u := Option.some.inj (hnext.symm.trans hu)
              exact halong
      · simp at hrun

end System

end Os20.Lib.Transition
