import Os20.Lib.Transition
import Mathlib.Data.Finset.Basic
import Mathlib.Logic.Function.Basic

/-!
# A store with group commit

What a journal is for.  Clients bracket their writes, which all of them see at once; a commit
makes everything written so far stable, and waits until no client is in the middle of its
writes; a crash takes the store back to what is stable.
-/

namespace Os20.Lib.Journal

open Os20.Lib.Transition

/-- Clients `P` write data `D` to blocks `B`. -/
structure Store (P B D : Type*) where
  stable : B → D
  current : B → D
  active : Finset P

inductive Act (P B D : Type*) where
  | begin (p : P)
  | write (p : P) (b : B) (x : D)
  | finish (p : P)
  | commit
  | crash

variable {P B D : Type*} [DecidableEq P] [DecidableEq B]

def Store.next (t : Store P B D) : Act P B D → Option (Store P B D)
  | .begin p => if p ∈ t.active then none else some { t with active := insert p t.active }
  | .write p b x =>
      if p ∈ t.active then some { t with current := Function.update t.current b x } else none
  | .finish p => if p ∈ t.active then some { t with active := t.active.erase p } else none
  | .commit => if t.active = ∅ then some { t with stable := t.current } else none
  | .crash => some { t with current := t.stable, active := ∅ }

def store (P B D : Type*) [DecidableEq P] [DecidableEq B] : System (Store P B D) (Act P B D) where
  init t := t.current = t.stable ∧ t.active = ∅
  next := Store.next

/-- Only a commit changes what is stable, and it leaves nothing that is not. -/
theorem Store.next_stable {t t' : Store P B D} {a : Act P B D} (h : t.next a = some t') :
    a = .commit ∧ t'.active = ∅ ∧ t'.stable = t'.current ∨
      a ≠ .commit ∧ t'.stable = t.stable := by
  cases a with
  | commit =>
      simp only [Store.next] at h
      split at h
      · next hactive =>
          cases h
          exact .inl ⟨rfl, hactive, rfl⟩
      · cases h
  | crash =>
      cases h
      exact .inr ⟨by simp, rfl⟩
  | begin p =>
      simp only [Store.next] at h
      split at h
      · cases h
      · cases h
        exact .inr ⟨by simp, rfl⟩
  | write p b x | finish p =>
      simp only [Store.next] at h
      split at h
      · cases h
        exact .inr ⟨by simp, rfl⟩
      · cases h

/-- What is stable is what the store held at its last commit, or at first if there was none; no
client was in the middle of its writes then. -/
theorem exists_commit_point {t t' : Store P B D} {as : List (Act P B D)}
    (hinit : (store P B D).init t) (hrun : (store P B D).run t as = some t') :
    ∃ as₁ as₂ u, as = as₁ ++ as₂ ∧ (as₁ = [] ∨ as₁.getLast? = some .commit) ∧
      (store P B D).run t as₁ = some u ∧ u.active = ∅ ∧ t'.stable = u.current ∧
      .commit ∉ as₂ := by
  induction as using List.reverseRecOn generalizing t' with
  | nil =>
      obtain rfl : t = t' := Option.some.inj hrun
      exact ⟨[], [], t, rfl, .inl rfl, rfl, hinit.2, hinit.1.symm, by simp⟩
  | append_singleton as a ih =>
      rw [System.run_append] at hrun
      obtain ⟨v, hv, hlast⟩ := Option.bind_eq_some_iff.mp hrun
      have hstep : v.next a = some t' := by
        simpa [System.run, store] using hlast
      rcases Store.next_stable hstep with ⟨rfl, hactive, hstable⟩ | ⟨hne, hstable⟩
      · refine ⟨as ++ [.commit], [], t', by simp, .inr (by simp), ?_, hactive, hstable, by simp⟩
        rw [System.run_append, hv]
        exact hlast
      · obtain ⟨as₁, as₂, u, rfl, hend, hu, hempty, hsame, hnone⟩ := ih hv
        refine ⟨as₁, as₂ ++ [a], u, by simp, hend, hu, hempty, hstable.trans hsame, ?_⟩
        simpa [hnone] using hne.symm

end Os20.Lib.Journal
