import Os20.Lib.Transition

/-!
# Refinement

A system refines another one if each of its steps is a run of the other one, which `view` reads
off the step: no label for a step that does not show, one or more for one that does.  Every run
then is a run of the other system, with the labels of its trace.
-/

namespace Os20.Lib.Refinement

open Os20.Lib.Transition

variable {σ τ ℓ κ : Type*}

def trace (M : System σ ℓ) (view : σ → ℓ → List κ) (s : σ) : List ℓ → List κ
  | [] => []
  | l :: ls =>
      match M.next s l with
      | some s' => view s l ++ trace M view s' ls
      | none => []

/-- `R` relates the states of `M`, on runs whose steps meet `ok`, to those of `N`. -/
structure Refines (M : System σ ℓ) (ok : σ → ℓ → Prop) (N : System τ κ) (view : σ → ℓ → List κ)
    (R : σ → τ → Prop) : Prop where
  init : ∀ s, M.init s → ∃ t, N.init t ∧ R s t
  step : ∀ s t l s', R s t → ok s l → M.next s l = some s' →
    ∃ t', N.run t (view s l) = some t' ∧ R s' t'

variable {M : System σ ℓ} {ok : σ → ℓ → Prop} {N : System τ κ} {view : σ → ℓ → List κ}
  {R : σ → τ → Prop}

theorem Refines.run [∀ s l, Decidable (ok s l)] (h : Refines M ok N view R) {s s' : σ} {t : τ}
    {ls : List ℓ} (hR : R s t) (hrun : M.runWhere ok s ls = some s') :
    ∃ t', N.run t (trace M view s ls) = some t' ∧ R s' t' := by
  induction ls generalizing s t with
  | nil =>
      obtain rfl : s = s' := by simpa [System.runWhere] using hrun
      exact ⟨t, rfl, hR⟩
  | cons l ls ih =>
      rw [System.runWhere] at hrun
      split at hrun
      · next hok =>
          obtain ⟨u, hnext, hrest⟩ := Option.bind_eq_some_iff.mp hrun
          obtain ⟨v, hview, hv⟩ := h.step s t l u hR hok hnext
          obtain ⟨t', htail, hR'⟩ := ih hv hrest
          refine ⟨t', ?_, hR'⟩
          rw [trace, hnext]
          dsimp only
          rw [System.run_append, hview]
          exact htail
      · cases hrun

theorem runWhere_true (M : System σ ℓ) (s : σ) (ls : List ℓ) :
    M.runWhere (fun _ _ => True) s ls = M.run s ls := by
  induction ls generalizing s with
  | nil => rfl
  | cons l ls ih => simp only [System.runWhere, System.run, if_true, ih]

theorem Refines.reachable (h : Refines M ok N view R) {s : σ} (hreach : M.ReachableWhere ok s) :
    ∃ t, N.Reachable t ∧ R s t := by
  induction hreach with
  | init hinit =>
      obtain ⟨t, ht, hR⟩ := h.init _ hinit
      exact ⟨t, .init ht, hR⟩
  | step l _ hok hnext ih =>
      obtain ⟨t, ht, hR⟩ := ih
      obtain ⟨t', hrun, hR'⟩ := h.step _ t l _ hR hok hnext
      exact ⟨t', ht.run hrun, hR'⟩

end Os20.Lib.Refinement
