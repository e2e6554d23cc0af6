import Os20.Lib.Transition

/-!
# Two programs in step

Two computations that may fail are related when they fail in the same way or return related
values.  Two systems with the same labels run in step when every label takes related states to
related states, or is admitted by neither.
-/

namespace Os20.Lib.Simulation

open Os20.Lib.Transition

section Except

universe u v w

variable {ε : Type w} {α α' : Type u} {β β' : Type v}

inductive Same (R : α → β → Prop) : Except ε α → Except ε β → Prop
  | ok {a : α} {b : β} (h : R a b) : Same R (.ok a) (.ok b)
  | error (e : ε) : Same R (.error e) (.error e)

theorem Same.bind {R : α → β → Prop} {S : α' → β' → Prop} {x : Except ε α} {y : Except ε β}
    {f : α → Except ε α'} {g : β → Except ε β'} (h : Same R x y)
    (hfg : ∀ a b, R a b → Same S (f a) (g b)) : Same S (x >>= f) (y >>= g) := by
  cases h with
  | ok hab => exact hfg _ _ hab
  | error e => exact .error e

end Except

section System

variable {σ τ ℓ : Type*} {M : System σ ℓ} {N : System τ ℓ} {R : σ → τ → Prop} {ok : ℓ → Prop}

/-- One label at a time, and so for every run. -/
theorem run_rel (hstep : ∀ s t l, R s t → ok l → Option.Rel R (M.next s l) (N.next t l))
    {s : σ} {t : τ} (h : R s t) {ls : List ℓ} (hls : ∀ l ∈ ls, ok l) :
    Option.Rel R (M.run s ls) (N.run t ls) := by
  induction ls generalizing s t with
  | nil => exact .some h
  | cons l ls ih =>
      have hnext := hstep s t l h (hls l (by simp))
      rw [System.run, System.run]
      cases hs : M.next s l with
      | none =>
          cases ht : N.next t l with
          | none => exact .none
          | some t' =>
              rw [hs, ht] at hnext
              cases hnext
      | some s' =>
          cases ht : N.next t l with
          | none =>
              rw [hs, ht] at hnext
              cases hnext
          | some t' =>
              rw [hs, ht] at hnext
              cases hnext with
              | some hR => exact ih hR fun l hl => hls l (by simp [hl])

end System

end Os20.Lib.Simulation
