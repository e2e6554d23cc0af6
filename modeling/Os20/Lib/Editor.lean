import Os20.Lib.Transition

/-!
# A line editor

Elements are added to a line and erased from it until it is committed; parties `P` get what has
been committed.  A screen beside it shows the elements as they are added and erased.
-/

namespace Os20.Lib.Editor

open Os20.Lib.Transition

/-- What waits to be read, and the line that can still be edited. -/
structure Text (α : Type*) where
  ready : List α
  line : List α

inductive Act (P α : Type*) where
  | add (x : α)
  | erase
  | commit
  | get (p : P) (x : α)

variable {P α : Type*} [DecidableEq α] {cap : Nat} {t t' : Text α}

def next (cap : Nat) (t : Text α) : Act P α → Option (Text α)
  | .add x =>
      if t.ready.length + t.line.length < cap then some { t with line := t.line ++ [x] } else none
  | .erase => if t.line = [] then none else some { t with line := t.line.dropLast }
  | .commit => some ⟨t.ready ++ t.line, []⟩
  | .get _ x => if t.ready.head? = some x then some { t with ready := t.ready.tail } else none

def editor (P α : Type*) [DecidableEq α] (cap : Nat) : System (Text α) (Act P α) where
  init t := t = ⟨[], []⟩
  next := next cap

def shown (screen : List α) : List (Act P α) → List α
  | [] => screen
  | .add x :: as => shown (screen ++ [x]) as
  | .erase :: as => shown screen.dropLast as
  | .commit :: as => shown screen as
  | .get _ _ :: as => shown screen as

def gets : List (Act P α) → List α
  | [] => []
  | .get _ x :: as => x :: gets as
  | .add _ :: as | .erase :: as | .commit :: as => gets as

theorem shown_eq (past : List α) {as : List (Act P α)}
    (hrun : (editor P α cap).run t as = some t') :
    shown (past ++ t.ready ++ t.line) as = past ++ gets as ++ t'.ready ++ t'.line := by
  induction as generalizing t past with
  | nil =>
      obtain rfl : t = t' := Option.some.inj hrun
      simp [shown, gets]
  | cons a as ih =>
      obtain ⟨u, hnext, hrest⟩ := Option.bind_eq_some_iff.mp hrun
      cases a with
      | add x =>
          obtain ⟨-, rfl⟩ : _ ∧ _ = u := by simpa [editor, next] using hnext
          simpa [shown, gets] using ih past hrest
      | erase =>
          obtain ⟨hne, rfl⟩ : _ ∧ _ = u := by simpa [editor, next] using hnext
          rw [shown, List.dropLast_append_of_ne_nil hne]
          simpa [gets] using ih past hrest
      | commit =>
          obtain rfl : _ = u := by simpa [editor, next] using hnext
          simpa [shown, gets] using ih past hrest
      | get p x =>
          obtain ⟨hhead, rfl⟩ : _ ∧ _ = u := by simpa [editor, next] using hnext
          obtain ⟨rest, hready⟩ := List.head?_eq_some_iff.mp hhead
          have hrest' := ih (past ++ [x]) hrest
          rw [hready] at hrest' ⊢
          simpa [shown, gets] using hrest'

theorem run_add (hroom : t.ready.length + t.line.length < cap) (x : α) :
    (editor P α cap).run t [.add x] = some ⟨t.ready, t.line ++ [x]⟩ := by
  simp [System.run, editor, next, hroom]

theorem run_erase (ready line : List α) (x : α) :
    (editor P α cap).run ⟨ready, line ++ [x]⟩ [.erase] = some ⟨ready, line⟩ := by
  simp [System.run, editor, next]

theorem run_gets (p : P) (xs ready line : List α) :
    (editor P α cap).run ⟨xs ++ ready, line⟩ (xs.map (.get p)) = some ⟨ready, line⟩ := by
  induction xs with
  | nil => rfl
  | cons x xs ih =>
      have hnext : (editor P α cap).next ⟨x :: xs ++ ready, line⟩ (.get p x) =
          some ⟨xs ++ ready, line⟩ := by
        simp [editor, next]
      rw [List.map_cons, System.run, hnext]
      exact ih

end Os20.Lib.Editor
