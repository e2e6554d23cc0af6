import Os20.Lib.Transition

/-!
# A bounded queue

Parties `P` put elements into a queue and get them from it, in the order in which they came.
The label of an action says who acts, and on which element.
-/

namespace Os20.Lib.Queue

open Os20.Lib.Transition

inductive Act (P α : Type*) where
  | put (p : P) (x : α)
  | get (p : P) (x : α)

variable {P α : Type*} [DecidableEq α] {cap : Nat}

def next (cap : Nat) (q : List α) : Act P α → Option (List α)
  | .put _ x => if q.length < cap then some (q ++ [x]) else none
  | .get _ x => if q.head? = some x then some q.tail else none

def queue (P α : Type*) [DecidableEq α] (cap : Nat) : System (List α) (Act P α) where
  init q := q = []
  next := next cap

def puts : List (Act P α) → List α
  | [] => []
  | .put _ x :: as => x :: puts as
  | .get _ _ :: as => puts as

def gets : List (Act P α) → List α
  | [] => []
  | .put _ _ :: as => gets as
  | .get _ x :: as => x :: gets as

/-- Nothing is lost, invented or overtaken. -/
theorem puts_eq_gets {q q' : List α} {as : List (Act P α)}
    (hrun : (queue P α cap).run q as = some q') : q ++ puts as = gets as ++ q' := by
  induction as generalizing q with
  | nil =>
      obtain rfl : q = q' := Option.some.inj hrun
      simp [puts, gets]
  | cons a as ih =>
      obtain ⟨u, hnext, hrest⟩ := Option.bind_eq_some_iff.mp hrun
      have hrest' := ih hrest
      cases a with
      | put p x =>
          simp only [queue, next] at hnext
          split at hnext
          · cases hnext
            calc q ++ puts (.put p x :: as) = (q ++ [x]) ++ puts as := by simp [puts]
              _ = gets as ++ q' := hrest'
          · cases hnext
      | get p x =>
          simp only [queue, next] at hnext
          split at hnext
          · next hhead =>
              cases hnext
              obtain ⟨rest, rfl⟩ := List.head?_eq_some_iff.mp hhead
              calc x :: rest ++ puts (.get p x :: as) = x :: (rest ++ puts as) := rfl
                _ = x :: (gets as ++ q') := by
                    rw [List.tail_cons] at hrest'
                    rw [hrest']
          · cases hnext

theorem run_puts (p : P) {xs q : List α} (hspace : q.length + xs.length ≤ cap) :
    (queue P α cap).run q (xs.map (.put p)) = some (q ++ xs) := by
  induction xs generalizing q with
  | nil => simp [System.run]
  | cons x xs ih =>
      rw [List.length_cons] at hspace
      have hnext : (queue P α cap).next q (.put p x) = some (q ++ [x]) := by
        simp only [queue, next]
        exact if_pos (by omega)
      rw [List.map_cons, System.run, hnext, Option.bind_some,
        ih (by rw [List.length_append, List.length_singleton]; omega)]
      simp

theorem run_gets (p : P) (xs q : List α) :
    (queue P α cap).run (xs ++ q) (xs.map (.get p)) = some q := by
  induction xs with
  | nil => rfl
  | cons x xs ih =>
      have hnext : (queue P α cap).next (x :: xs ++ q) (.get p x) = some (xs ++ q) := by
        simp [queue, next]
      rw [List.map_cons, System.run, hnext]
      exact ih

end Os20.Lib.Queue
