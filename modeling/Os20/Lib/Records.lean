import Os20.Lib.Words

/-!
# Records that end with a mark

A list that arrives in pieces: the records whose mark has come, and the unfinished one behind
them, to which the next piece is appended.
-/

namespace Os20.Lib.Records

open Os20.Lib.Words

variable {α : Type*} {cut : α → Bool} {l r : List α} {a : α}

def finished (cut : α → Bool) (l : List α) : List (List α) := (l.splitOnP cut).dropLast

def unfinished (cut : α → Bool) (l : List α) : List α :=
  (l.splitOnP cut).getLast (List.splitOnP_ne_nil cut l)

theorem finished_of_forall_not (hl : ∀ x ∈ l, cut x = false) : finished cut l = [] := by
  simp [finished, List.splitOnP_eq_singleton hl]

theorem unfinished_of_forall_not (hl : ∀ x ∈ l, cut x = false) : unfinished cut l = l := by
  simp [unfinished, List.splitOnP_eq_singleton hl]

theorem finished_append_cons (hl : ∀ x ∈ l, cut x = false) (ha : cut a = true) :
    finished cut (l ++ a :: r) = l :: finished cut r := by
  rw [finished, List.splitOnP_append_cons_of_forall_mem hl a ha,
    List.dropLast_cons_of_ne_nil (List.splitOnP_ne_nil cut r), finished]

theorem unfinished_append_cons (hl : ∀ x ∈ l, cut x = false) (ha : cut a = true) :
    unfinished cut (l ++ a :: r) = unfinished cut r := by
  simp only [unfinished, List.splitOnP_append_cons_of_forall_mem hl a ha]
  rw [List.getLast_cons (List.splitOnP_ne_nil cut r)]

theorem unfinished_not_mem : ∀ x ∈ unfinished cut l, cut x = false := by
  induction l using line_induction cut with
  | nil => simp [unfinished]
  | last l hl hne =>
      rw [unfinished_of_forall_not hl]
      exact hl
  | line l a r hl ha ih =>
      rw [unfinished_append_cons hl ha]
      exact ih

/-- The next piece goes on where the unfinished record ends. -/
theorem finished_append (cut : α → Bool) (l r : List α) :
    finished cut (l ++ r) = finished cut l ++ finished cut (unfinished cut l ++ r) := by
  induction l using line_induction cut with
  | nil => simp [finished, unfinished]
  | last l hl hne => rw [finished_of_forall_not hl, unfinished_of_forall_not hl, List.nil_append]
  | line l a l' hl ha ih =>
      rw [List.append_assoc, List.cons_append, finished_append_cons hl ha,
        finished_append_cons hl ha, unfinished_append_cons hl ha, ih, List.cons_append]

theorem unfinished_append (cut : α → Bool) (l r : List α) :
    unfinished cut (l ++ r) = unfinished cut (unfinished cut l ++ r) := by
  induction l using line_induction cut with
  | nil => simp [unfinished]
  | last l hl hne => rw [unfinished_of_forall_not hl]
  | line l a l' hl ha ih =>
      rw [List.append_assoc, List.cons_append, unfinished_append_cons hl ha,
        unfinished_append_cons hl ha, ih]

theorem unfinished_of_mark (ha : cut a = true) (l : List α) : unfinished cut (l ++ [a]) = [] := by
  rw [unfinished_append, unfinished_append_cons unfinished_not_mem ha,
    unfinished_of_forall_not (by simp)]

theorem unfinished_suffix (cut : α → Bool) (l : List α) : unfinished cut l <:+ l := by
  induction l using line_induction cut with
  | nil => simp [unfinished]
  | last l hl hne => exact ⟨[], by rw [unfinished_of_forall_not hl, List.nil_append]⟩
  | line l a r hl ha ih =>
      rw [unfinished_append_cons hl ha]
      exact (ih.trans (List.suffix_cons a r)).trans (List.suffix_append l _)

theorem length_unfinished_lt (hl : ∃ x ∈ l, cut x = true) :
    (unfinished cut l).length < l.length := by
  obtain ⟨a, hmem, ha⟩ := hl
  obtain ⟨l, r, rfl⟩ := List.append_of_mem hmem
  rw [List.append_cons, unfinished_append, unfinished_of_mark ha, List.nil_append]
  have hle := (unfinished_suffix cut r).length_le
  rw [List.length_append, List.length_append, List.length_singleton]
  omega

theorem exists_finished_length_le (hl : ∀ x ∈ l, cut x = false) (hr : ∃ x ∈ r, cut x = true) :
    ∃ v ∈ finished cut (l ++ r), l.length ≤ v.length := by
  induction r using line_induction cut with
  | nil =>
      obtain ⟨x, hx, -⟩ := hr
      cases hx
  | last r hfree hne =>
      obtain ⟨x, hx, hcut⟩ := hr
      rw [hfree x hx] at hcut
      cases hcut
  | line r a r' hfree ha ih =>
      have hboth : ∀ x ∈ l ++ r, cut x = false := by
        intro x hx
        rcases List.mem_append.mp hx with hx | hx
        · exact hl x hx
        · exact hfree x hx
      refine ⟨l ++ r, ?_, by simp⟩
      rw [← List.append_assoc, finished_append_cons hboth ha]
      exact List.mem_cons_self

end Os20.Lib.Records
