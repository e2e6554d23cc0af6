import Mathlib.Data.List.Basic
import Mathlib.Tactic.TypeStar

/-!
# Descriptor tables

The open descriptors of a process and the calls `pipe`, `dup2` and `close` on them.  A new
descriptor is the lowest one that is not open.  What a table is used for is read off by
`get`; every call has one lemma that gives `get` after it.
-/

namespace Os20.Lib.Descriptors

/-- Entry `fd` is what descriptor `fd` refers to, `none` when it is not open; none of those
behind the list is open. -/
structure Table (α : Type*) where
  entries : List (Option α)
  deriving DecidableEq

namespace Table

variable {α : Type*}

def get (t : Table α) (fd : Nat) : Option α := t.entries[fd]?.join

def lowest (t : Table α) : Nat := t.entries.findIdx (·.isNone)

def put (t : Table α) (fd : Nat) (x : α) : Table α where
  entries := (t.entries ++ List.replicate (fd + 1 - t.entries.length) none).set fd (some x)

/-- A pipe with the ends `r` and `w`, and the two descriptors it gets. -/
def pipe (t : Table α) (r w : α) : Nat × Nat × Table α :=
  let t₁ := t.put t.lowest r
  (t.lowest, t₁.lowest, t₁.put t₁.lowest w)

/-- Without effect when `old` is not open. -/
def dup2 (t : Table α) (old new : Nat) : Table α :=
  match t.get old with
  | none => t
  | some x => t.put new x

def close (t : Table α) (fd : Nat) : Table α where
  entries := t.entries.set fd none

def Holds (t : Table α) (x : α) : Prop := ∃ fd, t.get fd = some x

variable {t : Table α} {fd fd' old new : Nat} {x : α}

theorem get_lowest : t.get t.lowest = none := by
  rw [get, lowest]
  by_cases hlt : t.entries.findIdx (·.isNone) < t.entries.length
  · have hnone := List.findIdx_getElem (w := hlt)
    rw [Option.isNone_iff_eq_none] at hnone
    rw [List.getElem?_eq_getElem hlt, hnone]
    rfl
  · rw [List.getElem?_eq_none (Nat.not_lt.1 hlt)]
    rfl

theorem get_put : (t.put fd x).get fd' = if fd' = fd then some x else t.get fd' := by
  rw [get, put]
  by_cases heq : fd' = fd
  · subst heq
    have hlt : fd' < (t.entries ++ List.replicate (fd' + 1 - t.entries.length) none).length := by
      rw [List.length_append, List.length_replicate]
      omega
    rw [if_pos rfl, List.getElem?_set_self hlt]
    rfl
  · rw [if_neg heq, List.getElem?_set_ne (Ne.symm heq), get]
    by_cases hlt : fd' < t.entries.length
    · rw [List.getElem?_append_left hlt]
    · rw [List.getElem?_append_right (Nat.not_lt.1 hlt), List.getElem?_replicate,
        List.getElem?_eq_none (Nat.not_lt.1 hlt)]
      split <;> rfl

theorem get_close : (t.close fd).get fd' = if fd' = fd then none else t.get fd' := by
  rw [get, close]
  by_cases heq : fd' = fd
  · subst heq
    rw [if_pos rfl]
    by_cases hlt : fd' < t.entries.length
    · rw [List.getElem?_set_self hlt]
      rfl
    · rw [List.getElem?_eq_none (by simpa using Nat.not_lt.1 hlt)]
      rfl
  · rw [if_neg heq, List.getElem?_set_ne (Ne.symm heq), get]

theorem get_dup2 (h : t.get old = some x) :
    (t.dup2 old new).get fd' = if fd' = new then some x else t.get fd' := by
  rw [dup2, h]
  exact get_put

/-! ## pipe -/

variable {r w : α}

theorem get_fst_pipe : t.get (t.pipe r w).1 = none := get_lowest

theorem get_snd_pipe : t.get (t.pipe r w).2.1 = none ∧ (t.pipe r w).2.1 ≠ (t.pipe r w).1 := by
  have hfree : (t.put t.lowest r).get (t.pipe r w).2.1 = none := get_lowest
  rw [get_put] at hfree
  split at hfree
  · cases hfree
  · next hne => exact ⟨hfree, hne⟩

theorem get_pipe :
    (t.pipe r w).2.2.get fd =
      if fd = (t.pipe r w).2.1 then some w
      else if fd = (t.pipe r w).1 then some r
      else t.get fd := by
  refine get_put.trans ?_
  rw [get_put]
  rfl

theorem get_pipe_of_ne (hr : x ≠ r) (hw : x ≠ w) :
    (t.pipe r w).2.2.get fd = some x ↔ t.get fd = some x := by
  rw [get_pipe]
  split
  · next heq => simp [heq, get_snd_pipe.1, Ne.symm hw]
  · split
    · next heq => simp [heq, get_fst_pipe, Ne.symm hr]
    · rfl

theorem get_pipe_readEnd (hne : r ≠ w) :
    (t.pipe r w).2.2.get fd = some r ↔ fd = (t.pipe r w).1 ∨ t.get fd = some r := by
  rw [get_pipe]
  split
  · next heq => simp [heq, get_snd_pipe.1, get_snd_pipe.2, Ne.symm hne]
  · split
    · next heq => simp [heq]
    · next hfst => simp [hfst]

theorem get_pipe_writeEnd (hne : r ≠ w) :
    (t.pipe r w).2.2.get fd = some w ↔ fd = (t.pipe r w).2.1 ∨ t.get fd = some w := by
  rw [get_pipe]
  split
  · next heq => simp [heq]
  · next hsnd =>
      split
      · next heq => simp [heq, get_fst_pipe, Ne.symm get_snd_pipe.2, hne]
      · simp [hsnd]

end Table

end Os20.Lib.Descriptors
