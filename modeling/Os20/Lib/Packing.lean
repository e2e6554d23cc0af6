import Mathlib.Data.List.Basic

/-!
# First-fit packing

Items go one by one into the first bin with room for them, or into a new bin.  A packing is the
list of what is left free in the bins; a bin that is not there yet is as good as an empty one,
so the bins are looked at as an infinite sequence, `room`.
-/

namespace Os20.Lib.Packing

variable {capacity : Nat}

def place (capacity n : Nat) : List Nat → List Nat
  | [] => [capacity - n]
  | free :: bins => if n ≤ free then (free - n) :: bins else free :: place capacity n bins

def pack (capacity : Nat) (items : List Nat) : List Nat :=
  items.foldl (fun bins n => place capacity n bins) []

def room (capacity : Nat) (bins : List Nat) (i : Nat) : Nat := bins[i]?.getD capacity

theorem pack_concat (items : List Nat) (n : Nat) :
    pack capacity (items ++ [n]) = place capacity n (pack capacity items) := by
  simp [pack]

@[simp] theorem room_cons_zero (free : Nat) (bins : List Nat) :
    room capacity (free :: bins) 0 = free := by
  simp [room]

@[simp] theorem room_cons_succ (free : Nat) (bins : List Nat) (i : Nat) :
    room capacity (free :: bins) (i + 1) = room capacity bins i := by
  simp [room]

theorem room_of_ge {bins : List Nat} {i : Nat} (h : bins.length ≤ i) :
    room capacity bins i = capacity := by
  simp [room, List.getElem?_eq_none h]

/-- The item goes into the first bin of the sequence with room for it. -/
theorem place_spec {n : Nat} (hn : n ≤ capacity) (bins : List Nat) :
    ∃ i ≤ bins.length, (∀ j < i, room capacity bins j < n) ∧ n ≤ room capacity bins i ∧
      (place capacity n bins).length = max bins.length (i + 1) ∧
      ∀ j, room capacity (place capacity n bins) j =
        if j = i then room capacity bins i - n else room capacity bins j := by
  induction bins with
  | nil =>
      refine ⟨0, Nat.le_refl 0, nofun, hn, rfl, fun j => ?_⟩
      cases j with
      | zero => simp [place, room]
      | succ j => simp [place, room]
  | cons free bins ih =>
      by_cases hfit : n ≤ free
      · refine ⟨0, Nat.zero_le _, nofun, hfit, by simp [place, hfit], fun j => ?_⟩
        cases j with
        | zero => simp [place, hfit]
        | succ j => simp [place, hfit]
      · obtain ⟨i, hi, hbefore, hroom, hlength, hrest⟩ := ih
        refine ⟨i + 1, Nat.succ_le_succ hi, fun j hj => ?_, by simpa using hroom, ?_, fun j => ?_⟩
        · cases j with
          | zero => simpa using hfit
          | succ j => simpa using hbefore j (Nat.lt_of_succ_lt_succ hj)
        · simp only [place, hfit, if_false, List.length_cons, hlength]
          omega
        · cases j with
          | zero => simp [place, hfit]
          | succ j => simp [place, hfit, hrest j]

theorem length_pack_le (items : List Nat) {more : List Nat} (h : ∀ n ∈ more, n ≤ capacity) :
    (pack capacity items).length ≤ (pack capacity (items ++ more)).length := by
  induction more generalizing items with
  | nil => simp
  | cons n more ih =>
      rw [List.forall_mem_cons] at h
      obtain ⟨i, -, -, -, hlength, -⟩ := place_spec h.1 (pack capacity items)
      have hrest := ih (items ++ [n]) h.2
      rw [pack_concat, hlength, List.append_assoc] at hrest
      exact Nat.le_trans (Nat.le_max_left _ _) hrest

end Os20.Lib.Packing
