import Mathlib.Data.List.FinRange
import Mathlib.Data.List.GetD

/-!
# Data in pieces

A list that is kept as an array of pieces: the first `m` of them have the same length, and
the others are empty.
-/

namespace Os20.Lib.Pieces

variable {α : Type*} {n c m : Nat}

def joined (f : Fin n → List α) : List α := (List.finRange n).flatMap f

/-- The first `m` pieces have length `c`, and the others are empty. -/
def Even (f : Fin n → List α) (c m : Nat) : Prop :=
  ∀ k, (f k).length = if k.val < m then c else 0

theorem joined_succ (f : Fin (n + 1) → List α) :
    joined f = f 0 ++ joined fun k : Fin n => f k.succ := by
  rw [joined, List.finRange_succ, List.flatMap_cons, List.flatMap_map]
  rfl

theorem Even.tail {f : Fin (n + 1) → List α} (hf : Even f c (m + 1)) :
    Even (fun k : Fin n => f k.succ) c m := by
  intro k
  rw [hf k.succ]
  simp

theorem Even.eq_nil {f : Fin n → List α} (hf : Even f c 0) (k : Fin n) : f k = [] :=
  List.eq_nil_of_length_eq_zero (by simp [hf k])

theorem length_joined {f : Fin n → List α} (hf : Even f c m) (hm : m ≤ n) :
    (joined f).length = c * m := by
  induction n generalizing m with
  | zero =>
      obtain rfl : m = 0 := by omega
      rfl
  | succ n ih =>
      cases m with
      | zero =>
          rw [joined, List.flatMap_eq_nil_iff.mpr fun k _ => hf.eq_nil k]
          rfl
      | succ m =>
          rw [joined_succ, List.length_append, ih hf.tail (by omega), hf 0]
          simp [Nat.mul_succ, Nat.add_comm]

theorem getD_joined {f : Fin n → List α} (hf : Even f c m) (k : Fin n) (hk : k.val < m) {q : Nat}
    (hq : q < c) (d : α) : (joined f).getD (c * k + q) d = (f k).getD q d := by
  induction n generalizing m with
  | zero => exact k.elim0
  | succ n ih =>
      obtain ⟨m, rfl⟩ : ∃ m', m = m' + 1 := ⟨m - 1, by omega⟩
      have hlen : (f 0).length = c := by simp [hf 0]
      rw [joined_succ]
      cases k using Fin.cases with
      | zero =>
          rw [List.getD_append _ _ _ _ (by simpa [hlen] using hq)]
          simp
      | succ k =>
          have hk' : k.val < m := by simpa using hk
          rw [List.getD_append_right _ _ _ _ (by rw [hlen, Fin.val_succ, Nat.mul_succ]; omega),
            hlen, Fin.val_succ, Nat.mul_succ, show c * k + c + q - c = c * k + q by omega]
          exact ih hf.tail k hk'

end Os20.Lib.Pieces
