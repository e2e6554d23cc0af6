import Mathlib.Data.List.Basic
import Mathlib.Data.Nat.ModEq
import Mathlib.Logic.Function.Basic

/-!
# Ring buffers with free-running counters

A buffer of `n` cells between two counters of 32 bits that are never reset.  The counters may
wrap around, as long as `n` divides `2 ^ 32`: a cell is found by the remainder of a counter.
-/

namespace Os20.Lib.Ring

variable {α : Type*} {n : Nat} {cells : Fin n → α} {r w : UInt32}

def slot (n : Nat) (hn : 0 < n) (i : UInt32) : Fin n := ⟨i.toNat % n, Nat.mod_lt _ hn⟩

def segment (hn : 0 < n) (cells : Fin n → α) (r w : UInt32) : List α :=
  (List.range (w - r).toNat).map fun k => cells (slot n hn (r + UInt32.ofNat k))

variable {hn : 0 < n}

@[simp] theorem segment_self (hn : 0 < n) (cells : Fin n → α) (r : UInt32) :
    segment hn cells r r = [] := by simp [segment]

@[simp] theorem length_segment (hn : 0 < n) (cells : Fin n → α) (r w : UInt32) :
    (segment hn cells r w).length = (w - r).toNat := by simp [segment]

theorem toNat_sub_add_one (h : (w - r).toNat + 1 < 2 ^ 32) :
    (w + 1 - r).toNat = (w - r).toNat + 1 := by
  have hsub : w + 1 - r = w - r + 1 := by grind
  rw [hsub, UInt32.toNat_add]
  exact Nat.mod_eq_of_lt h

theorem toNat_sub_pos (h : r ≠ w) : 0 < (w - r).toNat := by
  rw [Nat.pos_iff_ne_zero]
  intro hzero
  have hsub : w - r = 0 := UInt32.toNat_inj.mp hzero
  apply h
  grind

theorem toNat_sub_sub_one (h : r ≠ w) : (w - (r + 1)).toNat = (w - r).toNat - 1 := by
  have hpos := toNat_sub_pos h
  have hle : (1 : UInt32) ≤ w - r := by
    rw [UInt32.le_iff_toNat_le]
    exact hpos
  have hsub : w - (r + 1) = w - r - 1 := by grind
  rw [hsub, UInt32.toNat_sub_of_le _ _ hle]
  rfl

theorem toNat_sub_one_sub (h : r ≠ w) : (w - 1 - r).toNat = (w - r).toNat - 1 := by
  have hsub : w - 1 - r = w - (r + 1) := by grind
  rw [hsub, toNat_sub_sub_one h]

theorem slot_inj (hdvd : n ∣ 2 ^ 32) {i j : Nat} (hi : i < n) (hj : j < n)
    (h : slot n hn (r + UInt32.ofNat i) = slot n hn (r + UInt32.ofNat j)) : i = j := by
  have hval := congrArg Fin.val h
  have hcell (k : Nat) : (r + UInt32.ofNat k).toNat % n = (r.toNat + k) % n := by
    rw [UInt32.toNat_add, UInt32.toNat_ofNat', Nat.mod_mod_of_dvd _ hdvd, Nat.add_mod,
      Nat.mod_mod_of_dvd _ hdvd, ← Nat.add_mod]
  simp only [slot, hcell] at hval
  have hmod : i % n = j % n := Nat.ModEq.add_left_cancel' r.toNat hval
  rwa [Nat.mod_eq_of_lt hi, Nat.mod_eq_of_lt hj] at hmod

theorem segment_push (hdvd : n ∣ 2 ^ 32) (hsmall : n < 2 ^ 32) (hspace : (w - r).toNat < n)
    (x : α) : segment hn (Function.update cells (slot n hn w) x) r (w + 1) =
      segment hn cells r w ++ [x] := by
  have hw : r + UInt32.ofNat (w - r).toNat = w := by
    rw [UInt32.ofNat_toNat]
    grind
  rw [segment, toNat_sub_add_one (by omega), List.range_succ, List.map_append]
  congr 1
  · apply List.map_congr_left
    intro k hk
    have hlt := List.mem_range.mp hk
    refine Function.update_of_ne (fun heq => ?_) ..
    have heq' : slot n hn (r + UInt32.ofNat k) = slot n hn (r + UInt32.ofNat (w - r).toNat) := by
      rw [heq, hw]
    have hsame := slot_inj hdvd (by omega) hspace heq'
    omega
  · rw [List.map_singleton, hw, Function.update_self]

theorem segment_concat (hne : r ≠ w) : segment hn cells r w =
    segment hn cells r (w - 1) ++ [cells (slot n hn (w - 1))] := by
  have hlast : r + UInt32.ofNat ((w - r).toNat - 1) = w - 1 := by
    rw [← toNat_sub_one_sub hne, UInt32.ofNat_toNat]
    grind
  have hpos := toNat_sub_pos hne
  obtain ⟨m, hm⟩ : ∃ m, (w - r).toNat = m + 1 := ⟨(w - r).toNat - 1, by omega⟩
  rw [hm, Nat.add_sub_cancel] at hlast
  rw [segment, segment, toNat_sub_one_sub hne, hm, List.range_succ, List.map_append,
    List.map_singleton, hlast, Nat.add_sub_cancel]

theorem segment_pop (hne : r ≠ w) :
    segment hn cells r w = cells (slot n hn r) :: segment hn cells (r + 1) w := by
  obtain ⟨m, hm⟩ : ∃ m, (w - r).toNat = m + 1 :=
    ⟨(w - r).toNat - 1, by have := toNat_sub_pos hne; omega⟩
  rw [segment, segment, toNat_sub_sub_one hne, hm, List.range_succ_eq_map, List.map_cons,
    List.map_map, Nat.add_sub_cancel]
  congr 1
  · simp
  · apply List.map_congr_left
    intro k _
    have hnext : r + UInt32.ofNat (k + 1) = r + 1 + UInt32.ofNat k := by
      rw [UInt32.ofNat_add]
      grind
    exact congrArg (fun i => cells (slot n hn i)) hnext

end Os20.Lib.Ring
