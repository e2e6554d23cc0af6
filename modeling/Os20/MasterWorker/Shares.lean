import Mathlib.Algebra.BigOperators.Fin
import Mathlib.Algebra.Order.BigOperators.Group.Finset
import Mathlib.Order.Interval.Multiset
import Os20.MasterWorker.Threads

/-!
# `master-worker.c`: how the items are shared out

The masters cut `[0, total_items)` into consecutive intervals.  The workers have quotas
that add up to `total_items`; only how many items a worker takes matters, not which
numbers its loop variable runs through.
-/

namespace Os20.MasterWorker

theorem sum_Ico_succ {f : Nat → Nat} (hf : Monotone f) (n : Nat) :
    ∑ i ∈ Finset.range n, Multiset.Ico (f i) (f (i + 1)) = Multiset.Ico (f 0) (f n) := by
  induction n with
  | zero => simp
  | succ n ih =>
      rw [Finset.sum_range_succ, ih]
      apply Multiset.Ico_add_Ico_eq_Ico
      · exact hf (Nat.zero_le n)
      · exact hf (Nat.le_succ n)

theorem card_multiset_Ico (a b : Nat) : (Multiset.Ico a b).card = b - a :=
  Nat.card_Ico a b

namespace Config

variable {cfg : Config}

def masterCut (cfg : Config) (i : Nat) : Nat :=
  if i < cfg.numMasters then i * (cfg.totalItems / cfg.numMasters) else cfg.totalItems

theorem mul_chunk_le {i n total : Nat} (h : i ≤ n) : i * (total / n) ≤ total :=
  (Nat.mul_le_mul_right _ h).trans (Nat.mul_div_le total n)

theorem monotone_masterCut : Monotone cfg.masterCut := by
  apply monotone_nat_of_le_succ
  intro i
  unfold masterCut
  split
  · split
    · exact Nat.mul_le_mul_right _ (Nat.le_succ i)
    · exact mul_chunk_le (by omega)
  · split
    · omega
    · exact le_refl _

theorem masterStart_eq_cut {i : Nat} (hi : i < cfg.numMasters) :
    cfg.masterStart i = cfg.masterCut i := by
  simp [masterStart, masterCut, hi]

theorem masterEnd_eq_cut {i : Nat} (hi : i < cfg.numMasters) :
    cfg.masterEnd i = cfg.masterCut (i + 1) := by
  have hle : (i + 1) * (cfg.totalItems / cfg.numMasters) ≤ cfg.totalItems :=
    mul_chunk_le (by omega)
  unfold masterEnd masterCut
  rw [min_eq_left hle]
  by_cases hlast : i = cfg.numMasters - 1
  · have hsucc : i + 1 = cfg.numMasters := by omega
    rw [if_pos hlast, if_neg (by omega), hsucc]
    exact Nat.div_add_mod _ _
  · rw [if_neg hlast, if_pos (by omega), Nat.add_zero]

theorem masterStart_le_end {i : Nat} (hi : i < cfg.numMasters) :
    cfg.masterStart i ≤ cfg.masterEnd i := by
  rw [masterStart_eq_cut hi, masterEnd_eq_cut hi]
  exact monotone_masterCut (Nat.le_succ i)

/-- The masters' intervals are together `[0, total_items)`. -/
theorem sum_master_Ico (hmasters : 0 < cfg.numMasters) :
    ∑ i : Fin cfg.numMasters, Multiset.Ico (cfg.masterStart i) (cfg.masterEnd i) =
      Multiset.range cfg.totalItems := by
  have hcut : ∀ i : Fin cfg.numMasters, Multiset.Ico (cfg.masterStart i) (cfg.masterEnd i) =
      Multiset.Ico (cfg.masterCut i) (cfg.masterCut (i + 1)) := by
    intro i
    rw [masterStart_eq_cut i.isLt, masterEnd_eq_cut i.isLt]
  rw [Finset.sum_congr rfl fun i _ => hcut i,
    Fin.sum_univ_eq_sum_range fun i => Multiset.Ico (cfg.masterCut i) (cfg.masterCut (i + 1)),
    sum_Ico_succ monotone_masterCut]
  have hzero : cfg.masterCut 0 = 0 := by simp [masterCut, hmasters]
  have hlast : cfg.masterCut cfg.numMasters = cfg.totalItems := by simp [masterCut]
  rw [hzero, hlast, ← Finset.range_val, ← Nat.Ico_zero_eq_range]
  rfl

theorem workerEnd_sub_start {j : Nat} (hj : j < cfg.numWorkers) :
    cfg.workerEnd j - cfg.workerStart j = cfg.totalItems / cfg.numWorkers +
      if j = 0 then cfg.totalItems % cfg.numWorkers else 0 := by
  have hle : (j + 1) * (cfg.totalItems / cfg.numWorkers) ≤ cfg.totalItems :=
    mul_chunk_le (by omega)
  unfold workerEnd workerStart
  rw [min_eq_left hle, Nat.succ_mul, Nat.add_assoc, Nat.add_sub_cancel_left]

theorem workerStart_le_end {j : Nat} (hj : j < cfg.numWorkers) :
    cfg.workerStart j ≤ cfg.workerEnd j := by
  have hle : (j + 1) * (cfg.totalItems / cfg.numWorkers) ≤ cfg.totalItems :=
    mul_chunk_le (by omega)
  unfold workerEnd workerStart
  rw [min_eq_left hle, Nat.succ_mul, Nat.add_assoc]
  exact Nat.le_add_right _ _

/-- The workers' quotas add up to `total_items`. -/
theorem sum_worker_quota (hworkers : 0 < cfg.numWorkers) :
    ∑ j : Fin cfg.numWorkers, (cfg.workerEnd j - cfg.workerStart j) = cfg.totalItems := by
  rw [Finset.sum_congr rfl fun j _ => workerEnd_sub_start j.isLt, Finset.sum_add_distrib]
  have hfirst : ∑ j : Fin cfg.numWorkers,
      (if (j : Nat) = 0 then cfg.totalItems % cfg.numWorkers else 0) =
        cfg.totalItems % cfg.numWorkers := by
    rw [Finset.sum_eq_single_of_mem ⟨0, hworkers⟩ (Finset.mem_univ _)]
    · simp
    · intro j _ hj
      rw [if_neg fun h => hj (Fin.ext h)]
  rw [hfirst, Finset.sum_const, Finset.card_univ, Fintype.card_fin, smul_eq_mul]
  exact Nat.div_add_mod _ _

end Config

end Os20.MasterWorker
