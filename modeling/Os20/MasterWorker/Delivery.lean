import Mathlib.Algebra.Order.Interval.Finset.SuccPred
import Mathlib.Data.Nat.SuccPred
import Os20.MasterWorker.Accounts

/-!
# `master-worker.c`: exactly-once delivery

The items produced are those that the program points of the masters account for, and
they are always the items consumed together with the filled part of the buffer.  The
tests of `curr_buf_size` stay valid up to the access that follows because both stand in
one critical section.
-/

namespace Os20.MasterWorker

open Os20.Lib.Transition Os20.Lib.Pthread Os20.Lib.Pthread.Program

variable {cfg : Config}

/-- `buffer[0..curr_buf_size)` -/
def Data.contents (d : Data) : Multiset Nat :=
  (Multiset.range d.currBufSize.toNat).map fun i : Nat => d.buffer i

theorem contents_putItem {d : Data} (hsize : 0 ≤ d.currBufSize) (idx : Nat) :
    (d.putItem idx).contents = idx ::ₘ d.contents := by
  obtain ⟨n, hn⟩ := Int.eq_ofNat_of_zero_le hsize
  have hsucc : (d.putItem idx).currBufSize.toNat = n + 1 := by
    simp only [Data.putItem]
    omega
  rw [Data.contents, Data.contents, hsucc, hn, Int.toNat_natCast, Multiset.range_succ,
    Multiset.map_cons]
  congr 1
  · simp [Data.putItem, hn]
  · apply Multiset.map_congr rfl
    intro i hi
    have hne : (i : Int) ≠ n := by
      have hlt := Multiset.mem_range.mp hi
      omega
    simp [Data.putItem, hn, hne]

theorem contents_takeItem {d : Data} (hsize : 1 ≤ d.currBufSize) :
    d.contents = d.buffer (d.currBufSize - 1) ::ₘ d.takeItem.contents := by
  obtain ⟨n, hn⟩ := Int.eq_ofNat_of_zero_le (show 0 ≤ d.currBufSize - 1 by omega)
  have hsucc : d.currBufSize.toNat = n + 1 := by omega
  have hpred : d.takeItem.currBufSize.toNat = n := by
    simp only [Data.takeItem]
    omega
  rw [Data.contents, Data.contents, hsucc, hpred, Multiset.range_succ, Multiset.map_cons, hn]
  congr 1
  apply Multiset.map_congr rfl
  intro i hi
  have hne : (i : Int) ≠ n := by
    have hlt := Multiset.mem_range.mp hi
    omega
  simp [Data.takeItem, hn, hne]

theorem card_contents (d : Data) : d.contents.card = d.currBufSize.toNat := by
  simp [Data.contents]

/-! ## Tests that stay valid -/

/-- What the test before a statement has found out. -/
def Guarded (cfg : Config) (d : Data) : Pc → Prop
  | .put _ => d.currBufSize < cfg.maxBufSize
  | .take _ | .mainSignal | .finishSignal => 1 ≤ d.currBufSize
  | _ => True

theorem guarded_of_not_inside {d : Data} {p : Pc} (hp : inside p = false) : Guarded cfg d p := by
  cases p <;> trivial

/-- A thread gets behind a test only by passing it. -/
theorem guarded_effect {t : cfg.Threads} {p q : Pc} {d d' : Data}
    (heffect : (cfg.code t p).Effect d d' q) : Guarded cfg d' q := by
  have hfrom := cameFrom heffect
  cases q with
  | put | take | mainSignal | finishSignal =>
      obtain ⟨-, rfl, hsize⟩ := hfrom
      exact hsize
  | _ => trivial

theorem guarded_step {pc : cfg.Threads → Pc} {t : cfg.Threads} {q : Pc} {d d' : Data}
    (hplaced : Placed cfg t (pc t)) (hguarded : ∀ u, Guarded cfg d (pc u))
    (hinside : ∀ u, inside (pc t) = true → inside (pc u) = true → t = u)
    (heffect : (cfg.code t (pc t)).Effect d d' q) (u : cfg.Threads) :
    Guarded cfg d' (Function.update pc t q u) := by
  by_cases hut : u = t
  · rw [hut, Function.update_self]
    exact guarded_effect heffect
  · rw [Function.update_of_ne hut]
    by_cases hu : inside (pc u) = true
    · -- `u` is in its critical section, so `t` does not touch the buffer
      have ht : inside (pc t) ≠ true := fun ht => hut (hinside u ht hu).symm
      cases change hplaced heffect with
      | quiet => exact hguarded u
      | put hp | count hp | take hp =>
          rw [hp] at ht
          exact absurd rfl ht
    · exact guarded_of_not_inside (by simpa using hu)

/-! ## The ledger -/

structure Ledger (cfg : Config) (d : Data) (pc : cfg.Threads → Pc) : Prop where
  placed : ∀ t, Placed cfg t (pc t)
  guarded : ∀ t, Guarded cfg d (pc t)
  /-- The masters' program points account for the items produced. -/
  produced : (d.produced : Multiset Nat) = ∑ t, yield cfg t (pc t)
  /-- The workers' program points account for the number of items consumed. -/
  consumed : d.consumed.length = ∑ t, taken cfg t (pc t)
  /-- Every item produced was consumed or is still in the buffer. -/
  kept : (d.produced : Multiset Nat) = d.consumed + d.contents
  items : d.itemToProduce + count uncounted pc = d.produced.length
  size : 0 ≤ d.currBufSize ∧ d.currBufSize ≤ cfg.maxBufSize
  accessed : ∀ i ∈ d.accessed, 0 ≤ i ∧ i < cfg.maxBufSize

theorem yield_countItem {t : cfg.Threads} {idx : Nat} (hplaced : Placed cfg t (.put idx)) :
    yield cfg t (.countItem idx) = idx ::ₘ yield cfg t (.put idx) := by
  cases t with
  | master i =>
      show (Finset.Ico (cfg.masterStart i) (idx + 1)).val =
        idx ::ₘ Multiset.Ico (cfg.masterStart i) idx
      rw [Multiset.Ico_cons_right hplaced.1, Finset.Ico_add_one_right_eq_Icc]
      rfl
  | _ => cases hplaced

theorem taken_consumeUnlock {t : cfg.Threads} {k : Nat} (hplaced : Placed cfg t (.take k)) :
    taken cfg t (.consumeUnlock k) = taken cfg t (.take k) + 1 := by
  cases t with
  | worker j =>
      have hle : cfg.workerStart j ≤ k := hplaced.1
      simp only [taken, nextUse, Thread.id]
      omega
  | _ => cases hplaced

theorem Ledger.step {pc : cfg.Threads → Pc} {t : cfg.Threads} {q : Pc} {d d' : Data}
    (hledger : Ledger cfg d pc)
    (hinside : ∀ u, inside (pc t) = true → inside (pc u) = true → t = u)
    (heffect : (cfg.code t (pc t)).Effect d d' q) :
    Ledger cfg d' (Function.update pc t q) := by
  have hplaced := hledger.placed t
  have hyield := sum_update_add (yield cfg) pc t q
  have htaken := sum_update_add (taken cfg) pc t q
  have huncounted := count_update uncounted pc t q
  have hsize := hledger.size
  have hguard := hledger.guarded t
  have hplaced' : ∀ u, Placed cfg u (Function.update pc t q u) := by
    intro u
    by_cases hut : u = t
    · subst hut
      rw [Function.update_self]
      exact placed_effect hplaced heffect
    · rw [Function.update_of_ne hut]
      exact hledger.placed u
  have hguarded' := guarded_step hplaced hledger.guarded hinside heffect
  cases change hplaced heffect with
  | quiet hy ht hu =>
      rw [hy, add_right_cancel_iff] at hyield
      rw [ht] at htaken
      rw [hu] at huncounted
      refine ⟨hplaced', hguarded', ?_, ?_, hledger.kept, ?_, hsize, hledger.accessed⟩
      · rw [hledger.produced, hyield]
      · rw [hledger.consumed]
        omega
      · rw [← hledger.items]
        omega
  | @put idx hp hq =>
      subst hq
      rw [hp] at hyield htaken huncounted hguard hplaced
      rw [yield_countItem hplaced, Multiset.add_cons, ← Multiset.cons_add,
        add_right_cancel_iff] at hyield
      have hlt : d.currBufSize < cfg.maxBufSize := hguard
      refine ⟨hplaced', hguarded', ?_, ?_, ?_, ?_, ?_, ?_⟩
      · rw [hyield, ← hledger.produced]
        rfl
      · have heq : taken cfg t (.countItem idx) = taken cfg t (.put idx) := rfl
        show d.consumed.length = _
        rw [hledger.consumed]
        omega
      · show (idx ::ₘ d.produced : Multiset Nat) = d.consumed + (d.putItem idx).contents
        rw [contents_putItem hsize.1, Multiset.add_cons, ← hledger.kept]
      · have hitems := hledger.items
        simp only [uncounted, Bool.toNat_false, Bool.toNat_true] at huncounted
        simp only [Data.putItem, List.length_cons]
        omega
      · simp only [Data.putItem]
        omega
      · simp only [Data.putItem, List.mem_cons, forall_eq_or_imp]
        exact ⟨⟨hsize.1, hlt⟩, hledger.accessed⟩
  | @count idx hp hq =>
      subst hq
      rw [hp] at hyield htaken huncounted
      have hyield' := add_right_cancel hyield
      have htaken' := Nat.add_right_cancel htaken
      refine ⟨hplaced', hguarded', ?_, ?_, hledger.kept, ?_, hsize, hledger.accessed⟩
      · rw [hyield', ← hledger.produced]
      · rw [htaken', ← hledger.consumed]
      · have hitems := hledger.items
        simp only [uncounted, Bool.toNat_false, Bool.toNat_true] at huncounted
        dsimp only
        omega
  | @take k hp hq =>
      subst hq
      rw [hp] at hyield htaken huncounted hguard hplaced
      have hyield' := add_right_cancel hyield
      rw [taken_consumeUnlock hplaced] at htaken
      have hpos : 1 ≤ d.currBufSize := hguard
      refine ⟨hplaced', hguarded', ?_, ?_, ?_, ?_, ?_, ?_⟩
      · rw [hyield', ← hledger.produced]
        rfl
      · have hconsumed := hledger.consumed
        simp only [Data.takeItem, List.length_cons]
        omega
      · rw [Data.takeItem, ← Multiset.cons_coe, Multiset.cons_add, ← Multiset.add_cons]
        rw [hledger.kept, contents_takeItem hpos]
        rfl
      · have hitems := hledger.items
        simp only [uncounted, Bool.toNat_false] at huncounted
        simp only [Data.takeItem]
        omega
      · simp only [Data.takeItem]
        omega
      · simp only [Data.takeItem, List.mem_cons, forall_eq_or_imp]
        exact ⟨by omega, hledger.accessed⟩

theorem ledger_initial {garbage : Int → Nat} :
    Ledger cfg (cfg.program garbage).data (cfg.program garbage).entry := by
  have hyield : ∀ t, yield cfg t (cfg.entry t) = 0 := by
    intro t
    cases t <;> simp [yield, nextItem, Config.entry, Thread.id]
  have htaken : ∀ t, taken cfg t (cfg.entry t) = 0 := by
    intro t
    cases t <;> simp [taken, nextUse, Config.entry, Thread.id]
  have huncounted : count uncounted cfg.entry = 0 := by
    rw [count_eq_zero]
    intro t
    cases t <;> rfl
  constructor
  case placed => exact placed_entry
  case guarded =>
    intro t
    cases t <;> trivial
  case produced => simp [Config.program, hyield]
  case consumed => simp [Config.program, htaken]
  case kept => simp [Config.program, Data.contents]
  case items => simp [Config.program, huncounted]
  case size => simp [Config.program]
  case accessed => simp [Config.program]

theorem ledger {garbage : Int → Nat} {spurious : Bool}
    {ok : State Data Mutex cfg.Threads Pc → Event cfg.Threads Pc → Prop}
    {s : State Data Mutex cfg.Threads Pc}
    (hreach : ((cfg.program garbage).system spurious).ReachableWhere ok s) :
    Ledger cfg s.data s.pc := by
  apply hreach.invariant
  · rintro s rfl
    exact ledger_initial
  · intro s e s' hreach hledger _ hnext
    rcases (next_step hnext).moves with ⟨hdata, hpc⟩ | ⟨q, hpc, heffect⟩
    · rwa [hdata, hpc]
    · rw [hpc]
      have howners := (discipline cfg garbage).owners hreach
      exact hledger.step (fun u ht hu => inside_unique howners ht hu) heffect

/-! ## What the ledger says about the items -/

theorem Ledger.produced_le {d : Data} {pc : cfg.Threads → Pc} (hledger : Ledger cfg d pc)
    (hmasters : 0 < cfg.numMasters) :
    (d.produced : Multiset Nat) ≤ Multiset.range cfg.totalItems := by
  rw [hledger.produced, ← sum_share hmasters]
  exact Finset.sum_le_sum fun t _ => yield_le_share (hledger.placed t)

theorem Ledger.produced_lt {d : Data} {pc : cfg.Threads → Pc} (hledger : Ledger cfg d pc)
    (hmasters : 0 < cfg.numMasters) {t : cfg.Threads} (hwants : wantsPut (pc t) = true) :
    d.produced.length < cfg.totalItems := by
  have hlength : d.produced.length = ∑ u, (yield cfg u (pc u)).card := by
    rw [← Multiset.coe_card, hledger.produced, Multiset.card_sum]
  have htotal : cfg.totalItems = ∑ u, (share cfg u).card := by
    rw [← Multiset.card_sum, sum_share hmasters, Multiset.card_range]
  rw [hlength, htotal]
  apply Finset.sum_lt_sum
  · intro u _
    exact Multiset.card_le_card (yield_le_share (hledger.placed u))
  · exact ⟨t, Finset.mem_univ t, card_yield_lt (hledger.placed t) hwants⟩

theorem Ledger.length_produced {d : Data} {pc : cfg.Threads → Pc} (hledger : Ledger cfg d pc) :
    d.produced.length = d.consumed.length + d.currBufSize.toNat := by
  have hcard := congrArg Multiset.card hledger.kept
  rwa [Multiset.card_add, Multiset.coe_card, Multiset.coe_card, card_contents] at hcard

theorem Ledger.length_produced_le {d : Data} {pc : cfg.Threads → Pc}
    (hledger : Ledger cfg d pc) (hmasters : 0 < cfg.numMasters) :
    d.produced.length ≤ cfg.totalItems := by
  have hcard := Multiset.card_le_card (hledger.produced_le hmasters)
  rwa [Multiset.coe_card, Multiset.card_range] at hcard

theorem Ledger.consumed_lt {d : Data} {pc : cfg.Threads → Pc} (hledger : Ledger cfg d pc)
    (hworkers : 0 < cfg.numWorkers) {t : cfg.Threads} (hwants : wantsTake (pc t) = true) :
    d.consumed.length < cfg.totalItems := by
  rw [hledger.consumed, ← sum_quota hworkers]
  apply Finset.sum_lt_sum
  · exact fun u _ => taken_le_quota (hledger.placed u)
  · exact ⟨t, Finset.mem_univ t, taken_lt_quota (hledger.placed t) hwants⟩

theorem Ledger.exists_worker {d : Data} {pc : cfg.Threads → Pc} (hledger : Ledger cfg d pc)
    (hworkers : 0 < cfg.numWorkers) (hlt : d.consumed.length < cfg.totalItems) :
    ∃ j, isDone (pc (.worker j)) = false := by
  by_contra hnone
  have htaken : ∀ t, taken cfg t (pc t) = quota cfg t := by
    intro t
    have hle := taken_le_quota (hledger.placed t)
    cases t with
    | main => exact Nat.le_zero.mp hle
    | master i => exact Nat.le_zero.mp hle
    | worker j =>
        apply (accounts_of_isDone (hledger.placed _) _).2
        by_contra hj
        exact hnone ⟨j, by simpa using hj⟩
  rw [hledger.consumed, Finset.sum_congr rfl fun t _ => htaken t, sum_quota hworkers] at hlt
  exact absurd hlt (Nat.lt_irrefl _)

theorem Ledger.size_pos {d : Data} {pc : cfg.Threads → Pc} (hledger : Ledger cfg d pc)
    (hmasters : 0 < cfg.numMasters) (hworkers : 0 < cfg.numWorkers)
    (hdone : ∀ i, isDone (pc (.master i)) = true) {t : cfg.Threads}
    (hwants : wantsTake (pc t) = true) : 1 ≤ d.currBufSize := by
  have hyield : ∀ u, yield cfg u (pc u) = share cfg u := by
    intro u
    have hle := yield_le_share (hledger.placed u)
    cases u with
    | main => exact Multiset.le_zero.mp hle
    | worker j => exact Multiset.le_zero.mp hle
    | master i => exact (accounts_of_isDone (hledger.placed _) (hdone i)).1
  have hproduced : d.produced.length = cfg.totalItems := by
    rw [← Multiset.coe_card, hledger.produced, Finset.sum_congr rfl fun u _ => hyield u,
      sum_share hmasters, Multiset.card_range]
  have hlength := hledger.length_produced
  have hlt := hledger.consumed_lt hworkers hwants
  omega

theorem Ledger.consumed_perm {d : Data} {pc : cfg.Threads → Pc} (hledger : Ledger cfg d pc)
    (hmasters : 0 < cfg.numMasters) (hworkers : 0 < cfg.numWorkers)
    (hdone : ∀ t, isDone (pc t) = true) : d.consumed.Perm (List.range cfg.totalItems) := by
  have haccounts := fun t => accounts_of_isDone (hledger.placed t) (hdone t)
  have hproduced : (d.produced : Multiset Nat) = Multiset.range cfg.totalItems := by
    rw [hledger.produced, Finset.sum_congr rfl fun t _ => (haccounts t).1, sum_share hmasters]
  have hconsumed : d.consumed.length = cfg.totalItems := by
    rw [hledger.consumed, Finset.sum_congr rfl fun t _ => (haccounts t).2, sum_quota hworkers]
  have hempty : d.contents = 0 := by
    have hlength := hledger.length_produced
    rw [← Multiset.coe_card, hproduced, Multiset.card_range, hconsumed] at hlength
    rw [← Multiset.card_eq_zero, card_contents]
    omega
  rw [← Multiset.coe_eq_coe, ← add_zero (d.consumed : Multiset Nat), ← hempty, ← hledger.kept,
    hproduced]
  rfl

/-- In every state of every run. -/
structure ExactlyOnce (cfg : Config) (garbage : Int → Nat)
    (s : State Data Mutex cfg.Threads Pc) : Prop where
  size : 0 ≤ s.data.currBufSize ∧ s.data.currBufSize ≤ cfg.maxBufSize
  accessed : ∀ i ∈ s.data.accessed, 0 ≤ i ∧ i < cfg.maxBufSize
  distinct : s.data.produced.Nodup
  range : ∀ n ∈ s.data.produced, n < cfg.totalItems
  kept : (s.data.produced : Multiset Nat) = s.data.consumed + s.data.contents
  /-- Where the buffer-full loop tests `item_to_produce`, it waits. -/
  waits : ∀ t idx, s.pc t = .checkItems idx → s.data.itemToProduce ≠ cfg.totalItems
  finished : (∀ t, (cfg.program garbage).exited s t = true) →
    s.data.consumed.Perm (List.range cfg.totalItems)

theorem exactlyOnce {garbage : Int → Nat} {spurious : Bool} {s : State Data Mutex cfg.Threads Pc}
    (hmasters : 1 ≤ cfg.numMasters) (hworkers : 1 ≤ cfg.numWorkers)
    (hreach : ((cfg.program garbage).system spurious).Reachable s) :
    ExactlyOnce cfg garbage s := by
  have hledger := ledger hreach
  have hle := hledger.produced_le hmasters
  constructor
  case size => exact hledger.size
  case accessed => exact hledger.accessed
  case distinct =>
    rw [← Multiset.coe_nodup]
    exact Multiset.nodup_of_le hle (Multiset.nodup_range _)
  case range =>
    intro n hn
    exact Multiset.mem_range.mp (Multiset.mem_of_le hle hn)
  case kept => exact hledger.kept
  case waits =>
    intro t idx hpc
    have hlt := hledger.produced_lt hmasters (t := t) (by rw [hpc]; rfl)
    have hitems := hledger.items
    omega
  case finished =>
    intro hexited
    apply hledger.consumed_perm hmasters hworkers
    intro t
    have ht := hexited t
    rw [Program.exited, Bool.and_eq_true] at ht
    rw [← isExit_code t]
    exact ht.2

/-- Three masters and two workers with unequal shares, and fewer places than items. -/
def unequal : Config :=
  { totalItems := 5, maxBufSize := 2, numWorkers := 2, numMasters := 3 }

open Event Thread in
/-- The first worker sleeps until the last master has stored an item, and that one sleeps until
the worker has made room. -/
def unequalRun : List (Event unequal.Threads Pc) :=
  List.replicate 7 (exec main) ++
    List.replicate 11 (exec (master ⟨0, by decide⟩)) ++
    List.replicate 11 (exec (master ⟨1, by decide⟩)) ++
    List.replicate 15 (exec (worker ⟨0, by decide⟩)) ++
    List.replicate 15 (exec (master ⟨2, by decide⟩)) ++
    [wake (master ⟨2, by decide⟩) (worker ⟨0, by decide⟩)] ++
    List.replicate 2 (exec (master ⟨2, by decide⟩)) ++
    List.replicate 6 (exec (worker ⟨0, by decide⟩)) ++
    [wake (worker ⟨0, by decide⟩) (master ⟨2, by decide⟩), exec (worker ⟨0, by decide⟩)] ++
    List.replicate 10 (exec (master ⟨2, by decide⟩)) ++
    List.replicate 14 (exec (worker ⟨1, by decide⟩)) ++
    List.replicate 11 (exec main)

theorem exactlyOnce_unequal :
    ∃ s, ((unequal.program fun _ => 0).system false).Reachable s ∧
      (∀ t, (unequal.program fun _ => 0).exited s t = true) ∧
      s.data.consumed = [2, 4, 3, 0, 1] ∧ ExactlyOnce unequal (fun _ => 0) s := by
  obtain ⟨s, hreach, hexited⟩ := System.exists_reachable_of_run
    (M := (unequal.program fun _ => 0).system false) unequalRun
    (fun s => decide ((∀ t, (unequal.program fun _ => 0).exited s t = true) ∧
      s.data.consumed = [2, 4, 3, 0, 1])) (initial_init _ _) (by decide +kernel)
  obtain ⟨hall, hconsumed⟩ := of_decide_eq_true hexited
  exact ⟨s, hreach, hall, hconsumed, exactlyOnce (by decide) (by decide) hreach⟩

end Os20.MasterWorker
