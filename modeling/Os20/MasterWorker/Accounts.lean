import Os20.MasterWorker.Shares

/-!
# `master-worker.c`: what a program point says about its thread

From where a thread stands one can read off which items a master has produced and how
many items a worker has consumed.  `change` says what one step of a thread does to the
globals and to these accounts; everything about the items follows from it.
-/

namespace Os20.MasterWorker

open Os20.Lib.Pthread Os20.Lib.Pthread.Program

variable {cfg : Config}

def Placed (cfg : Config) : cfg.Threads → Pc → Prop
  | .main, .createMasters i | .main, .joinMasters i => i ≤ cfg.numMasters
  | .main, .createWorkers j | .main, .joinWorkers j => j ≤ cfg.numWorkers
  | .main, .mainLock | .main, .mainTest | .main, .mainSignal | .main, .mainUnlock
  | .main, .mainBroadcast | .main, .mainDone => True
  | .master i, .produceLoop idx => cfg.masterStart i ≤ idx ∧ idx ≤ cfg.masterEnd i
  | .master i, .produceLock idx | .master i, .produceTest idx | .master i, .produceSignal idx
  | .master i, .checkItems idx | .master i, .produceWait idx | .master i, .put idx
  | .master i, .countItem idx | .master i, .produceUnlock idx =>
      cfg.masterStart i ≤ idx ∧ idx < cfg.masterEnd i
  | .master _, .finishLock | .master _, .finishTest | .master _, .finishSignal
  | .master _, .finishUnlock | .master _, .masterDone => True
  | .worker j, .consumeLoop k => cfg.workerStart j ≤ k ∧ k ≤ cfg.workerEnd j
  | .worker j, .consumeLock k | .worker j, .consumeTest k | .worker j, .consumeSignal k
  | .worker j, .consumeWait k | .worker j, .take k | .worker j, .consumeUnlock k =>
      cfg.workerStart j ≤ k ∧ k < cfg.workerEnd j
  | .worker _, .leaveLock | .worker _, .leaveSignal | .worker _, .leaveUnlock
  | .worker _, .workerDone => True
  | _, _ => False

def nextItem (cfg : Config) (id : Nat) : Pc → Nat
  | .produceLoop idx | .produceLock idx | .produceTest idx | .produceSignal idx
  | .checkItems idx | .produceWait idx | .put idx => idx
  | .countItem idx | .produceUnlock idx => idx + 1
  | .finishLock | .finishTest | .finishSignal | .finishUnlock | .masterDone => cfg.masterEnd id
  | _ => cfg.masterStart id

def yield (cfg : Config) (t : cfg.Threads) (p : Pc) : Multiset Nat :=
  Multiset.Ico (cfg.masterStart t.id) (nextItem cfg t.id p)

def nextUse (cfg : Config) (id : Nat) : Pc → Nat
  | .consumeLoop k | .consumeLock k | .consumeTest k | .consumeSignal k | .consumeWait k
  | .take k => k
  | .consumeUnlock k => k + 1
  | .leaveLock | .leaveSignal | .leaveUnlock | .workerDone => cfg.workerEnd id
  | _ => cfg.workerStart id

def taken (cfg : Config) (t : cfg.Threads) (p : Pc) : Nat :=
  nextUse cfg t.id p - cfg.workerStart t.id

def uncounted : Pc → Bool
  | .countItem _ => true
  | _ => false

theorem placed_entry (t : cfg.Threads) : Placed cfg t (cfg.entry t) := by
  cases t with
  | main => exact Nat.zero_le _
  | master i => exact ⟨le_refl _, Config.masterStart_le_end i.isLt⟩
  | worker j => exact ⟨le_refl _, Config.workerStart_le_end j.isLt⟩

theorem placed_effect {t : cfg.Threads} {p q : Pc} {d d' : Data} (hplaced : Placed cfg t p)
    (heffect : (cfg.code t p).Effect d d' q) : Placed cfg t q := by
  cases t with
  | main =>
      cases p with
      | createMasters i | createWorkers i | joinMasters i | joinWorkers i =>
          simp only [Config.code] at heffect
          split at heffect
          · next hlt =>
              obtain ⟨-, rfl⟩ := heffect
              exact hlt
          · obtain ⟨-, rfl⟩ := Prod.mk.inj heffect
            simp [Placed]
      | mainTest =>
          obtain ⟨-, rfl⟩ := Prod.mk.inj heffect
          split <;> trivial
      | mainLock | mainSignal | mainUnlock | mainBroadcast =>
          obtain ⟨-, rfl⟩ := heffect
          simp [Placed]
      | mainDone => cases heffect
      | _ => cases hplaced
  | master i =>
      cases p with
      | produceLoop idx =>
          obtain ⟨-, rfl⟩ := Prod.mk.inj heffect
          split
          · next hlt => exact ⟨hplaced.1, hlt⟩
          · trivial
      | produceTest | checkItems =>
          obtain ⟨-, rfl⟩ := Prod.mk.inj heffect
          split <;> exact hplaced
      | put | countItem =>
          obtain ⟨-, rfl⟩ := Prod.mk.inj heffect
          exact hplaced
      | finishTest =>
          obtain ⟨-, rfl⟩ := Prod.mk.inj heffect
          split <;> trivial
      | produceLock | produceSignal | produceWait =>
          obtain ⟨-, rfl⟩ := heffect
          exact hplaced
      | produceUnlock idx =>
          obtain ⟨-, rfl⟩ := heffect
          exact ⟨Nat.le_succ_of_le hplaced.1, hplaced.2⟩
      | finishLock | finishSignal | finishUnlock =>
          obtain ⟨-, rfl⟩ := heffect
          trivial
      | masterDone => cases heffect
      | _ => cases hplaced
  | worker j =>
      cases p with
      | consumeLoop k =>
          obtain ⟨-, rfl⟩ := Prod.mk.inj heffect
          split
          · next hlt => exact ⟨hplaced.1, hlt⟩
          · trivial
      | consumeTest =>
          obtain ⟨-, rfl⟩ := Prod.mk.inj heffect
          split <;> exact hplaced
      | take =>
          obtain ⟨-, rfl⟩ := Prod.mk.inj heffect
          exact hplaced
      | consumeLock | consumeSignal | consumeWait =>
          obtain ⟨-, rfl⟩ := heffect
          exact hplaced
      | consumeUnlock k =>
          obtain ⟨-, rfl⟩ := heffect
          exact ⟨Nat.le_succ_of_le hplaced.1, hplaced.2⟩
      | leaveLock | leaveSignal | leaveUnlock =>
          obtain ⟨-, rfl⟩ := heffect
          trivial
      | workerDone => cases heffect
      | _ => cases hplaced

inductive Change (cfg : Config) (t : cfg.Threads) (p q : Pc) (d : Data) : Data → Prop
  | quiet (hyield : yield cfg t q = yield cfg t p) (htaken : taken cfg t q = taken cfg t p)
      (huncounted : uncounted q = uncounted p) : Change cfg t p q d d
  | put {idx : Nat} (hp : p = .put idx) (hq : q = .countItem idx) :
      Change cfg t p q d (d.putItem idx)
  | count {idx : Nat} (hp : p = .countItem idx) (hq : q = .produceUnlock idx) :
      Change cfg t p q d { d with itemToProduce := d.itemToProduce + 1 }
  | take {k : Nat} (hp : p = .take k) (hq : q = .consumeUnlock k) :
      Change cfg t p q d d.takeItem

theorem change {t : cfg.Threads} {p q : Pc} {d d' : Data} (hplaced : Placed cfg t p)
    (heffect : (cfg.code t p).Effect d d' q) : Change cfg t p q d d' := by
  cases p with
  | createMasters i | createWorkers i | joinMasters i | joinWorkers i =>
      simp only [Config.code] at heffect
      split at heffect
      · obtain ⟨rfl, rfl⟩ := heffect
        exact .quiet rfl rfl rfl
      · obtain ⟨rfl, rfl⟩ := Prod.mk.inj heffect
        exact .quiet rfl rfl rfl
  | mainTest | produceTest | checkItems | finishTest | consumeTest =>
      obtain ⟨rfl, rfl⟩ := Prod.mk.inj heffect
      split <;> exact .quiet rfl rfl rfl
  | produceLoop idx =>
      obtain ⟨rfl, rfl⟩ := Prod.mk.inj heffect
      split
      · exact .quiet rfl rfl rfl
      · next hlt =>
          -- at the end of the loop `idx` is `end`
          cases t with
          | master i =>
              have hend : idx = cfg.masterEnd i := by
                have hle := hplaced.2
                simp only [Thread.id] at hlt
                omega
              refine .quiet ?_ rfl rfl
              rw [yield, yield, nextItem, nextItem, hend, Thread.id]
          | _ => cases hplaced
  | consumeLoop k =>
      obtain ⟨rfl, rfl⟩ := Prod.mk.inj heffect
      split
      · exact .quiet rfl rfl rfl
      · next hlt =>
          cases t with
          | worker j =>
              have hend : k = cfg.workerEnd j := by
                have hle := hplaced.2
                simp only [Thread.id] at hlt
                omega
              refine .quiet rfl ?_ rfl
              rw [taken, taken, nextUse, nextUse, hend, Thread.id]
          | _ => cases hplaced
  | put idx =>
      obtain ⟨rfl, rfl⟩ := Prod.mk.inj heffect
      exact .put rfl rfl
  | countItem idx =>
      obtain ⟨rfl, rfl⟩ := Prod.mk.inj heffect
      exact .count rfl rfl
  | take k =>
      obtain ⟨rfl, rfl⟩ := Prod.mk.inj heffect
      exact .take rfl rfl
  | mainDone | masterDone | workerDone => cases heffect
  | _ =>
      obtain ⟨rfl, rfl⟩ := heffect
      exact .quiet rfl rfl rfl

/-- From where, and past which test, a thread gets to a program point inside a critical
section. -/
def CameFrom (cfg : Config) (d d' : Data) (p : Pc) : Pc → Prop
  | .mainSignal => p = .mainTest ∧ d' = d ∧ 1 ≤ d.currBufSize
  | .mainUnlock => p = .mainSignal ∨ p = .mainTest ∧ d.currBufSize < 1
  | .produceSignal idx => p = .produceTest idx
  | .checkItems idx => p = .produceSignal idx
  | .produceWait idx => p = .checkItems idx
  | .put idx => p = .produceTest idx ∧ d' = d ∧ d.currBufSize < cfg.maxBufSize
  | .finishSignal => p = .finishTest ∧ d' = d ∧ 1 ≤ d.currBufSize
  | .consumeSignal k => p = .consumeTest k ∧ d.currBufSize ≤ 0
  | .consumeWait k => p = .consumeSignal k
  | .take k => p = .consumeTest k ∧ d' = d ∧ 1 ≤ d.currBufSize
  | _ => True

theorem cameFrom {t : cfg.Threads} {p q : Pc} {d d' : Data}
    (heffect : (cfg.code t p).Effect d d' q) : CameFrom cfg d d' p q := by
  cases p with
  | createMasters | createWorkers | joinMasters | joinWorkers =>
      simp only [Config.code] at heffect
      split at heffect
      · obtain ⟨-, rfl⟩ := heffect
        trivial
      · obtain ⟨-, rfl⟩ := Prod.mk.inj heffect
        trivial
  | mainTest =>
      obtain ⟨rfl, rfl⟩ := Prod.mk.inj heffect
      split
      · next hsize => exact ⟨rfl, rfl, hsize⟩
      · next hsize => exact .inr ⟨rfl, Int.not_le.mp hsize⟩
  | finishTest =>
      obtain ⟨rfl, rfl⟩ := Prod.mk.inj heffect
      split
      · next hsize => exact ⟨rfl, rfl, hsize⟩
      · trivial
  | produceTest idx =>
      obtain ⟨rfl, rfl⟩ := Prod.mk.inj heffect
      split
      · rfl
      · next hsize => exact ⟨rfl, rfl, Int.not_le.mp hsize⟩
  | consumeTest k =>
      obtain ⟨rfl, rfl⟩ := Prod.mk.inj heffect
      split
      · next hsize => exact ⟨rfl, hsize⟩
      · next hsize => exact ⟨rfl, rfl, Int.not_le.mp hsize⟩
  | checkItems =>
      obtain ⟨-, rfl⟩ := Prod.mk.inj heffect
      split
      · rfl
      · trivial
  | produceLoop | consumeLoop =>
      obtain ⟨-, rfl⟩ := Prod.mk.inj heffect
      split <;> trivial
  | put | countItem | take =>
      obtain ⟨-, rfl⟩ := Prod.mk.inj heffect
      trivial
  | mainSignal =>
      obtain ⟨-, rfl⟩ := heffect
      exact .inl rfl
  | produceSignal | consumeSignal =>
      obtain ⟨-, rfl⟩ := heffect
      rfl
  | mainDone | masterDone | workerDone => cases heffect
  | _ =>
      obtain ⟨-, rfl⟩ := heffect
      trivial

/-! ## Sums over all threads -/

theorem sum_threads {A : Type*} [AddCommMonoid A] (f : cfg.Threads → A) :
    ∑ t, f t = f .main + (∑ i, f (.master i) + ∑ j, f (.worker j)) := by
  rw [← Equiv.sum_comp Thread.equivOption.symm, Fintype.sum_option, Fintype.sum_sum_type]
  rfl

def share (cfg : Config) : cfg.Threads → Multiset Nat
  | .master i => Multiset.Ico (cfg.masterStart i) (cfg.masterEnd i)
  | _ => 0

def quota (cfg : Config) : cfg.Threads → Nat
  | .worker j => cfg.workerEnd j - cfg.workerStart j
  | _ => 0

theorem sum_share (hmasters : 0 < cfg.numMasters) :
    ∑ t, share cfg t = Multiset.range cfg.totalItems := by
  rw [sum_threads]
  simp [share, Config.sum_master_Ico hmasters]

theorem sum_quota (hworkers : 0 < cfg.numWorkers) : ∑ t, quota cfg t = cfg.totalItems := by
  rw [sum_threads]
  simp [quota, Config.sum_worker_quota hworkers]

theorem nextItem_bounds {i : Fin cfg.numMasters} {p : Pc} (hplaced : Placed cfg (.master i) p) :
    cfg.masterStart i ≤ nextItem cfg i p ∧ nextItem cfg i p ≤ cfg.masterEnd i := by
  have hle := Config.masterStart_le_end i.isLt
  cases p with
  | produceLoop | countItem | produceUnlock =>
      obtain ⟨hlo, hhi⟩ := hplaced
      simp only [nextItem]
      omega
  | produceLock | produceTest | produceSignal | checkItems | produceWait | put =>
      exact ⟨hplaced.1, hplaced.2.le⟩
  | finishLock | finishTest | finishSignal | finishUnlock | masterDone => exact ⟨hle, le_refl _⟩
  | _ => cases hplaced

theorem nextUse_bounds {j : Fin cfg.numWorkers} {p : Pc} (hplaced : Placed cfg (.worker j) p) :
    cfg.workerStart j ≤ nextUse cfg j p ∧ nextUse cfg j p ≤ cfg.workerEnd j := by
  have hle := Config.workerStart_le_end j.isLt
  cases p with
  | consumeLoop | consumeUnlock =>
      obtain ⟨hlo, hhi⟩ := hplaced
      simp only [nextUse]
      omega
  | consumeLock | consumeTest | consumeSignal | consumeWait | take =>
      exact ⟨hplaced.1, hplaced.2.le⟩
  | leaveLock | leaveSignal | leaveUnlock | workerDone => exact ⟨hle, le_refl _⟩
  | _ => cases hplaced

theorem yield_le_share {t : cfg.Threads} {p : Pc} (hplaced : Placed cfg t p) :
    yield cfg t p ≤ share cfg t := by
  cases t with
  | master i =>
      obtain ⟨hlo, hhi⟩ := nextItem_bounds hplaced
      have hsplit := Multiset.Ico_add_Ico_eq_Ico hlo hhi
      rw [share, ← hsplit]
      exact Multiset.le_add_right _ _
  | main | worker => cases p <;> first | exact False.elim hplaced | simp [yield, nextItem]

theorem taken_le_quota {t : cfg.Threads} {p : Pc} (hplaced : Placed cfg t p) :
    taken cfg t p ≤ quota cfg t := by
  cases t with
  | worker j => exact Nat.sub_le_sub_right (nextUse_bounds hplaced).2 _
  | main | master => cases p <;> first | exact False.elim hplaced | simp [taken, nextUse]

def wantsPut : Pc → Bool
  | .produceLock _ | .produceTest _ | .produceSignal _ | .checkItems _ | .produceWait _
  | .put _ => true
  | _ => false

def wantsTake : Pc → Bool
  | .consumeLock _ | .consumeTest _ | .consumeSignal _ | .consumeWait _ | .take _ => true
  | _ => false

theorem card_yield_lt {t : cfg.Threads} {p : Pc} (hplaced : Placed cfg t p)
    (hwants : wantsPut p = true) : (yield cfg t p).card < (share cfg t).card := by
  cases t with
  | master i =>
      simp only [yield, share, Thread.id, card_multiset_Ico]
      cases p with
      | produceLock | produceTest | produceSignal | checkItems | produceWait | put =>
          obtain ⟨hlo, hhi⟩ := hplaced
          simp only [nextItem]
          omega
      | _ => cases hwants
  | main | worker => cases p <;> first | exact False.elim hplaced | cases hwants

theorem taken_lt_quota {t : cfg.Threads} {p : Pc} (hplaced : Placed cfg t p)
    (hwants : wantsTake p = true) : taken cfg t p < quota cfg t := by
  cases t with
  | worker j =>
      simp only [taken, quota, Thread.id]
      cases p with
      | consumeLock | consumeTest | consumeSignal | consumeWait | take =>
          obtain ⟨hlo, hhi⟩ := hplaced
          simp only [nextUse]
          omega
      | _ => cases hwants
  | main | master => cases p <;> first | exact False.elim hplaced | cases hwants

def isDone : Pc → Bool
  | .mainDone | .masterDone | .workerDone => true
  | _ => false

theorem isExit_code (t : cfg.Threads) (p : Pc) : (cfg.code t p).isExit = isDone p := by
  cases p with
  | createMasters | createWorkers | joinMasters | joinWorkers =>
      simp only [Config.code]
      split <;> rfl
  | _ => rfl

theorem accounts_of_isDone {t : cfg.Threads} {p : Pc} (hplaced : Placed cfg t p)
    (hdone : isDone p = true) : yield cfg t p = share cfg t ∧ taken cfg t p = quota cfg t := by
  cases t with
  | main =>
      cases p with
      | mainDone => simp [yield, share, taken, quota, nextItem, nextUse]
      | _ => first | exact False.elim hplaced | cases hdone
  | master i =>
      cases p with
      | masterDone => simp [yield, share, taken, quota, nextItem, nextUse, Thread.id]
      | _ => first | exact False.elim hplaced | cases hdone
  | worker j =>
      cases p with
      | workerDone => simp [yield, share, taken, quota, nextItem, nextUse, Thread.id]
      | _ => first | exact False.elim hplaced | cases hdone

end Os20.MasterWorker
