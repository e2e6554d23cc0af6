import Os20.Log.Machine
import Mathlib.Algebra.BigOperators.Group.Finset.Basic
import Mathlib.Algebra.Order.BigOperators.Group.Finset
import Mathlib.Tactic.IntervalCases

/-!
# The log does not fill up

`begin_op` reserves `MAXOPBLOCKS` blocks for every operation in progress.  That is enough for
the panics of `log_write` to stay away if every operation leaves one of its blocks unused, and
not if it takes them all: the check also fails for a block that is in the log already.
-/

namespace Os20.Log

open Os20.Lib.Transition

def Task.Active : Task → Prop
  | .op _ _ => True
  | _ => False

def Task.used : Task → Nat
  | .op blocks _ => blocks.length
  | _ => 0

variable {P : Type*} {g : Geometry} {budget : Nat} {s s' : State P} {A : Finset P} {p q : P}
  {e : Event P}

structure State.Io (s s' : State P) : Prop where
  lh : s'.lh = s.lh
  outstanding : s'.outstanding = s.outstanding
  committing : s'.committing = s.committing
  boot : s'.boot = s.boot
  task : s'.task = s.task

namespace State.Io

theorem refl (s : State P) : s.Io s := ⟨rfl, rfl, rfl, rfl, rfl⟩

theorem trans {s'' : State P} (h : s.Io s') (h' : s'.Io s'') : s.Io s'' where
  lh := h'.lh.trans h.lh
  outstanding := h'.outstanding.trans h.outstanding
  committing := h'.committing.trans h.committing
  boot := h'.boot.trans h.boot
  task := h'.task.trans h.task

theorem bread (s : State P) (b : BlockNo) : s.Io (s.bread b) := by
  unfold State.bread
  split
  · exact .refl s
  · exact ⟨rfl, rfl, rfl, rfl, rfl⟩

theorem bwrite (s : State P) (b : BlockNo) (data : Block) : s.Io (s.bwrite b data) :=
  ⟨rfl, rfl, rfl, rfl, rfl⟩

theorem writeHead (s : State P) (g : Geometry) : s.Io (s.writeHead g) :=
  (bread s g.start).trans (bwrite ..)

theorem writeLog (s : State P) (g : Geometry) (tail : Nat) (b : BlockNo) :
    s.Io (s.writeLog g tail b) :=
  ((bread s _).trans (bread _ b)).trans (bwrite ..)

theorem installTrans (s : State P) (g : Geometry) (tail : Nat) (b : BlockNo) :
    s.Io (s.installTrans g tail b) :=
  ((bread s _).trans (bread _ b)).trans (bwrite ..)

end State.Io

/-- An operation keeps within its budget; `w` is the block it is about to log. -/
structure Task.Keeps (g : Geometry) (budget : Nat) (lh blocks : List BlockNo)
    (w : Option BlockNo) : Prop where
  logged : blocks ⊆ lh
  length : blocks.length ≤ budget
  write : ∀ b, w = some b → ¬g.InLog b ∧ (b ∈ blocks ∨ blocks.length < budget)

/-- The operations in progress are those of `A`, and the log has room for what they may still
write. -/
structure Room (g : Geometry) (budget : Nat) (s : State P) (A : Finset P) : Prop where
  active : ∀ p, p ∈ A ↔ (s.task p).Active
  count : A.card = s.outstanding
  keeps : ∀ p blocks w, s.task p = .op blocks w → Task.Keeps g budget s.lh blocks w
  committing : s.committing = true → A = ∅ ∧ ∃ p pc, s.task p = .commit pc
  committer : ∀ p pc, s.task p = .commit pc → s.committing = true ∧
    ∀ q pc', s.task q = .commit pc' → q = p
  boot : s.boot ≠ none → s.committing = false ∧ ∀ p, s.task p = .idle
  quiet : s.boot = none → s.committing = false → A = ∅ → s.lh = []
  header : s.boot = none → s.lh.Nodup ∧ ∀ b ∈ s.lh, ¬g.InLog b
  room : s.boot = none →
    s.lh.length + ∑ p ∈ A, (budget - (s.task p).used) ≤ maxOpBlocks + 2 * budget
  asleep : ∀ p, s.task p = .asleep → s.committing = true ∨ A ≠ ∅
  done : ∀ p, s.task p = .commit .done → s.lh = []

namespace Room

theorem boot_empty (h : Room g budget s A) (hboot : s.boot ≠ none) : A = ∅ := by
  apply Finset.eq_empty_of_forall_notMem
  intro p hp
  have hactive := (h.active p).mp hp
  rw [(h.boot hboot).2 p] at hactive
  exact hactive

theorem mem_of_op (h : Room g budget s A) {blocks : List BlockNo} {w : Option BlockNo}
    (htask : s.task p = .op blocks w) : p ∈ A := by
  rw [h.active, htask]
  trivial

theorem of_op (h : Room g budget s A) {blocks : List BlockNo} {w : Option BlockNo}
    (htask : s.task p = .op blocks w) :
    s.boot = none ∧ s.committing = false ∧ ∀ q pc, s.task q ≠ .commit pc := by
  have hmem := h.mem_of_op htask
  have hcommitting : s.committing = false := by
    by_contra hc
    rw [(h.committing (by simpa using hc)).1] at hmem
    simp at hmem
  refine ⟨?_, hcommitting, fun q pc hq => ?_⟩
  · by_contra hboot
    rw [h.boot_empty hboot] at hmem
    simp at hmem
  · have hc := (h.committer q pc hq).1
    rw [hcommitting] at hc
    cases hc

theorem of_commit (h : Room g budget s A) {pc : Commit} (htask : s.task p = .commit pc) :
    s.boot = none ∧ A = ∅ := by
  have hcommitting := (h.committer p pc htask).1
  refine ⟨?_, (h.committing hcommitting).1⟩
  by_contra hboot
  rw [(h.boot hboot).1] at hcommitting
  cases hcommitting

theorem congr (h : Room g budget s A) (hlh : s'.lh = s.lh)
    (houtstanding : s'.outstanding = s.outstanding) (hcommitting : s'.committing = s.committing)
    (hboot : s'.boot = s.boot)
    (hop : ∀ p blocks w, s'.task p = .op blocks w →
      ∃ w', s.task p = .op blocks w' ∧ Task.Keeps g budget s.lh blocks w)
    (hop' : ∀ p blocks w, s.task p = .op blocks w → ∃ w', s'.task p = .op blocks w')
    (hcommit : ∀ p pc, s'.task p = .commit pc → ∃ pc', s.task p = .commit pc')
    (hcommit' : ∀ p pc, s.task p = .commit pc → ∃ pc', s'.task p = .commit pc')
    (hidle : s.boot ≠ none → s'.task = s.task)
    (hasleep : ∀ p, s'.task p = .asleep → s.task p = .asleep ∨ s.committing = true ∨ A ≠ ∅)
    (hdone : ∀ p, s'.task p = .commit .done → s.task p = .commit .done ∨ s.lh = []) :
    Room g budget s' A where
  active p := by
    rw [h.active]
    constructor
    · intro hactive
      cases htask : s.task p with
      | op blocks w =>
          obtain ⟨w', hw'⟩ := hop' p blocks w htask
          rw [hw']
          trivial
      | idle | asleep | awake | commit => rw [htask] at hactive; cases hactive
    · intro hactive
      cases htask : s'.task p with
      | op blocks w =>
          obtain ⟨w', hw', -⟩ := hop p blocks w htask
          rw [hw']
          trivial
      | idle | asleep | awake | commit => rw [htask] at hactive; cases hactive
  count := h.count.trans houtstanding.symm
  keeps p blocks w hp := by
    rw [hlh]
    exact (hop p blocks w hp).choose_spec.2
  committing hc := by
    rw [hcommitting] at hc
    obtain ⟨hempty, p, pc, hp⟩ := h.committing hc
    exact ⟨hempty, p, hcommit' p pc hp⟩
  committer p pc hp := by
    obtain ⟨pc', hpc'⟩ := hcommit p pc hp
    obtain ⟨hc, honly⟩ := h.committer p pc' hpc'
    refine ⟨hcommitting.trans hc, fun q pcq hq => ?_⟩
    obtain ⟨pcq', hq'⟩ := hcommit q pcq hq
    exact honly q pcq' hq'
  boot hb := by
    rw [hboot] at hb
    rw [hcommitting, hidle hb]
    exact h.boot hb
  quiet := by
    rw [hboot, hcommitting, hlh]
    exact h.quiet
  header := by
    rw [hboot, hlh]
    exact h.header
  room hb := by
    rw [hboot] at hb
    have hused : ∀ p ∈ A, budget - (s'.task p).used = budget - (s.task p).used := by
      intro p hp
      have hactive := (h.active p).mp hp
      cases htask : s.task p with
      | op blocks w =>
          obtain ⟨w', hw'⟩ := hop' p blocks w htask
          rw [hw']
          rfl
      | idle | asleep | awake | commit => rw [htask] at hactive; cases hactive
    rw [hlh, Finset.sum_congr rfl hused]
    exact h.room hb
  asleep p hp := by
    rw [hcommitting]
    exact (hasleep p hp).elim (h.asleep p) id
  done p hp := by
    rw [hlh]
    exact (hdone p hp).elim (h.done p) id

variable [DecidableEq P]

/-- A process that is neither in an operation nor committing goes to sleep or wakes up. -/
theorem setTask (h : Room g budget s A) {task : Task} (hboot : s.boot = none)
    (hold : ∀ blocks w, s.task p ≠ .op blocks w) (hold' : ∀ pc, s.task p ≠ .commit pc)
    (hnew : ∀ blocks w, task ≠ .op blocks w) (hnew' : ∀ pc, task ≠ .commit pc)
    (hasleep : task = .asleep → s.committing = true ∨ A ≠ ∅) :
    Room g budget (s.setTask p task) A := by
  have hself : (s.setTask p task).task p = task := Function.update_self ..
  have hother {q : P} (hq : q ≠ p) : (s.setTask p task).task q = s.task q :=
    Function.update_of_ne hq ..
  refine h.congr rfl rfl rfl rfl (fun q blocks w hq => ?_) (fun q blocks w hq => ?_)
    (fun q pc hq => ?_) (fun q pc hq => ?_) (fun hb => absurd hboot hb) (fun q hq => ?_)
    fun q hq => ?_
  · by_cases hqp : q = p
    · rw [hqp, hself] at hq
      exact absurd hq (hnew blocks w)
    · rw [hother hqp] at hq
      exact ⟨w, hq, h.keeps q blocks w hq⟩
  · by_cases hqp : q = p
    · rw [hqp] at hq
      exact absurd hq (hold blocks w)
    · exact ⟨w, (hother hqp).trans hq⟩
  · by_cases hqp : q = p
    · rw [hqp, hself] at hq
      exact absurd hq (hnew' pc)
    · exact ⟨pc, (hother hqp).symm.trans hq⟩
  · by_cases hqp : q = p
    · rw [hqp] at hq
      exact absurd hq (hold' pc)
    · exact ⟨pc, (hother hqp).trans hq⟩
  · by_cases hqp : q = p
    · rw [hqp, hself] at hq
      exact .inr (hasleep hq)
    · exact .inl ((hother hqp).symm.trans hq)
  · by_cases hqp : q = p
    · rw [hqp, hself] at hq
      exact absurd hq (hnew' .done)
    · exact .inl ((hother hqp).symm.trans hq)

theorem setCommit (h : Room g budget s A) {pc pc' : Commit} (htask : s.task p = .commit pc)
    (htask' : s'.task = Function.update s.task p (.commit pc')) (hlh : s'.lh = s.lh)
    (houtstanding : s'.outstanding = s.outstanding) (hcommitting : s'.committing = s.committing)
    (hboot : s'.boot = s.boot) (hdone : pc' = .done → s.lh = []) : Room g budget s' A := by
  have hself : s'.task p = .commit pc' := by rw [htask', Function.update_self]
  have hother {q : P} (hq : q ≠ p) : s'.task q = s.task q := by
    rw [htask', Function.update_of_ne hq]
  refine h.congr hlh houtstanding hcommitting hboot (fun q blocks w hq => ?_)
    (fun q blocks w hq => ?_) (fun q pc hq => ?_) (fun q pc hq => ?_)
    (fun hb => absurd (h.of_commit htask).1 hb) (fun q hq => ?_) fun q hq => ?_
  · by_cases hqp : q = p
    · rw [hqp, hself] at hq
      cases hq
    · rw [hother hqp] at hq
      exact ⟨w, hq, h.keeps q blocks w hq⟩
  · by_cases hqp : q = p
    · rw [hqp, htask] at hq
      cases hq
    · exact ⟨w, (hother hqp).trans hq⟩
  · by_cases hqp : q = p
    · exact ⟨_, by rw [hqp, htask]⟩
    · exact ⟨pc, (hother hqp).symm.trans hq⟩
  · by_cases hqp : q = p
    · exact ⟨_, by rw [hqp, hself]⟩
    · exact ⟨pc, (hother hqp).trans hq⟩
  · by_cases hqp : q = p
    · rw [hqp, hself] at hq
      cases hq
    · exact .inl ((hother hqp).symm.trans hq)
  · by_cases hqp : q = p
    · rw [hqp, hself] at hq
      cases hq
      exact .inr (hdone rfl)
    · exact .inl ((hother hqp).symm.trans hq)

omit [DecidableEq P] in
theorem same (h : Room g budget s A) (hlh : s'.lh = s.lh)
    (houtstanding : s'.outstanding = s.outstanding) (hcommitting : s'.committing = s.committing)
    (hboot : s'.boot = s.boot) (htask : s'.task = s.task) : Room g budget s' A := by
  refine h.congr hlh houtstanding hcommitting hboot (fun p blocks w hp => ?_)
    (fun p blocks w hp => ⟨w, by rwa [htask]⟩) (fun p pc hp => ⟨pc, by rwa [← htask]⟩)
    (fun p pc hp => ⟨pc, by rwa [htask]⟩) (fun _ => htask) (fun p hp => .inl (by rwa [← htask]))
    fun p hp => .inl (by rwa [← htask])
  rw [htask] at hp
  exact ⟨w, hp, h.keeps p blocks w hp⟩

omit [DecidableEq P] in
theorem wakeup (h : Room g budget s A) (hboot : s.boot = none) : Room g budget s.wakeup A := by
  have htask (p : P) : s.wakeup.task p = if s.task p = .asleep then .awake else s.task p := rfl
  refine h.congr rfl rfl rfl rfl (fun p blocks w hp => ?_) (fun p blocks w hp => ⟨w, ?_⟩)
    (fun p pc hp => ⟨pc, ?_⟩) (fun p pc hp => ⟨pc, ?_⟩) (fun hb => absurd hboot hb) (fun p hp => ?_)
    fun p hp => .inl ?_
  · rw [htask] at hp
    split at hp
    · cases hp
    · exact ⟨w, hp, h.keeps p blocks w hp⟩
  · rw [htask, hp]
    simp
  · rw [htask] at hp
    split at hp
    · cases hp
    · exact hp
  · rw [htask, hp]
    simp
  · rw [htask] at hp
    split at hp
    · cases hp
    · next hnot => exact absurd hp hnot
  · rw [htask] at hp
    split at hp
    · cases hp
    · exact hp

omit [DecidableEq P] in
theorem wakeup_ne_asleep (s : State P) (p : P) : s.wakeup.task p ≠ .asleep := by
  simp only [State.wakeup]
  split
  · simp
  · assumption

/-- The reservation of an operation that begins. -/
theorem begin_room {n m budget : Nat} (hbudget : budget ≤ maxOpBlocks)
    (hroom : ¬n + (m + 1) * maxOpBlocks > logSize) (hfirst : m = 0 → n = 0) :
    n + (m + 1) * budget ≤ maxOpBlocks + 2 * budget := by
  unfold logSize maxOpBlocks at *
  have hm : m ≤ 2 := by omega
  interval_cases m
  · have := hfirst rfl
    omega
  · omega
  · omega

theorem beginOp (h : Room g budget s A) (hbudget : budget ≤ maxOpBlocks) (hboot : s.boot = none)
    (htask : s.task p = .idle ∨ s.task p = .awake) : ∃ A, Room g budget (s.beginOp p) A := by
  have hold : ∀ blocks w, s.task p ≠ .op blocks w := by
    rcases htask with ht | ht
    · simp [ht]
    · simp [ht]
  have hold' : ∀ pc, s.task p ≠ .commit pc := by
    rcases htask with ht | ht
    · simp [ht]
    · simp [ht]
  unfold State.beginOp
  split
  · next hcommitting =>
      exact ⟨A, h.setTask hboot hold hold' (by simp) (by simp) fun _ => .inl hcommitting⟩
  · next hcommitting =>
      have hfree : s.committing = false := by simpa using hcommitting
      split
      · next hfull =>
          refine ⟨A, h.setTask hboot hold hold' (by simp) (by simp) fun _ => .inr fun hempty => ?_⟩
          -- with nothing outstanding there is room
          have hzero : s.outstanding = 0 := by
            rw [← h.count, hempty, Finset.card_empty]
          rw [h.quiet hboot hfree hempty, hzero] at hfull
          simp [logSize, maxOpBlocks] at hfull
      · next hroom =>
          have hnot : p ∉ A := by
            rw [h.active]
            rcases htask with ht | ht
            · simp [ht, Task.Active]
            · simp [ht, Task.Active]
          have hself : (s.setTask p (.op [] none)).task p = .op [] none := Function.update_self ..
          have hother {q : P} (hq : q ≠ p) : (s.setTask p (.op [] none)).task q = s.task q :=
            Function.update_of_ne hq ..
          have hne {q : P} (hq : q ∈ A) : q ≠ p := by
            rintro rfl
            exact hnot hq
          refine ⟨insert p A, fun q => ?_, ?_, fun q blocks w hq => ?_,
            fun hc => absurd hc hcommitting, fun q pc hq => ?_, fun hb => absurd hboot hb,
            fun _ _ hempty => absurd hempty (Finset.insert_ne_empty p A), h.header, fun _ => ?_,
            fun _ _ => .inr (Finset.insert_ne_empty p A), fun q hq => ?_⟩
          · by_cases hqp : q = p
            · rw [hqp, hself]
              simp [Task.Active]
            · rw [Finset.mem_insert, hother hqp, h.active]
              simp [hqp]
          · dsimp only
            rw [Finset.card_insert_of_notMem hnot, h.count]
          · dsimp only at hq
            by_cases hqp : q = p
            · rw [hqp, hself] at hq
              cases hq
              exact ⟨by simp, by simp, by simp⟩
            · rw [hother hqp] at hq
              exact h.keeps q blocks w hq
          · dsimp only at hq
            by_cases hqp : q = p
            · rw [hqp, hself] at hq
              cases hq
            · rw [hother hqp] at hq
              exact absurd (h.committer q pc hq).1 hcommitting
          · dsimp only
            rw [Finset.sum_insert hnot, hself]
            have hsum : ∑ q ∈ A, (budget - ((s.setTask p (.op [] none)).task q).used) ≤
                s.outstanding * budget := by
              rw [← h.count, ← Finset.sum_const_nat (f := fun _ => budget) fun _ _ => rfl]
              exact Finset.sum_le_sum fun q _ => Nat.sub_le _ _
            have hbegin := begin_room hbudget hroom fun hzero => by
              have hempty : A = ∅ := Finset.card_eq_zero.mp (h.count.trans hzero)
              rw [h.quiet hboot hfree hempty]
              rfl
            have hlh : (s.setTask p (.op [] none)).lh = s.lh := rfl
            have hused : (Task.op [] none).used = 0 := rfl
            rw [hlh, hused]
            rw [Nat.add_mul] at hbegin
            omega
          · dsimp only at hq
            by_cases hqp : q = p
            · rw [hqp, hself] at hq
              cases hq
            · rw [hother hqp] at hq
              exact absurd (h.committer q .done hq).1 hcommitting

theorem leave (h : Room g budget s A) {blocks : List BlockNo} (htask : s.task p = .op blocks none)
    (hmore : A.erase p ≠ ∅) :
    Room g budget { s.setTask p .idle with outstanding := s.outstanding - 1 } (A.erase p) := by
  obtain ⟨hboot, hfree, hnobody⟩ := h.of_op htask
  have hmem := h.mem_of_op htask
  have hself : (s.setTask p .idle).task p = .idle := Function.update_self ..
  have hother {q : P} (hq : q ≠ p) : (s.setTask p .idle).task q = s.task q :=
    Function.update_of_ne hq ..
  refine ⟨fun q => ?_, ?_, fun q bs w hq => ?_, fun hc => ?_, fun q pc hq => ?_,
    fun hb => absurd hboot hb, fun _ _ hempty => absurd hempty hmore, h.header, fun _ => ?_,
    fun _ _ => .inr hmore, fun q hq => ?_⟩
  · dsimp only
    by_cases hqp : q = p
    · rw [hqp, hself]
      simp [Task.Active]
    · rw [hother hqp, Finset.mem_erase, h.active]
      simp [hqp]
  · dsimp only
    rw [Finset.card_erase_of_mem hmem, h.count]
  · dsimp only at hq
    by_cases hqp : q = p
    · rw [hqp, hself] at hq
      cases hq
    · rw [hother hqp] at hq
      exact h.keeps q bs w hq
  · exact absurd (hfree.symm.trans hc) (by simp)
  · dsimp only at hq
    by_cases hqp : q = p
    · rw [hqp, hself] at hq
      cases hq
    · rw [hother hqp] at hq
      exact absurd hq (hnobody q pc)
  · have hroom := h.room hboot
    rw [← Finset.add_sum_erase A _ hmem] at hroom
    have hused : ∑ q ∈ A.erase p, (budget - ((s.setTask p .idle).task q).used) =
        ∑ q ∈ A.erase p, (budget - (s.task q).used) :=
      Finset.sum_congr rfl fun q hq => by rw [hother (Finset.ne_of_mem_erase hq)]
    have hlh : (s.setTask p .idle).lh = s.lh := rfl
    dsimp only
    rw [hused, hlh]
    omega
  · dsimp only at hq
    by_cases hqp : q = p
    · rw [hqp, hself] at hq
      cases hq
    · rw [hother hqp] at hq
      exact absurd hq (hnobody q .done)

theorem last (h : Room g budget s A) {blocks : List BlockNo} (htask : s.task p = .op blocks none)
    (hlast : A.erase p = ∅) {pc : Commit} (hpc : pc = .done → s.lh = []) :
    Room g budget { s.setTask p (.commit pc) with
      outstanding := s.outstanding - 1, committing := true } ∅ := by
  obtain ⟨hboot, hfree, hnobody⟩ := h.of_op htask
  have hself : (s.setTask p (.commit pc)).task p = .commit pc := Function.update_self ..
  have hother {q : P} (hq : q ≠ p) : (s.setTask p (.commit pc)).task q = s.task q :=
    Function.update_of_ne hq ..
  have honly {q : P} {pcq : Commit} (hq : (s.setTask p (.commit pc)).task q = .commit pcq) :
      q = p := by
    by_contra hqp
    rw [hother hqp] at hq
    exact hnobody q pcq hq
  have hop {q : P} (hq : ((s.setTask p (.commit pc)).task q).Active) : False := by
    by_cases hqp : q = p
    · rw [hqp, hself] at hq
      exact hq
    · rw [hother hqp, ← h.active] at hq
      have herase := Finset.mem_erase.mpr ⟨hqp, hq⟩
      rw [hlast] at herase
      simp at herase
  refine ⟨fun q => ⟨fun hq => by simp at hq, fun hq => (hop hq).elim⟩, ?_, fun q bs w hq => ?_,
    fun _ => ⟨rfl, p, pc, hself⟩, fun q pcq hq => ⟨rfl, fun q' pcq' hq' => ?_⟩,
    fun hb => absurd hboot hb, fun _ hc => ?_, h.header, fun _ => ?_, fun _ _ => .inl rfl,
    fun q hq => ?_⟩
  · dsimp only
    rw [← h.count, ← Finset.card_erase_of_mem (h.mem_of_op htask), hlast]
  · dsimp only at hq
    exact (hop (by rw [hq]; trivial)).elim
  · exact (honly hq').trans (honly hq).symm
  · cases hc
  · have hroom := h.room hboot
    have hlh : (s.setTask p (.commit pc)).lh = s.lh := rfl
    dsimp only
    rw [Finset.sum_empty, hlh]
    omega
  · obtain rfl := honly hq
    exact hpc (Task.commit.inj (hself.symm.trans hq))

theorem endOp (h : Room g budget s A) {blocks : List BlockNo} (htask : s.task p = .op blocks none)
    (hend : s.endOp p = some s') : ∃ A, Room g budget s' A := by
  obtain ⟨hboot, -, -⟩ := h.of_op htask
  have hcard : (A.erase p).card = s.outstanding - 1 := by
    rw [Finset.card_erase_of_mem (h.mem_of_op htask), h.count]
  unfold State.endOp at hend
  dsimp only at hend
  split at hend
  · cases hend
  · split at hend
    · next hlast =>
        cases hend
        refine ⟨∅, h.last htask (Finset.card_eq_zero.mp (hcard.trans hlast)) fun hpc => ?_⟩
        split at hpc
        · cases hpc
        · next hempty => exact List.eq_nil_of_length_eq_zero (Nat.eq_zero_of_not_pos hempty)
    · next hmore =>
        cases hend
        have hop : s.wakeup.task p = .op blocks none := by
          simp [State.wakeup, htask]
        have herase : A.erase p ≠ ∅ := by
          intro hempty
          rw [hempty, Finset.card_empty] at hcard
          exact hmore hcard.symm
        exact ⟨A.erase p, (h.wakeup hboot).leave hop herase⟩

/-- `log_write` passes its checks, for a block within the budget. -/
theorem logWrite (h : Room g budget s A) {blocks : List BlockNo} {b : BlockNo}
    (htask : s.task p = .op blocks none) (hb : ¬g.InLog b)
    (hwithin : b ∈ blocks ∨ blocks.length < budget) :
    Room g budget (s.setTask p (.op blocks (some b))) A := by
  have hself : (s.setTask p (.op blocks (some b))).task p = .op blocks (some b) :=
    Function.update_self ..
  have hother {q : P} (hq : q ≠ p) : (s.setTask p (.op blocks (some b))).task q = s.task q :=
    Function.update_of_ne hq ..
  refine h.congr rfl rfl rfl rfl (fun q bs w hq => ?_) (fun q bs w hq => ?_) (fun q pc hq => ?_)
    (fun q pc hq => ?_) (fun hboot => absurd (h.of_op htask).1 hboot) (fun q hq => ?_)
    fun q hq => ?_
  · by_cases hqp : q = p
    · rw [hqp, hself] at hq
      cases hq
      have hold := h.keeps p blocks none htask
      refine ⟨none, by rw [hqp, htask], hold.logged, hold.length, ?_⟩
      rintro x hx
      cases hx
      exact ⟨hb, hwithin⟩
    · rw [hother hqp] at hq
      exact ⟨w, hq, h.keeps q bs w hq⟩
  · by_cases hqp : q = p
    · rw [hqp, htask] at hq
      cases hq
      exact ⟨some b, by rw [hqp, hself]⟩
    · exact ⟨w, (hother hqp).trans hq⟩
  · by_cases hqp : q = p
    · rw [hqp, hself] at hq
      cases hq
    · exact ⟨pc, (hother hqp).symm.trans hq⟩
  · by_cases hqp : q = p
    · rw [hqp, htask] at hq
      cases hq
    · exact ⟨pc, (hother hqp).trans hq⟩
  · by_cases hqp : q = p
    · rw [hqp, hself] at hq
      cases hq
    · exact .inl ((hother hqp).symm.trans hq)
  · by_cases hqp : q = p
    · rw [hqp, hself] at hq
      cases hq
    · exact .inl ((hother hqp).symm.trans hq)

omit [DecidableEq P] in
theorem subset_logWrite (s : State P) (b : BlockNo) (data : Block) :
    s.lh ⊆ (s.logWrite b data).lh := by
  intro x hx
  simp only [State.logWrite]
  split
  · exact hx
  · exact List.mem_append_left _ hx

omit [DecidableEq P] in
theorem mem_logWrite (s : State P) (b : BlockNo) (data : Block) : b ∈ (s.logWrite b data).lh := by
  simp only [State.logWrite]
  split
  · assumption
  · simp

omit [DecidableEq P] in
theorem of_mem_logWrite {b x : BlockNo} {data : Block} (hx : x ∈ (s.logWrite b data).lh) :
    x ∈ s.lh ∨ x = b := by
  simp only [State.logWrite] at hx
  split at hx
  · exact .inl hx
  · simpa using hx

omit [DecidableEq P] in
theorem nodup_logWrite (hnodup : s.lh.Nodup) (b : BlockNo) (data : Block) :
    (s.logWrite b data).lh.Nodup := by
  simp only [State.logWrite]
  split
  · exact hnodup
  · next hnew => exact hnodup.append (List.nodup_singleton b) (by simpa using hnew)

omit [DecidableEq P] in
theorem keeps_append {blocks : List BlockNo} {b : BlockNo}
    (h : Task.Keeps g budget s.lh blocks (some b)) (data : Block) :
    Task.Keeps g budget (s.logWrite b data).lh (if b ∈ blocks then blocks else b :: blocks)
      none := by
  have hsub := subset_logWrite s b data
  refine ⟨?_, ?_, by simp⟩
  · split
    · exact fun x hx => hsub (h.logged hx)
    · intro x hx
      rcases List.mem_cons.mp hx with rfl | hx
      · exact mem_logWrite s x data
      · exact hsub (h.logged hx)
  · split
    · exact h.length
    · next hnew =>
        rw [List.length_cons]
        exact (h.write b rfl).2.resolve_left hnew

/-- A block that is new to the log is new to the operation. -/
theorem room_append (h : Room g budget s A) {blocks : List BlockNo} {b : BlockNo}
    (htask : s.task p = .op blocks (some b)) (data : Block) :
    (s.logWrite b data).lh.length + ∑ q ∈ A, (budget - (((s.logWrite b data).setTask p
      (.op (if b ∈ blocks then blocks else b :: blocks) none)).task q).used) ≤
        maxOpBlocks + 2 * budget := by
  have hkeeps := h.keeps p blocks (some b) htask
  have hmem := h.mem_of_op htask
  have hroom := h.room (h.of_op htask).1
  set t := (s.logWrite b data).setTask p
    (.op (if b ∈ blocks then blocks else b :: blocks) none) with ht
  rw [← Finset.add_sum_erase A _ hmem] at hroom ⊢
  have hrest : ∑ q ∈ A.erase p, (budget - (t.task q).used) =
      ∑ q ∈ A.erase p, (budget - (s.task q).used) :=
    Finset.sum_congr rfl fun q hq => by
      rw [show t.task q = s.task q from Function.update_of_ne (Finset.ne_of_mem_erase hq) ..]
  have hold : (s.task p).used = blocks.length := by rw [htask]; rfl
  have hnew : (t.task p).used = if b ∈ blocks then blocks.length else blocks.length + 1 := by
    rw [show t.task p = .op (if b ∈ blocks then blocks else b :: blocks) none from
      Function.update_self ..]
    simp only [Task.used]
    split
    · rfl
    · rfl
  have hlh : (s.logWrite b data).lh = if b ∈ s.lh then s.lh else s.lh ++ [b] := rfl
  rw [hold] at hroom
  rw [hrest, hnew, hlh]
  by_cases hin : b ∈ blocks
  · rw [if_pos hin, if_pos (hkeeps.logged hin)]
    exact hroom
  · have hlt := (hkeeps.write b rfl).2.resolve_left hin
    rw [if_neg hin]
    split
    · omega
    · rw [List.length_append, List.length_singleton]
      omega

/-- `log_write` appends the block, if it is not there yet. -/
theorem append (h : Room g budget s A) {blocks : List BlockNo} {b : BlockNo}
    (htask : s.task p = .op blocks (some b)) (data : Block) :
    Room g budget ((s.logWrite b data).setTask p
      (.op (if b ∈ blocks then blocks else b :: blocks) none)) A := by
  obtain ⟨hboot, hfree, hnobody⟩ := h.of_op htask
  have hmem := h.mem_of_op htask
  have hkeeps := h.keeps p blocks (some b) htask
  set t := (s.logWrite b data).setTask p
    (.op (if b ∈ blocks then blocks else b :: blocks) none) with ht
  have hself : t.task p = .op (if b ∈ blocks then blocks else b :: blocks) none :=
    Function.update_self ..
  have hother {q : P} (hq : q ≠ p) : t.task q = s.task q := Function.update_of_ne hq ..
  refine ⟨fun q => ?_, h.count, fun q bs w hq => ?_, fun hc => ?_, fun q pc hq => ?_,
    fun hbt => absurd hboot hbt, fun _ _ hempty => ?_,
    fun _ => ⟨nodup_logWrite (h.header hboot).1 b data, fun x hx => ?_⟩,
    fun _ => h.room_append htask data, fun q hq => ?_, fun q hq => ?_⟩
  · by_cases hqp : q = p
    · rw [hqp, hself]
      simp [Task.Active, hmem]
    · rw [hother hqp]
      exact h.active q
  · by_cases hqp : q = p
    · rw [hqp, hself] at hq
      cases hq
      exact keeps_append hkeeps data
    · rw [hother hqp] at hq
      have hold := h.keeps q bs w hq
      exact ⟨fun x hx => subset_logWrite s b data (hold.logged hx), hold.length, hold.write⟩
  · exact absurd (hfree.symm.trans hc) (by simp)
  · by_cases hqp : q = p
    · rw [hqp, hself] at hq
      cases hq
    · rw [hother hqp] at hq
      exact absurd hq (hnobody q pc)
  · rw [hempty] at hmem
    simp at hmem
  · have hlogged : x ∈ (s.logWrite b data).lh := hx
    rcases of_mem_logWrite hlogged with hx | rfl
    · exact (h.header hboot).2 x hx
    · exact (hkeeps.write x rfl).1
  · by_cases hqp : q = p
    · rw [hqp, hself] at hq
      cases hq
    · rw [hother hqp] at hq
      exact h.asleep q hq
  · by_cases hqp : q = p
    · rw [hqp, hself] at hq
      cases hq
    · rw [hother hqp] at hq
      exact absurd hq (hnobody q .done)

/-! ## Commit and recovery -/

omit [DecidableEq P] in
theorem io (h : Room g budget s A) (hio : s.Io s') : Room g budget s' A :=
  h.same hio.lh hio.outstanding hio.committing hio.boot hio.task

omit [DecidableEq P] in
theorem clear (h : Room g budget s A) (hempty : A = ∅) :
    Room g budget ({ s with lh := [] } : State P) A := by
  refine ⟨h.active, h.count, fun q bs w hq => ?_, h.committing, h.committer, h.boot,
    fun _ _ _ => rfl, fun _ => by simp, fun _ => by simp [hempty], h.asleep, fun _ _ => rfl⟩
  have hmem := h.mem_of_op hq
  rw [hempty] at hmem
  simp at hmem

theorem finish (h : Room g budget s A) (htask : s.task p = .commit .done) :
    Room g budget (({ s with committing := false } : State P).wakeup.setTask p .idle) A := by
  obtain ⟨hboot, hempty⟩ := h.of_commit htask
  have hlh := h.done p htask
  have hself : (({ s with committing := false } : State P).wakeup.setTask p .idle).task p = .idle :=
    Function.update_self ..
  have hother {q : P} (hq : q ≠ p) :
      (({ s with committing := false } : State P).wakeup.setTask p .idle).task q =
        s.wakeup.task q := Function.update_of_ne hq ..
  have hwoken := h.wakeup hboot
  have hhome {q : P} (hq : q ≠ p) {pc : Commit} (hpc : s.wakeup.task q = .commit pc) : False := by
    have hcommit : s.wakeup.task p = .commit .done := by simp [State.wakeup, htask]
    exact hq ((hwoken.committer p .done hcommit).2 q pc hpc)
  have hroom := h.room hboot
  refine ⟨fun q => ?_, h.count, fun q bs w hq => ?_, fun hc => ?_, fun q pc hq => ?_,
    fun hb => absurd hboot hb, fun _ _ _ => hlh, h.header, fun _ => ?_, fun q hq => ?_,
    fun _ _ => hlh⟩
  · by_cases hqp : q = p
    · rw [hqp, hself, hempty]
      simp [Task.Active]
    · rw [hother hqp]
      exact hwoken.active q
  · by_cases hqp : q = p
    · rw [hqp, hself] at hq
      cases hq
    · rw [hother hqp] at hq
      exact hwoken.keeps q bs w hq
  · cases hc
  · by_cases hqp : q = p
    · rw [hqp, hself] at hq
      cases hq
    · rw [hother hqp] at hq
      exact (hhome hqp hq).elim
  · rw [hempty, Finset.sum_empty] at hroom ⊢
    exact hroom
  · by_cases hqp : q = p
    · rw [hqp, hself] at hq
      cases hq
    · rw [hother hqp] at hq
      exact absurd hq (wakeup_ne_asleep s q)

theorem commit (h : Room g budget s A) {pc : Commit} (htask : s.task p = .commit pc) :
    Room g budget (s.commit g p pc) A := by
  obtain ⟨hboot, hempty⟩ := h.of_commit htask
  have hnext {t : State P} {pc' : Commit} (hio : s.Io t) (hpc : pc' ≠ .done) :
      Room g budget (t.setTask p (.commit pc')) A := by
    have htask' : t.task p = .commit pc := by rw [hio.task, htask]
    exact (h.io hio).setCommit htask' rfl rfl rfl rfl rfl fun heq => absurd heq hpc
  cases pc with
  | writeLog tail =>
      simp only [State.commit]
      split
      · exact hnext (.writeLog s g tail _) (by simp)
      · exact hnext (.refl s) (by simp)
  | writeHead => exact hnext (.writeHead s g) (by simp)
  | installTrans tail =>
      simp only [State.commit]
      split
      · exact hnext (.installTrans s g tail _) (by simp)
      · exact hnext (.refl s) (by simp)
  | clear =>
      have hio := State.Io.writeHead ({ s with lh := [] } : State P) g
      have htask' : (({ s with lh := [] } : State P).writeHead g).task p = .commit .clear := by
        rw [hio.task]
        exact htask
      exact ((h.clear hempty).io hio).setCommit htask' rfl rfl rfl rfl rfl fun _ => hio.lh
  | done => exact h.finish htask

omit [DecidableEq P] in
theorem recover (h : Room g budget s A) {pc : Recover} (hboot : s.boot = some pc) :
    Room g budget (s.recoverFromLog g pc) A := by
  have hne : s.boot ≠ none := by simp [hboot]
  have hempty := h.boot_empty hne
  obtain ⟨hfree, hidle⟩ := h.boot hne
  -- before the end nothing is asked of the log
  have hnext {t : State P} (hout : t.outstanding = s.outstanding)
      (hcommitting : t.committing = s.committing) (htask : t.task = s.task)
      (hlog : t.boot = none → t.lh = []) : Room g budget t A := by
    refine ⟨fun p => ?_, h.count.trans hout.symm, fun p bs w hp => ?_, fun hc => ?_,
      fun p pc hp => ?_, fun _ => ⟨hcommitting.trans hfree, fun p => ?_⟩,
      fun hb _ _ => hlog hb, fun hb => ?_, fun hb => ?_, fun p hp => ?_, fun p hp => ?_⟩
    · rw [htask]
      exact h.active p
    · rw [htask, hidle] at hp
      cases hp
    · rw [hcommitting, hfree] at hc
      cases hc
    · rw [htask, hidle] at hp
      cases hp
    · rw [htask, hidle]
    · rw [hlog hb]
      simp
    · rw [hlog hb, hempty]
      simp
    · rw [htask, hidle] at hp
      cases hp
    · rw [htask, hidle] at hp
      cases hp
  cases pc with
  | readHead =>
      have hio := State.Io.bread s g.start
      apply hnext
      · exact hio.outstanding
      · exact hio.committing
      · exact hio.task
      · intro hb
        cases hb
  | installTrans tail =>
      simp only [State.recoverFromLog]
      split
      · next b _ =>
          have hio := State.Io.installTrans s g tail b
          apply hnext
          · exact hio.outstanding
          · exact hio.committing
          · exact hio.task
          · intro hb
            cases hb
      · apply hnext
        · rfl
        · rfl
        · rfl
        · intro hb
          cases hb
  | clear =>
      have hio := State.Io.writeHead ({ s with lh := [] } : State P) g
      apply hnext
      · exact hio.outstanding
      · exact hio.committing
      · exact hio.task
      · exact fun _ => hio.lh

omit [DecidableEq P] in
theorem crash (s : State P) : Room g budget s.crash ∅ where
  active p := by simp [State.crash, Task.Active]
  count := rfl
  keeps p blocks w hp := by cases hp
  committing hc := by cases hc
  committer p pc hp := by cases hp
  boot _ := ⟨rfl, fun _ => rfl⟩
  quiet hb := by cases hb
  header hb := by cases hb
  room hb := by cases hb
  asleep p hp := by cases hp
  done p hp := by cases hp

/-- Every step of the machine. -/
theorem next (h : Room g budget s A) (hbudget : budget ≤ maxOpBlocks) (hok : Within g budget s e)
    (hnext : s.next g e = some s') : ∃ A, Room g budget s' A := by
  cases e with
  | beginOp p =>
      simp only [State.next] at hnext
      split at hnext
      · next hidle =>
          cases hnext
          exact h.beginOp hbudget hidle.1 hidle.2
      · cases hnext
  | endOp p =>
      simp only [State.next] at hnext
      split at hnext
      · next htask => exact h.endOp htask hnext
      · cases hnext
  | logWrite p b =>
      simp only [State.next] at hnext
      split at hnext
      · next blocks htask =>
          split at hnext
          · cases hnext
          · cases hnext
            exact ⟨A, h.logWrite htask hok.1 (hok.2 blocks htask)⟩
      · cases hnext
  | append p data =>
      simp only [State.next] at hnext
      split at hnext
      · next htask =>
          cases hnext
          exact ⟨A, h.append htask data⟩
      · cases hnext
  | commit p =>
      simp only [State.next] at hnext
      split at hnext
      · next htask =>
          cases hnext
          exact ⟨A, h.commit htask⟩
      · cases hnext
  | recover =>
      simp only [State.next] at hnext
      obtain ⟨pc, hpc, rfl⟩ := Option.map_eq_some_iff.mp hnext
      exact ⟨A, h.recover hpc⟩
  | bread b =>
      cases hnext
      exact ⟨A, h.io (.bread s b)⟩
  | evict b =>
      simp only [State.next] at hnext
      split at hnext
      · cases hnext
        exact ⟨A, h.same rfl rfl rfl rfl rfl⟩
      · cases hnext
  | kill p =>
      simp only [State.next] at hnext
      split at hnext
      · next hasleep =>
          cases hnext
          have hboot : s.boot = none := by
            by_contra hb
            rw [(h.boot hb).2 p] at hasleep
            cases hasleep
          exact ⟨A, h.setTask hboot (by simp [hasleep]) (by simp [hasleep]) (by simp) (by simp)
            (by simp)⟩
      · cases hnext
  | crash =>
      cases hnext
      exact ⟨∅, crash s⟩

end Room

variable [DecidableEq P]

theorem room (hbudget : budget ≤ maxOpBlocks)
    (hreach : (log P g).ReachableWhere (Within g budget) s) : ∃ A, Room g budget s A := by
  induction hreach with
  | init hinit =>
      obtain ⟨⟨s₀, rfl⟩, -⟩ := hinit
      exact ⟨∅, .crash s₀⟩
  | step e _ hok hnext ih =>
      obtain ⟨A, hA⟩ := ih
      exact hA.next hbudget hok hnext

omit [DecidableEq P] in
/-- Below `MAXOPBLOCKS` blocks for an operation the log never holds more than 28. -/
theorem Room.length_le {A : Finset P} (h : Room g budget s A) (hbudget : budget < maxOpBlocks)
    (hboot : s.boot = none) : s.lh.length ≤ 28 := by
  have hroom := h.room hboot
  unfold maxOpBlocks at *
  omega

omit [DecidableEq P] in
theorem Room.not_panics {A : Finset P} (h : Room g budget s A) (hbudget : budget < maxOpBlocks)
    (hsize : logSize ≤ g.size) {blocks : List BlockNo} {w : Option BlockNo}
    (htask : s.task p = .op blocks w) : ¬s.LogWritePanics g := by
  have hlength := h.length_le hbudget (h.of_op htask).1
  have hcount : 0 < s.outstanding := by
    rw [← h.count]
    exact Finset.card_pos.mpr ⟨p, h.mem_of_op htask⟩
  unfold State.LogWritePanics logSize maxOpBlocks at *
  omega

omit [DecidableEq P] in
theorem Within.mono {budget' : Nat} (h : Within g budget s e) (hle : budget ≤ budget') :
    Within g budget' s e := by
  cases e with
  | logWrite p b =>
      exact ⟨h.1, fun blocks hp => (h.2 blocks hp).imp_right fun hlt => Nat.lt_of_lt_of_le hlt hle⟩
  | beginOp | endOp | append | commit | recover | bread | evict | kill | crash => trivial

/-- On a log of `LOGSIZE` blocks the checks of `log_write` last as long as every operation leaves
one of its blocks unused. -/
theorem reachable_checked (hbudget : budget < maxOpBlocks) (hsize : logSize ≤ g.size)
    (hreach : (log P g).ReachableWhere (Within g budget) s) :
    (log P g).ReachableWhere (Checked g) s := by
  induction hreach with
  | init hinit => exact .init hinit
  | @step s s' e hreach hok hnext ih =>
      refine .step e ih ⟨hok.mono hbudget.le, fun p data he => ?_⟩ hnext
      subst he
      obtain ⟨A, h⟩ := room hbudget.le hreach
      simp only [log, State.next] at hnext
      split at hnext
      · next htask => exact h.not_panics hbudget hsize htask
      · cases hnext

/-- The geometry that `mkfs` writes to the super block. -/
def mkfsGeometry : Geometry := ⟨2, logSize⟩

def blank (P : Type*) : State P where
  disk _ _ := 0
  cache _ := none
  lh := []
  outstanding := 0
  committing := false
  boot := some .readHead
  task _ := .idle

theorem blank_init : (log P mkfsGeometry).init (blank P) :=
  ⟨⟨blank P, rfl⟩, show Block.header (fun _ => 0) = [] by decide⟩

/-- Three operations begin, and log `n` blocks in turn. -/
def logInTurn (n : Nat) : List (Event (Fin 3)) :=
  [.recover, .recover, .recover,
    .beginOp ⟨0, by decide⟩, .beginOp ⟨1, by decide⟩, .beginOp ⟨2, by decide⟩] ++
    (List.range n).flatMap fun i =>
      [.logWrite ⟨i % 3, Nat.mod_lt i (by decide)⟩ (UInt32.ofNat (100 + i)),
        .append ⟨i % 3, Nat.mod_lt i (by decide)⟩ fun _ => 0]

def thirdBlocks : List BlockNo := (List.range 9).map fun i => UInt32.ofNat (126 - 3 * i)

/-- `log_write` panics in no run in which the operations log fewer than `MAXOPBLOCKS` blocks
each, on a log of `LOGSIZE` blocks or more, and nor does `end_op`.  If they may log that many,
it panics in some run, on the log that `mkfs` makes. -/
theorem logWrite_panics :
    (∀ (g : Geometry) (budget : Nat) (s : State P), budget < maxOpBlocks → logSize ≤ g.size →
      (log P g).ReachableWhere (Within g budget) s → ∀ p blocks w, s.task p = .op blocks w →
        ¬s.LogWritePanics g ∧ s.committing = false) ∧
    ∀ budget, maxOpBlocks ≤ budget → ∃ (s : State (Fin 3)) (p : Fin 3) (blocks : List BlockNo),
      (log (Fin 3) mkfsGeometry).ReachableWhere (Within mkfsGeometry budget) s ∧
        s.task p = .op blocks none ∧ blocks.length < budget ∧ s.LogWritePanics mkfsGeometry := by
  constructor
  · intro g budget s hbudget hsize hreach p blocks w htask
    obtain ⟨A, h⟩ := room hbudget.le hreach
    exact ⟨h.not_panics hbudget hsize htask, (h.of_op htask).2.1⟩
  · intro budget hbudget
    obtain ⟨s, hreach, htest⟩ := System.exists_reachableWhere_of_run (M := log (Fin 3) mkfsGeometry)
      (Within mkfsGeometry maxOpBlocks) (logInTurn 29)
      (fun s => decide (s.task ⟨2, by decide⟩ = .op thirdBlocks none ∧
        thirdBlocks.length < maxOpBlocks ∧ s.LogWritePanics mkfsGeometry))
      blank_init (by decide +kernel)
    obtain ⟨htask, hlength, hpanics⟩ := of_decide_eq_true htest
    exact ⟨s, _, thirdBlocks, hreach.mono fun t e hwithin => hwithin.mono hbudget, htask,
      by omega, hpanics⟩

/-- Three operations with nine blocks each have filled the log as far as they can. -/
theorem logWrite_panics_nine :
    ∃ s : State (Fin 3), (log (Fin 3) mkfsGeometry).ReachableWhere (Within mkfsGeometry 9) s ∧
      s.lh.length = 27 ∧ s.task ⟨2, by decide⟩ = .op thirdBlocks none ∧
        ¬s.LogWritePanics mkfsGeometry := by
  obtain ⟨s, hreach, htest⟩ := System.exists_reachableWhere_of_run (M := log (Fin 3) mkfsGeometry)
    (Within mkfsGeometry 9) (logInTurn 27)
    (fun s => decide (s.lh.length = 27 ∧ s.task ⟨2, by decide⟩ = .op thirdBlocks none))
    blank_init (by decide +kernel)
  obtain ⟨hlength, htask⟩ := of_decide_eq_true htest
  exact ⟨s, hreach, hlength, htask, (logWrite_panics.1 mkfsGeometry 9 s (by decide) (by decide)
    hreach _ thirdBlocks none htask).1⟩

/-- With ten blocks each, the checks do not last: the second and the third operation both pass
them for the last place.  The log then has more blocks than there are for it on disk. -/
example : ((log (Fin 3) mkfsGeometry).runWhere (Within mkfsGeometry maxOpBlocks) (blank (Fin 3))
    (logInTurn 28 ++ [.logWrite ⟨1, by decide⟩ 200, .logWrite ⟨2, by decide⟩ 201,
      .append ⟨1, by decide⟩ fun _ => 0, .append ⟨2, by decide⟩ fun _ => 0])).any
    (fun s => decide (s.lh.length = 30 ∧ ¬mkfsGeometry.InLog (mkfsGeometry.logBlock 29))) =
      true := by
  decide +kernel

/-! ## Nobody is left asleep -/

def Event.Behind (e : Event P) (p : P) : Prop :=
  e = .endOp p ∨ (∃ data, e = .append p data) ∨ e = .commit p

theorem Room.exists_behind {A : Finset P} (h : Room g budget s A) {blocks : List BlockNo}
    {w : Option BlockNo} (hq : s.task q = .op blocks w) :
    ∃ e, e.Behind q ∧ (s.next g e).isSome = true := by
  cases w with
  | none =>
      refine ⟨.endOp q, .inl rfl, ?_⟩
      have hfree := (h.of_op hq).2.1
      simp only [State.next, hq, State.endOp, hfree]
      split
      · contradiction
      · split
        · rfl
        · rfl
  | some b => exact ⟨.append q fun _ => 0, .inr (.inl ⟨_, rfl⟩), by simp [State.next, hq]⟩

theorem setTask_idle_ne_asleep {t : State P} (p : P) (ht : ∀ q, t.task q ≠ .asleep) (q : P) :
    (t.setTask p .idle).task q ≠ .asleep := by
  by_cases hq : q = p
  · simp [State.setTask, hq]
  · simp only [State.setTask, Function.update_of_ne hq]
    exact ht q

/-- `end_op` wakes the sleepers, unless it has to commit first. -/
theorem endOp_wakes (hend : s.endOp q = some s') (hidle : s'.task q = .idle) :
    s'.committing = false ∧ ∀ p, s'.task p ≠ .asleep := by
  unfold State.endOp at hend
  dsimp only at hend
  split at hend
  · cases hend
  · next hfree =>
      split at hend
      · cases hend
        simp [State.setTask] at hidle
      · cases hend
        exact ⟨(Bool.not_eq_true _).mp hfree, setTask_idle_ne_asleep q (Room.wakeup_ne_asleep _)⟩

theorem commit_wakes {pc : Commit} (hidle : (s.commit g q pc).task q = .idle) :
    (s.commit g q pc).committing = false ∧ ∀ p, (s.commit g q pc).task p ≠ .asleep := by
  cases pc with
  | writeLog tail | installTrans tail =>
      simp only [State.commit] at hidle
      split at hidle
      · simp [State.setTask] at hidle
      · simp [State.setTask] at hidle
  | writeHead | clear => simp [State.commit, State.setTask] at hidle
  | done => exact ⟨rfl, setTask_idle_ne_asleep q (Room.wakeup_ne_asleep _)⟩

/-- While a process sleeps in `begin_op`, another one is in an operation or commits, and can go
on.  When an operation ends that is not the last one, and when a commit ends, nobody is left
asleep. -/
theorem begin_op_sleepers :
    ∀ (g : Geometry) (budget : Nat) (s : State P), budget ≤ maxOpBlocks →
      (log P g).ReachableWhere (Within g budget) s →
        (∀ p, s.task p = .asleep → ∃ q e, q ≠ p ∧ e.Behind q ∧ (s.next g e).isSome = true) ∧
        ∀ q e s', e.Behind q → s.next g e = some s' → s'.task q = .idle →
          s'.committing = false ∧ ∀ p, s'.task p ≠ .asleep := by
  intro g budget s hbudget hreach
  obtain ⟨A, h⟩ := room hbudget hreach
  constructor
  · intro p hasleep
    rcases h.asleep p hasleep with hcommitting | hA
    · obtain ⟨-, q, pc, hq⟩ := h.committing hcommitting
      refine ⟨q, .commit q, ?_, .inr (.inr rfl), by simp [State.next, hq]⟩
      rintro rfl
      rw [hasleep] at hq
      cases hq
    · obtain ⟨q, hq⟩ := Finset.nonempty_iff_ne_empty.mpr hA
      have hactive := (h.active q).mp hq
      cases htask : s.task q with
      | op blocks w =>
          obtain ⟨e, he, hsome⟩ := h.exists_behind htask
          refine ⟨q, e, ?_, he, hsome⟩
          rintro rfl
          rw [hasleep] at htask
          cases htask
      | idle | asleep | awake | commit => rw [htask] at hactive; cases hactive
  · rintro q e s' (rfl | ⟨data, rfl⟩ | rfl) hnext hidle
    · simp only [State.next] at hnext
      split at hnext
      · exact endOp_wakes hnext hidle
      · cases hnext
    · simp only [State.next] at hnext
      split at hnext
      · cases hnext
        simp [State.setTask] at hidle
      · cases hnext
    · simp only [State.next] at hnext
      split at hnext
      · cases hnext
        exact commit_wakes hidle
      · cases hnext

/-- Three operations fill the reservation; the fourth process sleeps until one of them ends. -/
theorem begin_op_sleepers_fourth :
    ∃ s : State (Fin 4),
      (log (Fin 4) mkfsGeometry).ReachableWhere (Within mkfsGeometry maxOpBlocks) s ∧
        s.task ⟨3, by decide⟩ = .asleep ∧
        ∃ q e, q ≠ ⟨3, by decide⟩ ∧ e.Behind q ∧ (s.next mkfsGeometry e).isSome = true := by
  obtain ⟨s, hreach, htest⟩ := System.exists_reachableWhere_of_run (M := log (Fin 4) mkfsGeometry)
    (Within mkfsGeometry maxOpBlocks)
    ([.recover, .recover, .recover] ++ (List.finRange 4).map .beginOp)
    (fun s => decide (s.task ⟨3, by decide⟩ = .asleep)) blank_init (by decide +kernel)
  have hasleep := of_decide_eq_true htest
  exact ⟨s, hreach, hasleep,
    (begin_op_sleepers mkfsGeometry maxOpBlocks s (Nat.le_refl _) hreach).1 _ hasleep⟩

end Os20.Log
