import Os20.RwLock.Exclusion

/-!
# Reader-writer locks: which side is preferred

In `rw_lock-w-test.c` a writer is counted before it waits, and readers that come after
that find its count; in `rw_lock-r-test.c` it is the other way round.  A thread that comes
later does not enter before the counted one has made its decrement.
-/

namespace Os20.RwLock

open Os20.Lib.Transition Os20.Lib.Pthread Os20.Lib.Pthread.Program

variable {file : File} {T : Type*} [Fintype T] [DecidableEq T] {spurious : Bool}
  {s s' : State Data Mutex T Pc} {e : Event T Pc}

/-- In the run `es` from `s` thread `t` executes the decrement at the program point `p`:
it finds the guard of the decrement true. -/
def Decrements (file : File) (spurious : Bool) (s : State Data Mutex T Pc)
    (es : List (Event T Pc)) (t : T) (p : Pc) (counter : Data → Int) : Prop :=
  ∃ es₁ es₂ u, es = es₁ ++ .exec t :: es₂ ∧
    ((file.program T).system spurious).run s es₁ = some u ∧ u.pc t = p ∧ 0 < counter u.data

theorem Decrements.append {t : T} {p : Pc} {counter : Data → Int} {es es' : List (Event T Pc)}
    (h : Decrements file spurious s es t p counter) :
    Decrements file spurious s (es ++ es') t p counter := by
  obtain ⟨es₁, es₂, u, rfl, hu⟩ := h
  exact ⟨es₁, es₂ ++ es', u, by simp, hu⟩

theorem Decrements.append_left {t : T} {p : Pc} {counter : Data → Int}
    {es es' : List (Event T Pc)}
    (hrun : ((file.program T).system spurious).run s es = some s')
    (h : Decrements file spurious s' es' t p counter) :
    Decrements file spurious s (es ++ es') t p counter := by
  obtain ⟨es₁, es₂, u, rfl, hrun', hu⟩ := h
  refine ⟨es ++ es₁, es₂, u, by simp, ?_, hu⟩
  rw [System.run_append, hrun]
  exact hrun'

/-- In its test a reader goes on to the wait while a writer is counted. -/
def readerHeld : Pc → Bool
  | .rTestLock | .rTest | .rWait => true
  | _ => false

def writerHeld : Pc → Bool
  | .wTestLock | .wTest | .wWait => true
  | _ => false

omit [Fintype T] [DecidableEq T] in
theorem writerCounted_effect {d d' : Data} {p q : Pc}
    (heffect : (file.code (T := T) p).Effect d d' q) (hp : writerCounted file p = true) :
    writerCounted file q = true ∨ p = .wUncount := by
  cases p with
  | wUncount => exact .inr rfl
  | wTest =>
      simp only [File.code, Instr.Effect, Prod.mk.injEq] at heffect
      obtain ⟨-, rfl⟩ := heffect
      left
      split <;> cases file <;> first | rfl | cases hp
  | wCritical =>
      obtain ⟨-, hq⟩ := heffect
      obtain rfl : q = .wLeaveLock := by simpa using hq
      left
      cases file <;> rfl
  | wCountUnlock | wMutexLock | wLeaveLock | wTestLock | wWait | wTestUnlock =>
      obtain ⟨-, rfl⟩ := heffect
      left
      cases file <;> first | rfl | cases hp
  | _ => cases file <;> cases hp

omit [Fintype T] [DecidableEq T] in
theorem readerCounted_effect {d d' : Data} {p q : Pc}
    (heffect : (file.code (T := T) p).Effect d d' q) (hp : readerCounted file p = true) :
    readerCounted file q = true ∨ p = .rUncount := by
  cases p with
  | rUncount => exact .inr rfl
  | rTest =>
      simp only [File.code, Instr.Effect, Prod.mk.injEq] at heffect
      obtain ⟨-, rfl⟩ := heffect
      left
      split <;> cases file <;> first | rfl | cases hp
  | rCritical =>
      obtain ⟨-, hq⟩ := heffect
      obtain rfl : q = .rLeaveLock := by simpa using hq
      left
      cases file <;> rfl
  | rCountUnlock | rLeaveLock | rTestLock | rWait | rTestUnlock =>
      obtain ⟨-, rfl⟩ := heffect
      left
      cases file <;> first | rfl | cases hp
  | _ => cases file <;> cases hp

/-- Threads of one side, while they are counted, keep threads of the other side in their
test. -/
structure Precedes (file : File) (counted held : Pc → Bool) (uncount : Pc)
    (counter : Data → Int) (T : Type*) [Fintype T] : Prop where
  /-- A thread is counted until it executes its decrement. -/
  leave : ∀ {d d' p q}, (file.code (T := T) p).Effect d d' q → counted p = true →
    counted q = true ∨ p = uncount
  act : ∃ f, file.code (T := T) uncount = .act f
  hold : ∀ {d d' p q}, (file.code (T := T) p).Effect d d' q → 0 < counter d → held p = true →
    held q = true
  positive : ∀ {d} {pc : T → Pc} {t}, Counts file d pc → counted (pc t) = true → 0 < counter d

theorem writers_precede (T : Type*) [Fintype T] :
    Precedes .wTest (writerCounted .wTest) readerHeld .wUncount Data.numWriters T where
  leave := writerCounted_effect
  act := ⟨_, rfl⟩
  hold := by
    intro d d' p q heffect hpos hp
    cases p with
    | rTest =>
        simp only [File.code, Instr.Effect, Prod.mk.injEq] at heffect
        obtain ⟨-, rfl⟩ := heffect
        rw [if_pos hpos]
        rfl
    | rTestLock | rWait =>
        obtain ⟨-, rfl⟩ := heffect
        rfl
    | _ => cases hp
  positive := by
    intro d pc t hcounts ht
    rw [hcounts.writers]
    exact Int.natCast_pos.mpr (count_pos ht)

theorem readers_precede (T : Type*) [Fintype T] :
    Precedes .rTest (readerCounted .rTest) writerHeld .rUncount Data.numReaders T where
  leave := readerCounted_effect
  act := ⟨_, rfl⟩
  hold := by
    intro d d' p q heffect hpos hp
    cases p with
    | wTest =>
        simp only [File.code, Instr.Effect, Prod.mk.injEq] at heffect
        obtain ⟨-, rfl⟩ := heffect
        rw [if_pos hpos]
        rfl
    | wTestLock | wWait =>
        obtain ⟨-, rfl⟩ := heffect
        rfl
    | _ => cases hp
  positive := by
    intro d pc t hcounts ht
    rw [hcounts.readers]
    exact Int.natCast_pos.mpr (count_pos ht)

namespace Precedes

variable {counted held : Pc → Bool} {uncount : Pc} {counter : Data → Int} {x : T}

/-- One step, with `x` counted: either it is the decrement of `x`, or `x` is still counted
and everybody held is still held. -/
theorem step (hp : Precedes file counted held uncount counter T)
    (hcounts : Counts file s.data s.pc) (hx : counted (s.pc x) = true)
    (hstep : Step (file.program T) spurious s e s') :
    (e = .exec x ∧ s.pc x = uncount) ∨
      (counted (s'.pc x) = true ∧ ∀ y, held (s.pc y) = true → held (s'.pc y) = true) := by
  have hpos := hp.positive hcounts hx
  rcases hstep.moves with ⟨-, hpc⟩ | ⟨q, hpc, heffect⟩
  · rw [hpc]
    exact .inr ⟨hx, fun _ hy => hy⟩
  · have hheld : ∀ y, held (s.pc y) = true → held (s'.pc y) = true := by
      intro y hy
      by_cases hye : y = e.thread
      · subst hye
        rw [hpc, Function.update_self]
        exact hp.hold heffect hpos hy
      · rwa [hpc, Function.update_of_ne hye]
    by_cases hxe : x = e.thread
    · subst hxe
      rcases hp.leave heffect hx with hq | huncount
      · right
        rw [hpc, Function.update_self, ← hpc]
        exact ⟨hq, hheld⟩
      · obtain ⟨f, hf⟩ := hp.act
        have hcode : (file.program T).code e.thread (s.pc e.thread) = .act f := by
          rw [huncount]
          exact hf
        rcases hstep.exec_of_act hcode with he | hsame
        · exact .inl ⟨he, huncount⟩
        · rw [hsame]
          exact .inr ⟨hx, fun _ hy => hy⟩
    · right
      rw [hpc, Function.update_of_ne hxe, ← hpc]
      exact ⟨hx, hheld⟩

theorem run (hp : Precedes file counted held uncount counter T) {es : List (Event T Pc)}
    (hreach : ((file.program T).system spurious).Reachable s) (hx : counted (s.pc x) = true)
    (hrun : ((file.program T).system spurious).run s es = some s') :
    Decrements file spurious s es x uncount counter ∨
      (counted (s'.pc x) = true ∧ ∀ y, held (s.pc y) = true → held (s'.pc y) = true) := by
  induction es generalizing s with
  | nil =>
      obtain rfl : s = s' := Option.some.inj hrun
      exact .inr ⟨hx, fun _ hy => hy⟩
  | cons e es ih =>
      obtain ⟨t, hnext, hrest⟩ := Option.bind_eq_some_iff.mp hrun
      rcases hp.step (counts hreach) hx (next_step hnext) with ⟨rfl, hpc⟩ | ⟨hx', hheld⟩
      · exact .inl ⟨[], es, s, rfl, rfl, hpc, hp.positive (counts hreach) hx⟩
      · rcases ih (.step e hreach trivial hnext) hx' hrest with hdec | ⟨hx'', hheld'⟩
        · left
          have hfirst : ((file.program T).system spurious).run s [e] = some t := by
            change ((file.program T).next spurious s e).bind _ = _
            rw [show (file.program T).next spurious s e = some t from hnext]
            rfl
          exact Decrements.append_left hfirst hdec
        · exact .inr ⟨hx'', fun y hy => hheld' y (hheld y hy)⟩

/-- A thread that starts its test while `x` is counted, and is later found not to be held
any more. -/
theorem decrements {es₁ es₂ : List (Event T Pc)} {y : T} {p : Pc}
    (hp : Precedes file counted held uncount counter T)
    (hreach : ((file.program T).system spurious).Reachable s) (hx : counted (s.pc x) = true)
    (hrun : ((file.program T).system spurious).run s (es₁ ++ .call y p :: es₂) = some s')
    (hcall : held p = true) (hy : held (s'.pc y) = false) :
    Decrements file spurious s (es₁ ++ .call y p :: es₂) x uncount counter := by
  rw [System.run_append] at hrun
  obtain ⟨u, hrun₁, hrest⟩ := Option.bind_eq_some_iff.mp hrun
  obtain ⟨v, hnext, hrun₂⟩ := Option.bind_eq_some_iff.mp hrest
  have hreach' := hreach.run hrun₁
  rcases hp.run hreach hx hrun₁ with hdec | ⟨hu, -⟩
  · exact hdec.append
  · have hone : ((file.program T).system spurious).run u [.call y p] = some v := by
      change (((file.program T).system spurious).next u (.call y p)).bind _ = _
      rw [hnext]
      rfl
    have hstep : Step (file.program T) spurious u (.call y p) v := next_step hnext
    have hheld : held (v.pc y) = true := by
      cases hstep with
      | call _ _ _ =>
          simpa using hcall
    rcases hp.run hreach' hu hone with hdec | ⟨hv, -⟩
    · exact Decrements.append_left hrun₁ hdec.append
    · rcases hp.run (.step _ hreach' trivial hnext) hv hrun₂ with hdec | ⟨-, hkept⟩
      · exact Decrements.append_left hrun₁ (Decrements.append_left hone hdec)
      · rw [hkept y hheld] at hy
        cases hy

end Precedes

theorem pc_of_increment {t : T} {p q : Pc} {f : Data → Data}
    (hnext : (file.program T).next spurious s (.exec t) = some s') (hpc : s.pc t = p)
    (hcode : file.code (T := T) p = .act fun d => (f d, q)) : s'.pc t = q := by
  have hstep := next_step hnext
  have hcode' : (file.program T).code t (s.pc t) = .act fun d => (f d, q) := by
    rw [hpc]
    exact hcode
  cases hstep with
  | act _ h =>
      obtain rfl := Instr.act.inj (h.symm.trans hcode')
      simp
  | lock _ h | unlock _ h | sleep _ h | reacquire _ h | lost _ h | broadcast _ h | create _ h
  | join _ h =>
      rw [h] at hcode'
      cases hcode'

/-- In `rw_lock-w-test.c` a reader whose `r_lock` begins after a writer has incremented
`num_writers` enters only after that writer has made its decrement.  In
`rw_lock-r-test.c` the same holds of a writer that begins after a reader's increment. -/
theorem preference (T : Type*) [Fintype T] [DecidableEq T] (spurious : Bool) :
    (∀ (s s₁ s₂ : State Data Mutex T Pc) (w r : T) (es₁ es₂ : List (Event T Pc)),
      ((File.wTest.program T).system spurious).Reachable s → s.pc w = .wCount →
      (File.wTest.program T).next spurious s (.exec w) = some s₁ →
      ((File.wTest.program T).system spurious).run s₁
        (es₁ ++ .call r File.wTest.rLock :: es₂) = some s₂ → s₂.pc r = .rCritical →
      Decrements .wTest spurious s₁ (es₁ ++ .call r File.wTest.rLock :: es₂) w .wUncount
        Data.numWriters) ∧
    ∀ (s s₁ s₂ : State Data Mutex T Pc) (r w : T) (es₁ es₂ : List (Event T Pc)),
      ((File.rTest.program T).system spurious).Reachable s → s.pc r = .rCount →
      (File.rTest.program T).next spurious s (.exec r) = some s₁ →
      ((File.rTest.program T).system spurious).run s₁
        (es₁ ++ .call w File.rTest.wLock :: es₂) = some s₂ → s₂.pc w = .wCritical →
      Decrements .rTest spurious s₁ (es₁ ++ .call w File.rTest.wLock :: es₂) r .rUncount
        Data.numReaders := by
  constructor
  · intro s s₁ s₂ w r es₁ es₂ hreach hpc hnext hrun hcritical
    have hcounted : s₁.pc w = .wCountUnlock := pc_of_increment hnext hpc rfl
    exact (writers_precede T).decrements (.step (.exec w) hreach trivial hnext)
      (by rw [hcounted]; rfl) hrun rfl (by rw [hcritical]; rfl)
  · intro s s₁ s₂ r w es₁ es₂ hreach hpc hnext hrun hcritical
    have hcounted : s₁.pc r = .rCountUnlock := pc_of_increment hnext hpc rfl
    exact (readers_precede T).decrements (.step (.exec r) hreach trivial hnext)
      (by rw [hcounted]; rfl) hrun rfl (by rw [hcritical]; rfl)

open Event in
/-- `rw_lock-w-test.c`: writer 1 is counted, then reader 0 calls `r_lock` and sleeps, then
writer 1 leaves, and reader 0 enters. -/
def lateReaderRun : List (Event (Fin 2) Pc) :=
  [exec writer, exec writer, exec writer, exec writer, exec writer] ++
    call reader File.wTest.rLock :: [exec reader, exec reader, exec reader,
      call writer .wLeaveLock, exec writer, exec writer, exec writer, exec writer,
      exec writer, exec writer, exec reader, exec reader, exec reader, exec reader,
      exec reader, exec reader]

theorem preference_lateReader :
    ∃ s₁ s₂, ((File.wTest.program (Fin 2)).system false).run s₁ lateReaderRun = some s₂ ∧
      s₂.pc 0 = .rCritical ∧
      Decrements .wTest false s₁ lateReaderRun 1 .wUncount Data.numWriters := by
  obtain ⟨s, hreach, hrun⟩ := System.exists_reachable_of_run
    (M := (File.wTest.program (Fin 2)).system false) [.call 1 .wCountLock, .exec 1]
    (fun s => s.pc 1 == .wCount &&
      ((File.wTest.program (Fin 2)).next false s (.exec 1)).any fun s₁ =>
        (((File.wTest.program (Fin 2)).system false).run s₁ lateReaderRun).any fun s₂ =>
          s₂.pc 0 == .rCritical)
    (initial_init _ _) (by decide +kernel)
  rw [Bool.and_eq_true, beq_iff_eq, Option.any_eq_true] at hrun
  obtain ⟨hpc, s₁, hnext, hrest⟩ := hrun
  rw [Option.any_eq_true] at hrest
  obtain ⟨s₂, hrun, hcritical⟩ := hrest
  rw [beq_iff_eq] at hcritical
  exact ⟨s₁, s₂, hrun, hcritical,
    (preference (Fin 2) false).1 s s₁ s₂ 1 0 _ _ hreach hpc hnext hrun hcritical⟩

end Os20.RwLock
