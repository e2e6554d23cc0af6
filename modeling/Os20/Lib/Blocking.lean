import Os20.Lib.Pthread

/-!
# Sleeping and blocked threads

What a step does to the other threads, where sleeping threads stand, and what keeps a
thread from moving in a state that admits no step at all.
-/

namespace Os20.Lib.Pthread.Program

open Os20.Lib.Transition

variable {D M C T P : Type*} [DecidableEq T]
variable {prog : Program D M C T P} {spurious : Bool} {s s' : State D M T P} {e : Event T P}

inductive Woken : Mode → Mode → Prop
  | same {m : Mode} : Woken m m
  | woken : Woken .asleep .waking
  | created : Woken .unborn .ready

theorem Woken.eq_unborn {m : Mode} (h : Woken m .unborn) : m = .unborn := by
  cases h
  rfl

theorem Woken.eq_asleep {m : Mode} (h : Woken m .asleep) : m = .asleep := by
  cases h
  rfl

theorem Woken.eq_waking {m : Mode} (h : Woken .waking m) : m = .waking := by
  cases h
  rfl

theorem Woken.awake_eq {m m' : Mode} (h : Woken m m') : m'.awake = m.awake := by
  cases h <;> rfl

inductive Local (prog : Program D M C T P) (s : State D M T P) (t : T) (s' : State D M T P) : Prop
  /-- `t` gives its mutex up and falls asleep. -/
  | sleep {c : C} {m : M} {p : P} (hcode : prog.code t (s.pc t) = .wait c m p)
      (hmode : s.mode t = .ready) (howner : s.owner m = some t) (hdata : s'.data = s.data)
      (hpc : s'.pc = s.pc) (hmode' : s'.mode = Function.update s.mode t .asleep)
  /-- `t` gets through its instruction, which leaves it running. -/
  | advance {q : P} (hpc : s'.pc = Function.update s.pc t q)
      (heffect : (prog.code t (s.pc t)).Effect s.data s'.data q)
      (hmode : s.mode t = .ready ∨ s.mode t = .waking ∧ ∃ c m, prog.code t (s.pc t) = .wait c m q)
      (hmode' : s'.mode t = .ready)
      (hothers : ∀ u, u ≠ t → Woken (s.mode u) (s'.mode u))

theorem Local.pc_of_ne {t u : T} (h : Local prog s t s') (hu : u ≠ t) : s'.pc u = s.pc u := by
  cases h with
  | sleep _ _ _ _ hpc => rw [hpc]
  | advance hpc => rw [hpc, Function.update_of_ne hu]

theorem Local.woken_of_ne {t u : T} (h : Local prog s t s') (hu : u ≠ t) :
    Woken (s.mode u) (s'.mode u) := by
  cases h with
  | sleep _ _ _ _ _ hmode' =>
      rw [hmode', Function.update_of_ne hu]
      exact .same
  | advance _ _ _ _ hothers => exact hothers u hu

theorem Local.mode_ne_asleep {t : T} (h : Local prog s t s') : s.mode t ≠ .asleep := by
  cases h with
  | sleep _ hmode => simp [hmode]
  | advance _ _ hmode =>
      rcases hmode with hmode | ⟨hmode, -⟩ <;> simp [hmode]

/-- Sleeping threads stand at a wait, and threads that are not created yet at their
entry. -/
structure Parked (prog : Program D M C T P) (s : State D M T P) : Prop where
  asleep : ∀ t, (s.mode t).awake = false → ∃ c m p, prog.code t (s.pc t) = .wait c m p
  unborn : ∀ t, s.mode t = .unborn → s.pc t = prog.entry t

theorem Parked.local {t : T} (hparked : Parked prog s) (h : Local prog s t s') :
    Parked prog s' := by
  constructor
  · intro u hu
    by_cases hut : u = t
    · subst hut
      cases h with
      | sleep hcode _ _ _ hpc => exact ⟨_, _, _, hpc ▸ hcode⟩
      | advance _ _ _ hmode' =>
          rw [hmode'] at hu
          cases hu
    · rw [h.pc_of_ne hut]
      exact hparked.asleep u ((h.woken_of_ne hut).awake_eq ▸ hu)
  · intro u hu
    by_cases hut : u = t
    · subst hut
      cases h with
      | sleep _ _ _ _ _ hmode' =>
          rw [hmode', Function.update_self] at hu
          cases hu
      | advance _ _ _ hmode' =>
          rw [hmode'] at hu
          cases hu
    · rw [h.pc_of_ne hut]
      apply hparked.unborn
      have hwoken := h.woken_of_ne hut
      rw [hu] at hwoken
      exact hwoken.eq_unborn

theorem Parked.woken {t : T} (hparked : Parked prog s) (hmode : s.mode t = .asleep) :
    Parked prog { s with mode := Function.update s.mode t .waking } := by
  constructor
  · intro u hu
    dsimp only at hu
    apply hparked.asleep u
    by_cases hut : u = t
    · rw [hut, hmode]
      rfl
    · rwa [Function.update_of_ne hut] at hu
  · intro u hu
    dsimp only at hu
    apply hparked.unborn u
    by_cases hut : u = t
    · rw [hut, Function.update_self] at hu
      cases hu
    · rwa [Function.update_of_ne hut] at hu

variable [DecidableEq M] [DecidableEq C]

theorem Step.local_or_spurious (h : Step prog spurious s e s') :
    Local prog s e.thread s' ∨
      spurious = true ∧ s.mode e.thread = .asleep ∧
        s' = { s with mode := Function.update s.mode e.thread .waking } := by
  cases h with
  | spurious hspurious hmode => exact .inr ⟨hspurious, hmode, rfl⟩
  | sleep hmode hcode howner => exact .inl (.sleep hcode hmode howner rfl rfl rfl)
  | @reacquire t c m p hmode hcode =>
      left
      refine .advance rfl (by simp [Event.thread, hcode, Instr.Effect])
        (.inr ⟨hmode, c, m, hcode⟩) (by simp [Event.thread]) fun u hu => ?_
      simp only [Event.thread] at hu
      simp only [Function.update_of_ne hu]
      exact .same
  | @wake t w c p hmode hcode hwaits =>
      left
      have hasleep := mode_of_asleepOn hwaits
      have hwt : t ≠ w := by
        rintro rfl
        simp [hmode] at hasleep
      refine .advance rfl (by simp [Event.thread, hcode, Instr.Effect]) (.inl hmode)
        (by simp [Event.thread, hmode, hwt]) fun u _ => ?_
      by_cases huw : u = w
      · simp only [huw, Function.update_self, hasleep]
        exact .woken
      · simp only [Function.update_of_ne huw]
        exact .same
  | @broadcast t c p hmode hcode =>
      left
      refine .advance rfl (by simp [Event.thread, hcode, Instr.Effect]) (.inl hmode)
        (by simp [Event.thread, wakeAll, asleepOn, hmode]) fun u _ => ?_
      by_cases hu : prog.asleepOn s c u = true
      · simp only [wakeAll, hu, if_true, mode_of_asleepOn hu]
        exact .woken
      · simp only [wakeAll, hu]
        exact .same
  | @create t v p hmode hcode hunborn =>
      left
      have hvt : t ≠ v := by
        rintro rfl
        simp [hmode] at hunborn
      refine .advance rfl (by simp [Event.thread, hcode, Instr.Effect]) (.inl hmode)
        (by simp [Event.thread, hmode, hvt]) fun u _ => ?_
      by_cases huv : u = v
      · simp only [huv, Function.update_self, hunborn]
        exact .created
      · simp only [Function.update_of_ne huv]
        exact .same
  | call hmode hcode hmem =>
      exact .inl (.advance rfl (by simpa [Event.thread, hcode, Instr.Effect]) (.inl hmode) hmode
        fun _ _ => .same)
  | act hmode hcode | lock hmode hcode | unlock hmode hcode | lost hmode hcode
  | join hmode hcode =>
      exact .inl (.advance rfl (by simp [Event.thread, hcode, Instr.Effect]) (.inl hmode) hmode
        fun _ _ => .same)

theorem Step.local (h : Step prog false s e s') : Local prog s e.thread s' :=
  h.local_or_spurious.resolve_right fun hspurious => Bool.false_ne_true hspurious.1

/-- A signal is lost, or it wakes one of the threads that sleep on the condition. -/
theorem Step.signal {c : C} {p : P} (h : Step prog false s e s')
    (hcode : prog.code e.thread (s.pc e.thread) = .signal c p) :
    (∀ w, prog.asleepOn s c w = false) ∨
      ∃ w, prog.asleepOn s c w = true ∧ s'.mode = Function.update s.mode w .waking := by
  cases h with
  | lost hmode hcode' hnone =>
      obtain ⟨rfl, rfl⟩ : _ ∧ _ := by simpa [Event.thread, hcode'] using hcode
      exact .inl hnone
  | @wake t w c' p' hmode hcode' hwaits =>
      obtain ⟨rfl, rfl⟩ : _ ∧ _ := by simpa [Event.thread, hcode'] using hcode
      exact .inr ⟨w, hwaits, rfl⟩
  | spurious hspurious => cases hspurious
  | act _ h | lock _ h | unlock _ h | sleep _ h | reacquire _ h | broadcast _ h | create _ h
  | join _ h | call _ h => simp [Event.thread, h] at hcode

theorem Step.unborn_iff (h : Step prog false s e s') (u : T) :
    s'.mode u = .unborn ↔
      s.mode u = .unborn ∧ ∀ p, prog.code e.thread (s.pc e.thread) ≠ .create u p := by
  cases h with
  | @create t v p hmode hcode hunborn =>
      by_cases huv : u = v
      · subst huv
        simp [Event.thread, hcode]
      · simp [Event.thread, hcode, huv, Ne.symm huv]
  | @wake t w c p hmode hcode hwaits =>
      by_cases huw : u = w
      · simp [huw, mode_of_asleepOn hwaits]
      · simp [Event.thread, hcode, huw]
  | @broadcast t c p hmode hcode =>
      by_cases hu : prog.asleepOn s c u = true
      · simp [wakeAll, hu, mode_of_asleepOn hu]
      · simp [Event.thread, hcode, wakeAll, hu]
  | @sleep t c m p hmode hcode =>
      by_cases hut : u = t
      · simp [hut, hmode]
      · simp [Event.thread, hcode, hut]
  | @reacquire t c m p hmode hcode =>
      by_cases hut : u = t
      · simp [hut, hmode]
      · simp [Event.thread, hcode, hut]
  | spurious hspurious => cases hspurious
  | act _ hcode | lock _ hcode | unlock _ hcode | lost _ hcode | join _ hcode | call _ hcode =>
      simp [Event.thread, hcode]

theorem Step.join_exited {u : T} {p : P} (h : Step prog false s e s')
    (hcode : prog.code e.thread (s.pc e.thread) = .join u p) : prog.exited s u = true := by
  cases h with
  | join hmode hcode' hexited =>
      obtain ⟨rfl, rfl⟩ : _ ∧ _ := by simpa [Event.thread, hcode'] using hcode
      exact hexited
  | spurious hspurious => cases hspurious
  | act _ h | lock _ h | unlock _ h | sleep _ h | reacquire _ h | lost _ h | wake _ h
  | broadcast _ h | create _ h | call _ h => simp [Event.thread, h] at hcode

theorem parked [Fintype T] [DecidableEq P] {ok : State D M T P → Event T P → Prop}
    (hstart : ∀ t, (prog.start t).awake = true)
    (hreach : (prog.system spurious).ReachableWhere ok s) : Parked prog s := by
  apply hreach.invariant
  · rintro s rfl
    refine ⟨fun t ht => ?_, fun _ _ => rfl⟩
    rw [show (prog.initial.mode t).awake = true from hstart t] at ht
    cases ht
  · intro s e s' _ hparked _ hnext
    rcases (next_step hnext).local_or_spurious with hlocal | ⟨-, hmode, rfl⟩
    · exact hparked.local hlocal
    · exact hparked.woken hmode

/-! ## States without a step -/

def Blocked (prog : Program D M C T P) (s : State D M T P) (t : T) : Instr D M C T P → Prop
  | .act _ | .signal _ _ | .broadcast _ _ => False
  | .lock m _ => s.owner m ≠ none
  | .unlock m _ | .wait _ m _ => s.owner m ≠ some t
  | .create u _ => s.mode u ≠ .unborn
  | .join u _ => prog.exited s u = false
  | .call ps => ps = []
  | .exit => True

variable [Fintype T] [DecidableEq P]

theorem blocked_of_stuck {t : T}
    (hstuck : ∀ e : Event T P, e.thread = t → prog.next spurious s e = none)
    (hmode : s.mode t = .ready) : Blocked prog s t (prog.code t (s.pc t)) := by
  have hexec := hstuck (.exec t) rfl
  simp only [next, hmode] at hexec
  cases hcode : prog.code t (s.pc t) with
  | act f => simp [hcode, exec] at hexec
  | lock m p => simpa [hcode, exec, Blocked] using hexec
  | unlock m p => simpa [hcode, exec, Blocked] using hexec
  | wait c m p => simpa [hcode, exec, Blocked] using hexec
  | signal c p =>
      simp only [hcode, exec, ite_eq_left_iff, reduceCtorEq, imp_false, not_not] at hexec
      obtain ⟨w, hw⟩ := hexec
      have hwake := hstuck (.wake t w) rfl
      simp [next, hmode, hcode, hw] at hwake
  | broadcast c p => simp [hcode, exec] at hexec
  | create u p => simpa [hcode, exec, Blocked] using hexec
  | join u p => simpa [hcode, exec, Blocked] using hexec
  | call ps =>
      rw [Blocked, List.eq_nil_iff_forall_not_mem]
      intro q hq
      have hcall := hstuck (.call t q) rfl
      simp [next, hmode, hcode, hq] at hcall
  | exit => trivial

theorem owner_ne_none_of_stuck {t : T} {c : C} {m : M} {p : P}
    (hstuck : prog.next spurious s (.exec t) = none) (hmode : s.mode t = .waking)
    (hcode : prog.code t (s.pc t) = .wait c m p) : s.owner m ≠ none := by
  simpa [next, hmode, hcode, reacquire] using hstuck

inductive Halted (prog : Program D M C T P) (s : State D M T P) (t : T) : Prop
  | unborn (hmode : s.mode t = .unborn)
  | asleep {c : C} {m : M} {p : P} (hmode : s.mode t = .asleep)
      (hcode : prog.code t (s.pc t) = .wait c m p)
  | waking {c : C} {m : M} {p : P} (hmode : s.mode t = .waking)
      (hcode : prog.code t (s.pc t) = .wait c m p) (howner : s.owner m ≠ none)
  | lock {m : M} {p : P} (hmode : s.mode t = .ready) (hcode : prog.code t (s.pc t) = .lock m p)
      (howner : s.owner m ≠ none)
  | create {u : T} {p : P} (hmode : s.mode t = .ready)
      (hcode : prog.code t (s.pc t) = .create u p) (hborn : s.mode u ≠ .unborn)
  | join {u : T} {p : P} (hmode : s.mode t = .ready) (hcode : prog.code t (s.pc t) = .join u p)
      (hexited : prog.exited s u = false)
  | call (hmode : s.mode t = .ready) (hcode : prog.code t (s.pc t) = .call [])
  | exit (hmode : s.mode t = .ready) (hcode : prog.code t (s.pc t) = .exit)

theorem halted_of_stuck {disc : Discipline prog} {t : T} (howners : disc.Owners s)
    (hparked : Parked prog s)
    (hstuck : ∀ e : Event T P, e.thread = t → prog.next spurious s e = none) :
    Halted prog s t := by
  cases hmode : s.mode t with
  | unborn => exact .unborn hmode
  | asleep =>
      obtain ⟨c, m, p, hcode⟩ := hparked.asleep t (by rw [hmode]; rfl)
      exact .asleep hmode hcode
  | waking =>
      obtain ⟨c, m, p, hcode⟩ := hparked.asleep t (by rw [hmode]; rfl)
      exact .waking hmode hcode (owner_ne_none_of_stuck (hstuck (.exec t) rfl) hmode hcode)
  | ready =>
      have hblocked := blocked_of_stuck hstuck hmode
      have hbal := disc.balanced t (s.pc t)
      -- a running thread owns what it is about to give up
      have howns : ∀ m, disc.holds t (s.pc t) m = true → s.owner m = some t := by
        intro m hholds
        rw [howners t m, Discipline.has_of_ready hmode]
        exact hholds
      cases hcode : prog.code t (s.pc t) with
      | lock m p =>
          rw [hcode] at hblocked
          exact .lock hmode hcode hblocked
      | create u p =>
          rw [hcode] at hblocked
          exact .create hmode hcode hblocked
      | join u p =>
          rw [hcode] at hblocked
          exact .join hmode hcode hblocked
      | call ps =>
          rw [hcode] at hblocked
          obtain rfl : ps = [] := hblocked
          exact .call hmode hcode
      | exit => exact .exit hmode hcode
      | unlock m p | wait c m p =>
          rw [hcode] at hblocked hbal
          exact absurd (howns m hbal.1) hblocked
      | act | signal | broadcast =>
          rw [hcode] at hblocked
          cases hblocked

end Os20.Lib.Pthread.Program
