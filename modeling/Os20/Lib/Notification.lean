import Os20.Lib.Blocking

/-!
# No lost wake-up

The usual way to wait: test a condition on the shared data with a mutex held, and wait on
a condition variable while it holds.  A thread that may end the condition does so with the
mutex held, and broadcasts before it gives the mutex back.  Then a thread sleeps only
while the condition holds, or while somebody is on the way to the broadcast.
-/

namespace Os20.Lib.Pthread.Program

open Os20.Lib.Transition

variable {D M C T P : Type*} [DecidableEq T] [DecidableEq M] [DecidableEq C]
variable {prog : Program D M C T P} {spurious : Bool} {s s' : State D M T P} {e : Event T P}

theorem Step.broadcast_wakes {c : C} {p : P} (h : Step prog spurious s e s')
    (hcode : prog.code e.thread (s.pc e.thread) = .broadcast c p)
    (hmode : s.mode e.thread ≠ .asleep) {w : T} (hw : prog.asleepOn s c w = true) :
    s'.mode w = .waking := by
  cases h with
  | broadcast _ hcode' =>
      obtain ⟨rfl, rfl⟩ : _ ∧ _ := by simpa [Event.thread, hcode'] using hcode
      simp [wakeAll, hw]
  | spurious _ hasleep => exact absurd hasleep hmode
  | act _ h | lock _ h | unlock _ h | sleep _ h | reacquire _ h | lost _ h | wake _ h | create _ h
  | join _ h | call _ h => simp [Event.thread, h] at hcode

/-- How the condition `keep`, under which threads wait on `c` with the mutex `m`, is
ended and announced; `inv` is what the data is known to keep to. -/
structure Notifies (disc : Discipline prog) (c : C) (m : M) (inv keep : D → Prop)
    (pending : P → Bool) : Prop where
  /-- A thread comes to its wait while the condition holds. -/
  enter : ∀ {t p d d' q}, (prog.code t p).Effect d d' q → (prog.code t q).waitsOn c = true →
    keep d'
  /-- Who ends the condition owes a broadcast. -/
  change : ∀ {t p d d' q}, inv d → (prog.code t p).Effect d d' q → keep d →
    keep d' ∨ pending q = true
  /-- Who owes the broadcast is let off only when the condition holds again. -/
  owe : ∀ {t p d d' q}, inv d → (prog.code t p).Effect d d' q → pending p = true →
    keep d' ∨ pending q = true ∨ prog.code t p = .broadcast c q
  wait : ∀ {t p}, (prog.code t p).waitsOn c = true → (prog.code t p).waitsWith m = true
  locked : ∀ {t p}, pending p = true →
    disc.holds t p m = true ∧ (prog.code t p).waitsWith m = false
  entry : ∀ t, (prog.code t (prog.entry t)).waitsOn c = false

namespace Notifies

variable {disc : Discipline prog} {c : C} {m : M} {inv keep : D → Prop} {pending : P → Bool}

def Heard (prog : Program D M C T P) (c : C) (keep : D → Prop) (pending : P → Bool)
    (s : State D M T P) : Prop :=
  ∀ t, (prog.code t (s.pc t)).waitsOn c = true → s.mode t ≠ .waking →
    keep s.data ∨ ∃ u, pending (s.pc u) = true

omit [DecidableEq T] in
/-- A thread at its wait that is neither asleep nor woken has the mutex, so nobody else
is about to broadcast. -/
theorem asleep_of_pending (hn : Notifies disc c m inv keep pending) (howners : disc.Owners s)
    {t u : T} (hne : t ≠ u) (hwait : (prog.code t (s.pc t)).waitsOn c = true)
    (hmode : s.mode t ≠ .waking) (hpending : pending (s.pc u) = true) :
    prog.asleepOn s c t = true := by
  obtain ⟨hheld, hnowait⟩ := hn.locked (t := u) hpending
  have howner := howners.owner_eq hnowait hheld
  have hwith := hn.wait hwait
  rw [asleepOn, Bool.and_eq_true, decide_eq_true_eq]
  refine ⟨?_, hwait⟩
  by_contra hasleep
  have hawake : (s.mode t).awake = true := by
    cases hm : s.mode t with
    | unborn | ready => rfl
    | asleep => exact absurd hm hasleep
    | waking => exact absurd hm hmode
  have hholds : disc.holds t (s.pc t) m = true := by
    have hbal := disc.balanced t (s.pc t)
    cases hcode : prog.code t (s.pc t) with
    | wait c' m' q =>
        rw [hcode] at hbal hwith
        obtain rfl : m' = m := by simpa [Instr.waitsWith] using hwith
        exact hbal.1
    | _ =>
        rw [hcode] at hwith
        cases hwith
  rw [(howners t m).mpr ⟨hholds, fun _ => hawake⟩] at howner
  exact hne (Option.some.inj howner)

theorem heard_step (hn : Notifies disc c m inv keep pending) (howners : disc.Owners s)
    (hinv : inv s.data) (hheard : Heard prog c keep pending s)
    (hstep : Step prog spurious s e s') : Heard prog c keep pending s' := by
  intro t hwait hmode
  rcases hstep.local_or_spurious with hlocal | ⟨-, -, rfl⟩
  · cases hlocal with
    | sleep hcode hready howner hdata hpc hmode' =>
        rw [hpc] at hwait
        rw [hpc, hdata]
        apply hheard t hwait
        by_cases ht : t = e.thread
        · rw [ht, hready]
          decide
        · rwa [hmode', Function.update_of_ne ht] at hmode
    | @advance q hpc heffect hrun hready hothers =>
        by_cases ht : t = e.thread
        · subst ht
          rw [hpc, Function.update_self] at hwait
          exact .inl (hn.enter heffect hwait)
        · rw [hpc, Function.update_of_ne ht] at hwait
          have hbefore : s.mode t ≠ .waking := by
            intro hwaking
            have hwoken := hothers t ht
            rw [hwaking] at hwoken
            exact hmode hwoken.eq_waking
          have hgoal : keep s'.data ∨ pending q = true → keep s'.data ∨
              ∃ u, pending (s'.pc u) = true := by
            apply Or.imp_right
            intro hq
            exact ⟨e.thread, by rw [hpc, Function.update_self]; exact hq⟩
          rcases hheard t hwait hbefore with hkeep | ⟨u, hu⟩
          · exact hgoal (hn.change hinv heffect hkeep)
          · by_cases hue : u = e.thread
            · subst hue
              rcases hn.owe hinv heffect hu with hkeep | hq | hcode
              · exact .inl hkeep
              · exact hgoal (.inr hq)
              · -- the broadcast wakes `t`
                have hasleep := hn.asleep_of_pending howners ht hwait hbefore hu
                have hrunning : s.mode e.thread ≠ .asleep := by
                  rcases hrun with hrun | ⟨hrun, -⟩ <;> simp [hrun]
                exact absurd (hstep.broadcast_wakes hcode hrunning hasleep) hmode
            · exact .inr ⟨u, by rw [hpc, Function.update_of_ne hue]; exact hu⟩
  · apply hheard t hwait
    intro hwaking
    apply hmode
    dsimp only
    rw [Function.update_apply]
    split
    · rfl
    · exact hwaking

/-- In every run a thread sleeps on `c` only while `keep` holds or a broadcast is due. -/
theorem heard [Fintype T] [DecidableEq P] (hn : Notifies disc c m inv keep pending)
    {ok : State D M T P → Event T P → Prop}
    (hinv : ∀ s, (prog.system spurious).ReachableWhere ok s → inv s.data)
    (hreach : (prog.system spurious).ReachableWhere ok s) : Heard prog c keep pending s := by
  apply hreach.invariant
  · rintro s rfl t hwait
    rw [show prog.initial.pc t = prog.entry t from rfl, hn.entry t] at hwait
    cases hwait
  · intro s e s' hreach hheard _ hnext
    exact hn.heard_step (disc.owners hreach) (hinv s hreach) hheard (next_step hnext)

end Notifies

end Os20.Lib.Pthread.Program
