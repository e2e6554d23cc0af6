import Os20.Pipes.Fifo

/-!
# Who sleeps on a pipe

A process sleeps in `piperead` only while the pipe is empty, and in `pipewrite` only while it is
full, unless a killed writer gives up: `pipewrite` then returns without the wakeup for the bytes
it has stored.
-/

namespace Os20.Pipes

open Os20.Lib.Transition

/-! ## Ends -/

def Pipe.isOpen (p : Pipe) (writable : Bool) : Bool :=
  if writable then p.writeopen else p.readopen

theorem Pipe.Kept.isOpen {p p' : Pipe} (h : p.Kept p') (writable : Bool) :
    p'.isOpen writable = p.isOpen writable := by
  unfold Pipe.isOpen
  rw [h.readopen, h.writeopen]

def Pipe.Blocked (p : Pipe) (writable : Bool) : Prop :=
  if writable then p.contents.length = pipeSize ∧ p.readopen = true
  else p.contents = [] ∧ p.writeopen = true

def Task.Sleeps (writable : Bool) : Task → Prop
  | .user _ => False
  | .reading _ asleep => writable = false ∧ asleep = true
  | .writing _ _ asleep => writable = true ∧ asleep = true

theorem Task.Sleeps.on {t : Task} {writable : Bool} (h : t.Sleeps writable) : t.On writable := by
  cases t with
  | user ret => exact h
  | reading n asleep => exact h.1
  | writing addr i asleep => exact h.1

@[simp]
theorem Task.wake_on (t : Task) (writable : Bool) : t.wake.On writable ↔ t.On writable := by
  cases t with
  | user | reading | writing => rfl

@[simp]
theorem Task.wake_sleeps (t : Task) (writable : Bool) : ¬t.wake.Sleeps writable := by
  cases t with
  | user | reading | writing => simp [Task.wake, Task.Sleeps]

variable {P : Type*} [DecidableEq P] {s s' : State P} {p : P} {e : Event P}

/-- Writer `p` has been killed, stores some bytes and has more of them than there is room for. -/
def GivesUp (s : State P) (p : P) : Task → Prop
  | .writing addr i _ => s.killed p = true ∧ 0 < (s.pipe.fill (addr.drop i)).1 ∧
      i + (s.pipe.fill (addr.drop i)).1 < addr.length
  | _ => False

instance (s : State P) (p : P) : DecidablePred (GivesUp s p)
  | .writing addr i _ => inferInstanceAs (Decidable (s.killed p = true ∧
      0 < (s.pipe.fill (addr.drop i)).1 ∧ i + (s.pipe.fill (addr.drop i)).1 < addr.length))
  | .user _ | .reading _ _ => isFalse id

/-- No writer gives up in this event. -/
def staysOn (s : State P) : Event P → Prop
  | .step p => ¬GivesUp s p (s.task p)
  | _ => True

instance (s : State P) : DecidablePred (staysOn s)
  | .step p => inferInstanceAs (Decidable (¬GivesUp s p (s.task p)))
  | .read _ _ | .write _ _ | .kill _ _ | .close _ => isTrue trivial

/-! ## The invariant -/

structure Waits (s : State P) : Prop where
  length : s.pipe.contents.length ≤ pipeSize
  /-- Nobody is in a call on an end that is closed. -/
  on : ∀ p writable, (s.task p).On writable → s.pipe.isOpen writable = true
  sleeps : ∀ p writable, (s.task p).Sleeps writable → s.pipe.Blocked writable

omit [DecidableEq P] in
@[simp]
theorem wakeup_on (s : State P) (writable writable' : Bool) (p : P) :
    ((s.wakeup writable).task p).On writable' ↔ (s.task p).On writable' := by
  simp only [State.wakeup]
  split
  · exact Task.wake_on _ _
  · rfl

omit [DecidableEq P] in
theorem wakeup_sleeps {writable writable' : Bool}
    (h : ((s.wakeup writable).task p).Sleeps writable') :
    (s.task p).Sleeps writable' ∧ writable' ≠ writable := by
  simp only [State.wakeup] at h
  split at h
  · exact absurd h (Task.wake_sleeps _ _)
  · next hon => exact ⟨h, fun heq => hon (heq ▸ h.on)⟩

namespace Waits

theorem setTask (h : Waits s) {t : Task}
    (hon : ∀ writable, t.On writable → s.pipe.isOpen writable = true)
    (hsleeps : ∀ writable, t.Sleeps writable → s.pipe.Blocked writable) :
    Waits (s.setTask p t) := by
  have hself : (s.setTask p t).task p = t := Function.update_self ..
  have hother {q : P} (hq : q ≠ p) : (s.setTask p t).task q = s.task q :=
    Function.update_of_ne hq ..
  refine ⟨h.length, fun q writable hq => ?_, fun q writable hq => ?_⟩
  · by_cases hqp : q = p
    · rw [hqp, hself] at hq
      exact hon writable hq
    · rw [hother hqp] at hq
      exact h.on q writable hq
  · by_cases hqp : q = p
    · rw [hqp, hself] at hq
      exact hsleeps writable hq
    · rw [hother hqp] at hq
      exact h.sleeps q writable hq

theorem user (h : Waits s) (ret : Int) : Waits (s.setTask p (.user ret)) :=
  h.setTask (fun _ => False.elim) fun _ => False.elim

omit [DecidableEq P] in
theorem wakeup (h : Waits s) {pipe : Pipe} (writable : Bool) (hkept : s.pipe.Kept pipe)
    (hlength : pipe.contents.length ≤ pipeSize)
    (hblocked : s.pipe.Blocked (!writable) → pipe.Blocked (!writable)) :
    Waits (({ s with pipe := pipe } : State P).wakeup writable) := by
  refine ⟨hlength, fun q writable' hq => ?_, fun q writable' hq => ?_⟩
  · exact (hkept.isOpen writable').trans (h.on q writable' ((wakeup_on _ _ _ _).mp hq))
  · obtain ⟨hsleeps, hne⟩ := wakeup_sleeps hq
    rw [← Bool.eq_not_of_ne hne] at hblocked
    exact hblocked (h.sleeps q writable' hsleeps)

theorem piperead (h : Waits s) {n : Nat} (htask : s.task p = .reading n false) :
    Waits (s.piperead p n) := by
  unfold State.piperead
  split
  · next hwait =>
      split
      · exact h.user _
      · have hon : (s.task p).On false := by rw [htask]; rfl
        apply h.setTask
        · intro writable hwritable
          cases hwritable
          exact h.on p false hon
        · intro writable hwritable
          cases hwritable.1
          exact ⟨Pipe.empty_iff.mp hwait.1, hwait.2⟩
  · obtain ⟨-, hcontents, hkept⟩ := s.pipe.drain_spec n
    refine (h.wakeup true hkept ?_ fun hblocked => ?_).user _
    · rw [hcontents, List.length_drop]
      exact (Nat.sub_le _ _).trans h.length
    · -- A reader that is asleep has found the pipe empty.
      exact ⟨by rw [hcontents, hblocked.1, List.drop_nil], hkept.writeopen.trans hblocked.2⟩

theorem pipewrite (h : Waits s) {addr : List UInt8} {i : Nat}
    (htask : s.task p = .writing addr i false) (hstays : staysOn s (.step p)) :
    Waits (s.pipewrite p addr i) := by
  have hon : (s.task p).On true := by rw [htask]; rfl
  obtain ⟨hcount, hcontents, hkept⟩ := Pipe.fill_spec (addr.drop i) h.length
  have hlength : (s.pipe.fill (addr.drop i)).2.contents.length ≤ pipeSize := by
    rw [hcontents, List.length_append, List.length_take]
    have hle := h.length
    omega
  have hfull (hblocked : s.pipe.Blocked true) : (s.pipe.fill (addr.drop i)).2.Blocked true := by
    refine ⟨?_, hkept.readopen.trans hblocked.2⟩
    rw [hcontents, List.length_append]
    have hsize := hblocked.1
    rw [List.length_take]
    omega
  have hwoken := h.wakeup false hkept hlength hfull
  unfold State.pipewrite
  dsimp only
  split
  · next hmore =>
      split
      · next hgone =>
          -- Nobody is woken up: nobody waits for a byte, or none was stored.
          refine user ⟨hlength, fun q writable hq => ?_, fun q writable hq => ?_⟩ _
          · exact (hkept.isOpen writable).trans (h.on q writable hq)
          · have hopen := h.on q writable hq.on
            have hblocked := h.sleeps q writable hq
            cases writable with
            | true => exact hfull hblocked
            | false =>
                have hreadopen : s.pipe.readopen = true := hopen
                have hkilled : s.killed p = true := by
                  rw [hkept.readopen, hreadopen] at hgone
                  simpa using hgone
                have hnone : (s.pipe.fill (addr.drop i)).1 = 0 := by
                  simp only [staysOn, GivesUp, htask, hkilled, true_and] at hstays
                  omega
                refine ⟨?_, hkept.writeopen.trans hblocked.2⟩
                rw [hcontents, hnone, List.take_zero, List.append_nil]
                exact hblocked.1
      · next hthere =>
          apply hwoken.setTask
          · intro writable hwritable
            cases hwritable
            exact hkept.writeopen.trans (h.on p true hon)
          · intro writable hwritable
            cases hwritable.1
            have hcount' : (s.pipe.fill (addr.drop i)).1 = pipeSize - s.pipe.contents.length := by
              rw [List.length_drop] at hcount
              omega
            have hopen : (s.pipe.fill (addr.drop i)).2.readopen = true := by
              simpa using mt Or.inl hthere
            refine ⟨?_, hopen⟩
            have hle := h.length
            calc (s.pipe.fill (addr.drop i)).2.contents.length
                = s.pipe.contents.length +
                    ((addr.drop i).take (s.pipe.fill (addr.drop i)).1).length := by
                  rw [hcontents, List.length_append]
              _ = pipeSize := by
                  rw [List.length_take]
                  omega
  · exact hwoken.user _

theorem kill (h : Waits s) (p : P) (asleep : Bool) : Waits (s.kill p asleep) := by
  cases asleep with
  | false => exact ⟨h.length, h.on, h.sleeps⟩
  | true =>
      refine ⟨h.length, (h.setTask (p := p) (t := (s.task p).wake) ?_ ?_).on,
        (h.setTask (p := p) (t := (s.task p).wake) ?_ ?_).sleeps⟩
      · exact fun writable hon => h.on p writable ((Task.wake_on _ _).mp hon)
      · exact fun writable hsleeps => absurd hsleeps (Task.wake_sleeps _ _)
      · exact fun writable hon => h.on p writable ((Task.wake_on _ _).mp hon)
      · exact fun writable hsleeps => absurd hsleeps (Task.wake_sleeps _ _)

omit [DecidableEq P] in
theorem pipeclose (h : Waits s) {writable : Bool}
    (hnobody : ∀ p, ¬(s.task p).On writable) : Waits (s.pipeclose writable) := by
  cases writable with
  | false =>
      refine ⟨h.length, fun q writable hq => ?_, fun q writable hq => ?_⟩
      · have hon := (wakeup_on _ _ _ _).mp hq
        cases writable with
        | false => exact absurd hon (hnobody q)
        | true => exact h.on q true hon
      · obtain ⟨hsleeps, hne⟩ := wakeup_sleeps hq
        cases writable with
        | false => exact absurd hsleeps.on (hnobody q)
        | true => exact absurd rfl hne
  | true =>
      refine ⟨h.length, fun q writable hq => ?_, fun q writable hq => ?_⟩
      · have hon := (wakeup_on _ _ _ _).mp hq
        cases writable with
        | false => exact h.on q false hon
        | true => exact absurd hon (hnobody q)
      · obtain ⟨hsleeps, hne⟩ := wakeup_sleeps hq
        cases writable with
        | false => exact absurd rfl hne
        | true => exact absurd hsleeps.on (hnobody q)

theorem effect (h : Waits s) (heffect : Effect s e s') (hstays : staysOn s e) : Waits s' := by
  cases heffect with
  | read p n hopen =>
      exact h.setTask (fun writable hon => by cases hon; exact hopen)
        fun writable hsleeps => absurd hsleeps.2 Bool.false_ne_true
  | write p addr hopen =>
      exact h.setTask (fun writable hon => by cases hon; exact hopen)
        fun writable hsleeps => absurd hsleeps.2 Bool.false_ne_true
  | piperead p n htask => exact h.piperead htask
  | pipewrite p addr i htask => exact h.pipewrite htask hstays
  | kill p asleep => exact h.kill p asleep
  | close writable hnobody => exact h.pipeclose hnobody

theorem init [Fintype P] (hinit : (pipes P).init s) : Waits s := by
  have htask (p : P) (writable : Bool) : ¬(s.task p).On writable := by
    obtain ⟨ret, hret⟩ := hinit.2.2 p
    rw [hret]
    exact id
  refine ⟨by simp [init_contents hinit], fun p writable hon => absurd hon (htask p writable),
    fun p writable hsleeps => absurd hsleeps.on (htask p writable)⟩

end Waits

/-- The first process waits for a byte; the second stores 512 of 513 and is killed. -/
def killedWriter : List (Event Bool) :=
  [.read false 1, .step false,
    .write true (List.replicate 513 0), .kill true false,
    .step true]

/-- For all processes and all runs in which no killed writer gives up: a reader that is asleep
has nothing to read, a writer that is asleep has no room, and the other end is open.  Where one
gives up, a reader can sleep on a pipe that is full. -/
theorem pipe_sleepers :
    (∀ (P : Type) [DecidableEq P] [Fintype P] (s₀ s : State P) (es : List (Event P)),
      (pipes P).init s₀ → (pipes P).runWhere staysOn s₀ es = some s → ∀ p,
        ((s.task p).Sleeps false → s.pipe.contents = [] ∧ s.pipe.writeopen = true) ∧
        ((s.task p).Sleeps true →
          s.pipe.contents.length = pipeSize ∧ s.pipe.readopen = true)) ∧
      ∃ s, (pipes Bool).run newPipe killedWriter = some s ∧
        (s.task false).Sleeps false ∧ s.pipe.contents.length = pipeSize := by
  constructor
  · intro P _ _ s₀ s es hinit hrun p
    have hwaits : Waits s := System.runWhere_invariant (Waits.init hinit)
      (fun s e s' h hstays hnext => h.effect (next_effect hnext) hstays) hrun
    exact ⟨fun hsleeps => hwaits.sleeps p false hsleeps,
      fun hsleeps => hwaits.sleeps p true hsleeps⟩
  · have hrun : ((pipes Bool).run newPipe killedWriter).any (fun s =>
        decide (s.task false = .reading 1 true) && decide s.pipe.Full) = true := by
      decide +kernel
    obtain ⟨s, hs, hend⟩ := (Option.any_eq_true _ _).mp hrun
    rw [Bool.and_eq_true, decide_eq_true_eq] at hend
    exact ⟨s, hs, by rw [hend.1]; exact ⟨rfl, rfl⟩, Pipe.full_iff.mp (of_decide_eq_true hend.2)⟩

/-- A reader finds nothing, and is woken by a writer that then finds no room. -/
def longWrite : List (Event Bool) :=
  [.read false 1, .step false, .write true (List.replicate 513 7), .step true]

theorem pipe_sleepers_longWrite :
    ∃ s u, (pipes Bool).runWhere staysOn newPipe (longWrite.take 2) = some s ∧
      (s.task false).Sleeps false ∧ s.pipe.contents = [] ∧
      (pipes Bool).runWhere staysOn newPipe longWrite = some u ∧
      (u.task true).Sleeps true ∧ u.pipe.contents.length = pipeSize := by
  have hreader : ((pipes Bool).runWhere staysOn newPipe (longWrite.take 2)).any (fun s =>
      decide (s.task false = .reading 1 true)) = true := by decide +kernel
  have hwriter : ((pipes Bool).runWhere staysOn newPipe longWrite).any (fun s =>
      decide (s.task true = .writing (List.replicate 513 7) 512 true)) = true := by decide +kernel
  obtain ⟨s, hs, hread⟩ := (Option.any_eq_true _ _).mp hreader
  obtain ⟨u, hu, hwrite⟩ := (Option.any_eq_true _ _).mp hwriter
  rw [decide_eq_true_eq] at hread hwrite
  have hsleeps : (s.task false).Sleeps false := by
    rw [hread]
    exact ⟨rfl, rfl⟩
  have hsleeps' : (u.task true).Sleeps true := by
    rw [hwrite]
    exact ⟨rfl, rfl⟩
  exact ⟨s, u, hs, hsleeps, ((pipe_sleepers.1 Bool newPipe s _ newPipe_init hs false).1 hsleeps).1,
    hu, hsleeps', ((pipe_sleepers.1 Bool newPipe u _ newPipe_init hu true).2 hsleeps').1⟩

end Os20.Pipes
