import Os20.Pipes.Machine

/-!
# A pipe is a queue

The bytes between `nread` and `nwrite` are those that were written and not read yet, in order,
however often the counters have wrapped around.
-/

namespace Os20.Pipes

open Os20.Lib.Transition
open Os20.Lib.Queue
open Os20.Lib.Refinement

/-! ## The ring -/

namespace Pipe

def contents (p : Pipe) : List UInt8 :=
  Lib.Ring.segment pipeSize_pos p.data p.nread p.nwrite

variable {p : Pipe} {b : UInt8} {bs : List UInt8} {n : Nat}

theorem full_iff : p.Full ↔ p.contents.length = pipeSize := by
  have hsize : (UInt32.ofNat pipeSize).toNat = pipeSize := by decide
  rw [contents, Lib.Ring.length_segment, ← hsize, UInt32.toNat_inj]
  unfold Full
  constructor
  · intro h
    rw [h]
    grind
  · intro h
    rw [← h]
    grind

theorem empty_iff : p.Empty ↔ p.contents = [] := by
  unfold Empty
  constructor
  · intro h
    rw [contents, h, Lib.Ring.segment_self]
  · intro h
    by_contra hne
    rw [contents, Lib.Ring.segment_pop hne] at h
    cases h

theorem contents_put (h : p.contents.length < pipeSize) (b : UInt8) :
    (p.put b).contents = p.contents ++ [b] := by
  rw [contents, Lib.Ring.length_segment] at h
  exact Lib.Ring.segment_push (by decide) (by decide) h b

theorem contents_get (h : ¬p.Empty) : p.contents = p.get.1 :: p.get.2.contents :=
  Lib.Ring.segment_pop h

structure Kept (p p' : Pipe) : Prop where
  readopen : p'.readopen = p.readopen
  writeopen : p'.writeopen = p.writeopen

theorem fill_spec (bs : List UInt8) (h : p.contents.length ≤ pipeSize) :
    (p.fill bs).1 = min bs.length (pipeSize - p.contents.length) ∧
      (p.fill bs).2.contents = p.contents ++ bs.take (p.fill bs).1 ∧ p.Kept (p.fill bs).2 := by
  induction bs generalizing p with
  | nil => simp [fill, Kept.mk]
  | cons b bs ih =>
      rw [fill]
      split
      · next hfull =>
          rw [full_iff] at hfull
          simp [hfull, Kept.mk]
      · next hroom =>
          rw [full_iff] at hroom
          have hput := contents_put (by omega : p.contents.length < pipeSize) b
          have hlength : (p.put b).contents.length = p.contents.length + 1 := by simp [hput]
          obtain ⟨hcount, hcontents, hkept⟩ := ih (p := p.put b) (by omega)
          refine ⟨?_, ?_, hkept.readopen, hkept.writeopen⟩
          · dsimp only
            rw [hcount, hlength, List.length_cons]
            omega
          · dsimp only
            rw [hcontents, hput, List.take_succ_cons]
            simp

theorem drain_spec (p : Pipe) (n : Nat) : (p.drain n).1 = p.contents.take n ∧
    (p.drain n).2.contents = p.contents.drop n ∧ p.Kept (p.drain n).2 := by
  induction n generalizing p with
  | zero => simp [drain, Kept.mk]
  | succ n ih =>
      rw [drain]
      split
      · next hempty =>
          rw [empty_iff] at hempty
          simp [hempty, Kept.mk]
      · next hsome =>
          obtain ⟨hbytes, hcontents, hkept⟩ := ih p.get.2
          rw [contents_get hsome]
          refine ⟨?_, ?_, hkept.readopen, hkept.writeopen⟩
          · dsimp only
            rw [hbytes, List.take_succ_cons]
          · dsimp only
            rw [hcontents, List.drop_succ_cons]

end Pipe

/-! ## Steps -/

variable {P : Type*} [DecidableEq P] {s s' : State P} {p : P} {e : Event P}

inductive Effect (s : State P) : Event P → State P → Prop
  | read (p : P) (n : Nat) (hopen : s.pipe.readopen = true) :
      Effect s (.read p n) (s.setTask p (.reading n false))
  | write (p : P) (addr : List UInt8) (hopen : s.pipe.writeopen = true) :
      Effect s (.write p addr) (s.setTask p (.writing addr 0 false))
  | piperead (p : P) (n : Nat) (htask : s.task p = .reading n false) :
      Effect s (.step p) (s.piperead p n)
  | pipewrite (p : P) (addr : List UInt8) (i : Nat) (htask : s.task p = .writing addr i false) :
      Effect s (.step p) (s.pipewrite p addr i)
  | kill (p : P) (asleep : Bool) : Effect s (.kill p asleep) (s.kill p asleep)
  | close (writable : Bool) (hnobody : ∀ p, ¬(s.task p).On writable) :
      Effect s (.close writable) (s.pipeclose writable)

theorem enter_eq {t : Task} (h : s.enter p t = some s') : s' = s.setTask p t := by
  unfold State.enter at h
  split at h
  · split at h
    · cases h
    · exact (Option.some.inj h).symm
  · cases h

theorem next_effect [Fintype P] (hnext : s.next e = some s') : Effect s e s' := by
  cases e with
  | read p n =>
      simp only [State.next] at hnext
      split at hnext
      · next hopen =>
          rw [enter_eq hnext]
          exact .read p n hopen
      · cases hnext
  | write p addr =>
      simp only [State.next] at hnext
      split at hnext
      · next hopen =>
          rw [enter_eq hnext]
          exact .write p addr hopen
      · cases hnext
  | step p =>
      simp only [State.next] at hnext
      split at hnext
      · next n htask =>
          cases hnext
          exact .piperead p n htask
      · next addr i htask =>
          cases hnext
          exact .pipewrite p addr i htask
      · cases hnext
  | kill p asleep =>
      cases hnext
      exact .kill p asleep
  | close writable =>
      obtain ⟨⟨-, hnobody⟩, hclosed⟩ := Option.ite_none_right_eq_some.mp hnext
      cases hclosed
      exact .close writable hnobody

theorem piperead_pipe (s : State P) (p : P) (n : Nat) :
    (s.piperead p n).pipe.contents = s.pipe.contents.drop n ∧
      s.pipe.Kept (s.piperead p n).pipe := by
  unfold State.piperead
  split
  · next hwait =>
      have hempty := Pipe.empty_iff.mp hwait.1
      have hsame : s.pipe.contents = s.pipe.contents.drop n := by simp [hempty]
      split
      · exact ⟨hsame, rfl, rfl⟩
      · exact ⟨hsame, rfl, rfl⟩
  · exact (s.pipe.drain_spec n).2

theorem pipewrite_pipe (s : State P) (p : P) (addr : List UInt8) (i : Nat) :
    (s.pipewrite p addr i).pipe = (s.pipe.fill (addr.drop i)).2 := by
  unfold State.pipewrite
  dsimp only
  split
  · split
    · rfl
    · rfl
  · rfl

omit [DecidableEq P] in
theorem pipeclose_contents (s : State P) (writable : Bool) :
    (s.pipeclose writable).pipe.contents = s.pipe.contents := by
  cases writable with
  | false => rfl
  | true => rfl

/-! ## The refinement -/

def view (s : State P) : Event P → List (Act P UInt8)
  | .step p =>
      match s.task p with
      | .reading n false => (s.pipe.drain n).1.map (.get p)
      | .writing addr i false =>
          ((addr.drop i).take (s.pipe.fill (addr.drop i)).1).map (.put p)
      | _ => []
  | _ => []

theorem Effect.queue (heffect : Effect s e s') (hlength : s.pipe.contents.length ≤ pipeSize) :
    (queue P UInt8 pipeSize).run s.pipe.contents (view s e) = some s'.pipe.contents ∧
      s'.pipe.contents.length ≤ pipeSize := by
  cases heffect with
  | read | write | kill => exact ⟨rfl, hlength⟩
  | close writable _ =>
      rw [pipeclose_contents]
      exact ⟨rfl, hlength⟩
  | piperead p n htask =>
      have hpipe := (piperead_pipe s p n).1
      have hview : view s (.step p) = (s.pipe.contents.take n).map (.get p) := by
        simp only [view, htask, (s.pipe.drain_spec n).1]
      rw [hview, hpipe]
      refine ⟨?_, by rw [List.length_drop]; omega⟩
      calc (Lib.Queue.queue P UInt8 pipeSize).run s.pipe.contents
            ((s.pipe.contents.take n).map (.get p))
          = (Lib.Queue.queue P UInt8 pipeSize).run (s.pipe.contents.take n ++
              s.pipe.contents.drop n) ((s.pipe.contents.take n).map (.get p)) := by
            rw [List.take_append_drop]
        _ = some (s.pipe.contents.drop n) := run_gets p _ _
  | pipewrite p addr i htask =>
      obtain ⟨hcount, hcontents, -⟩ := Pipe.fill_spec (addr.drop i) hlength
      have hview : view s (.step p) =
          ((addr.drop i).take (s.pipe.fill (addr.drop i)).1).map (.put p) := by
        simp only [view, htask]
      rw [hview, pipewrite_pipe, hcontents]
      have hspace : s.pipe.contents.length +
          ((addr.drop i).take (s.pipe.fill (addr.drop i)).1).length ≤ pipeSize := by
        rw [List.length_take]
        omega
      exact ⟨run_puts p hspace, by rw [List.length_append]; omega⟩

variable [Fintype P]

theorem init_contents (hinit : (pipes P).init s) : s.pipe.contents = [] := by
  rw [← Pipe.empty_iff, Pipe.Empty, hinit.1.1, hinit.1.2]

/-- The pipe refines a queue of 512 bytes. -/
theorem refines_queue : Refines (pipes P) (fun _ _ => True) (queue P UInt8 pipeSize) view
    fun s q => q = s.pipe.contents ∧ q.length ≤ pipeSize where
  init s hinit := by
    refine ⟨[], rfl, (init_contents hinit).symm, by simp⟩
  step s q e s' hR _ hnext := by
    obtain ⟨rfl, hlength⟩ := hR
    obtain ⟨hrun, hlength'⟩ := (next_effect hnext).queue hlength
    exact ⟨_, hrun, rfl, hlength'⟩

omit [Fintype P] in
theorem piperead_user_zero {n : Nat} (hn : 0 < n)
    (hzero : (s.piperead p n).task p = .user 0) :
    s.pipe.contents = [] ∧ s.pipe.writeopen = false := by
  unfold State.piperead at hzero
  split at hzero
  · split at hzero
    · simp [State.setTask] at hzero
    · simp [State.setTask] at hzero
  · next hnot =>
      have hbytes := (s.pipe.drain_spec n).1
      simp only [State.setTask, Function.update_self, Task.user.injEq] at hzero
      rw [hbytes, List.length_take] at hzero
      have hempty : s.pipe.contents = [] := by
        rw [← List.length_eq_zero_iff]
        omega
      refine ⟨hempty, ?_⟩
      rw [← Pipe.empty_iff] at hempty
      simpa [hempty] using hnot

/-- For all processes and all runs: the bytes that were written are those that were read, in the
same order, and then those in the pipe, at most 512.  A read that asks for bytes and returns 0
has missed none, and all writers are gone. -/
theorem pipe_fifo (s₀ s : State P) (es : List (Event P)) (hinit : (pipes P).init s₀)
    (hrun : (pipes P).run s₀ es = some s) :
    puts (trace (pipes P) view s₀ es) =
        gets (trace (pipes P) view s₀ es) ++ s.pipe.contents ∧
      s.pipe.contents.length ≤ pipeSize ∧
      ∀ p n s', s.task p = .reading n false → 0 < n → s.next (.step p) = some s' →
        s'.task p = .user 0 → s.pipe.writeopen = false ∧
          puts (trace (pipes P) view s₀ es) = gets (trace (pipes P) view s₀ es) := by
  rw [← runWhere_true] at hrun
  obtain ⟨q, hq, rfl, hlength⟩ := refines_queue.run
    ⟨(init_contents hinit).symm, by simp⟩ hrun
  have hputs := puts_eq_gets hq
  rw [List.nil_append] at hputs
  refine ⟨hputs, hlength, fun p n s' htask hn hnext hzero => ?_⟩
  simp only [State.next, htask] at hnext
  cases hnext
  obtain ⟨hempty, hclosed⟩ := piperead_user_zero hn hzero
  exact ⟨hclosed, by rw [hputs, hempty, List.append_nil]⟩

def newPipe : State Bool where
  pipe := ⟨fun _ => 0, 0, 0, true, true⟩
  killed _ := false
  task _ := .user 0

theorem newPipe_init : (pipes Bool).init newPipe :=
  ⟨⟨rfl, rfl⟩, ⟨rfl, rfl⟩, fun _ => ⟨0, rfl⟩⟩

def twoOfThree : List (Event Bool) :=
  [.write false [1, 2, 3], .step false, .read true 2,
    .step true]

theorem pipe_fifo_twoOfThree :
    ∃ s, (pipes Bool).run newPipe twoOfThree = some s ∧
      gets (trace (pipes Bool) view newPipe twoOfThree) = [1, 2] ∧
      puts (trace (pipes Bool) view newPipe twoOfThree) = [1, 2] ++ s.pipe.contents := by
  have hgets : gets (trace (pipes Bool) view newPipe twoOfThree) = [1, 2] := by decide +kernel
  obtain ⟨s, hrun, -⟩ := (Option.any_eq_true (fun _ => true)
    ((pipes Bool).run newPipe twoOfThree)).mp (by decide +kernel)
  have hputs := (pipe_fifo newPipe s twoOfThree newPipe_init hrun).1
  rw [hgets] at hputs
  exact ⟨s, hrun, hgets, hputs⟩

end Os20.Pipes
