import Os20.Bio.Cache

/-!
# What an event of the buffer cache can do

One constructor for each way through the code that comes to its end, without a `panic`.
-/

namespace Os20.Bio

open Os20.Lib.Transition

variable {P : Type*}

namespace State

def sentDisk (s : State P) : Key → Data :=
  match s.idequeue with
  | [] => s.disk
  | b :: _ =>
      if (s.buf b).dirty then Function.update s.disk (sector (s.buf b).key) (s.buf b).data
      else s.disk

def sent (s : State P) : State P := { s with disk := s.sentDisk }

theorem sentDisk_cons {s : State P} {b : BufNo} {queue : List BufNo}
    (hqueue : s.idequeue = b :: queue) : s.sentDisk =
      if (s.buf b).dirty then Function.update s.disk (sector (s.buf b).key) (s.buf b).data
      else s.disk := by
  rw [sentDisk, hqueue]

theorem sentDisk_nil {s : State P} (hqueue : s.idequeue = []) : s.sentDisk = s.disk := by
  rw [sentDisk, hqueue]

theorem idestart_eq {s s' : State P} (h : s.idestart = some s') : s' = s.sent := by
  unfold idestart at h
  split at h
  · next hqueue => rw [← Option.some.inj h, sent, sentDisk_nil hqueue]
  · next b queue hqueue =>
      rw [sent, sentDisk_cons hqueue]
      split at h
      · cases h
      · split at h
        · next hdirty => rw [if_pos hdirty, ← Option.some.inj h]
        · next hclean => rw [if_neg hclean, ← Option.some.inj h]

@[simp] theorem setBuf_self (s : State P) (b : BufNo) (x : Buf P) : (s.setBuf b x).buf b = x :=
  Function.update_self ..

theorem setBuf_of_ne (s : State P) {b c : BufNo} (x : Buf P) (hc : c ≠ b) :
    (s.setBuf b x).buf c = s.buf c := Function.update_of_ne hc ..

variable [DecidableEq P]

def enqueue (s : State P) (p : P) (b : BufNo) : State P :=
  let s' := ({ s with idequeue := s.idequeue ++ [b] } : State P).setTask p (.waiting b)
  if s.idequeue = [] then s'.sent else s'

theorem iderw_eq {s s' : State P} {p : P} {b : BufNo} (h : s.iderw p b = some s') :
    (s.buf b).lock = some p ∧ ((s.buf b).valid = true → (s.buf b).dirty = true) ∧
      s' = s.enqueue p b := by
  unfold iderw at h
  dsimp only at h
  split at h
  · cases h
  · next hok =>
      rw [not_or, not_not, not_and] at hok
      refine ⟨hok.1, fun hvalid => by simpa using hok.2 hvalid, ?_⟩
      unfold enqueue
      have hfirst : (({ s with idequeue := s.idequeue ++ [b] } : State P).setTask p
          (.waiting b)).idequeue = [b] ↔ s.idequeue = [] := by
        simp [setTask]
      split at h
      · next hb =>
          rw [if_pos (hfirst.mp hb)]
          exact idestart_eq h
      · next hb =>
          rw [if_neg fun hnil => hb (hfirst.mpr hnil)]
          exact (Option.some.inj h).symm

@[simp] theorem enqueue_buf (s : State P) (p : P) (b : BufNo) : (s.enqueue p b).buf = s.buf := by
  unfold enqueue
  dsimp only
  split
  · rfl
  · rfl

@[simp] theorem enqueue_links (s : State P) (p : P) (b : BufNo) :
    (s.enqueue p b).links = s.links := by
  unfold enqueue
  dsimp only
  split
  · rfl
  · rfl

@[simp] theorem enqueue_task (s : State P) (p : P) (b : BufNo) :
    (s.enqueue p b).task = Function.update s.task p (.waiting b) := by
  unfold enqueue
  dsimp only
  split
  · rfl
  · rfl

@[simp] theorem enqueue_idequeue (s : State P) (p : P) (b : BufNo) :
    (s.enqueue p b).idequeue = s.idequeue ++ [b] := by
  unfold enqueue
  dsimp only
  split
  · rfl
  · rfl

theorem enqueue_disk (s : State P) (p : P) (b : BufNo) : (s.enqueue p b).disk =
    if s.idequeue = [] ∧ (s.buf b).dirty = true then
      Function.update s.disk (sector (s.buf b).key) (s.buf b).data
    else s.disk := by
  unfold enqueue
  dsimp only
  split
  · next hnil =>
      have hqueue : (({ s with idequeue := s.idequeue ++ [b] } : State P).setTask p
          (.waiting b)).idequeue = b :: [] := by
        simp [setTask, hnil]
      rw [sent, sentDisk_cons hqueue]
      simp [hnil, setTask]
  · next hne =>
      rw [if_neg fun h => hne h.1]
      rfl

end State

variable [DecidableEq P] {s s' : State P} {e : Event P}

inductive Effect (s : State P) : Event P → State P → Prop
  | hit (p : P) (k : Key) (b : BufNo) (htask : s.task p = .user) (hcached : s.cached k = some b) :
      Effect s (.bread p k)
        ((s.setBuf b { s.buf b with refcnt := (s.buf b).refcnt + 1 }).setTask p (.locking b))
  | recycle (p : P) (k : Key) (b : BufNo) (htask : s.task p = .user) (hmiss : s.cached k = none)
      (hunused : s.unused = some b) :
      Effect s (.bread p k)
        ((s.setBuf b { s.buf b with key := k, valid := false, dirty := false, refcnt := 1 }).setTask
          p (.locking b))
  | take (p : P) (b : BufNo) (htask : s.task p = .locking b) (hfree : (s.buf b).lock = none)
      (hvalid : (s.buf b).valid = true) :
      Effect s (.step p) ((s.setBuf b { s.buf b with lock := some p }).setTask p .user)
  | fetch (p : P) (b : BufNo) (htask : s.task p = .locking b) (hfree : (s.buf b).lock = none)
      (hvalid : (s.buf b).valid = false) :
      Effect s (.step p)
        (((s.setBuf b { s.buf b with lock := some p }).setTask p .user).enqueue p b)
  | done (p : P) (b : BufNo) (htask : s.task p = .waiting b) (hvalid : (s.buf b).valid = true)
      (hclean : (s.buf b).dirty = false) : Effect s (.step p) (s.setTask p .user)
  | unref (p : P) (b : BufNo) (htask : s.task p = .releasing b) :
      Effect s (.step p) (s.unref p b)
  | write (p : P) (b : BufNo) (data : Data) (htask : s.task p = .user)
      (hlock : (s.buf b).lock = some p) :
      Effect s (.write p b data) (s.setBuf b { s.buf b with data := data })
  | logWrite (p : P) (b : BufNo) (htask : s.task p = .user) (hlock : (s.buf b).lock = some p) :
      Effect s (.logWrite p b) (s.setBuf b { s.buf b with dirty := true })
  | bwrite (p : P) (b : BufNo) (htask : s.task p = .user) (hlock : (s.buf b).lock = some p) :
      Effect s (.bwrite p b) ((s.setBuf b { s.buf b with dirty := true }).enqueue p b)
  | brelse (p : P) (b : BufNo) (htask : s.task p = .user) (hlock : (s.buf b).lock = some p) :
      Effect s (.brelse p b)
        ((s.setBuf b { s.buf b with lock := none }).setTask p (.releasing b))
  /-- There is no request. -/
  | spurious (failed : Bool) (hqueue : s.idequeue = []) : Effect s (.ideintr failed) s
  | written (failed : Bool) (b : BufNo) (queue : List BufNo) (hqueue : s.idequeue = b :: queue)
      (hdirty : (s.buf b).dirty = true) :
      Effect s (.ideintr failed) (({ s with idequeue := queue } : State P).setBuf b
        { s.buf b with valid := true, dirty := false }).sent
  /-- The buffer counts as read, with the data that it has. -/
  | unread (b : BufNo) (queue : List BufNo) (hqueue : s.idequeue = b :: queue)
      (hclean : (s.buf b).dirty = false) :
      Effect s (.ideintr true) (({ s with idequeue := queue } : State P).setBuf b
        { s.buf b with valid := true, dirty := false }).sent
  | fetched (b : BufNo) (queue : List BufNo) (hqueue : s.idequeue = b :: queue)
      (hclean : (s.buf b).dirty = false) :
      Effect s (.ideintr false) (({ s with idequeue := queue } : State P).setBuf b
        { s.buf b with
          valid := true
          dirty := false
          data := s.disk (sector (s.buf b).key) }).sent

theorem bread_effect {p : P} {k : Key} (htask : s.task p = .user)
    (h : s.bget p k = some s') : Effect s (.bread p k) s' := by
  unfold State.bget at h
  split at h
  · next b hcached =>
      cases h
      exact .hit p k b htask hcached
  · next hmiss =>
      split at h
      · next b hunused =>
          cases h
          exact .recycle p k b htask hmiss hunused
      · cases h

theorem step_effect {p : P} (h : s.step p = some s') : Effect s (.step p) s' := by
  unfold State.step at h
  split at h
  · cases h
  · next b htask =>
      obtain ⟨hfree, hrest⟩ := Option.ite_none_right_eq_some.mp h
      split at hrest
      · next hvalid =>
          cases hrest
          exact .take p b htask hfree hvalid
      · next hvalid =>
          obtain ⟨-, -, rfl⟩ := State.iderw_eq hrest
          exact .fetch p b htask hfree (by simpa using hvalid)
  · next b htask =>
      obtain ⟨hdone, hrest⟩ := Option.ite_none_right_eq_some.mp h
      cases hrest
      exact .done p b htask hdone.1 hdone.2
  · next b htask =>
      cases h
      exact .unref p b htask

theorem ideintr_effect {failed : Bool} (h : s.ideintr failed = some s') :
    Effect s (.ideintr failed) s' := by
  unfold State.ideintr at h
  split at h
  · next hqueue =>
      cases h
      exact .spurious failed hqueue
  · next b queue hqueue =>
      rw [State.idestart_eq h]
      cases hdirty : (s.buf b).dirty with
      | true =>
          rw [if_pos (Or.inl rfl)]
          exact .written failed b queue hqueue hdirty
      | false =>
          cases failed with
          | true =>
              rw [if_pos (Or.inr rfl)]
              exact .unread b queue hqueue hdirty
          | false =>
              rw [if_neg (by simp)]
              exact .fetched b queue hqueue hdirty

theorem next_effect (h : s.next e = some s') : Effect s e s' := by
  cases e with
  | bread p k =>
      obtain ⟨htask, hrest⟩ := Option.ite_none_right_eq_some.mp h
      exact bread_effect htask hrest
  | step p => exact step_effect h
  | write p b data =>
      obtain ⟨⟨htask, hlock⟩, hrest⟩ := Option.ite_none_right_eq_some.mp h
      cases hrest
      exact .write p b data htask hlock
  | logWrite p b =>
      obtain ⟨⟨htask, hlock⟩, hrest⟩ := Option.ite_none_right_eq_some.mp h
      cases hrest
      exact .logWrite p b htask hlock
  | bwrite p b =>
      obtain ⟨htask, hrest⟩ := Option.ite_none_right_eq_some.mp h
      obtain ⟨hlock, hrest⟩ := Option.ite_none_right_eq_some.mp hrest
      obtain ⟨-, -, rfl⟩ := State.iderw_eq hrest
      exact .bwrite p b htask hlock
  | brelse p b =>
      obtain ⟨htask, hrest⟩ := Option.ite_none_right_eq_some.mp h
      obtain ⟨hlock, hrest⟩ := Option.ite_none_right_eq_some.mp hrest
      cases hrest
      exact .brelse p b htask hlock
  | ideintr failed => exact ideintr_effect h

end Os20.Bio
