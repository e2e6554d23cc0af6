import Os20.Bio.Steps
import Os20.Lib.Pthread

/-!
# References to buffers

The count of a buffer is the number of those who refer to it: the one who holds its lock, those
who wait for the lock and those who have just given it back.  So a buffer that `bget` recycles is
out of use, and no block ever has two buffers.
-/

namespace Os20.Bio

open Os20.Lib.Pthread.Program (count count_update count_pos)
open Os20.Lib.Transition

/-- A block of one of the two disks.  The buffers start out as those of block 0 of disk 0. -/
def KeyOk (k : Key) : Prop := k.1 ≤ 1 ∧ k ≠ (0, 0)

instance (k : Key) : Decidable (KeyOk k) := inferInstanceAs (Decidable (_ ∧ _))

theorem KeyOk.sector {k : Key} (h : KeyOk k) : sector k = k := by
  obtain ⟨d, n⟩ := k
  have hd : d.toNat ≤ 1 := UInt32.le_iff_toNat_le.mp h.1
  have hone : d &&& 1 = d := by
    rw [← UInt32.toNat_inj, UInt32.toNat_and, UInt32.toNat_one, Nat.and_one_is_mod]
    omega
  exact congrArg (·, n) hone

/-- Before and behind the lock, a process refers to its buffer. -/
def Task.uses (b : BufNo) : Task → Bool
  | .locking c | .releasing c => c == b
  | .user | .waiting _ => false

def Task.buf : Task → Option BufNo
  | .user => none
  | .locking b | .waiting b | .releasing b => some b

theorem Task.uses_of_buf_ne {t : Task} {b : BufNo} (h : t.buf ≠ some b) : t.uses b = false := by
  cases t with
  | user | waiting => rfl
  | locking c | releasing c => simpa [Task.buf, Task.uses] using h

variable {P : Type*} [Fintype P]

structure BufInv (b : BufNo) (x : Buf P) (task : P → Task) (queue : List BufNo)
    (disk : Key → Data) : Prop where
  refs : x.refcnt = x.lock.toList.length + count (Task.uses b) task
  waiting : ∀ p, task p = .waiting b → x.lock = some p
  queued : b ∈ queue → (∃ p, task p = .waiting b) ∧ (x.valid = true → x.dirty = true)
  dirty : x.dirty = true → x.valid = true
  held : ∀ p, x.lock = some p → task p ≠ .waiting b → x.valid = true
  known : x.refcnt ≠ 0 ∨ x.valid = true → KeyOk x.key
  clean : x.valid = true → x.dirty = false → x.lock = none → x.data = disk x.key

structure Inv (s : State P) : Prop where
  buf : ∀ b, BufInv b (s.buf b) s.task s.idequeue s.disk
  unique : ∀ b c, (s.buf b).key = (s.buf c).key → KeyOk (s.buf b).key → b = c
  nodup : s.idequeue.Nodup
  /-- The first write in the queue has been sent. -/
  sent : ∀ b queue, s.idequeue = b :: queue → (s.buf b).dirty = true →
    (s.buf b).data = s.disk (s.buf b).key

omit [Fintype P] in
/-- What the callers keep to: blocks of the two disks, and no changed block is given back without
`bwrite` or `log_write`.  And what the disk does: it fails no read. -/
def Proper (s : State P) : Event P → Prop
  | .bread _ k => KeyOk k
  | .brelse _ b => (s.buf b).dirty = true ∨ (s.buf b).data = s.disk (s.buf b).key
  | .ideintr failed => failed = true → ∀ b ∈ s.idequeue.head?, (s.buf b).dirty = true
  | _ => True

instance (s : State P) : DecidablePred (Proper s)
  | .bread _ k => inferInstanceAs (Decidable (KeyOk k))
  | .brelse _ b => inferInstanceAs (Decidable ((s.buf b).dirty = true ∨ (s.buf b).data = _))
  | .ideintr _ => inferInstanceAs (Decidable (_ → ∀ b ∈ s.idequeue.head?, _))
  | .step _ | .write _ _ _ | .logWrite _ _ | .bwrite _ _ => isTrue trivial

variable {s s' : State P} {p : P} {k : Key} {b c : BufNo} {t : Task} {e : Event P}
  {x : Buf P} {task : P → Task} {queue : List BufNo} {disk : Key → Data}

namespace BufInv

theorem refcnt_ne_zero_of_lock (h : BufInv b x task queue disk) (hlock : x.lock = some p) :
    x.refcnt ≠ 0 := by
  rw [h.refs, hlock]
  exact Nat.ne_of_gt (Nat.add_pos_left Nat.one_pos _)

theorem refcnt_ne_zero_of_uses (h : BufInv b x task queue disk)
    (huses : (task p).uses b = true) : x.refcnt ≠ 0 := by
  rw [h.refs]
  exact Nat.ne_of_gt (Nat.add_pos_right _ (count_pos huses))

theorem of_refcnt_zero (h : BufInv b x task queue disk) (hzero : x.refcnt = 0) :
    x.lock = none ∧ count (Task.uses b) task = 0 ∧ (∀ p, task p ≠ .waiting b) ∧ b ∉ queue := by
  have hlock : x.lock = none := by
    cases hsome : x.lock with
    | none => rfl
    | some p => exact absurd hzero (h.refcnt_ne_zero_of_lock hsome)
  have hwaiting (p : P) : task p ≠ .waiting b := by
    intro hp
    rw [h.waiting p hp] at hlock
    cases hlock
  refine ⟨hlock, ?_, hwaiting, fun hq => ?_⟩
  · have hrefs := h.refs
    rw [hzero] at hrefs
    omega
  · obtain ⟨p, hp⟩ := (h.queued hq).1
    exact hwaiting p hp

/-- The holder of the lock is not in a call, so that the buffer is in no queue. -/
theorem not_queued (h : BufInv b x task queue disk) (hlock : x.lock = some p)
    (htask : task p ≠ .waiting b) : b ∉ queue := by
  intro hq
  obtain ⟨q, hwaits⟩ := (h.queued hq).1
  have heq := h.waiting q hwaits
  rw [hlock] at heq
  rw [← Option.some.inj heq] at hwaits
  exact htask hwaits

variable [DecidableEq P]

omit [Fintype P] in
theorem waiting_update (task : P → Task) (b : BufNo) (hold : task p ≠ .waiting b)
    (hnew : t ≠ .waiting b) (q : P) :
    Function.update task p t q = .waiting b ↔ task q = .waiting b := by
  by_cases hq : q = p
  · rw [hq, Function.update_self]
    exact ⟨fun heq => absurd heq hnew, fun heq => absurd heq hold⟩
  · rw [Function.update_of_ne hq]

theorem elsewhere (h : BufInv b x task queue disk) {queue' : List BufNo} {disk' : Key → Data}
    (hold : (task p).buf ≠ some b) (hnew : t.buf ≠ some b) (hqueue : b ∈ queue' → b ∈ queue)
    (hdisk : x.valid = true → x.lock = none → disk' x.key = disk x.key) :
    BufInv b x (Function.update task p t) queue' disk' := by
  have hold' : task p ≠ .waiting b := fun heq => hold (by rw [heq]; rfl)
  have hnew' : t ≠ .waiting b := fun heq => hnew (by rw [heq]; rfl)
  have hwaiting := waiting_update task b hold' hnew'
  refine ⟨?_, fun q hq => h.waiting q ((hwaiting q).mp hq), fun hq => ?_, h.dirty,
    fun q hlock hq => h.held q hlock fun heq => hq ((hwaiting q).mpr heq), h.known,
    fun hvalid hclean hlock => ?_⟩
  · have hcount := count_update (Task.uses b) task p t
    rw [Task.uses_of_buf_ne hold, Task.uses_of_buf_ne hnew] at hcount
    rw [h.refs]
    exact congrArg _ hcount.symm
  · obtain ⟨⟨q, hwaits⟩, hdirty⟩ := h.queued (hqueue hq)
    exact ⟨⟨q, (hwaiting q).mpr hwaits⟩, hdirty⟩
  · rw [hdisk hvalid hlock]
    exact h.clean hvalid hclean hlock

end BufInv

variable [DecidableEq P]

namespace Inv

theorem change (h : Inv s) (b : BufNo) (x : Buf P) (p : P) (t : Task)
    (hself : s'.buf b = x) (hbuf : ∀ c, c ≠ b → s'.buf c = s.buf c)
    (htask : s'.task = Function.update s.task p t)
    (hold : ∀ c, (s.task p).buf = some c → c = b) (hnew : ∀ c, t.buf = some c → c = b)
    (hqueue : ∀ c, c ≠ b → c ∈ s'.idequeue → c ∈ s.idequeue)
    (hdisk : ∀ c, c ≠ b → (s.buf c).valid = true → (s.buf c).lock = none →
      s'.disk (s.buf c).key = s.disk (s.buf c).key)
    (hb : BufInv b x (Function.update s.task p t) s'.idequeue s'.disk)
    (hunique : KeyOk x.key → ∀ c, c ≠ b → (s.buf c).key ≠ x.key)
    (hnodup : s'.idequeue.Nodup)
    (hsent : ∀ c queue, s'.idequeue = c :: queue → (s'.buf c).dirty = true →
      (s'.buf c).data = s'.disk (s'.buf c).key) : Inv s' where
  buf c := by
    rw [htask]
    by_cases hc : c = b
    · rw [hc, hself]
      exact hb
    · rw [hbuf c hc]
      exact (h.buf c).elsewhere (fun heq => hc (hold c heq)) (fun heq => hc (hnew c heq))
        (hqueue c hc) (hdisk c hc)
  unique c d hkey hok := by
    by_cases hc : c = b
    · by_cases hd : d = b
      · rw [hc, hd]
      · rw [hc, hself] at hkey hok
        rw [hbuf d hd] at hkey
        exact absurd hkey.symm (hunique hok d hd)
    · by_cases hd : d = b
      · rw [hd, hself, hbuf c hc] at hkey
        rw [hbuf c hc, hkey] at hok
        exact absurd hkey (hunique hok c hc)
      · rw [hbuf c hc] at hkey hok
        rw [hbuf d hd] at hkey
        exact h.unique c d hkey hok
  nodup := hnodup
  sent := hsent

omit [DecidableEq P] in
theorem unique_of_key (h : Inv s) (hok : KeyOk (s.buf b).key) :
    ∀ c, c ≠ b → (s.buf c).key ≠ (s.buf b).key :=
  fun c hc heq => hc (h.unique b c heq.symm hok).symm

omit [DecidableEq P] in
theorem sent_of_eq (h : Inv s) (hqueue : s'.idequeue = s.idequeue) (hdisk : s'.disk = s.disk)
    (hbuf : ∀ c ∈ s.idequeue, (s'.buf c).dirty = (s.buf c).dirty ∧
      (s'.buf c).data = (s.buf c).data ∧ (s'.buf c).key = (s.buf c).key) :
    ∀ b queue, s'.idequeue = b :: queue → (s'.buf b).dirty = true →
      (s'.buf b).data = s'.disk (s'.buf b).key := by
  intro b queue hb hdirty
  rw [hqueue] at hb
  obtain ⟨hdirty', hdata, hkey⟩ := hbuf b (by rw [hb]; exact List.mem_cons_self)
  rw [hdirty'] at hdirty
  rw [hdata, hkey, hdisk]
  exact h.sent b queue hb hdirty

/-- A change that leaves the queue and the disks, and keeps what may be in the queue. -/
theorem setBuf (h : Inv s) (b : BufNo) (x : Buf P) (p : P) (t : Task)
    (hold : ∀ c, (s.task p).buf = some c → c = b) (hnew : ∀ c, t.buf = some c → c = b)
    (hb : BufInv b x (Function.update s.task p t) s.idequeue s.disk)
    (hunique : KeyOk x.key → ∀ c, c ≠ b → (s.buf c).key ≠ x.key)
    (hqueued : b ∈ s.idequeue → x.dirty = (s.buf b).dirty ∧ x.data = (s.buf b).data ∧
      x.key = (s.buf b).key) : Inv ((s.setBuf b x).setTask p t) := by
  refine h.change b x p t (State.setBuf_self s b x) (fun c hc => State.setBuf_of_ne s x hc) rfl
    hold hnew (fun c _ hc => hc) (fun _ _ _ _ => rfl) hb hunique h.nodup
    (h.sent_of_eq rfl rfl fun c hc => ?_)
  by_cases hcb : c = b
  · rw [hcb] at hc ⊢
    rw [State.setTask, State.setBuf_self]
    exact hqueued hc
  · rw [State.setTask, State.setBuf_of_ne s x hcb]
    exact ⟨rfl, rfl, rfl⟩

theorem queued_update (h : Inv s) (hold : s.task p ≠ .waiting b) (hnew : t ≠ .waiting b)
    (hq : b ∈ s.idequeue) : (∃ q, Function.update s.task p t q = .waiting b) ∧
      ((s.buf b).valid = true → (s.buf b).dirty = true) := by
  obtain ⟨⟨q, hwaits⟩, hdirty⟩ := (h.buf b).queued hq
  exact ⟨⟨q, (BufInv.waiting_update s.task b hold hnew q).mpr hwaits⟩, hdirty⟩

theorem hit (h : Inv s) (htask : s.task p = .user) (hok : KeyOk (s.buf b).key) :
    Inv ((s.setBuf b { s.buf b with refcnt := (s.buf b).refcnt + 1 }).setTask p (.locking b)) := by
  have hb := h.buf b
  have hold : s.task p ≠ .waiting b := by rw [htask]; simp
  have hnew : Task.locking b ≠ .waiting b := by simp
  have hwaiting := BufInv.waiting_update s.task b hold hnew
  have hcount := count_update (Task.uses b) s.task p (.locking b)
  rw [htask] at hcount
  refine h.setBuf b _ p _ (fun c hc => by rw [htask] at hc; cases hc) (fun c hc => by cases hc; rfl)
    ⟨?_, fun q hq => hb.waiting q ((hwaiting q).mp hq), h.queued_update hold hnew, hb.dirty,
      fun q hlock hq => hb.held q hlock fun heq => hq ((hwaiting q).mpr heq), fun _ => hok,
      hb.clean⟩
    h.unique_of_key fun _ => ⟨rfl, rfl, rfl⟩
  have hrefs := hb.refs
  simp [Task.uses] at hcount
  simp only
  omega

theorem recycle (h : Inv s) (htask : s.task p = .user) (hok : KeyOk k)
    (hmiss : ∀ c, (s.buf c).key ≠ k) (hzero : (s.buf b).refcnt = 0) :
    Inv ((s.setBuf b
      { s.buf b with key := k, valid := false, dirty := false, refcnt := 1 }).setTask p
        (.locking b)) := by
  obtain ⟨hlock, hnone, hwaits, hqueue⟩ := (h.buf b).of_refcnt_zero hzero
  have hwaiting := BufInv.waiting_update s.task b (hwaits p)
    (by simp : Task.locking b ≠ .waiting b)
  have hcount := count_update (Task.uses b) s.task p (.locking b)
  rw [htask, hnone] at hcount
  refine h.setBuf b _ p _ (fun c hc => by rw [htask] at hc; cases hc) (fun c hc => by cases hc; rfl)
    ⟨?_, fun q hq => absurd ((hwaiting q).mp hq) (hwaits q), fun hq => absurd hq hqueue,
      fun hdirty => (by cases hdirty), fun q hq => ?_, fun _ => hok, fun hvalid => by cases hvalid⟩
    (fun _ c _ => hmiss c) fun hq => absurd hq hqueue
  · simp [Task.uses] at hcount
    rw [hlock, hcount]
    rfl
  · rw [hlock] at hq
    cases hq

theorem take (h : Inv s) (htask : s.task p = .locking b) (hfree : (s.buf b).lock = none)
    (hvalid : (s.buf b).valid = true) :
    Inv ((s.setBuf b { s.buf b with lock := some p }).setTask p .user) := by
  have hb := h.buf b
  have hnone (q : P) : s.task q ≠ .waiting b := by
    intro hq
    rw [hb.waiting q hq] at hfree
    cases hfree
  have hqueue : b ∉ s.idequeue := fun hq => by
    obtain ⟨q, hwaits⟩ := (hb.queued hq).1
    exact hnone q hwaits
  have hwaiting := BufInv.waiting_update s.task b (hnone p) (by simp : Task.user ≠ .waiting b)
  have hcount := count_update (Task.uses b) s.task p .user
  rw [htask] at hcount
  refine h.setBuf b _ p _ (fun c hc => by rw [htask] at hc; cases hc; rfl) (fun c hc => by cases hc)
    ⟨?_, fun q hq => absurd ((hwaiting q).mp hq) (hnone q), fun hq => absurd hq hqueue, hb.dirty,
      fun _ _ _ => hvalid, hb.known, fun _ _ hlock => by cases hlock⟩
    h.unique_of_key fun hq => absurd hq hqueue
  have hrefs := hb.refs
  rw [hfree] at hrefs
  simp [Task.uses] at hcount hrefs
  simp only [Option.toList_some, List.length_singleton]
  omega

omit [DecidableEq P] in
theorem relink (h : Inv s) (links : Lib.Dlist.Links BufNo) : Inv { s with links := links } :=
  ⟨h.buf, h.unique, h.nodup, h.sent⟩

theorem unref (h : Inv s) (htask : s.task p = .releasing b) : Inv (s.unref p b) := by
  have hb := h.buf b
  have hold : s.task p ≠ .waiting b := by rw [htask]; simp
  have hnew : Task.user ≠ .waiting b := by simp
  have hwaiting := BufInv.waiting_update s.task b hold hnew
  have hcount := count_update (Task.uses b) s.task p .user
  rw [htask] at hcount
  have hset :
      Inv ((s.setBuf b { s.buf b with refcnt := (s.buf b).refcnt - 1 }).setTask p .user) := by
    refine h.setBuf b _ p _ (fun c hc => by rw [htask] at hc; cases hc; rfl)
      (fun c hc => by cases hc)
      ⟨?_, fun q hq => hb.waiting q ((hwaiting q).mp hq), h.queued_update hold hnew, hb.dirty,
        fun q hlock hq => hb.held q hlock fun heq => hq ((hwaiting q).mpr heq), ?_, hb.clean⟩
      h.unique_of_key fun _ => ⟨rfl, rfl, rfl⟩
    · have hrefs := hb.refs
      simp [Task.uses] at hcount
      simp only
      omega
    · rintro (hne | hvalid)
      · exact hb.known (Or.inl fun hzero => hne (by simp [hzero]))
      · exact hb.known (Or.inr hvalid)
  unfold State.unref
  dsimp only
  split
  · exact hset.relink _
  · exact hset

theorem done (h : Inv s) (htask : s.task p = .waiting b) (hvalid : (s.buf b).valid = true)
    (hclean : (s.buf b).dirty = false) : Inv (s.setTask p .user) := by
  have hb := h.buf b
  have hlock := hb.waiting p htask
  have hqueue : b ∉ s.idequeue := fun hq => by
    rw [(hb.queued hq).2 hvalid] at hclean
    cases hclean
  have hcount := count_update (Task.uses b) s.task p .user
  rw [htask] at hcount
  have hself : s.setBuf b (s.buf b) = s := by
    rw [State.setBuf, Function.update_eq_self]
  rw [← hself]
  refine h.setBuf b _ p _ (fun c hc => by rw [htask] at hc; cases hc; rfl) (fun c hc => by cases hc)
    ⟨?_, fun q hq => ?_, fun hq => absurd hq hqueue, hb.dirty, fun _ _ _ => hvalid, hb.known,
      hb.clean⟩ h.unique_of_key fun _ => ⟨rfl, rfl, rfl⟩
  · have hrefs := hb.refs
    simp [Task.uses] at hcount
    omega
  · by_cases hqp : q = p
    · rw [hqp, hlock]
    · rw [Function.update_of_ne hqp] at hq
      exact hb.waiting q hq

theorem hold (h : Inv s) (x : Buf P) (htask : s.task p = .user) (hlock : (s.buf b).lock = some p)
    (hx : x.lock = some p ∧ x.refcnt = (s.buf b).refcnt ∧ x.key = (s.buf b).key ∧
      x.valid = (s.buf b).valid) : Inv (s.setBuf b x) := by
  have hb := h.buf b
  have hne : s.task p ≠ .waiting b := by rw [htask]; simp
  have hqueue := hb.not_queued hlock hne
  have hvalid := hb.held p hlock hne
  obtain ⟨hxlock, hxrefcnt, hxkey, hxvalid⟩ := hx
  have hsame : (s.setBuf b x).setTask p .user = s.setBuf b x := by
    rw [State.setTask, ← htask]
    change ({ s.setBuf b x with task := Function.update s.task p (s.task p) } : State P) = _
    rw [Function.update_eq_self]
    rfl
  have htasks : Function.update s.task p .user = s.task := by
    rw [← htask, Function.update_eq_self]
  rw [← hsame]
  refine h.setBuf b _ p _ (fun c hc => by rw [htask] at hc; cases hc) (fun c hc => by cases hc) ?_
    (by rw [hxkey]; exact h.unique_of_key) fun hq => absurd hq hqueue
  rw [htasks]
  refine ⟨?_, fun q hq => ?_, fun hq => absurd hq hqueue, fun _ => hxvalid.trans hvalid,
    fun _ _ _ => hxvalid.trans hvalid, fun _ => ?_, fun _ _ hnone => ?_⟩
  · rw [hxrefcnt, hxlock, hb.refs, hlock]
  · rw [hxlock, ← hlock]
    exact hb.waiting q hq
  · rw [hxkey]
    exact hb.known (Or.inr hvalid)
  · rw [hxlock] at hnone
    cases hnone

theorem brelse (h : Inv s) (htask : s.task p = .user) (hlock : (s.buf b).lock = some p)
    (hproper : (s.buf b).dirty = true ∨ (s.buf b).data = s.disk (s.buf b).key) :
    Inv ((s.setBuf b { s.buf b with lock := none }).setTask p (.releasing b)) := by
  have hb := h.buf b
  have hne : s.task p ≠ .waiting b := by rw [htask]; simp
  have hqueue := hb.not_queued hlock hne
  have hwaiting := BufInv.waiting_update s.task b hne (by simp : Task.releasing b ≠ .waiting b)
  have hcount := count_update (Task.uses b) s.task p (.releasing b)
  rw [htask] at hcount
  refine h.setBuf b _ p _ (fun c hc => by rw [htask] at hc; cases hc) (fun c hc => by cases hc; rfl)
    ⟨?_, fun q hq => ?_, fun hq => absurd hq hqueue, hb.dirty, fun q hq => (by cases hq), hb.known,
      fun _ hclean _ => ?_⟩ h.unique_of_key fun hq => absurd hq hqueue
  · have hrefs := hb.refs
    rw [hlock] at hrefs
    simp [Task.uses] at hcount hrefs
    simp only [Option.toList_none, List.length_nil]
    omega
  · have hq' := (hwaiting q).mp hq
    have heq := hb.waiting q hq'
    rw [hlock] at heq
    rw [← Option.some.inj heq] at hq'
    exact absurd hq' hne
  · rcases hproper with hdirty | hdata
    · rw [hdirty] at hclean
      cases hclean
    · exact hdata

omit [DecidableEq P] in
/-- The first write in the queue goes to a block that no other buffer has. -/
theorem write_disk (h : Inv s) (hdirty : (s.buf b).valid = true) (hc : c ≠ b) (data : Data) :
    Function.update s.disk (sector (s.buf b).key) data (s.buf c).key = s.disk (s.buf c).key := by
  have hok := (h.buf b).known (Or.inr hdirty)
  rw [hok.sector]
  exact Function.update_of_ne (h.unique_of_key hok c hc) ..

theorem request (h : Inv s) (x : Buf P) (hself : s'.buf b = x)
    (hbuf : ∀ c, c ≠ b → s'.buf c = s.buf c)
    (htask : s'.task = Function.update s.task p (.waiting b))
    (hqueue : s'.idequeue = s.idequeue ++ [b])
    (hdisk : s'.disk = if s.idequeue = [] ∧ x.dirty = true then
      Function.update s.disk (sector x.key) x.data else s.disk)
    (hold : ∀ c, (s.task p).buf = some c → c = b) (hnot : ∀ q, s.task q ≠ .waiting b)
    (hrefs : x.refcnt + (Task.uses b (s.task p)).toNat = 1 + count (Task.uses b) s.task)
    (hx : x.lock = some p ∧ x.key = (s.buf b).key ∧ x.valid = (s.buf b).valid ∧
      x.dirty = x.valid ∧ x.refcnt = (s.buf b).refcnt) : Inv s' := by
  obtain ⟨hlock, hkey, hvalid, hdirty, hrefcnt⟩ := hx
  have hb := h.buf b
  have hfresh : b ∉ s.idequeue := fun hq => by
    obtain ⟨q, hwaits⟩ := (hb.queued hq).1
    exact hnot q hwaits
  have hcount : count (Task.uses b) (Function.update s.task p (.waiting b)) +
      (Task.uses b (s.task p)).toNat = count (Task.uses b) s.task + 0 :=
    count_update (Task.uses b) s.task p (.waiting b)
  refine h.change b x p (.waiting b) hself hbuf htask hold (fun c hc => by cases hc; rfl)
    (fun c hc hmem => ?_) (fun c hc _ _ => ?_)
    ⟨?_, fun q hq => ?_, fun _ => ⟨⟨p, Function.update_self ..⟩, hdirty.trans⟩, hdirty.symm.trans,
      fun q hq hne => ?_, fun hknown => ?_, fun _ _ hnone => ?_⟩
    (by rw [hkey]; exact h.unique_of_key) ?_ fun c queue hc hcdirty => ?_
  · rw [hqueue, List.mem_append, List.mem_singleton] at hmem
    exact hmem.resolve_right hc
  · rw [hdisk]
    split
    · next hsent =>
        rw [hkey]
        exact h.write_disk (hvalid.symm.trans (hdirty.symm.trans hsent.2)) hc _
    · rfl
  · rw [hlock, Option.toList_some, List.length_singleton]
    omega
  · by_cases hqp : q = p
    · rw [hqp, hlock]
    · rw [Function.update_of_ne hqp] at hq
      exact absurd hq (hnot q)
  · rw [hlock] at hq
    rw [← Option.some.inj hq] at hne
    exact absurd (Function.update_self ..) hne
  · rw [hkey]
    rw [hrefcnt, hvalid] at hknown
    exact hb.known hknown
  · rw [hlock] at hnone
    cases hnone
  · rw [hqueue]
    exact h.nodup.append (List.nodup_singleton b) (by simpa using hfresh)
  · rw [hqueue] at hc
    cases hempty : s.idequeue with
    | nil =>
        rw [hempty] at hc
        cases hc
        rw [hself] at hcdirty ⊢
        rw [hdisk, if_pos ⟨hempty, hcdirty⟩, hkey]
        have hok := hb.known (Or.inr (hvalid.symm.trans (hdirty.symm.trans hcdirty)))
        rw [hok.sector, Function.update_self]
    | cons d rest =>
        rw [hempty] at hc
        cases hc
        have hcb : c ≠ b := by
          rintro rfl
          exact hfresh (by rw [hempty]; exact List.mem_cons_self)
        rw [hbuf c hcb] at hcdirty ⊢
        rw [hdisk, if_neg fun hnil => by rw [hempty] at hnil; cases hnil.1]
        exact h.sent c rest hempty hcdirty

theorem fetch (h : Inv s) (htask : s.task p = .locking b) (hfree : (s.buf b).lock = none)
    (hvalid : (s.buf b).valid = false) :
    Inv (((s.setBuf b { s.buf b with lock := some p }).setTask p .user).enqueue p b) := by
  have hb := h.buf b
  have hclean : (s.buf b).dirty = false := by
    by_contra hdirty
    rw [hb.dirty (by simpa using hdirty)] at hvalid
    cases hvalid
  refine h.request (p := p) (b := b) { s.buf b with lock := some p } ?_ (fun c hc => ?_) ?_ ?_ ?_
    (fun c hc => by rw [htask] at hc; cases hc; rfl) (fun q hq => ?_) ?_
    ⟨rfl, rfl, rfl, hclean.trans hvalid.symm, rfl⟩
  · rw [State.enqueue_buf]
    exact State.setBuf_self s b _
  · rw [State.enqueue_buf]
    exact State.setBuf_of_ne s _ hc
  · rw [State.enqueue_task]
    exact Function.update_idem ..
  · rw [State.enqueue_idequeue]
    rfl
  · rw [State.enqueue_disk]
    simp [State.setTask, State.setBuf, hclean]
  · rw [hb.waiting q hq] at hfree
    cases hfree
  · have hrefs := hb.refs
    rw [hfree] at hrefs
    rw [htask]
    simp [Task.uses] at hrefs ⊢
    omega

theorem bwrite (h : Inv s) (htask : s.task p = .user) (hlock : (s.buf b).lock = some p) :
    Inv ((s.setBuf b { s.buf b with dirty := true }).enqueue p b) := by
  have hb := h.buf b
  have hne : s.task p ≠ .waiting b := by rw [htask]; simp
  have hvalid := hb.held p hlock hne
  refine h.request (p := p) (b := b) { s.buf b with dirty := true } ?_ (fun c hc => ?_) ?_ ?_ ?_
    (fun c hc => by rw [htask] at hc; cases hc) (fun q hq => ?_) ?_
    ⟨hlock, rfl, rfl, hvalid.symm, rfl⟩
  · rw [State.enqueue_buf]
    exact State.setBuf_self s b _
  · rw [State.enqueue_buf]
    exact State.setBuf_of_ne s _ hc
  · rw [State.enqueue_task]
    rfl
  · rw [State.enqueue_idequeue]
    rfl
  · rw [State.enqueue_disk]
    simp [State.setBuf]
  · have heq := hb.waiting q hq
    rw [hlock] at heq
    rw [← Option.some.inj heq] at hq
    exact hne hq
  · have hrefs := hb.refs
    rw [hlock] at hrefs
    rw [htask]
    simp [Task.uses] at hrefs ⊢
    omega

omit [DecidableEq P] in
theorem locked_of_queued (h : Inv s) (hq : b ∈ s.idequeue) :
    ∃ p, s.task p = .waiting b ∧ (s.buf b).lock = some p := by
  obtain ⟨p, hp⟩ := ((h.buf b).queued hq).1
  exact ⟨p, hp, (h.buf b).waiting p hp⟩

omit [DecidableEq P] in
/-- When the next request is started, only the block of a locked buffer changes on the disks. -/
theorem sentDisk_of_ne (h : Inv s) (hqueue : s.idequeue = b :: queue) (x : Buf P)
    (hc : (s.buf c).lock = none) :
    (({ s with idequeue := queue } : State P).setBuf b x).sentDisk (s.buf c).key =
      s.disk (s.buf c).key := by
  cases queue with
  | nil => rw [State.sentDisk_nil rfl]; rfl
  | cons d rest =>
      have hnodup := h.nodup
      rw [hqueue, List.nodup_cons] at hnodup
      have hdb : d ≠ b := fun heq => hnodup.1 (by rw [heq]; exact List.mem_cons_self)
      have hdq : d ∈ s.idequeue := by
        rw [hqueue]
        exact List.mem_cons_of_mem _ List.mem_cons_self
      have hbuf : (({ s with idequeue := d :: rest } : State P).setBuf b x).buf d = s.buf d :=
        State.setBuf_of_ne _ x hdb
      have hcd : c ≠ d := by
        rintro rfl
        obtain ⟨p, -, hlock⟩ := h.locked_of_queued hdq
        rw [hlock] at hc
        cases hc
      rw [State.sentDisk_cons rfl, hbuf]
      split
      · next hdirty => exact h.write_disk ((h.buf d).dirty hdirty) hcd _
      · rfl

theorem answer (h : Inv s) (hqueue : s.idequeue = b :: queue) (x : Buf P)
    (hx : x.lock = (s.buf b).lock ∧ x.key = (s.buf b).key ∧ x.refcnt = (s.buf b).refcnt ∧
      x.valid = true ∧ x.dirty = false) :
    Inv (({ s with idequeue := queue } : State P).setBuf b x).sent := by
  obtain ⟨hlock, hkey, hrefcnt, hvalid, hclean⟩ := hx
  have hb := h.buf b
  obtain ⟨p, hp, hp'⟩ := h.locked_of_queued (b := b) (by rw [hqueue]; exact List.mem_cons_self)
  have hnodup := h.nodup
  rw [hqueue, List.nodup_cons] at hnodup
  have htask : Function.update s.task p (.waiting b) = s.task := by
    rw [← hp, Function.update_eq_self]
  refine h.change b x p (.waiting b) (State.setBuf_self _ b x)
    (fun c hc => State.setBuf_of_ne _ x hc) htask.symm
    (fun c hc => by rw [hp] at hc; cases hc; rfl) (fun c hc => by cases hc; rfl)
    (fun c _ hc => by rw [hqueue]; exact List.mem_cons_of_mem _ hc)
    (fun c _ _ hc => h.sentDisk_of_ne hqueue x hc) ?_ (by rw [hkey]; exact h.unique_of_key)
    hnodup.2 fun c rest hc hdirty => ?_
  · rw [htask]
    refine ⟨?_, fun q hq => hlock.trans (hb.waiting q hq), fun hq => absurd hq hnodup.1,
      fun _ => hvalid, fun _ _ _ => hvalid, fun _ => ?_, fun _ _ hnone => ?_⟩
    · rw [hrefcnt, hlock, hb.refs]
    · rw [hkey]
      exact hb.known (Or.inl (hb.refcnt_ne_zero_of_lock hp'))
    · rw [hlock, hp'] at hnone
      cases hnone
  · obtain rfl : queue = c :: rest := hc
    have hcb : c ≠ b := fun heq => hnodup.1 (by rw [heq]; exact List.mem_cons_self)
    have hbuf : ((({ s with idequeue := c :: rest } : State P).setBuf b x).sent).buf c = s.buf c :=
      State.setBuf_of_ne _ x hcb
    rw [hbuf] at hdirty ⊢
    have hok := (h.buf c).known (Or.inr ((h.buf c).dirty hdirty))
    rw [State.sent]
    dsimp only
    have hbuf' : (({ s with idequeue := c :: rest } : State P).setBuf b x).buf c = s.buf c := hbuf
    rw [State.sentDisk_cons rfl, hbuf', if_pos hdirty, hok.sector, Function.update_self]

theorem effect (h : Inv s) (heffect : Effect s e s') (hproper : Proper s e)
    (hmiss : ∀ k, s.cached k = none → ∀ b, (s.buf b).key ≠ k) : Inv s' := by
  cases heffect with
  | hit p k b htask hcached =>
      have hkey : (s.buf b).key = k := by simpa using Lib.Dlist.search_some hcached
      exact h.hit htask (hkey ▸ hproper)
  | recycle p k b htask hnone hunused =>
      have hfree : (s.buf b).refcnt = 0 ∧ (s.buf b).dirty = false := by
        simpa using Lib.Dlist.search_some hunused
      exact h.recycle htask hproper (hmiss k hnone) hfree.1
  | take p b htask hfree hvalid => exact h.take htask hfree hvalid
  | fetch p b htask hfree hvalid => exact h.fetch htask hfree hvalid
  | done p b htask hvalid hclean => exact h.done htask hvalid hclean
  | unref p b htask => exact h.unref htask
  | write p b data htask hlock => exact h.hold _ htask hlock ⟨hlock, rfl, rfl, rfl⟩
  | logWrite p b htask hlock => exact h.hold _ htask hlock ⟨hlock, rfl, rfl, rfl⟩
  | bwrite p b htask hlock => exact h.bwrite htask hlock
  | brelse p b htask hlock => exact h.brelse htask hlock hproper
  | spurious failed hqueue => exact h
  | written failed b queue hqueue hdirty => exact h.answer hqueue _ ⟨rfl, rfl, rfl, rfl, rfl⟩
  | unread b queue hqueue hclean => exact h.answer hqueue _ ⟨rfl, rfl, rfl, rfl, rfl⟩
  | fetched b queue hqueue hclean => exact h.answer hqueue _ ⟨rfl, rfl, rfl, rfl, rfl⟩

theorem init (hinit : (bio P disk).init s) : Inv s := by
  obtain ⟨-, hbuf, hqueue, htask⟩ := hinit
  have hcount (b : BufNo) : count (Task.uses b) s.task = 0 := by
    rw [Lib.Pthread.Program.count_eq_zero]
    intro p
    rw [htask p]
    rfl
  refine ⟨fun b => ?_, fun b c _ hok => ?_, ?_, fun b queue hb => ?_⟩
  · obtain ⟨data, hb⟩ := hbuf b
    rw [hb]
    refine ⟨by rw [hcount]; rfl, fun p hp => ?_, fun hq => ?_, fun hdirty => ?_, fun p hp => ?_,
      fun hknown => ?_, fun hvalid => ?_⟩
    · rw [htask p] at hp
      cases hp
    · rw [hqueue] at hq
      cases hq
    · cases hdirty
    · cases hp
    · simp at hknown
    · cases hvalid
  · obtain ⟨data, hb⟩ := hbuf b
    rw [hb] at hok
    exact absurd rfl hok.2
  · rw [hqueue]
    exact List.nodup_nil
  · rw [hqueue] at hb
    cases hb

end Inv

end Os20.Bio
