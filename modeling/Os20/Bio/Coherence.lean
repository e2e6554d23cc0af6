import Os20.Bio.Recency
import Os20.Bio.References
import Os20.Lib.Store

/-!
# The cache is a store of blocks

To its callers the cache is a store with a lock for each block: `bread` locks a block and shows
its value, `brelse` unlocks it, and neither the recycling of buffers nor the order of the disk
requests can be seen.
-/

namespace Os20.Bio

open Os20.Lib.Refinement
open Os20.Lib.Store (Act store)
open Os20.Lib.Transition

variable {P : Type*} [DecidableEq P] [Fintype P] {s s' : State P} {p : P} {k : Key}
  {b c : BufNo} {e : Event P} {t : Lib.Store.State P Key Data} {disk : Key → Data}

def view (s : State P) : Event P → List (Act P Key Data)
  | .step p =>
      match s.task p with
      | .locking b =>
          if (s.buf b).valid then [.lock p (s.buf b).key, .read p (s.buf b).key (s.buf b).data]
          else [.lock p (s.buf b).key]
      | .waiting b => [.read p (s.buf b).key (s.buf b).data]
      | .user | .releasing _ => []
  | .write p b data => [.write p (s.buf b).key data]
  | .brelse p b => [.unlock p (s.buf b).key]
  | .bread _ _ | .logWrite _ _ | .bwrite _ _ | .ideintr _ => []

/-- A block has the value of its buffer, or else that on the disk. -/
structure Agrees (s : State P) (t : Lib.Store.State P Key Data) : Prop where
  cached : ∀ b, (s.buf b).valid = true → t.value (s.buf b).key = (s.buf b).data
  onDisk : ∀ k, KeyOk k → (∀ b, (s.buf b).valid = true → (s.buf b).key ≠ k) →
    t.value k = s.disk k
  holder : ∀ k, KeyOk k → ∀ p, t.holder k = some p ↔
    ∃ b, (s.buf b).key = k ∧ (s.buf b).lock = some p

namespace Agrees

omit [DecidableEq P] [Fintype P] in
theorem of_same (h : Agrees s t) (hbuf : ∀ c, (s'.buf c).key = (s.buf c).key ∧
      (s'.buf c).valid = (s.buf c).valid ∧ (s'.buf c).data = (s.buf c).data ∧
      (s'.buf c).lock = (s.buf c).lock)
    (hdisk : ∀ k, KeyOk k → (∀ c, (s.buf c).valid = true → (s.buf c).key ≠ k) →
      s'.disk k = s.disk k) : Agrees s' t := by
  refine ⟨fun b hvalid => ?_, fun k hok hnone => ?_, fun k hok p => ?_⟩
  · obtain ⟨hkey, hvalid', hdata, -⟩ := hbuf b
    rw [hkey, hdata]
    exact h.cached b (hvalid'.symm.trans hvalid)
  · have hnone' : ∀ c, (s.buf c).valid = true → (s.buf c).key ≠ k := by
      intro c hc
      obtain ⟨hkey, hvalid', -⟩ := hbuf c
      rw [← hkey]
      exact hnone c (hvalid'.trans hc)
    rw [hdisk k hok hnone']
    exact h.onDisk k hok hnone'
  · rw [h.holder k hok p]
    simp only [fun c => (hbuf c).1, fun c => (hbuf c).2.2.2]

omit [DecidableEq P] [Fintype P] in
theorem setBuf (h : Agrees s t) {x : Buf P} (hself : s'.buf b = x)
    (hother : ∀ c, c ≠ b → s'.buf c = s.buf c) (hx : x.key = (s.buf b).key ∧
      x.valid = (s.buf b).valid ∧ x.data = (s.buf b).data ∧ x.lock = (s.buf b).lock)
    (hdisk : ∀ k, KeyOk k → (∀ c, (s.buf c).valid = true → (s.buf c).key ≠ k) →
      s'.disk k = s.disk k) : Agrees s' t := by
  refine h.of_same (fun c => ?_) hdisk
  by_cases hc : c = b
  · rw [hc, hself]
    exact hx
  · rw [hother c hc]
    exact ⟨rfl, rfl, rfl, rfl⟩

omit [DecidableEq P] in
theorem setLock (h : Agrees s t) (hinv : Inv s) (l : Option P) (hok : KeyOk (s.buf b).key)
    (hself : s'.buf b = { s.buf b with lock := l }) (hother : ∀ c, c ≠ b → s'.buf c = s.buf c)
    (hdisk : s'.disk = s.disk) :
    Agrees s' { t with holder := Function.update t.holder (s.buf b).key l } := by
  have hsame (c : BufNo) : (s'.buf c).key = (s.buf c).key ∧
      (s'.buf c).valid = (s.buf c).valid ∧ (s'.buf c).data = (s.buf c).data := by
    by_cases hc : c = b
    · rw [hc, hself]
      exact ⟨rfl, rfl, rfl⟩
    · rw [hother c hc]
      exact ⟨rfl, rfl, rfl⟩
  refine ⟨fun c hvalid => ?_, fun k hk hnone => ?_, fun k hk q => ?_⟩
  · obtain ⟨hkey, hvalid', hdata⟩ := hsame c
    rw [hkey, hdata]
    exact h.cached c (hvalid'.symm.trans hvalid)
  · rw [hdisk]
    refine h.onDisk k hk fun c hc => ?_
    obtain ⟨hkey, hvalid', -⟩ := hsame c
    rw [← hkey]
    exact hnone c (hvalid'.trans hc)
  · dsimp only
    by_cases hkb : k = (s.buf b).key
    · rw [hkb, Function.update_self]
      constructor
      · intro hl
        exact ⟨b, (hsame b).1, by rw [hself]; exact hl⟩
      · rintro ⟨c, hkey, hlock⟩
        rw [(hsame c).1] at hkey
        obtain rfl : b = c := hinv.unique b c hkey.symm hok
        rw [hself] at hlock
        exact hlock
    · rw [Function.update_of_ne hkb, h.holder k hk q]
      constructor
      · rintro ⟨c, hkey, hlock⟩
        have hc : c ≠ b := fun heq => hkb (by rw [← hkey, heq])
        exact ⟨c, by rw [hother c hc]; exact hkey, by rw [hother c hc]; exact hlock⟩
      · rintro ⟨c, hkey, hlock⟩
        have hc : c ≠ b := by
          rintro rfl
          exact hkb (hkey.symm.trans (hsame c).1)
        rw [hother c hc] at hkey hlock
        exact ⟨c, hkey, hlock⟩

omit [DecidableEq P] in
theorem holder_eq_none (h : Agrees s t) (hinv : Inv s) (hok : KeyOk (s.buf b).key)
    (hfree : (s.buf b).lock = none) : t.holder (s.buf b).key = none := by
  cases hq : t.holder (s.buf b).key with
  | none => rfl
  | some q =>
      obtain ⟨c, hkey, hlock⟩ := (h.holder _ hok q).mp hq
      obtain rfl : b = c := hinv.unique b c hkey.symm hok
      rw [hfree] at hlock
      cases hlock

omit [DecidableEq P] in
theorem write (h : Agrees s t) (hinv : Inv s) (hvalid : (s.buf b).valid = true) (data : Data) :
    Agrees (s.setBuf b { s.buf b with data := data })
      { t with value := Function.update t.value (s.buf b).key data } := by
  have hok := (hinv.buf b).known (Or.inr hvalid)
  have hself := State.setBuf_self s b { s.buf b with data := data }
  refine ⟨fun c hc => ?_, fun k hk hnone => ?_, fun k hk q => ?_⟩
  · by_cases hcb : c = b
    · rw [hcb, hself]
      exact Function.update_self ..
    · rw [State.setBuf_of_ne s _ hcb] at hc ⊢
      dsimp only
      rw [Function.update_of_ne (hinv.unique_of_key hok c hcb)]
      exact h.cached c hc
  · have hkb : k ≠ (s.buf b).key := by
      rintro rfl
      exact hnone b (by rw [hself]; exact hvalid) (by rw [hself])
    dsimp only
    rw [Function.update_of_ne hkb]
    refine h.onDisk k hk fun c hc => ?_
    by_cases hcb : c = b
    · rw [hcb]
      exact Ne.symm hkb
    · have hnot := hnone c
      rw [State.setBuf_of_ne s _ hcb] at hnot
      exact hnot hc
  · have hsame (c : BufNo) : ((s.setBuf b { s.buf b with data := data }).buf c).key =
        (s.buf c).key ∧
        ((s.setBuf b { s.buf b with data := data }).buf c).lock = (s.buf c).lock := by
      by_cases hcb : c = b
      · rw [hcb, hself]
        exact ⟨rfl, rfl⟩
      · rw [State.setBuf_of_ne s _ hcb]
        exact ⟨rfl, rfl⟩
    simp only [fun c => (hsame c).1, fun c => (hsame c).2]
    exact h.holder k hk q

omit [DecidableEq P] in
/-- The block that loses its buffer is on the disk. -/
theorem recycle (h : Agrees s t) (hinv : Inv s) (hzero : (s.buf b).refcnt = 0)
    (hclean : (s.buf b).dirty = false) {x : Buf P} (hself : s'.buf b = x)
    (hother : ∀ c, c ≠ b → s'.buf c = s.buf c) (hx : x.valid = false ∧ x.lock = none)
    (hdisk : s'.disk = s.disk) : Agrees s' t := by
  obtain ⟨hfree, -⟩ := (hinv.buf b).of_refcnt_zero hzero
  refine ⟨fun c hc => ?_, fun k hk hnone => ?_, fun k hk q => ?_⟩
  · have hcb : c ≠ b := by
      rintro rfl
      rw [hself, hx.1] at hc
      cases hc
    rw [hother c hcb] at hc ⊢
    exact h.cached c hc
  · rw [hdisk]
    by_cases hkb : (s.buf b).valid = true ∧ (s.buf b).key = k
    · rw [← hkb.2, h.cached b hkb.1]
      exact (hinv.buf b).clean hkb.1 hclean hfree
    · refine h.onDisk k hk fun c hc => ?_
      by_cases hcb : c = b
      · rw [hcb] at hc ⊢
        exact fun hkey => hkb ⟨hc, hkey⟩
      · have hnot := hnone c
        rw [hother c hcb] at hnot
        exact hnot hc
  · rw [h.holder k hk q]
    constructor
    · rintro ⟨c, hkey, hlock⟩
      have hcb : c ≠ b := by
        rintro rfl
        rw [hfree] at hlock
        cases hlock
      exact ⟨c, by rw [hother c hcb]; exact hkey, by rw [hother c hcb]; exact hlock⟩
    · rintro ⟨c, hkey, hlock⟩
      have hcb : c ≠ b := by
        rintro rfl
        rw [hself, hx.2] at hlock
        cases hlock
      rw [hother c hcb] at hkey hlock
      exact ⟨c, hkey, hlock⟩

omit [DecidableEq P] in
theorem sentDisk_eq (hinv : Inv s) {queue : List BufNo} (hqueue : s.idequeue = b :: queue)
    (x : Buf P) (hnone : ∀ c, (s.buf c).valid = true → (s.buf c).key ≠ k) :
    (({ s with idequeue := queue } : State P).setBuf b x).sentDisk k = s.disk k := by
  cases queue with
  | nil => rw [State.sentDisk_nil rfl]; rfl
  | cons d rest =>
      have hnodup := hinv.nodup
      rw [hqueue, List.nodup_cons] at hnodup
      have hdb : d ≠ b := fun heq => hnodup.1 (by rw [heq]; exact List.mem_cons_self)
      have hbuf : (({ s with idequeue := d :: rest } : State P).setBuf b x).buf d = s.buf d :=
        State.setBuf_of_ne _ x hdb
      rw [State.sentDisk_cons rfl, hbuf]
      split
      · next hdirty =>
          have hvalid := (hinv.buf d).dirty hdirty
          have hok := (hinv.buf d).known (Or.inr hvalid)
          rw [hok.sector]
          exact Function.update_of_ne (Ne.symm (hnone d hvalid)) ..
      · rfl

omit [DecidableEq P] in
theorem fetched (h : Agrees s t) (hinv : Inv s) {queue : List BufNo}
    (hqueue : s.idequeue = b :: queue) (hclean : (s.buf b).dirty = false) {x : Buf P}
    (hx : x.key = (s.buf b).key ∧ x.lock = (s.buf b).lock ∧
      x.data = s.disk (sector (s.buf b).key)) :
    Agrees (({ s with idequeue := queue } : State P).setBuf b x).sent t := by
  have hb := hinv.buf b
  have hq : b ∈ s.idequeue := by
    rw [hqueue]
    exact List.mem_cons_self
  obtain ⟨p, -, hlock⟩ := hinv.locked_of_queued hq
  have hok := hb.known (Or.inl (hb.refcnt_ne_zero_of_lock hlock))
  have hinvalid (hvalid : (s.buf b).valid = true) : False := by
    rw [(hb.queued hq).2 hvalid] at hclean
    cases hclean
  have hself : ((({ s with idequeue := queue } : State P).setBuf b x).sent).buf b = x :=
    State.setBuf_self _ b x
  have hother (c : BufNo) (hc : c ≠ b) :
      ((({ s with idequeue := queue } : State P).setBuf b x).sent).buf c = s.buf c :=
    State.setBuf_of_ne _ x hc
  have hfresh : ∀ c, (s.buf c).valid = true → (s.buf c).key ≠ (s.buf b).key := by
    intro c hc hkey
    obtain rfl : b = c := hinv.unique b c hkey.symm hok
    exact hinvalid hc
  refine ⟨fun c hc => ?_, fun k hk hnone => ?_, fun k hk q => ?_⟩
  · by_cases hcb : c = b
    · rw [hcb, hself, hx.1, hx.2.2, hok.sector]
      exact h.onDisk _ hok hfresh
    · rw [hother c hcb] at hc ⊢
      exact h.cached c hc
  · have hnone' : ∀ c, (s.buf c).valid = true → (s.buf c).key ≠ k := by
      intro c hc
      have hcb : c ≠ b := fun heq => hinvalid (heq ▸ hc)
      have hnot := hnone c
      rw [hother c hcb] at hnot
      exact hnot hc
    rw [State.sent]
    dsimp only
    rw [sentDisk_eq hinv hqueue x hnone']
    exact h.onDisk k hk hnone'
  · have hsame (c : BufNo) :
        (((({ s with idequeue := queue } : State P).setBuf b x).sent).buf c).key = (s.buf c).key ∧
        (((({ s with idequeue := queue } : State P).setBuf b x).sent).buf c).lock =
          (s.buf c).lock := by
      by_cases hcb : c = b
      · rw [hcb, hself]
        exact ⟨hx.1, hx.2.1⟩
      · rw [hother c hcb]
        exact ⟨rfl, rfl⟩
    simp only [fun c => (hsame c).1, fun c => (hsame c).2]
    exact h.holder k hk q

/-! ## Steps -/

theorem run_read (h : Agrees s t) (hinv : Inv s) (disk : Key → Data)
    (hlock : (s.buf b).lock = some p) (hvalid : (s.buf b).valid = true) :
    (store P disk).run t [.read p (s.buf b).key (s.buf b).data] = some t := by
  have hok := (hinv.buf b).known (Or.inr hvalid)
  have hholder := (h.holder _ hok p).mpr ⟨b, rfl, hlock⟩
  have hvalue := h.cached b hvalid
  simp [System.run, store, Lib.Store.next, hholder, hvalue]

theorem effect (h : Agrees s t) (hinv : Inv s) (heffect : Effect s e s') (disk : Key → Data)
    (hproper : Proper s e) :
    ∃ t', (store P disk).run t (view s e) = some t' ∧ Agrees s' t' := by
  cases heffect with
  | hit p k b htask hcached =>
      exact ⟨t, rfl, h.setBuf (State.setBuf_self s b _)
        (fun c hc => State.setBuf_of_ne s _ hc) ⟨rfl, rfl, rfl, rfl⟩ fun _ _ _ => rfl⟩
  | recycle p k b htask hmiss hunused =>
      have hfree : (s.buf b).refcnt = 0 ∧ (s.buf b).dirty = false := by
        simpa using Lib.Dlist.search_some hunused
      exact ⟨t, rfl, h.recycle hinv hfree.1 hfree.2 (State.setBuf_self s b _)
        (fun c hc => State.setBuf_of_ne s _ hc)
        ⟨rfl, ((hinv.buf b).of_refcnt_zero hfree.1).1⟩ rfl⟩
  | take p b htask hfree hvalid =>
      have hok := (hinv.buf b).known (Or.inr hvalid)
      have hnone := h.holder_eq_none hinv hok hfree
      refine ⟨_, ?_, h.setLock hinv (some p) hok (State.setBuf_self s b _)
        (fun c hc => State.setBuf_of_ne s _ hc) rfl⟩
      have hvalue := h.cached b hvalid
      simp [view, htask, hvalid, System.run, store, Lib.Store.next, hnone, hvalue]
  | fetch p b htask hfree hvalid =>
      have huses : (s.task p).uses b = true := by
        rw [htask]
        simp [Task.uses]
      have hok := (hinv.buf b).known (Or.inl ((hinv.buf b).refcnt_ne_zero_of_uses huses))
      have hnone := h.holder_eq_none hinv hok hfree
      have hclean : (s.buf b).dirty = false := by
        by_contra hdirty
        rw [(hinv.buf b).dirty (by simpa using hdirty)] at hvalid
        cases hvalid
      refine ⟨_, ?_, h.setLock hinv (some p) hok ?_ (fun c hc => ?_) ?_⟩
      · simp [view, htask, hvalid, System.run, store, Lib.Store.next, hnone]
      · rw [State.enqueue_buf]
        exact State.setBuf_self s b _
      · rw [State.enqueue_buf]
        exact State.setBuf_of_ne s _ hc
      · rw [State.enqueue_disk]
        simp [State.setTask, State.setBuf, hclean]
  | done p b htask hvalid hclean =>
      have hlock := (hinv.buf b).waiting p htask
      refine ⟨t, ?_, h.of_same (fun c => ⟨rfl, rfl, rfl, rfl⟩) fun _ _ _ => rfl⟩
      have hview : view s (.step p) = [.read p (s.buf b).key (s.buf b).data] := by
        simp [view, htask]
      rw [hview]
      exact h.run_read hinv disk hlock hvalid
  | unref p b htask =>
      have hview : view s (.step p) = [] := by simp [view, htask]
      rw [hview]
      refine ⟨t, rfl, ?_⟩
      unfold State.unref
      dsimp only
      split
      · exact h.setBuf (State.setBuf_self s b _)
          (fun c hc => State.setBuf_of_ne s _ hc) ⟨rfl, rfl, rfl, rfl⟩ fun _ _ _ => rfl
      · exact h.setBuf (State.setBuf_self s b _)
          (fun c hc => State.setBuf_of_ne s _ hc) ⟨rfl, rfl, rfl, rfl⟩ fun _ _ _ => rfl
  | write p b data htask hlock =>
      have hvalid := (hinv.buf b).held p hlock (by rw [htask]; simp)
      have hok := (hinv.buf b).known (Or.inr hvalid)
      have hholder := (h.holder _ hok p).mpr ⟨b, rfl, hlock⟩
      refine ⟨_, ?_, h.write hinv hvalid data⟩
      simp [view, System.run, store, Lib.Store.next, hholder]
  | logWrite p b htask hlock =>
      exact ⟨t, rfl, h.setBuf (State.setBuf_self s b _)
        (fun c hc => State.setBuf_of_ne s _ hc) ⟨rfl, rfl, rfl, rfl⟩ fun _ _ _ => rfl⟩
  | bwrite p b htask hlock =>
      have hvalid := (hinv.buf b).held p hlock (by rw [htask]; simp)
      have hok := (hinv.buf b).known (Or.inr hvalid)
      refine ⟨t, rfl, h.setBuf (b := b) (x := { s.buf b with dirty := true }) ?_ (fun c hc => ?_)
        ⟨rfl, rfl, rfl, rfl⟩ fun k hk hnone => ?_⟩
      · rw [State.enqueue_buf]
        exact State.setBuf_self s b _
      · rw [State.enqueue_buf]
        exact State.setBuf_of_ne s _ hc
      · rw [State.enqueue_disk, State.setBuf_self]
        split
        · rw [hok.sector]
          exact Function.update_of_ne (Ne.symm (hnone b hvalid)) ..
        · rfl
  | brelse p b htask hlock =>
      have hvalid := (hinv.buf b).held p hlock (by rw [htask]; simp)
      have hok := (hinv.buf b).known (Or.inr hvalid)
      have hholder := (h.holder _ hok p).mpr ⟨b, rfl, hlock⟩
      refine ⟨_, ?_, h.setLock hinv none hok (State.setBuf_self s b _)
        (fun c hc => State.setBuf_of_ne s _ hc) rfl⟩
      simp [view, System.run, store, Lib.Store.next, hholder]
  | spurious failed hqueue => exact ⟨t, rfl, h⟩
  | unread b queue hqueue hclean =>
      have hdirty := hproper rfl b (by rw [hqueue]; rfl)
      rw [hclean] at hdirty
      cases hdirty
  | written failed b queue hqueue hdirty =>
      exact ⟨t, rfl, h.setBuf (State.setBuf_self _ b _) (fun c hc => State.setBuf_of_ne _ _ hc)
        ⟨rfl, ((hinv.buf b).dirty hdirty).symm, rfl, rfl⟩
        fun k _ hnone => sentDisk_eq hinv hqueue _ hnone⟩
  | fetched b queue hqueue hclean =>
      exact ⟨t, rfl, h.fetched hinv hqueue hclean ⟨rfl, rfl, rfl⟩⟩

end Agrees

/-! ## Runs -/

/-- The cache refines the store. -/
theorem refines_store : Refines (bio P disk) Proper (store P disk) view
    fun s t => Inv s ∧ Agrees s t ∧ ∃ rel order, Sorted s rel order where
  init s hinit := by
    refine ⟨_, rfl, Inv.init hinit, ⟨fun b hvalid => ?_, fun _ _ _ => ?_, fun k _ p => ?_⟩,
      [], _, Sorted.init hinit⟩
    · obtain ⟨data, hb⟩ := hinit.2.1 b
      rw [hb] at hvalid
      cases hvalid
    · rw [hinit.1.2]
    · constructor
      · intro hnone
        cases hnone
      · rintro ⟨b, -, hlock⟩
        obtain ⟨data, hb⟩ := hinit.2.1 b
        rw [hb] at hlock
        cases hlock
  step s t e s' hR hproper hnext := by
    obtain ⟨hinv, hagrees, rel, order, hsorted⟩ := hR
    have heffect := next_effect hnext
    obtain ⟨t', hrun, hagrees'⟩ := hagrees.effect hinv heffect disk hproper
    have hone : (bio P disk).run s [e] = some s' := Option.bind_eq_some_iff.mpr ⟨s', hnext, rfl⟩
    obtain ⟨order', hsorted'⟩ := hsorted.run hone
    exact ⟨t', hrun, hinv.effect heffect hproper fun k hnone b => hsorted.miss hnone b, hagrees',
      _, order', hsorted'⟩

end Os20.Bio
