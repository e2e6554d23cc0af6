import Os20.Lib.Journal
import Os20.Lib.Refinement
import Os20.Log.Disk

/-!
# Operations are atomic across crashes

The machine of `log.c` refines a store with group commit.  The header of the log on disk decides
what survives a crash: `recover_from_log` brings back the contents of the last commit, however
often the machine crashes while it does so.
-/

namespace Os20.Log

open Os20.Lib.Transition
open Os20.Lib.Journal
open Os20.Lib.Refinement

variable {P : Type*} {g : Geometry} {budget : Nat} {s s' : State P} {t t' : Store P BlockNo Block}
  {A : Finset P} {p : P} {b : BlockNo} {data : Block} {tail : Nat}

/-! ## The loop of `install_trans` -/

/-- The header is on disk, and the first `tail` blocks of the log are installed. -/
structure Installing (g : Geometry) (s : State P) (stable : BlockNo → Block) (tail : Nat) :
    Prop where
  header : (s.disk g.start).header = s.lh
  installed : ∀ i b, i < tail → s.lh[i]? = some b → s.disk b = stable b
  dirty : ∀ b, s.Dirty b → b ∈ s.lh.drop tail

namespace Installing

variable {stable : BlockNo → Block}

theorem congr (h : Installing g s stable tail) (hdisk : s'.disk = s.disk)
    (hcache : s'.cache = s.cache) (hlh : s'.lh = s.lh) : Installing g s' stable tail where
  header := by rw [hdisk, hlh, h.header]
  installed := by
    rw [hdisk, hlh]
    exact h.installed
  dirty b hb := by
    simp only [State.Dirty, hcache] at hb
    rw [hlh]
    exact h.dirty b hb

theorem reads (h : Installing g s stable tail) (hreads : s.Reads s') :
    Installing g s' stable tail where
  header := by rw [hreads.disk, hreads.io.lh, h.header]
  installed i b hi hb := by
    rw [hreads.io.lh] at hb
    rw [hreads.disk]
    exact h.installed i b hi hb
  dirty b hb := by
    rw [hreads.io.lh]
    exact h.dirty b ((hreads.dirty b).mp hb)

theorem contents (h : Installing g s stable tail) (hrec : Recoverable g s.disk stable)
    (hclean : s.Clean) (hb : s.lh[tail]? = some b) :
    s.contents (g.logBlock tail) = stable b := by
  have hb' : (s.disk g.start).header[tail]? = some b := by rw [h.header, hb]
  have hnot : ¬s.Dirty (g.logBlock tail) := by
    intro hdirty
    have hmem := List.mem_of_mem_drop (h.dirty _ hdirty)
    rw [← h.header] at hmem
    exact hrec.home _ hmem (hrec.holds.inLog_logBlock (Recoverable.lt_length hb'))
  rw [hclean.contents hnot]
  exact hrec.logged tail b hb'

theorem wrote (h : Installing g s stable tail) (hrec : Recoverable g s.disk stable)
    (hb : s.lh[tail]? = some b) (hwrote : s.Wrote s' b (stable b)) :
    Recoverable g s'.disk stable ∧ Installing g s' stable (tail + 1) := by
  have hmem : b ∈ (s.disk g.start).header := by
    rw [h.header]
    exact List.mem_of_getElem? hb
  have hne : g.start ≠ b := by
    rintro rfl
    exact hrec.home _ hmem hrec.holds.inLog_start
  rw [hwrote.disk]
  refine ⟨hrec.install hmem, ?_, fun i x hi hx => ?_, fun x hx => ?_⟩
  · rw [hwrote.disk, hwrote.io.lh, Function.update_of_ne hne, h.header]
  · rw [hwrote.io.lh] at hx
    rw [hwrote.disk]
    by_cases hxb : x = b
    · rw [hxb, Function.update_self]
    · rw [Function.update_of_ne hxb]
      have hi' : i ≠ tail := by
        rintro rfl
        exact hxb (Option.some.inj (hx.symm.trans hb))
      exact h.installed i x (by omega) hx
  · obtain ⟨hxb, hdirty⟩ := (hwrote.dirty x).mp hx
    obtain ⟨hlt, hget⟩ := List.getElem?_eq_some_iff.mp hb
    have hdrop := h.dirty x hdirty
    rw [List.drop_eq_getElem_cons hlt, hget, List.mem_cons] at hdrop
    rw [hwrote.io.lh]
    exact hdrop.resolve_left hxb

theorem length (h : Installing g s stable tail) (hend : s.lh[tail]? = none) :
    Installing g s stable s.lh.length where
  header := h.header
  installed i b hi hb := by
    have hle := List.getElem?_eq_none_iff.mp hend
    exact h.installed i b (by omega) hb
  dirty b hb := by
    have hle := List.getElem?_eq_none_iff.mp hend
    have hmem := h.dirty b hb
    rw [List.drop_eq_nil_of_le hle] at hmem
    cases hmem

theorem clear (h : Installing g s stable s.lh.length) (hrec : Recoverable g s.disk stable)
    {block : Block}
    (hdisk : s'.disk = Function.update s.disk g.start (block.setHeader []))
    (hdirty : ∀ b, s'.Dirty b → s.Dirty b) :
    Recoverable g s'.disk stable ∧ (s'.disk g.start).header = [] ∧ ∀ b, ¬s'.Dirty b := by
  have hempty : g.Holds 0 := .zero hrec.holds.pos
  rw [hdisk]
  refine ⟨.setHeader hempty (by simp) (by simp) (fun b hb _ => ?_) _, ?_,
    fun b hb => ?_⟩
  · by_cases hmem : b ∈ s.lh
    · obtain ⟨i, hi⟩ := List.getElem?_of_mem hmem
      exact h.installed i b (List.getElem?_eq_some_iff.mp hi).1 hi
    · rw [← h.header] at hmem
      exact hrec.rest b hb hmem
  · rw [Function.update_self, header_setHeader _ (by simp)]
  · have hmem := h.dirty b (hdirty b hb)
    simp at hmem

end Installing

/-! ## The invariant -/

def AtCommit (g : Geometry) (s : State P) (t : Store P BlockNo Block) : Commit → Prop
  | .writeLog tail =>
      (s.disk g.start).header = [] ∧
        ∀ i b, i < tail → s.lh[i]? = some b → s.disk (g.logBlock i) = s.contents b
  | .writeHead =>
      (s.disk g.start).header = [] ∧
        ∀ i b, s.lh[i]? = some b → s.disk (g.logBlock i) = s.contents b
  | .installTrans tail => Installing g s t.stable tail ∧ t.current = t.stable
  | .clear => Installing g s t.stable s.lh.length ∧ t.current = t.stable
  | .done => (s.disk g.start).header = []

theorem AtCommit.congr {pc : Commit} (h : AtCommit g s t pc) (hdisk : s'.disk = s.disk)
    (hcache : s'.cache = s.cache) (hlh : s'.lh = s.lh) (hstable : t'.stable = t.stable)
    (hcurrent : t'.current = t.current) : AtCommit g s' t' pc := by
  have hcontents : s'.contents = s.contents := by
    funext b
    simp only [State.contents, hdisk, hcache]
  cases pc with
  | writeLog tail | writeHead =>
      unfold AtCommit at h ⊢
      rw [hdisk, hlh, hcontents]
      exact h
  | installTrans tail =>
      unfold AtCommit at h ⊢
      rw [hcurrent, hstable]
      exact ⟨h.1.congr hdisk hcache hlh, h.2⟩
  | clear =>
      unfold AtCommit at h ⊢
      rw [hcurrent, hlh, hstable]
      exact ⟨h.1.congr hdisk hcache hlh, h.2⟩
  | done =>
      unfold AtCommit at h ⊢
      rw [hdisk]
      exact h

def AtBoot (g : Geometry) (s : State P) (t : Store P BlockNo Block) : Recover → Prop
  | .readHead => s.lh = []
  | .installTrans tail => Installing g s t.stable tail
  | .clear => Installing g s t.stable s.lh.length

/-- The machine shows the store `t`: `current` in the buffer cache, `stable` on disk. -/
structure Shows (g : Geometry) (s : State P) (t : Store P BlockNo Block) : Prop where
  disk : Recoverable g s.disk t.stable
  clean : s.Clean
  dirty : ∀ b, s.Dirty b → b ∈ s.lh
  active : ∀ p, p ∈ t.active ↔ (s.task p).Active
  up : s.boot = none → ∀ b, ¬g.InLog b → s.contents b = t.current b
  down : s.boot ≠ none → t.current = t.stable
  quiet : s.boot = none → s.committing = false → (s.disk g.start).header = []
  holds : s.boot = none → g.Holds s.lh.length
  commit : ∀ p pc, s.task p = .commit pc → AtCommit g s t pc
  boot : ∀ pc, s.boot = some pc → AtBoot g s t pc

namespace Shows

theorem congr (h : Shows g s t) (hdisk : s'.disk = s.disk) (hcache : s'.cache = s.cache)
    (hlh : s'.lh = s.lh) (hboot : s'.boot = s.boot) (hstable : t'.stable = t.stable)
    (hcurrent : t'.current = t.current) (hactive : ∀ p, p ∈ t'.active ↔ (s'.task p).Active)
    (hquiet : s.boot = none → s'.committing = false → (s.disk g.start).header = [])
    (hcommit : ∀ p pc, s'.task p = .commit pc → AtCommit g s t pc) : Shows g s' t' := by
  have hcontents : s'.contents = s.contents := by
    funext b
    simp only [State.contents, hdisk, hcache]
  have hdirty (b : BlockNo) : s'.Dirty b ↔ s.Dirty b := by simp only [State.Dirty, hcache]
  refine ⟨?_, ?_, fun b hb => ?_, hactive, ?_, ?_, ?_, ?_, fun p pc hp => ?_, fun pc hpc => ?_⟩
  · rw [hdisk, hstable]
    exact h.disk
  · unfold State.Clean
    rw [hcache, hdisk]
    exact h.clean
  · rw [hlh]
    exact h.dirty b ((hdirty b).mp hb)
  · rw [hboot, hcontents, hcurrent]
    exact h.up
  · rw [hboot, hcurrent, hstable]
    exact h.down
  · rw [hboot, hdisk]
    exact hquiet
  · rw [hboot, hlh]
    exact h.holds
  · exact (hcommit p pc hp).congr hdisk hcache hlh hstable hcurrent
  · rw [hboot] at hpc
    have hat := h.boot pc hpc
    cases pc with
    | readHead => exact hlh.trans hat
    | installTrans tail =>
        unfold AtBoot at hat ⊢
        rw [hstable]
        exact hat.congr hdisk hcache hlh
    | clear =>
        unfold AtBoot at hat ⊢
        rw [hlh, hstable]
        exact hat.congr hdisk hcache hlh

theorem reads (h : Shows g s t) (hreads : s.Reads s') : Shows g s' t := by
  have hio := hreads.io
  refine ⟨?_, hreads.clean h.clean, fun b hb => ?_, ?_, ?_, ?_, ?_, ?_, fun p pc hp => ?_,
    fun pc hpc => ?_⟩
  · rw [hreads.disk]
    exact h.disk
  · rw [hio.lh]
    exact h.dirty b ((hreads.dirty b).mp hb)
  · rw [hio.task]
    exact h.active
  · rw [hio.boot, hreads.contents]
    exact h.up
  · rw [hio.boot]
    exact h.down
  · rw [hio.boot, hio.committing, hreads.disk]
    exact h.quiet
  · rw [hio.boot, hio.lh]
    exact h.holds
  · rw [hio.task] at hp
    have hat := h.commit p pc hp
    cases pc with
    | writeLog tail | writeHead =>
        unfold AtCommit at hat ⊢
        rw [hreads.disk, hio.lh, hreads.contents]
        exact hat
    | installTrans tail => exact ⟨hat.1.reads hreads, hat.2⟩
    | clear =>
        unfold AtCommit at hat ⊢
        rw [hio.lh]
        exact ⟨hat.1.reads hreads, hat.2⟩
    | done =>
        unfold AtCommit at hat ⊢
        rw [hreads.disk]
        exact hat
  · rw [hio.boot] at hpc
    have hat := h.boot pc hpc
    cases pc with
    | readHead => exact hio.lh.trans hat
    | installTrans tail => exact hat.reads hreads
    | clear =>
        unfold AtBoot at hat ⊢
        rw [hio.lh]
        exact hat.reads hreads

/-! ## Operations -/

variable [DecidableEq P]

theorem setTask (h : Shows g s t) {task : Task} (hold : ¬(s.task p).Active)
    (hnew : task = .asleep ∨ task = .awake) : Shows g (s.setTask p task) t := by
  have hself : (s.setTask p task).task p = task := Function.update_self ..
  have hother {q : P} (hq : q ≠ p) : (s.setTask p task).task q = s.task q :=
    Function.update_of_ne hq ..
  refine h.congr rfl rfl rfl rfl rfl rfl (fun q => ?_) h.quiet fun q pc hq => ?_
  · rw [h.active]
    by_cases hqp : q = p
    · rw [hqp, hself]
      rcases hnew with rfl | rfl
      · simpa [Task.Active] using hold
      · simpa [Task.Active] using hold
    · rw [hother hqp]
  · by_cases hqp : q = p
    · rw [hqp, hself] at hq
      rcases hnew with rfl | rfl
      · cases hq
      · cases hq
    · rw [hother hqp] at hq
      exact h.commit q pc hq

theorem enter (h : Shows g s t) (hfree : s.committing = false) (n : Nat)
    (hroom : Room g budget s A) :
    Shows g { s.setTask p (.op [] none) with outstanding := n }
      { t with active := insert p t.active } := by
  have hself : (s.setTask p (.op [] none)).task p = .op [] none := Function.update_self ..
  have hother {q : P} (hq : q ≠ p) : (s.setTask p (.op [] none)).task q = s.task q :=
    Function.update_of_ne hq ..
  refine h.congr rfl rfl rfl rfl rfl rfl (fun q => ?_) (fun hboot _ => h.quiet hboot hfree)
    fun q pc hq => ?_
  · dsimp only
    by_cases hqp : q = p
    · rw [hqp, hself]
      simp [Task.Active]
    · rw [hother hqp, Finset.mem_insert, h.active]
      simp [hqp]
  · dsimp only at hq
    by_cases hqp : q = p
    · rw [hqp, hself] at hq
      cases hq
    · rw [hother hqp] at hq
      have hcommitting := (hroom.committer q pc hq).1
      rw [hfree] at hcommitting
      cases hcommitting

theorem leave (h : Shows g s t) (hroom : Room g budget s A) {blocks : List BlockNo}
    (htask : s.task p = .op blocks none) (n : Nat) :
    Shows g (({ s with outstanding := n } : State P).wakeup.setTask p .idle)
      { t with active := t.active.erase p } := by
  obtain ⟨hboot, hfree, hnobody⟩ := hroom.of_op htask
  have htask' (q : P) : (({ s with outstanding := n } : State P).wakeup.setTask p .idle).task q =
      if q = p then .idle else if s.task q = .asleep then .awake else s.task q := by
    by_cases hq : q = p
    · simp [State.setTask, hq]
    · simp [State.setTask, State.wakeup, hq]
  refine h.congr rfl rfl rfl rfl rfl rfl (fun q => ?_) (fun _ _ => h.quiet hboot hfree)
    fun q pc hq => ?_
  · rw [htask', Finset.mem_erase, h.active]
    split
    · next hq => simp [hq, Task.Active]
    · next hq =>
        split
        · next hasleep => simp [hasleep, Task.Active]
        · simp [hq]
  · rw [htask'] at hq
    split at hq
    · cases hq
    · split at hq
      · cases hq
      · exact absurd hq (hnobody q pc)

theorem last (h : Shows g s t) (hroom : Room g budget s A) {blocks : List BlockNo}
    (htask : s.task p = .op blocks none) (n : Nat) :
    Shows g (({ s with outstanding := n, committing := true } : State P).setTask p
      (.commit (if s.lh.length > 0 then .writeLog 0 else .done)))
      { t with active := t.active.erase p } := by
  obtain ⟨hboot, hfree, hnobody⟩ := hroom.of_op htask
  have hheader := h.quiet hboot hfree
  have htask' (q : P) : (({ s with outstanding := n, committing := true } : State P).setTask p
      (.commit (if s.lh.length > 0 then .writeLog 0 else .done))).task q =
      if q = p then .commit (if s.lh.length > 0 then .writeLog 0 else .done) else s.task q := by
    by_cases hq : q = p
    · simp [State.setTask, hq]
    · simp [State.setTask, hq]
  refine h.congr rfl rfl rfl rfl rfl rfl (fun q => ?_) (fun _ hc => ?_) fun q pc hq => ?_
  · rw [htask', Finset.mem_erase, h.active]
    split
    · next hq => simp [hq, Task.Active]
    · next hq => simp [hq]
  · cases hc
  · rw [htask'] at hq
    split at hq
    · obtain rfl := Task.commit.inj hq
      split
      · exact ⟨hheader, by simp⟩
      · exact hheader
    · exact absurd hq (hnobody q pc)

/-- `log_write`: the buffer has the new data, and the block is in the log. -/
theorem append (h : Shows g s t) (hroom : Room g budget s A) {blocks blocks' : List BlockNo}
    (htask : s.task p = .op blocks (some b)) (hlasts : ¬s.LogWritePanics g) (data : Block) :
    Shows g ((s.logWrite b data).setTask p (.op blocks' none))
      { t with current := Function.update t.current b data } := by
  obtain ⟨hboot, hfree, hnobody⟩ := hroom.of_op htask
  set u := (s.logWrite b data).setTask p (.op blocks' none) with hu
  have hself : u.task p = .op blocks' none := Function.update_self ..
  have hother {q : P} (hq : q ≠ p) : u.task q = s.task q := Function.update_of_ne hq ..
  have hcache : u.cache b = some ⟨data, true⟩ := Function.update_self ..
  have hcache' {x : BlockNo} (hx : x ≠ b) : u.cache x = s.cache x := Function.update_of_ne hx ..
  have hlh : u.lh = if b ∈ s.lh then s.lh else s.lh ++ [b] := rfl
  have hsub : s.lh ⊆ u.lh := Room.subset_logWrite s b data
  refine ⟨h.disk, fun x y hx => ?_, fun x hx => ?_, fun q => ?_, fun _ x hx => ?_,
    fun hb => absurd hboot hb, h.quiet, fun _ => ?_, fun q pc hq => ?_, fun pc hpc => ?_⟩
  · by_cases hxb : x = b
    · rw [hxb, hcache] at hx
      cases hx
    · rw [hcache' hxb] at hx
      exact h.clean x y hx
  · by_cases hxb : x = b
    · rw [hlh, hxb]
      split
      · assumption
      · simp
    · obtain ⟨y, hy⟩ := hx
      rw [hcache' hxb] at hy
      exact hsub (h.dirty x ⟨y, hy⟩)
  · rw [h.active]
    by_cases hqp : q = p
    · rw [hqp, hself, htask]
      simp [Task.Active]
    · rw [hother hqp]
  · dsimp only
    by_cases hxb : x = b
    · rw [hxb, Function.update_self, State.contents, hcache]
    · rw [Function.update_of_ne hxb, ← h.up hboot x hx, State.contents, State.contents,
        hcache' hxb]
      rfl
  · rw [hlh]
    exact (h.holds hboot).append hlasts b
  · by_cases hqp : q = p
    · rw [hqp, hself] at hq
      cases hq
    · rw [hother hqp] at hq
      exact absurd hq (hnobody q pc)
  · have hpc' : s.boot = some pc := hpc
    rw [hboot] at hpc'
    cases hpc'

/-! ## Commit -/

omit [DecidableEq P] in
theorem active_eq (h : Shows g s t) (hroom : Room g budget s A) {pc : Commit}
    (htask : s.task p = .commit pc) : t.active = ∅ := by
  apply Finset.eq_empty_of_forall_notMem
  intro q hq
  rw [h.active, ← hroom.active, (hroom.of_commit htask).2] at hq
  simp at hq

theorem advance (h : Shows g s t) (hroom : Room g budget s A) {pc pc' : Commit}
    (htask : s.task p = .commit pc) (htask' : s'.task = s.task) (hboot' : s'.boot = s.boot)
    (hcommitting' : s'.committing = s.committing) (hdisk : Recoverable g s'.disk t'.stable)
    (hclean : s'.Clean) (hdirty : ∀ b, s'.Dirty b → b ∈ s'.lh) (hholds : g.Holds s'.lh.length)
    (hactive : t'.active = t.active)
    (hup : ∀ b, ¬g.InLog b → s'.contents b = t'.current b) (hat : AtCommit g s' t' pc') :
    Shows g (s'.setTask p (.commit pc')) t' := by
  have hboot := (hroom.of_commit htask).1
  obtain ⟨hcommitting, honly⟩ := hroom.committer p pc htask
  have hself : (s'.setTask p (.commit pc')).task p = .commit pc' := Function.update_self ..
  have hother {q : P} (hq : q ≠ p) : (s'.setTask p (.commit pc')).task q = s.task q := by
    rw [← htask']
    exact Function.update_of_ne hq ..
  refine ⟨hdisk, hclean, hdirty, fun q => ?_, fun _ => hup,
    fun hb => absurd (hboot'.trans hboot) hb, fun _ hc => ?_, fun _ => hholds, fun q pcq hq => ?_,
    fun pcb hpcb => ?_⟩
  · rw [hactive, h.active]
    by_cases hqp : q = p
    · rw [hqp, hself, htask]
      simp [Task.Active]
    · rw [hother hqp]
  · have hc' : s'.committing = false := hc
    rw [hcommitting', hcommitting] at hc'
    cases hc'
  · by_cases hqp : q = p
    · rw [hqp, hself] at hq
      obtain rfl := Task.commit.inj hq
      exact hat.congr rfl rfl rfl rfl rfl
    · rw [hother hqp] at hq
      exact absurd (honly q pcq hq) hqp
  · have hpcb' : s'.boot = some pcb := hpcb
    rw [hboot', hboot] at hpcb'
    cases hpcb'

theorem writeLog (h : Shows g s t) (hroom : Room g budget s A)
    (htask : s.task p = .commit (.writeLog tail)) (hb : s.lh[tail]? = some b) :
    Shows g ((s.writeLog g tail b).setTask p (.commit (.writeLog (tail + 1)))) t := by
  have hboot := (hroom.of_commit htask).1
  obtain ⟨hheader, hwritten⟩ := h.commit p _ htask
  have hholds := h.holds hboot
  have hhome := (hroom.header hboot).2
  have hsmall {i : Nat} {x : BlockNo} (hi : s.lh[i]? = some x) : i < logSize :=
    Nat.lt_of_lt_of_le (Recoverable.lt_length hi) hholds.header
  have hwrote := State.Wrote.writeLog s g tail b
  have hne {x : BlockNo} (hx : ¬g.InLog x) : x ≠ g.logBlock tail := by
    rintro rfl
    exact hx (hholds.inLog_logBlock (Recoverable.lt_length hb))
  apply h.advance hroom htask hwrote.io.task hwrote.io.boot hwrote.io.committing
  · rw [hwrote.disk]
    exact h.disk.writeLog hheader hholds (Recoverable.lt_length hb)
  · exact hwrote.clean h.clean
  · intro x hx
    rw [hwrote.io.lh]
    exact h.dirty x ((hwrote.dirty x).mp hx).2
  · rw [hwrote.io.lh]
    exact hholds
  · rfl
  · intro x hx
    rw [hwrote.contents, Function.update_of_ne (hne hx)]
    exact h.up hboot x hx
  · unfold AtCommit
    rw [hwrote.disk, hwrote.io.lh, hwrote.contents,
      Function.update_of_ne (Geometry.logBlock_ne_start (hsmall hb)).symm]
    refine ⟨hheader, fun i x hi hx => ?_⟩
    rw [Function.update_of_ne (hne (hhome x (List.mem_of_getElem? hx)))]
    by_cases hit : i = tail
    · rw [hit] at hx ⊢
      rw [Function.update_self, Option.some.inj (hx.symm.trans hb)]
    · have hdiff : g.logBlock i ≠ g.logBlock tail := fun heq =>
        hit (Geometry.logBlock_inj (hsmall hx) (hsmall hb) heq)
      rw [Function.update_of_ne hdiff]
      exact hwritten i x (by omega) hx

/-- `write_head` with the log in the header: this is the commit. -/
theorem writeHead (h : Shows g s t) (hroom : Room g budget s A)
    (htask : s.task p = .commit .writeHead) :
    Shows g ((s.writeHead g).setTask p (.commit (.installTrans 0)))
      { t with stable := t.current } := by
  have hboot := (hroom.of_commit htask).1
  obtain ⟨hheader, hwritten⟩ := h.commit p _ htask
  have hholds := h.holds hboot
  have hhome := (hroom.header hboot).2
  have hwrote := State.Wrote.writeHead s g
  have hne {x : BlockNo} (hx : ¬g.InLog x) : x ≠ g.start := by
    rintro rfl
    exact hx hholds.inLog_start
  apply h.advance hroom htask hwrote.io.task hwrote.io.boot hwrote.io.committing
  · rw [hwrote.disk]
    apply Recoverable.setHeader hholds hhome
    · intro i x hx
      rw [hwritten i x hx]
      exact h.up hboot x (hhome x (List.mem_of_getElem? hx))
    · intro x hx hnot
      rw [← h.clean.contents fun hdirty => hnot (h.dirty x hdirty)]
      exact h.up hboot x hx
  · exact hwrote.clean h.clean
  · intro x hx
    rw [hwrote.io.lh]
    exact h.dirty x ((hwrote.dirty x).mp hx).2
  · rw [hwrote.io.lh]
    exact hholds
  · rfl
  · intro x hx
    rw [hwrote.contents, Function.update_of_ne (hne hx)]
    exact h.up hboot x hx
  · refine ⟨⟨?_, by simp, fun x hx => ?_⟩, rfl⟩
    · rw [hwrote.disk, hwrote.io.lh, Function.update_self, header_setHeader _ hholds.header]
    · rw [hwrote.io.lh]
      exact h.dirty x ((hwrote.dirty x).mp hx).2

theorem installTrans (h : Shows g s t) (hroom : Room g budget s A)
    (htask : s.task p = .commit (.installTrans tail)) (hb : s.lh[tail]? = some b) :
    Shows g ((s.installTrans g tail b).setTask p (.commit (.installTrans (tail + 1)))) t := by
  have hboot := (hroom.of_commit htask).1
  obtain ⟨hinstalling, hcurrent⟩ := h.commit p _ htask
  have hwrote := State.Wrote.installTrans s g tail b
  rw [hinstalling.contents h.disk h.clean hb] at hwrote
  obtain ⟨hdisk, hnext⟩ := hinstalling.wrote h.disk hb hwrote
  apply h.advance hroom htask hwrote.io.task hwrote.io.boot hwrote.io.committing hdisk
    (hwrote.clean h.clean)
  · exact fun x hx => List.mem_of_mem_drop (hnext.dirty x hx)
  · rw [hwrote.io.lh]
    exact h.holds hboot
  · rfl
  · intro x hx
    rw [hwrote.contents]
    by_cases hxb : x = b
    · rw [hxb, Function.update_self, hcurrent]
    · rw [Function.update_of_ne hxb]
      exact h.up hboot x hx
  · exact ⟨hnext, hcurrent⟩

theorem clear (h : Shows g s t) (hroom : Room g budget s A)
    (htask : s.task p = .commit .clear) :
    Shows g ((({ s with lh := [] } : State P).writeHead g).setTask p (.commit .done)) t := by
  have hboot := (hroom.of_commit htask).1
  obtain ⟨hinstalling, -⟩ := h.commit p _ htask
  have hwrote := State.Wrote.writeHead ({ s with lh := [] } : State P) g
  obtain ⟨hdisk, hheader, hclean⟩ := hinstalling.clear h.disk hwrote.disk
    fun x hx => ((hwrote.dirty x).mp hx).2
  apply h.advance hroom htask hwrote.io.task hwrote.io.boot hwrote.io.committing hdisk
    (hwrote.clean h.clean)
  · exact fun x hx => absurd hx (hclean x)
  · rw [hwrote.io.lh]
    exact .zero h.disk.holds.pos
  · rfl
  · intro x hx
    have hne : x ≠ g.start := by
      rintro rfl
      exact hx h.disk.holds.inLog_start
    rw [hwrote.contents, Function.update_of_ne hne]
    exact h.up hboot x hx
  · exact hheader

theorem finish (h : Shows g s t) (hroom : Room g budget s A) (htask : s.task p = .commit .done) :
    Shows g (({ s with committing := false } : State P).wakeup.setTask p .idle) t := by
  have hheader := h.commit p _ htask
  have hother := (hroom.committer p _ htask).2
  have htask' (q : P) : (({ s with committing := false } : State P).wakeup.setTask p .idle).task q =
      if q = p then .idle else if s.task q = .asleep then .awake else s.task q := by
    by_cases hq : q = p
    · simp [State.setTask, hq]
    · simp [State.setTask, State.wakeup, hq]
  refine h.congr rfl rfl rfl rfl rfl rfl (fun q => ?_) (fun _ _ => hheader) fun q pc hq => ?_
  · rw [htask', h.active]
    split
    · next hq => simp [hq, htask, Task.Active]
    · split
      · next hasleep => simp [hasleep, Task.Active]
      · rfl
  · rw [htask'] at hq
    split at hq
    · cases hq
    · next hne =>
        split at hq
        · cases hq
        · exact absurd (hother q pc hq) hne

/-! ## Crash and recovery -/

omit [DecidableEq P] in
theorem crash (h : Shows g s t) : Shows g s.crash { t with current := t.stable, active := ∅ } where
  disk := h.disk
  clean b data hb := by cases hb
  dirty b hb := by
    obtain ⟨data, hdata⟩ := hb
    cases hdata
  active p := by simp [State.crash, Task.Active]
  up hb := by cases hb
  down _ := rfl
  quiet hb := by cases hb
  holds hb := by cases hb
  commit p pc hp := by cases hp
  boot pc hpc := by
    obtain rfl : .readHead = pc := Option.some.inj hpc
    rfl

omit [DecidableEq P] in
theorem resume (h : Shows g s t) (hroom : Room g budget s A) (hboot : s.boot ≠ none)
    (htask : s'.task = s.task) (hdisk : Recoverable g s'.disk t.stable) (hclean : s'.Clean)
    (hdirty : ∀ b, s'.Dirty b → b ∈ s'.lh)
    (hend : s'.boot = none → s'.lh = [] ∧ (s'.disk g.start).header = [] ∧ ∀ b, ¬s'.Dirty b)
    (hat : ∀ pc, s'.boot = some pc → AtBoot g s' t pc) : Shows g s' t where
  disk := hdisk
  clean := hclean
  dirty := hdirty
  active p := by
    rw [htask]
    exact h.active p
  up hb b hhome := by
    obtain ⟨-, hheader, hnot⟩ := hend hb
    rw [hclean.contents (hnot b), h.down hboot]
    exact hdisk.rest b hhome (by simp [hheader])
  down _ := h.down hboot
  quiet hb _ := (hend hb).2.1
  holds hb := by
    rw [(hend hb).1]
    exact .zero hdisk.holds.pos
  commit p pc hp := by
    rw [htask, (hroom.boot hboot).2] at hp
    cases hp
  boot := hat

omit [DecidableEq P] in
/-- A step of `recover_from_log` does not show. -/
theorem recover (h : Shows g s t) (hroom : Room g budget s A) {pc : Recover}
    (hboot : s.boot = some pc) : Shows g (s.recoverFromLog g pc) t := by
  have hne : s.boot ≠ none := by simp [hboot]
  have hat := h.boot pc hboot
  cases pc with
  | readHead =>
      have hreads := State.Reads.bread s g.start
      have hnot (b : BlockNo) : ¬s.Dirty b := by
        intro hb
        have hmem := h.dirty b hb
        rw [hat] at hmem
        cases hmem
      have hheader : ((s.bread g.start).contents g.start).header = (s.disk g.start).header := by
        rw [hreads.contents, h.clean.contents (hnot g.start)]
      have hdirty (b : BlockNo) : ¬(s.recoverFromLog g .readHead).Dirty b := fun hb =>
        hnot b ((hreads.dirty b).mp hb)
      have hdisk : (s.recoverFromLog g .readHead).disk = s.disk := hreads.disk
      refine h.resume hroom hne hreads.io.task ?_ (hreads.clean h.clean)
        (fun b hb => absurd hb (hdirty b)) (fun hb => by cases hb) fun pc hpc => ?_
      · rw [hdisk]
        exact h.disk
      · obtain rfl : .installTrans 0 = pc := Option.some.inj hpc
        refine ⟨?_, by simp, fun b hb => absurd hb (hdirty b)⟩
        rw [hdisk]
        exact hheader.symm
  | installTrans tail =>
      have hinstalling : Installing g s t.stable tail := hat
      simp only [State.recoverFromLog]
      split
      · next b hb =>
          have hwrote := State.Wrote.installTrans s g tail b
          rw [hinstalling.contents h.disk h.clean hb] at hwrote
          obtain ⟨hdisk, hnext⟩ := hinstalling.wrote h.disk hb hwrote
          refine h.resume hroom hne hwrote.io.task hdisk (hwrote.clean h.clean)
            (fun x hx => List.mem_of_mem_drop (hnext.dirty x hx)) (fun hb => by cases hb)
            fun pc hpc => ?_
          obtain rfl : .installTrans (tail + 1) = pc := Option.some.inj hpc
          exact hnext.congr rfl rfl rfl
      · next hend =>
          have hlength := hinstalling.length hend
          refine h.resume hroom hne rfl h.disk h.clean h.dirty (fun hb => by cases hb)
            fun pc hpc => ?_
          obtain rfl : .clear = pc := Option.some.inj hpc
          exact hlength.congr rfl rfl rfl
  | clear =>
      have hinstalling : Installing g s t.stable s.lh.length := hat
      have hwrote := State.Wrote.writeHead ({ s with lh := [] } : State P) g
      obtain ⟨hdisk, hheader, hclean⟩ := hinstalling.clear h.disk hwrote.disk
        fun x hx => ((hwrote.dirty x).mp hx).2
      exact h.resume hroom hne hwrote.io.task hdisk (hwrote.clean h.clean)
        (fun x hx => absurd hx (hclean x)) (fun _ => ⟨hwrote.io.lh, hheader, hclean⟩)
        fun pc hpc => by cases hpc

end Shows

variable [DecidableEq P]

/-! ## The refinement -/

def view (s : State P) : Event P → List (Act P BlockNo Block)
  | .beginOp p =>
      if s.committing ∨ s.lh.length + (s.outstanding + 1) * maxOpBlocks > logSize then []
      else [.begin p]
  | .endOp p => [.finish p]
  | .append p data =>
      match s.task p with
      | .op _ (some b) => [.write p b data]
      | _ => []
  | .commit p => if s.task p = .commit .writeHead then [.commit] else []
  | .crash => [.crash]
  | .logWrite _ _ | .recover | .bread _ | .evict _ | .kill _ => []

theorem run_one {a : Act P BlockNo Block} (h : t.next a = some t') :
    (store P BlockNo Block).run t [a] = some t' := by
  simp [System.run, store, h]

namespace Shows

theorem beginOp (h : Shows g s t) (hroom : Room g budget s A)
    (htask : s.task p = .idle ∨ s.task p = .awake) :
    ∃ t', (store P BlockNo Block).run t (view s (.beginOp p)) = some t' ∧
      Shows g (s.beginOp p) t' := by
  have hnot : ¬(s.task p).Active := by
    rcases htask with ht | ht
    · simp [ht, Task.Active]
    · simp [ht, Task.Active]
  by_cases hwait : s.committing ∨ s.lh.length + (s.outstanding + 1) * maxOpBlocks > logSize
  · refine ⟨t, by simp [view, hwait, System.run], ?_⟩
    have hsleep : s.beginOp p = s.setTask p .asleep := by
      unfold State.beginOp
      rcases hwait with hwait | hwait
      · rw [if_pos hwait]
      · rw [if_pos hwait, ite_self]
    rw [hsleep]
    exact h.setTask hnot (.inl rfl)
  · have hfree : s.committing = false := by
      simp only [not_or, Bool.not_eq_true] at hwait
      exact hwait.1
    have hview : view s (.beginOp p) = [.begin p] := by simp only [view, if_neg hwait]
    have hnext : t.next (.begin p) = some { t with active := insert p t.active } := by
      simp only [Store.next]
      rw [if_neg]
      rwa [h.active]
    rw [hview]
    refine ⟨_, run_one hnext, ?_⟩
    have hgo : s.beginOp p =
        { s.setTask p (.op [] none) with outstanding := s.outstanding + 1 } := by
      unfold State.beginOp
      rw [if_neg (by simp [hfree]), if_neg fun hfull => hwait (.inr hfull)]
    rw [hgo]
    exact h.enter hfree _ hroom

theorem endOp (h : Shows g s t) (hroom : Room g budget s A) {blocks : List BlockNo}
    (htask : s.task p = .op blocks none) (hend : s.endOp p = some s') :
    ∃ t', (store P BlockNo Block).run t [.finish p] = some t' ∧ Shows g s' t' := by
  have hmem : p ∈ t.active := by
    rw [h.active, htask]
    trivial
  have hnext : t.next (.finish p) = some { t with active := t.active.erase p } := by
    simp only [Store.next]
    exact if_pos hmem
  refine ⟨_, run_one hnext, ?_⟩
  unfold State.endOp at hend
  dsimp only at hend
  split at hend
  · cases hend
  · split at hend
    · cases hend
      exact h.last hroom htask _
    · cases hend
      exact h.leave hroom htask _

theorem commitStep (h : Shows g s t) (hroom : Room g budget s A) {pc : Commit}
    (htask : s.task p = .commit pc) :
    ∃ t', (store P BlockNo Block).run t (view s (.commit p)) = some t' ∧
      Shows g (s.commit g p pc) t' := by
  have hat := h.commit p pc htask
  have hboot := (hroom.of_commit htask).1
  -- at the end of a loop nothing is written
  have hmove {pc' : Commit} (hat' : AtCommit g s t pc') :
      Shows g (s.setTask p (.commit pc')) t :=
    h.advance hroom htask rfl rfl rfl h.disk h.clean h.dirty (h.holds hboot) rfl (h.up hboot) hat'
  cases pc with
  | writeHead =>
      have hnext : t.next .commit = some { t with stable := t.current } := by
        simp only [Store.next]
        exact if_pos (h.active_eq hroom htask)
      have hview : view s (.commit p) = [.commit] := if_pos htask
      rw [hview]
      exact ⟨_, run_one hnext, h.writeHead hroom htask⟩
  | writeLog tail =>
      refine ⟨t, by simp [view, htask, System.run], ?_⟩
      simp only [State.commit]
      split
      · next b hb => exact h.writeLog hroom htask hb
      · next hend =>
          refine hmove ⟨hat.1, fun i x hx => hat.2 i x ?_ hx⟩
          have hle := List.getElem?_eq_none_iff.mp hend
          have hlt := (List.getElem?_eq_some_iff.mp hx).1
          omega
  | installTrans tail =>
      refine ⟨t, by simp [view, htask, System.run], ?_⟩
      simp only [State.commit]
      split
      · next b hb => exact h.installTrans hroom htask hb
      · next hend => exact hmove ⟨hat.1.length hend, hat.2⟩
  | clear => exact ⟨t, by simp [view, htask, System.run], h.clear hroom htask⟩
  | done => exact ⟨t, by simp [view, htask, System.run], h.finish hroom htask⟩

/-- Every step of the machine is at most one of the store. -/
theorem step (h : Shows g s t) (hroom : Room g budget s A) {e : Event P} (hok : Checked g s e)
    (hnext : s.next g e = some s') :
    ∃ t', (store P BlockNo Block).run t (view s e) = some t' ∧ Shows g s' t' := by
  cases e with
  | beginOp p =>
      simp only [State.next] at hnext
      split at hnext
      · next hidle =>
          cases hnext
          exact h.beginOp hroom hidle.2
      · cases hnext
  | endOp p =>
      simp only [State.next] at hnext
      split at hnext
      · next htask => exact h.endOp hroom htask hnext
      · cases hnext
  | logWrite p b =>
      simp only [State.next] at hnext
      split at hnext
      · next blocks htask =>
          split at hnext
          · cases hnext
          · cases hnext
            obtain ⟨hboot, hfree, hnobody⟩ := hroom.of_op htask
            have hself : (s.setTask p (.op blocks (some b))).task p = .op blocks (some b) :=
              Function.update_self ..
            have hother {q : P} (hq : q ≠ p) :
                (s.setTask p (.op blocks (some b))).task q = s.task q :=
              Function.update_of_ne hq ..
            refine ⟨t, rfl, h.congr rfl rfl rfl rfl rfl rfl (fun q => ?_)
              (fun _ _ => h.quiet hboot hfree) fun q pc hq => ?_⟩
            · rw [h.active]
              by_cases hqp : q = p
              · rw [hqp, hself, htask]
                simp [Task.Active]
              · rw [hother hqp]
            · by_cases hqp : q = p
              · rw [hqp, hself] at hq
                cases hq
              · rw [hother hqp] at hq
                exact absurd hq (hnobody q pc)
      · cases hnext
  | append p data =>
      simp only [State.next] at hnext
      split at hnext
      · next blocks b htask =>
          cases hnext
          have hmem : p ∈ t.active := by
            rw [h.active, htask]
            trivial
          have hwrite : t.next (.write p b data) =
              some { t with current := Function.update t.current b data } := by
            simp only [Store.next]
            exact if_pos hmem
          have hview : view s (.append p data) = [.write p b data] := by simp only [view, htask]
          rw [hview]
          exact ⟨_, run_one hwrite, h.append hroom htask (hok.lasts p data rfl) data⟩
      · cases hnext
  | commit p =>
      simp only [State.next] at hnext
      split at hnext
      · next htask =>
          cases hnext
          exact h.commitStep hroom htask
      · cases hnext
  | recover =>
      simp only [State.next] at hnext
      obtain ⟨pc, hpc, rfl⟩ := Option.map_eq_some_iff.mp hnext
      exact ⟨t, rfl, h.recover hroom hpc⟩
  | bread b =>
      cases hnext
      exact ⟨t, rfl, h.reads (.bread s b)⟩
  | evict b =>
      simp only [State.next] at hnext
      split at hnext
      · next hb =>
          cases hnext
          exact ⟨t, rfl, h.reads (.evict h.clean hb)⟩
      · cases hnext
  | kill p =>
      simp only [State.next] at hnext
      split at hnext
      · next hasleep =>
          cases hnext
          exact ⟨t, rfl, h.setTask (by simp [hasleep, Task.Active]) (.inr rfl)⟩
      · cases hnext
  | crash =>
      cases hnext
      exact ⟨_, run_one rfl, h.crash⟩

theorem start (hsize : 0 < g.size) (hinit : (log P g).init s) : Shows g s ⟨s.disk, s.disk, ∅⟩ := by
  obtain ⟨⟨s₀, rfl⟩, hheader⟩ := hinit
  have hrec : Recoverable g s₀.crash.disk s₀.crash.disk :=
    ⟨by simp [hheader], by simp [hheader, Geometry.Holds.zero hsize], by simp [hheader],
      fun _ _ _ => rfl⟩
  refine ⟨hrec, fun b x hb => (by cases hb), fun b hb => ?_, fun p => ?_, fun hb => (by cases hb),
    fun _ => rfl, fun hb => (by cases hb), fun hb => (by cases hb), fun p pc hp => (by cases hp),
    fun pc hpc => ?_⟩
  · obtain ⟨x, hx⟩ := hb
    cases hx
  · simp [State.crash, Task.Active]
  · obtain rfl : .readHead = pc := Option.some.inj hpc
    rfl

end Shows

/-- The machine of `log.c` refines the store with group commit. -/
theorem refines_store (hsize : 0 < g.size) :
    Refines (log P g) (Checked g) (store P BlockNo Block) view
      fun s t => (∃ A, Room g maxOpBlocks s A) ∧ Shows g s t where
  init s hinit := by
    refine ⟨⟨s.disk, s.disk, ∅⟩, ⟨rfl, rfl⟩, ?_, .start hsize hinit⟩
    obtain ⟨⟨s₀, rfl⟩, -⟩ := hinit
    exact ⟨∅, .crash s₀⟩
  step s t e s' hR hok hnext := by
    obtain ⟨⟨A, hA⟩, hshows⟩ := hR
    obtain ⟨t', hrun, hshows'⟩ := hshows.step hA hok hnext
    exact ⟨t', hrun, hA.next (Nat.le_refl _) hok.within hnext, hshows'⟩

/-! ## Main results -/

theorem exists_store (hsize : 0 < g.size) (hreach : (log P g).ReachableWhere (Checked g) s) :
    ∃ t, (∃ A, Room g maxOpBlocks s A) ∧ Shows g s t := by
  obtain ⟨t, -, hR⟩ := (refines_store hsize).reachable hreach
  exact ⟨t, hR⟩

/-- Every run is one of the store: `begin_op`, `end_op`, `log_write` and the write of the header
are its begin, finish, write and commit.  After a crash anywhere, what `recover_from_log` makes
of a block is what all processes had written when the header was last written, with no operation
in progress then.  While the system is up, `bread` sees all that was written, and once nothing is
outstanding and nobody commits, all of that is recoverable. -/
theorem log_atomic (g : Geometry) (s₀ s : State P) (es : List (Event P)) (hsize : 0 < g.size)
    (hinit : (log P g).init s₀) (hrun : (log P g).runWhere (Checked g) s₀ es = some s) :
    ∃ t as₁ as₂ u,
      trace (log P g) view s₀ es = as₁ ++ as₂ ∧
      (store P BlockNo Block).run ⟨s₀.disk, s₀.disk, ∅⟩ (as₁ ++ as₂) = some t ∧
      (store P BlockNo Block).run ⟨s₀.disk, s₀.disk, ∅⟩ as₁ = some u ∧
      (as₁ = [] ∨ as₁.getLast? = some .commit) ∧ .commit ∉ as₂ ∧ u.active = ∅ ∧
      (∀ p, p ∈ t.active ↔ (s.task p).Active) ∧
      (∀ b, ¬g.InLog b → s.recovered g b = u.current b) ∧
      (s.boot = none → ∀ b, ¬g.InLog b → s.contents b = t.current b) ∧
      (s.boot = none → s.outstanding = 0 → s.committing = false →
        ∀ b, ¬g.InLog b → s.recovered g b = s.contents b) := by
  have hroom₀ : Room g maxOpBlocks s₀ ∅ := by
    obtain ⟨⟨s₁, rfl⟩, -⟩ := hinit
    exact .crash s₁
  obtain ⟨t, ht, ⟨A, hA⟩, hshows⟩ :=
    (refines_store hsize).run ⟨⟨∅, hroom₀⟩, .start hsize hinit⟩ hrun
  obtain ⟨as₁, as₂, u, htrace, hend, hu, hactive, hstable, hnone⟩ :=
    exists_commit_point ⟨rfl, rfl⟩ ht
  refine ⟨t, as₁, as₂, u, htrace, htrace ▸ ht, hu, hend, hnone, hactive, hshows.active,
    fun b hb => ?_, hshows.up, fun hboot hzero hfree b _ => ?_⟩
  · rw [hshows.disk.recovered hb, hstable]
  · have hheader := hshows.quiet hboot hfree
    have hlh : s.lh = [] := by
      apply hA.quiet hboot hfree
      rw [← Finset.card_eq_zero, hA.count, hzero]
    have hnot : ¬s.Dirty b := by
      intro hdirty
      have hmem := hshows.dirty b hdirty
      rw [hlh] at hmem
      cases hmem
    rw [hshows.clean.contents hnot, State.recovered, hheader]
    simp

/-- An operation logs ten blocks from 100 on, and the machine crashes when the header is
written. -/
def commitCrash : List (Event Bool) :=
  [.recover, .recover, .recover, .beginOp true] ++
    ((List.range 10).flatMap fun i =>
      [.logWrite true (UInt32.ofNat (100 + i)), .append true fun _ => 7]) ++
    .endOp true :: List.replicate 12 (.commit true) ++ [.crash]

/-- The machine crashes again when five of the ten blocks are installed, and then recovers. -/
def crashedRecovery : List (Event Bool) :=
  List.replicate 6 .recover ++ .crash :: List.replicate 13 .recover

theorem commitCrash_run : ∃ s s' : State Bool,
    (log Bool mkfsGeometry).runWhere (Checked mkfsGeometry) (blank Bool) commitCrash = some s ∧
    (log Bool mkfsGeometry).run s.crash crashedRecovery = some s' ∧
    (s.disk mkfsGeometry.start).header.length = 10 ∧ s.disk 109 ⟨0, by decide⟩ = 0 ∧
    s.recovered mkfsGeometry 109 ⟨0, by decide⟩ = 7 ∧ s'.boot = none := by
  have htest : ((log Bool mkfsGeometry).runWhere (Checked mkfsGeometry) (blank Bool)
      commitCrash).any (fun s => ((log Bool mkfsGeometry).run s.crash crashedRecovery).any
        fun s' => decide ((s.disk mkfsGeometry.start).header.length = 10 ∧
          s.disk 109 ⟨0, by decide⟩ = 0 ∧ s.recovered mkfsGeometry 109 ⟨0, by decide⟩ = 7 ∧
          s'.boot = none)) = true := by
    decide +kernel
  obtain ⟨s, hrun, hs⟩ := (Option.any_eq_true _ _).mp htest
  obtain ⟨s', hrun', hs'⟩ := (Option.any_eq_true _ _).mp hs
  exact ⟨s, s', hrun, hrun', of_decide_eq_true hs'⟩

theorem log_atomic_commitCrash :
    ∃ (s : State Bool) (u : Store Bool BlockNo Block), s.disk 109 ⟨0, by decide⟩ = 0 ∧
      u.current 109 ⟨0, by decide⟩ = 7 ∧
        ∀ b, ¬mkfsGeometry.InLog b → s.recovered mkfsGeometry b = u.current b := by
  obtain ⟨s, -, hrun, -, -, hdisk, hseven, -⟩ := commitCrash_run
  obtain ⟨t, as₁, as₂, u, -, -, -, -, -, -, -, hrecovered, -⟩ :=
    log_atomic mkfsGeometry _ s _ (by decide) blank_init hrun
  refine ⟨s, u, hdisk, ?_, hrecovered⟩
  rw [← hrecovered 109 (by decide)]
  exact hseven

def Event.Recovering : Event P → Prop
  | .recover | .bread _ | .evict _ | .crash => True
  | _ => False

instance : DecidablePred (Event.Recovering (P := P))
  | .recover | .bread _ | .evict _ | .crash => isTrue trivial
  | .beginOp _ | .endOp _ | .logWrite _ _ | .append _ _ | .commit _ | .kill _ => isFalse id

theorem exists_recovered (g : Geometry) {n : Nat} {s : State P}
    (hboot : s.boot = some (.installTrans tail)) (hn : n = s.lh.length - tail) :
    ∃ s', (log P g).run s (List.replicate (n + 2) .recover) = some s' ∧ s'.boot = none := by
  have hnext : (log P g).next s .recover = some (s.recoverFromLog g (.installTrans tail)) := by
    simp [log, State.next, hboot]
  induction n generalizing s tail with
  | zero =>
      have hend : s.lh[tail]? = none := by
        rw [List.getElem?_eq_none_iff]
        omega
      simp only [State.recoverFromLog, hend] at hnext
      refine ⟨({ s with boot := some .clear } : State P).recoverFromLog g .clear, ?_, rfl⟩
      rw [List.replicate_succ, System.run, hnext]
      rfl
  | succ n ih =>
      have hlt : tail < s.lh.length := by omega
      simp only [State.recoverFromLog, List.getElem?_eq_getElem hlt] at hnext
      have hlh := (State.Io.installTrans s g tail s.lh[tail]).lh
      set u : State P :=
        { s.installTrans g tail s.lh[tail] with boot := some (.installTrans (tail + 1)) } with hu
      have hn' : n = u.lh.length - (tail + 1) := by
        have hsame : u.lh = s.lh := hlh
        rw [hsame]
        omega
      obtain ⟨s', hrun, hup⟩ := ih rfl hn' rfl
      refine ⟨s', ?_, hup⟩
      rw [List.replicate_succ, System.run, hnext]
      exact hrun

/-- After a crash `recover_from_log` comes to its end, in as many steps as there are blocks in the
header, and three.  However often the machine crashes before that, the blocks that it recovers
are the same, and they are what the system finds when it is up. -/
theorem recover_from_log_idempotent (g : Geometry) (s : State P) (hsize : 0 < g.size)
    (hreach : (log P g).ReachableWhere (Checked g) s) :
    (∃ s', (log P g).run s.crash (List.replicate ((s.disk g.start).header.length + 3) .recover) =
      some s' ∧ s'.boot = none) ∧
    ∀ es s', (log P g).runWhere (fun _ e => e.Recovering) s.crash es = some s' →
      (∀ b, ¬g.InLog b → s'.recovered g b = s.recovered g b) ∧
      (s'.boot = none → ∀ b, ¬g.InLog b → s'.contents b = s.recovered g b) := by
  constructor
  · have hlh : (s.crash.recoverFromLog g .readHead).lh = (s.disk g.start).header := by
      have hcontents := (State.Reads.bread s.crash g.start).contents
      calc (s.crash.recoverFromLog g .readHead).lh
          = ((s.crash.bread g.start).contents g.start).header := rfl
        _ = (s.crash.contents g.start).header := by rw [hcontents]
        _ = (s.disk g.start).header := rfl
    have hnext : (log P g).next s.crash .recover = some (s.crash.recoverFromLog g .readHead) := rfl
    obtain ⟨s', hrun, hup⟩ := exists_recovered (P := P) g rfl
      (show (s.disk g.start).header.length =
        (s.crash.recoverFromLog g .readHead).lh.length - 0 by rw [hlh]; rfl)
    refine ⟨s', ?_, hup⟩
    rw [List.replicate_succ, System.run, hnext]
    exact hrun
  · intro es s' hrun
    obtain ⟨t, -, hshows⟩ := exists_store hsize hreach
    -- the store stays at what was stable before the crash
    have hinv : ∃ t', (∃ A, Room g maxOpBlocks s' A) ∧ Shows g s' t' ∧ t'.stable = t.stable ∧
        t'.current = t.stable := by
      refine System.runWhere_invariant (I := fun u => ∃ t', (∃ A, Room g maxOpBlocks u A) ∧
        Shows g u t' ∧ t'.stable = t.stable ∧ t'.current = t.stable) ?_ ?_ hrun
      · exact ⟨_, ⟨∅, .crash s⟩, hshows.crash, rfl, rfl⟩
      · rintro u e u' ⟨t₁, ⟨A, hA⟩, hshows₁, hstable, hcurrent⟩ hok hnext
        have hchecked : Checked g u e := by
          cases e with
          | recover | bread | evict | crash => exact ⟨trivial, fun _ _ heq => by cases heq⟩
          | beginOp | endOp | logWrite | append | commit | kill => exact hok.elim
        obtain ⟨t₂, hview, hshows₂⟩ := hshows₁.step hA hchecked hnext
        refine ⟨t₂, hA.next (Nat.le_refl _) hchecked.within hnext, hshows₂, ?_⟩
        cases e with
        | recover | bread | evict =>
            cases hview
            exact ⟨hstable, hcurrent⟩
        | crash =>
            cases hview
            exact ⟨hstable, hstable⟩
        | beginOp | endOp | logWrite | append | commit | kill => exact hok.elim
    obtain ⟨t', -, hshows', hstable, hcurrent⟩ := hinv
    refine ⟨fun b hb => ?_, fun hup b hb => ?_⟩
    · rw [hshows'.disk.recovered hb, hshows.disk.recovered hb, hstable]
    · rw [hshows'.up hup b hb, hshows.disk.recovered hb, hcurrent]

/-- Ten blocks are recovered, in spite of a second crash. -/
theorem recover_from_log_idempotent_crashed :
    ∃ s s' : State Bool, (s.disk mkfsGeometry.start).header.length = 10 ∧
      (log Bool mkfsGeometry).run s.crash crashedRecovery = some s' ∧
      s.disk 109 ⟨0, by decide⟩ = 0 ∧ s'.contents 109 ⟨0, by decide⟩ = 7 := by
  obtain ⟨s, s', hrun, hrun', hlength, hdisk, hseven, hup⟩ := commitCrash_run
  have hreach := System.ReachableWhere.runWhere (.init blank_init) hrun
  have hall := (recover_from_log_idempotent mkfsGeometry s (by decide) hreach).2
  have hrecovering : (log Bool mkfsGeometry).runWhere (fun _ e => e.Recovering) s.crash
      crashedRecovery = some s' := hrun'
  refine ⟨s, s', hlength, hrun', hdisk, ?_⟩
  rw [(hall _ s' hrecovering).2 hup 109 (by decide)]
  exact hseven

end Os20.Log
