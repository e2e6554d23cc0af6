import Os20.Xv6.ProcInfo

/-!
# The process tree

What `fork`, `exit` and `wait` make of the `parent` fields.  `Tree` is an invariant of the
table alone: every process but `initproc` has a parent that is still there and is older, and no
parent is asleep in `wait` over a child that has exited.
-/

namespace Os20.Xv6

/-- It can still run: no free slot, none that `fork` fills in, no process that has exited. -/
def ProcState.Alive (s : ProcState) : Prop := s ≠ .unused ∧ s ≠ .embryo ∧ s ≠ .zombie

instance (s : ProcState) : Decidable s.Alive :=
  inferInstanceAs (Decidable (s ≠ .unused ∧ s ≠ .embryo ∧ s ≠ .zombie))

namespace Ptable

def Waits (pt : Ptable) (p : Slot) : Prop :=
  (pt.proc p).state = .sleeping ∧ (pt.proc p).chan = some (.proc p)

instance (pt : Ptable) (p : Slot) : Decidable (pt.Waits p) :=
  inferInstanceAs (Decidable (_ ∧ _))

structure Tree (pt : Ptable) : Prop where
  root : (pt.proc pt.initproc).pid = 1 ∧ (pt.proc pt.initproc).state.Alive ∧
    (pt.proc pt.initproc).parent = none
  unused : ∀ p, (pt.proc p).state = .unused → (pt.proc p).parent = none
  parent : ∀ p q, (pt.proc p).parent = some q →
    (pt.proc q).state.Alive ∧ (pt.proc q).pid < (pt.proc p).pid
  adopted : ∀ p, (pt.proc p).parent = none → p = pt.initproc ∨ (pt.proc p).state = .unused ∨
    (pt.proc p).state = .embryo
  reported : ∀ p q, (pt.proc p).state = .zombie → (pt.proc p).parent = some q → ¬pt.Waits q
  waits : ∀ q, pt.Waits q → ∃ p, (pt.proc p).parent = some q

/-- Nobody comes, goes, exits or falls asleep in `wait`. -/
structure Kept (pt pt' : Ptable) : Prop where
  initproc : pt'.initproc = pt.initproc
  pid : ∀ p, (pt'.proc p).pid = (pt.proc p).pid
  parent : ∀ p, (pt'.proc p).parent = (pt.proc p).parent
  unused : ∀ p, (pt'.proc p).state = .unused ↔ (pt.proc p).state = .unused
  embryo : ∀ p, (pt'.proc p).state = .embryo ↔ (pt.proc p).state = .embryo
  zombie : ∀ p, (pt'.proc p).state = .zombie ↔ (pt.proc p).state = .zombie
  waits : ∀ p, pt'.Waits p → pt.Waits p

variable {pt pt' : Ptable} {p q : Slot}

theorem Kept.refl (pt : Ptable) : pt.Kept pt :=
  ⟨rfl, fun _ => rfl, fun _ => rfl, fun _ => Iff.rfl, fun _ => Iff.rfl, fun _ => Iff.rfl,
    fun _ h => h⟩

theorem Kept.alive (h : pt.Kept pt') (p : Slot) :
    (pt'.proc p).state.Alive ↔ (pt.proc p).state.Alive := by
  simp only [ProcState.Alive, ne_eq, h.unused, h.embryo, h.zombie]

theorem Kept.modify (pt : Ptable) (p : Slot) {f : Proc → Proc}
    (hpid : (f (pt.proc p)).pid = (pt.proc p).pid)
    (hparent : (f (pt.proc p)).parent = (pt.proc p).parent)
    (hstate : (f (pt.proc p)).state = (pt.proc p).state ∨
      (pt.proc p).state.Alive ∧ (f (pt.proc p)).state.Alive)
    (hwaits : (f (pt.proc p)).state = .sleeping → (f (pt.proc p)).chan = some (.proc p) →
      pt.Waits p) : pt.Kept (pt.modify p f) := by
  have hother {φ : Proc → Proc → Prop} (hself : φ (f (pt.proc p)) (pt.proc p))
      (hrefl : ∀ x, φ x x) (q : Slot) : φ ((pt.modify p f).proc q) (pt.proc q) := by
    by_cases hq : q = p
    · subst hq
      rwa [modify_self]
    · rw [modify_of_ne pt hq]
      exact hrefl _
  have hiff (s : ProcState) (hs : ¬s.Alive) :
      (f (pt.proc p)).state = s ↔ (pt.proc p).state = s := by
    rcases hstate with hsame | ⟨hold, hnew⟩
    · rw [hsame]
    · constructor
      · rintro rfl
        exact absurd hnew hs
      · rintro rfl
        exact absurd hold hs
  refine ⟨rfl, hother (φ := fun x y => x.pid = y.pid) hpid fun _ => rfl,
    hother (φ := fun x y => x.parent = y.parent) hparent fun _ => rfl,
    hother (φ := fun x y => x.state = .unused ↔ y.state = .unused)
      (hiff _ (by simp [ProcState.Alive])) fun _ => Iff.rfl,
    hother (φ := fun x y => x.state = .embryo ↔ y.state = .embryo)
      (hiff _ (by simp [ProcState.Alive])) fun _ => Iff.rfl,
    hother (φ := fun x y => x.state = .zombie ↔ y.state = .zombie)
      (hiff _ (by simp [ProcState.Alive])) fun _ => Iff.rfl, ?_⟩
  rintro q ⟨hsleeping, hchan⟩
  by_cases hq : q = p
  · subst hq
    rw [modify_self] at hsleeping hchan
    exact hwaits hsleeping hchan
  · rw [modify_of_ne pt hq] at hsleeping hchan
    exact ⟨hsleeping, hchan⟩

theorem Tree.kept (h : pt.Tree) (hkept : pt.Kept pt') : pt'.Tree where
  root := by
    rw [hkept.initproc, hkept.pid, hkept.parent, hkept.alive]
    exact h.root
  unused p := by
    rw [hkept.unused, hkept.parent]
    exact h.unused p
  parent p q := by
    rw [hkept.parent, hkept.alive, hkept.pid, hkept.pid]
    exact h.parent p q
  adopted p := by
    rw [hkept.parent, hkept.initproc, hkept.unused, hkept.embryo]
    exact h.adopted p
  reported p q := by
    rw [hkept.zombie, hkept.parent]
    exact fun hzombie hparent hwaits => h.reported p q hzombie hparent (hkept.waits q hwaits)
  waits q hwaits := by
    obtain ⟨p, hp⟩ := h.waits q (hkept.waits q hwaits)
    exact ⟨p, (hkept.parent p).trans hp⟩

theorem Tree.ne_of_parent (h : pt.Tree) (hparent : (pt.proc p).parent = some q) : p ≠ q := by
  rintro rfl
  exact lt_irrefl _ (h.parent p p hparent).2

theorem Tree.root_pid (h : pt.Tree) (hpids : pt.Pids) (hparent : (pt.proc p).parent ≠ none) :
    (pt.proc pt.initproc).pid < (pt.proc p).pid := by
  have hne : p ≠ pt.initproc := by
    rintro rfl
    exact hparent h.root.2.2
  have hused : (pt.proc p).state ≠ .unused := fun hunused => hparent (h.unused p hunused)
  have hpid := hpids.used p hused
  have hbound := (hpids.bound p).1
  have hroot := h.root.1
  have hdistinct : (pt.proc p).pid ≠ (pt.proc pt.initproc).pid :=
    fun heq => hpid (hpids.distinct p _ hne heq)
  omega

/-! ## Writes -/

theorem Kept.wake (pt : Ptable) (p : Slot) (chan : Option Chan) :
    pt.Kept (pt.modify p (wakeSlot chan)) := by
  apply Kept.modify
  · exact (Same.wakeSlot_same chan _).1
  · unfold wakeSlot
    split
    · rfl
    · rfl
  · rcases wakeSlot_state chan (pt.proc p) with hsame | ⟨hsleeping, hrunnable⟩
    · exact .inl hsame
    · exact .inr (by simp [hsleeping, hrunnable, ProcState.Alive])
  · unfold wakeSlot
    split
    · intro hsleeping
      cases hsleeping
    · exact fun hsleeping hchan => ⟨hsleeping, hchan⟩

theorem Kept.wakeAll (pt : Ptable) (chan : Option Chan) :
    pt.Kept { pt with proc := fun q => wakeSlot chan (pt.proc q) } := by
  have hslot (q : Slot) : ({ pt with proc := fun q => wakeSlot chan (pt.proc q) } : Ptable).proc q =
      (pt.modify q (wakeSlot chan)).proc q := by
    rw [modify_self]
  refine ⟨rfl, fun q => ?_, fun q => ?_, fun q => ?_, fun q => ?_, fun q => ?_, fun q hq => ?_⟩
  · rw [hslot]
    exact (Kept.wake pt q chan).pid q
  · rw [hslot]
    exact (Kept.wake pt q chan).parent q
  · rw [hslot]
    exact (Kept.wake pt q chan).unused q
  · rw [hslot]
    exact (Kept.wake pt q chan).embryo q
  · rw [hslot]
    exact (Kept.wake pt q chan).zombie q
  · apply (Kept.wake pt q chan).waits q
    unfold Waits at hq ⊢
    rwa [← hslot]

/-- A write that wakes processes at most moves nobody in the tree, but for `exit`, which gives
away the children of its process. -/
theorem Kept.of_benign {w : Write} (hw : w.Benign) (hadopt : ∀ p cur, w ≠ .adopt p cur)
    (pt : Ptable) : pt.Kept (w.apply pt) := by
  cases w with
  | claim | runnable | zombie | reap | doze => cases hw
  | inherit np p | setPrio np n =>
      simp only [Write.apply]
      exact .modify pt np rfl rfl (.inl rfl) fun hsleeping hchan => ⟨hsleeping, hchan⟩
  | wake p chan => exact .wake pt p chan
  | kill p =>
      simp only [Write.apply]
      apply Kept.modify
      · rfl
      · rfl
      · dsimp only
        split
        · next hsleeping => exact .inr (by simp [hsleeping, ProcState.Alive])
        · exact .inl rfl
      · dsimp only
        split
        · intro hsleeping
          cases hsleeping
        · exact fun hsleeping hchan => ⟨hsleeping, hchan⟩
  | adopt p cur => exact absurd rfl (hadopt p cur)

theorem Tree.claim (h : pt.Tree) {np : Slot} (hunused : (pt.proc np).state = .unused) :
    ((Write.claim np).apply pt).Tree := by
  have hparent := h.unused np hunused
  have hother {q : Slot} (hq : q ≠ np) :
      ((Write.claim np).apply pt).proc q = pt.proc q := by
    simp [Write.apply, hq]
  have hself : ((Write.claim np).apply pt).proc np =
      { pt.proc np with state := .embryo, nice := 0, prio := 0, pid := pt.nextpid } := by
    simp [Write.apply]
  have hkin (q : Slot) :
      (((Write.claim np).apply pt).proc q).parent = (pt.proc q).parent := by
    by_cases hq : q = np
    · rw [hq, hself]
    · rw [hother hq]
  have halive {q : Slot} (hq : (pt.proc q).state.Alive) : q ≠ np := by
    rintro rfl
    exact hq.1 hunused
  have hwaits {q : Slot} (hq : ((Write.claim np).apply pt).Waits q) : q ≠ np ∧ pt.Waits q := by
    have hne : q ≠ np := by
      rintro rfl
      have hstate := hq.1
      rw [hself] at hstate
      cases hstate
    unfold Waits at hq ⊢
    rw [hother hne] at hq
    exact ⟨hne, hq⟩
  have hroot : ((Write.claim np).apply pt).initproc = pt.initproc := rfl
  refine ⟨?_, fun q hq => ?_, fun p q hpq => ?_, fun q hq => ?_, fun p q hp hpq hq => ?_,
    fun q hq => ?_⟩
  · rw [hroot, hother (halive h.root.2.1)]
    exact h.root
  · have hne : q ≠ np := by
      rintro rfl
      rw [hself] at hq
      cases hq
    rw [hother hne] at hq ⊢
    exact h.unused q hq
  · rw [hkin] at hpq
    have hp : p ≠ np := by
      rintro rfl
      rw [hparent] at hpq
      cases hpq
    rw [hother hp, hother (halive (h.parent p q hpq).1)]
    exact h.parent p q hpq
  · by_cases hne : q = np
    · rw [hne, hself]
      exact .inr (.inr rfl)
    · rw [hother hne] at hq ⊢
      exact h.adopted q hq
  · have hne : p ≠ np := by
      rintro rfl
      rw [hself] at hp
      cases hp
    rw [hother hne] at hp hpq
    exact h.reported p q hp hpq (hwaits hq).2
  · obtain ⟨p, hp⟩ := h.waits q (hwaits hq).2
    exact ⟨p, (hkin p).trans hp⟩

/-- The state of one slot changes; its children and its parent allow for it. -/
theorem Tree.setState (h : pt.Tree) (f : Proc → Proc)
    (hpid : (f (pt.proc p)).pid = (pt.proc p).pid)
    (hparent : (f (pt.proc p)).parent = (pt.proc p).parent)
    (hunused : (f (pt.proc p)).state = .unused → (pt.proc p).parent = none)
    (hdead : ¬(f (pt.proc p)).state.Alive →
      p ≠ pt.initproc ∧ ∀ q, (pt.proc q).parent ≠ some p)
    (hadopted : (pt.proc p).parent = none → p = pt.initproc ∨ (f (pt.proc p)).state = .unused ∨
      (f (pt.proc p)).state = .embryo)
    (hzombie : (f (pt.proc p)).state = .zombie → ∀ q, (pt.proc p).parent = some q → ¬pt.Waits q)
    (hwaits : (f (pt.proc p)).state = .sleeping → (f (pt.proc p)).chan = some (.proc p) →
      (∃ q, (pt.proc q).parent = some p) ∧
        ∀ q, (pt.proc q).parent = some p → (pt.proc q).state ≠ .zombie) :
    (pt.modify p f).Tree := by
  have hkin (q : Slot) : ((pt.modify p f).proc q).parent = (pt.proc q).parent := by
    by_cases hq : q = p
    · rw [hq, modify_self, hparent]
    · rw [modify_of_ne pt hq]
  have hage (q : Slot) : ((pt.modify p f).proc q).pid = (pt.proc q).pid := by
    by_cases hq : q = p
    · rw [hq, modify_self, hpid]
    · rw [modify_of_ne pt hq]
  have halive {q : Slot} (hq : (pt.proc q).state.Alive)
      (hneeded : q = pt.initproc ∨ ∃ x, (pt.proc x).parent = some q) :
      ((pt.modify p f).proc q).state.Alive := by
    by_cases hqp : q = p
    · subst hqp
      rw [modify_self]
      by_contra hgone
      obtain ⟨hroot, hnone⟩ := hdead hgone
      rcases hneeded with hinit | ⟨x, hx⟩
      · exact hroot hinit
      · exact hnone x hx
    · rwa [modify_of_ne pt hqp]
  have hsleeps {q : Slot} (hq : (pt.modify p f).Waits q) : q ≠ p ∧ pt.Waits q ∨
      q = p ∧ (f (pt.proc p)).state = .sleeping ∧ (f (pt.proc p)).chan = some (.proc p) := by
    unfold Waits at hq ⊢
    by_cases hqp : q = p
    · subst hqp
      rw [modify_self] at hq
      exact .inr ⟨rfl, hq⟩
    · rw [modify_of_ne pt hqp] at hq
      exact .inl ⟨hqp, hq⟩
  refine ⟨⟨?_, ?_, ?_⟩, fun q hq => ?_, fun x q hx => ?_, fun q hq => ?_, fun x q hx hxq hq => ?_,
    fun q hq => ?_⟩
  · exact (hage _).trans h.root.1
  · exact halive h.root.2.1 (.inl rfl)
  · exact (hkin _).trans h.root.2.2
  · rw [hkin]
    by_cases hqp : q = p
    · rw [hqp, modify_self] at hq
      rw [hqp]
      exact hunused hq
    · rw [modify_of_ne pt hqp] at hq
      exact h.unused q hq
  · rw [hkin] at hx
    rw [hage, hage]
    exact ⟨halive (h.parent x q hx).1 (.inr ⟨x, hx⟩), (h.parent x q hx).2⟩
  · rw [hkin] at hq
    by_cases hqp : q = p
    · subst hqp
      rw [modify_self]
      exact hadopted hq
    · rw [modify_of_ne pt hqp]
      exact h.adopted q hq
  · rw [hkin] at hxq
    by_cases hxp : x = p
    · subst hxp
      rw [modify_self] at hx
      rcases hsleeps hq with ⟨-, hold⟩ | ⟨hself, -⟩
      · exact hzombie hx q hxq hold
      · exact h.ne_of_parent hxq hself.symm
    · rw [modify_of_ne pt hxp] at hx
      rcases hsleeps hq with ⟨-, hold⟩ | ⟨rfl, hsleeping, hchan⟩
      · exact h.reported x q hx hxq hold
      · exact (hwaits hsleeping hchan).2 x hxq hx
  · rcases hsleeps hq with ⟨-, hold⟩ | ⟨rfl, hsleeping, hchan⟩
    · obtain ⟨x, hx⟩ := h.waits q hold
      exact ⟨x, (hkin x).trans hx⟩
    · obtain ⟨x, hx⟩ := (hwaits hsleeping hchan).1
      exact ⟨x, (hkin x).trans hx⟩

theorem Tree.runnable (h : pt.Tree) (hparent : p = pt.initproc ∨ (pt.proc p).parent ≠ none) :
    ((Write.runnable p).apply pt).Tree := by
  simp only [Write.apply]
  apply h.setState
  · rfl
  · rfl
  · intro hunused
    cases hunused
  · intro hdead
    exact absurd (by simp [ProcState.Alive]) hdead
  · exact fun hnone => .inl (hparent.resolve_right fun hsome => hsome hnone)
  · intro hzombie
    cases hzombie
  · intro hsleeping
    cases hsleeping

theorem Tree.zombie (h : pt.Tree) (hstate : (pt.proc p).state.Alive) (hroot : p ≠ pt.initproc)
    (hchildren : ∀ q, (pt.proc q).parent ≠ some p)
    (hparent : ∀ q, (pt.proc p).parent = some q → ¬pt.Waits q) :
    ((Write.zombie p).apply pt).Tree := by
  simp only [Write.apply]
  apply h.setState
  · rfl
  · rfl
  · intro hunused
    cases hunused
  · exact fun _ => ⟨hroot, hchildren⟩
  · intro hnone
    rcases h.adopted p hnone with hinit | hunused | hembryo
    · exact .inl hinit
    · exact absurd hunused hstate.1
    · exact absurd hembryo hstate.2.1
  · exact fun _ => hparent
  · intro hsleeping
    cases hsleeping

/-- A process falls asleep, in `wait` if it has children and none of them has exited. -/
theorem Tree.doze (h : pt.Tree) (hstate : (pt.proc p).state.Alive) {chan : Chan}
    (hwait : chan = .proc p → (∃ q, (pt.proc q).parent = some p) ∧
      ∀ q, (pt.proc q).parent = some p → (pt.proc q).state ≠ .zombie) :
    ((Write.doze p chan).apply pt).Tree := by
  simp only [Write.apply]
  apply h.setState
  · rfl
  · rfl
  · intro hunused
    cases hunused
  · intro hdead
    exact absurd (by simp [ProcState.Alive]) hdead
  · intro hnone
    rcases h.adopted p hnone with hinit | hunused | hembryo
    · exact .inl hinit
    · exact absurd hunused hstate.1
    · exact absurd hembryo hstate.2.1
  · intro hzombie
    cases hzombie
  · exact fun _ hchan => hwait (Option.some.inj hchan)

/-- A `fork` fails before its process has a parent. -/
theorem Tree.fail (h : pt.Tree) (hstate : (pt.proc p).state = .embryo)
    (hparent : (pt.proc p).parent = none) :
    (pt.modify p fun p => { p with state := .unused }).Tree := by
  apply h.setState
  · rfl
  · rfl
  · exact fun _ => hparent
  · intro _
    refine ⟨?_, fun q hq => ?_⟩
    · rintro rfl
      exact h.root.2.1.2.1 hstate
    · exact (h.parent q p hq).1.2.1 hstate
  · exact fun _ => .inr (.inl rfl)
  · intro hzombie
    cases hzombie
  · intro hsleeping
    cases hsleeping

theorem Tree.reap (h : pt.Tree) (hstate : (pt.proc p).state = .zombie) :
    ((Write.reap p).apply pt).Tree := by
  have hother {q : Slot} (hq : q ≠ p) : ((Write.reap p).apply pt).proc q = pt.proc q := by
    simp [Write.apply, hq]
  have hself : ((Write.reap p).apply pt).proc p =
      { pt.proc p with
        pid := 0, parent := none, killed := false, prio := 0, state := .unused } := by
    simp [Write.apply]
  have halive {q : Slot} (hq : (pt.proc q).state.Alive) : q ≠ p := by
    rintro rfl
    exact hq.2.2 hstate
  have hkin {x q : Slot} (hx : (((Write.reap p).apply pt).proc x).parent = some q) :
      x ≠ p ∧ (pt.proc x).parent = some q := by
    have hne : x ≠ p := by
      rintro rfl
      rw [hself] at hx
      cases hx
    rw [hother hne] at hx
    exact ⟨hne, hx⟩
  have hwaits {q : Slot} (hq : ((Write.reap p).apply pt).Waits q) : pt.Waits q := by
    have hne : q ≠ p := by
      rintro rfl
      have hsleeping := hq.1
      rw [hself] at hsleeping
      cases hsleeping
    unfold Waits at hq ⊢
    rwa [hother hne] at hq
  have hroot : ((Write.reap p).apply pt).initproc = pt.initproc := rfl
  refine ⟨?_, fun q hq => ?_, fun x q hx => ?_, fun q hq => ?_, fun x q hx hxq hq => ?_,
    fun q hq => ?_⟩
  · rw [hroot, hother (halive h.root.2.1)]
    exact h.root
  · by_cases hqp : q = p
    · rw [hqp, hself]
    · rw [hother hqp] at hq ⊢
      exact h.unused q hq
  · obtain ⟨hne, hold⟩ := hkin hx
    rw [hother hne, hother (halive (h.parent x q hold).1)]
    exact h.parent x q hold
  · by_cases hqp : q = p
    · rw [hqp, hself]
      exact .inr (.inl rfl)
    · rw [hother hqp] at hq ⊢
      exact h.adopted q hq
  · obtain ⟨hne, hold⟩ := hkin hxq
    rw [hother hne] at hx
    exact h.reported x q hx hold (hwaits hq)
  · -- the parent of `p` is awake, so it is not the one that still waits
    obtain ⟨x, hx⟩ := h.waits q (hwaits hq)
    have hne : x ≠ p := by
      rintro rfl
      exact h.reported x q hstate hx (hwaits hq)
    exact ⟨x, by rwa [hother hne]⟩

/-- `p` gets another parent, which is older and awake if `p` has exited; the parent it had is
not in `wait`. -/
theorem Tree.setParent (h : pt.Tree) (f : Proc → Proc)
    (hpid : (f (pt.proc p)).pid = (pt.proc p).pid)
    (hstate : (f (pt.proc p)).state = (pt.proc p).state)
    (hchan : (f (pt.proc p)).chan = (pt.proc p).chan)
    (hparent : (f (pt.proc p)).parent = some q) (hroot : p ≠ pt.initproc)
    (hused : (pt.proc p).state ≠ .unused) (halive : (pt.proc q).state.Alive)
    (hage : (pt.proc q).pid < (pt.proc p).pid)
    (hawake : (pt.proc p).state = .zombie → ¬pt.Waits q)
    (hold : ∀ x, (pt.proc p).parent = some x → ¬pt.Waits x) : (pt.modify p f).Tree := by
  have hpids (x : Slot) : ((pt.modify p f).proc x).pid = (pt.proc x).pid := by
    by_cases hx : x = p
    · rw [hx, modify_self, hpid]
    · rw [modify_of_ne pt hx]
  have hstates (x : Slot) : ((pt.modify p f).proc x).state = (pt.proc x).state := by
    by_cases hx : x = p
    · rw [hx, modify_self, hstate]
    · rw [modify_of_ne pt hx]
  have hwaits (x : Slot) : (pt.modify p f).Waits x ↔ pt.Waits x := by
    unfold Waits
    rw [hstates]
    by_cases hx : x = p
    · rw [hx, modify_self, hchan]
    · rw [modify_of_ne pt hx]
  have hinit : (pt.modify p f).initproc = pt.initproc := rfl
  refine ⟨?_, fun x hx => ?_, fun x y hx => ?_, fun x hx => ?_, fun x y hx hxy => ?_,
    fun x hx => ?_⟩
  · rw [hinit, modify_of_ne pt hroot.symm]
    exact h.root
  · have hne : x ≠ p := by
      rintro rfl
      exact hused ((hstates x).symm.trans hx)
    rw [hstates] at hx
    rw [modify_of_ne pt hne]
    exact h.unused x hx
  · rw [hstates, hpids, hpids]
    by_cases hxp : x = p
    · subst hxp
      rw [modify_self, hparent] at hx
      obtain rfl := Option.some.inj hx
      exact ⟨halive, hage⟩
    · rw [modify_of_ne pt hxp] at hx
      exact h.parent x y hx
  · rw [hstates]
    by_cases hxp : x = p
    · rw [hxp, modify_self, hparent] at hx
      cases hx
    · rw [modify_of_ne pt hxp] at hx
      exact h.adopted x hx
  · rw [hstates] at hx
    rw [hwaits]
    by_cases hxp : x = p
    · subst hxp
      rw [modify_self, hparent] at hxy
      obtain rfl := Option.some.inj hxy
      exact hawake hx
    · rw [modify_of_ne pt hxp] at hxy
      exact h.reported x y hx hxy
  · rw [hwaits] at hx
    obtain ⟨y, hy⟩ := h.waits x hx
    have hne : y ≠ p := by
      rintro rfl
      exact hold x hy hx
    exact ⟨y, by rwa [modify_of_ne pt hne]⟩

/-- `adopt` leaves the child of another process alone; it wakes `initproc` for a child that has
exited, and then `initproc` is its parent. -/
theorem adopt_cases (pt : Ptable) (p cur : Slot) :
    (pt.proc p).parent ≠ some cur ∧ (Write.adopt p cur).apply pt = pt ∨
      (pt.proc p).parent = some cur ∧ ∃ pt₁, pt.Kept pt₁ ∧
        ((pt.proc p).state = .zombie → ¬pt₁.Waits pt.initproc) ∧
        (Write.adopt p cur).apply pt =
          pt₁.modify p fun p => { p with parent := some pt.initproc } := by
  by_cases hparent : (pt.proc p).parent = some cur
  · refine .inr ⟨hparent, ?_⟩
    by_cases hzombie : (pt.proc p).state = .zombie
    · refine ⟨{ pt with proc := fun q => wakeSlot (some (.proc pt.initproc)) (pt.proc q) },
        .wakeAll pt _, fun _ => ?_, ?_⟩
      · rintro ⟨hsleeping, hchan⟩
        dsimp only at hsleeping hchan
        unfold wakeSlot at hsleeping hchan
        split at hsleeping
        · cases hsleeping
        · next hnot =>
            rw [if_neg hnot] at hchan
            exact hnot ⟨hsleeping, hchan⟩
      · simp only [Write.apply, if_pos hparent, modify_self, if_pos hzombie]
        -- `wakeup1` does not read the parent
        have hslot (q : Slot) : wakeSlot (some (.proc pt.initproc))
            ((pt.modify p fun p => { p with parent := some pt.initproc }).proc q) =
            (({ pt with proc := fun q => wakeSlot (some (.proc pt.initproc)) (pt.proc q) } :
              Ptable).modify p fun p => { p with parent := some pt.initproc }).proc q := by
          by_cases hq : q = p
          · subst hq
            rw [modify_self, modify_self]
            unfold wakeSlot
            dsimp only
            split
            · rfl
            · rfl
          · rw [modify_of_ne _ hq, modify_of_ne _ hq]
        exact congrArg (fun proc => ({ pt with proc := proc } : Ptable)) (funext hslot)
    · refine ⟨pt, .refl pt, fun h => absurd h hzombie, ?_⟩
      simp only [Write.apply, if_pos hparent, modify_self, if_neg hzombie]
  · exact .inl ⟨hparent, by simp only [Write.apply, if_neg hparent]⟩

theorem Tree.adopt (h : pt.Tree) (hpids : pt.Pids) {cur : Slot} (hcur : ¬pt.Waits cur) :
    ((Write.adopt p cur).apply pt).Tree := by
  rcases adopt_cases pt p cur with ⟨-, hsame⟩ | ⟨hparent, pt₁, hkept, hawake, hchanged⟩
  · rwa [hsame]
  · rw [hchanged]
    have htree := h.kept hkept
    have hsome : (pt.proc p).parent ≠ none := by simp [hparent]
    apply htree.setParent
    · rfl
    · rfl
    · rfl
    · rfl
    · rw [hkept.initproc]
      rintro rfl
      exact hsome h.root.2.2
    · rw [ne_eq, hkept.unused]
      exact fun hunused => hsome (h.unused p hunused)
    · exact (hkept.alive _).mpr h.root.2.1
    · rw [hkept.pid, hkept.pid]
      exact h.root_pid hpids hsome
    · rw [hkept.zombie]
      exact hawake
    · intro x hx hwaits
      rw [hkept.parent, hparent] at hx
      obtain rfl := Option.some.inj hx
      exact hcur (hkept.waits _ hwaits)

structure Kin (w : Write) (pt pt' : Ptable) : Prop where
  initproc : pt'.initproc = pt.initproc
  adopted : ∀ p cur, w = .adopt p cur → (pt.proc p).parent = some cur →
    (pt'.proc p).parent = some pt.initproc
  parent : ∀ p, (∀ cur, w = .adopt p cur → (pt.proc p).parent ≠ some cur) →
    (pt'.proc p).parent = (pt.proc p).parent
  waits : ∀ q, pt'.Waits q → pt.Waits q ∧ w ≠ .wake q (some (.proc q))

theorem Kin.of_kept {w : Write} (hkept : pt.Kept pt') (hadopt : ∀ p cur, w ≠ .adopt p cur)
    (hwake : ∀ q, pt'.Waits q → w ≠ .wake q (some (.proc q))) : Kin w pt pt' where
  initproc := hkept.initproc
  adopted p cur hw := absurd hw (hadopt p cur)
  parent p _ := hkept.parent p
  waits q hq := ⟨hkept.waits q hq, hwake q hq⟩

theorem Kin.of_benign {w : Write} (hw : w.Benign) (pt : Ptable) : Kin w pt (w.apply pt) := by
  cases w with
  | claim | runnable | zombie | reap | doze => cases hw
  | inherit | setPrio | kill =>
      exact .of_kept (.of_benign hw (by simp) pt) (by simp) (by simp)
  | wake p chan =>
      refine .of_kept (.of_benign hw (by simp) pt) (by simp) fun q hq heq => ?_
      obtain ⟨rfl, rfl⟩ := Write.wake.inj heq
      obtain ⟨hsleeping, hchan⟩ := hq
      simp only [Write.apply, modify_self] at hsleeping hchan
      unfold wakeSlot at hsleeping hchan
      split at hsleeping
      · cases hsleeping
      · next hnot =>
          rw [if_neg hnot] at hchan
          exact hnot ⟨hsleeping, hchan⟩
  | adopt p cur =>
      rcases adopt_cases pt p cur with ⟨hother, hsame⟩ | ⟨hparent, pt₁, hkept, -, hchanged⟩
      · rw [hsame]
        refine ⟨rfl, fun q x hq hx => ?_, fun _ _ => rfl, fun q hq => ⟨hq, by simp⟩⟩
        obtain ⟨rfl, rfl⟩ := Write.adopt.inj hq
        exact absurd hx hother
      · rw [hchanged]
        refine ⟨hkept.initproc, fun q x hq hx => ?_, fun q hq => ?_, fun q hq => ⟨?_, by simp⟩⟩
        · obtain ⟨rfl, rfl⟩ := Write.adopt.inj hq
          rw [modify_self]
        · have hne : q ≠ p := by
            rintro rfl
            exact hq cur rfl hparent
          rw [modify_of_ne _ hne]
          exact hkept.parent q
        · apply hkept.waits q
          unfold Waits at hq ⊢
          rwa [field_modify (·.state) (by simp) q, field_modify (·.chan) (by simp) q] at hq

end Ptable

end Os20.Xv6
