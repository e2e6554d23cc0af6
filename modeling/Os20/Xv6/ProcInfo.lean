import Os20.Xv6.Boot

/-!
# `get_proc_info`

The lookup compares the `pid` field of every slot and never looks at the state.  No two
processes have the same pid, and `wait` clears the field of the slot it gives back; but a slot
that was never used has pid 0, and a `fork` that fails leaves its pid behind.
-/

namespace Os20.Xv6

open Os20.Lib.Transition

structure ProcessInfo where
  ppid : Int
  psize : Int32
  numberContextSwitches : Int32
  deriving DecidableEq

namespace Ptable

/-- What `get_proc_info` stores of the process in slot `p`. -/
def info (pt : Ptable) (p : Slot) : ProcessInfo where
  ppid :=
    match (pt.proc p).parent with
    | some parent => (pt.proc parent).pid
    | none => 0
  psize := Int32.ofNat (pt.proc p).sz
  numberContextSwitches := (pt.proc p).nice.toInt32

/-- `get_proc_info`: its return value and `*pInfo` -/
def getProcInfo (pt : Ptable) (pid : Int) (pInfo : ProcessInfo) : Int × ProcessInfo :=
  match pt.findPid pid with
  | some p => (0, pt.info p)
  | none => (-1, pInfo)

def Hosts (pt : Ptable) (p : Slot) (pid : Int) : Prop :=
  (pt.proc p).state ≠ .unused ∧ (pt.proc p).pid = pid

/-- `get_proc_info` describes the process `pid` if there is one, and returns -1 with `*pInfo`
untouched if there is none. -/
def Reports (pt : Ptable) (pid : Int) : Prop :=
  ∀ pInfo, (∀ p, pt.Hosts p pid → pt.getProcInfo pid pInfo = (0, pt.info p)) ∧
    ((∀ p, ¬pt.Hosts p pid) → pt.getProcInfo pid pInfo = (-1, pInfo))

/-- Processes have different pids, all of them given out by `nextpid`. -/
structure Pids (pt : Ptable) : Prop where
  positive : 0 < pt.nextpid
  bound : ∀ p, 0 ≤ (pt.proc p).pid ∧ (pt.proc p).pid < pt.nextpid
  used : ∀ p, (pt.proc p).state ≠ .unused → (pt.proc p).pid ≠ 0
  distinct : ∀ p q, p ≠ q → (pt.proc p).pid = (pt.proc q).pid → (pt.proc p).pid = 0

/-- A slot without a process has no pid. -/
def Vacant (pt : Ptable) : Prop := ∀ p, (pt.proc p).state = .unused → (pt.proc p).pid = 0

variable {pt pt' : Ptable} {p : Slot} {pid : Int}

theorem findPid_eq_some (h : pt.findPid pid = some p) : (pt.proc p).pid = pid := by
  have hfound := List.find?_some h
  simpa using hfound

theorem findPid_eq_none_iff : pt.findPid pid = none ↔ ∀ p, (pt.proc p).pid ≠ pid := by
  simp [findPid, List.find?_eq_none]

/-! ## The lookup -/

theorem Reports.findPid_eq_none (h : pt.Reports pid) (hnone : ∀ p, ¬pt.Hosts p pid) :
    pt.findPid pid = none := by
  have hcall := (h ⟨0, 0, 0⟩).2 hnone
  unfold getProcInfo at hcall
  cases hfind : pt.findPid pid with
  | none => rfl
  | some q =>
      rw [hfind] at hcall
      cases (Prod.mk.inj hcall).1

/-- Where pids differ, the lookup goes wrong exactly on the field of a slot that is not used. -/
theorem Pids.reports_iff (h : pt.Pids) :
    pt.Reports pid ↔ ∀ p, (pt.proc p).state = .unused → (pt.proc p).pid ≠ pid := by
  constructor
  · rintro hreports p hunused rfl
    -- no process has the pid of an unused slot
    have hnone : ∀ q, ¬pt.Hosts q (pt.proc p).pid := by
      rintro q ⟨hused, hpid⟩
      have hne : q ≠ p := by
        rintro rfl
        exact hused hunused
      exact h.used q hused (h.distinct q p hne hpid)
    exact findPid_eq_none_iff.mp (hreports.findPid_eq_none hnone) p rfl
  · intro hvacant pInfo
    have hhosts : ∀ q, (pt.proc q).pid = pid → pt.Hosts q pid := by
      intro q hq
      exact ⟨fun hunused => hvacant q hunused hq, hq⟩
    unfold getProcInfo
    cases hfind : pt.findPid pid with
    | none =>
        refine ⟨?_, fun _ => rfl⟩
        rintro p ⟨-, hpid⟩
        exact absurd hpid (findPid_eq_none_iff.mp hfind p)
    | some q =>
        have hq := hhosts q (findPid_eq_some hfind)
        refine ⟨?_, fun hnone => absurd hq (hnone q)⟩
        rintro p ⟨hused, hpid⟩
        obtain rfl : p = q := by
          by_contra hne
          exact h.used p hused (h.distinct p q hne (hpid.trans hq.2.symm))
        rfl

/-! ## Pids stay different -/

/-- A step that gives out no pid. -/
theorem Pids.congr (h : pt.Pids) (hnextpid : pt'.nextpid = pt.nextpid)
    (hpid : ∀ p, (pt'.proc p).pid = (pt.proc p).pid)
    (hused : ∀ p, (pt'.proc p).state ≠ .unused → (pt.proc p).state ≠ .unused) : pt'.Pids where
  positive := by rw [hnextpid]; exact h.positive
  bound p := by rw [hpid, hnextpid]; exact h.bound p
  used p hp := by rw [hpid]; exact h.used p (hused p hp)
  distinct p q hne heq := by
    rw [hpid, hpid] at heq
    rw [hpid]
    exact h.distinct p q hne heq

theorem Pids.update (h : pt.Pids) (np : Slot) (hsame : ∀ p, p ≠ np → pt'.proc p = pt.proc p)
    (hnextpid : pt.nextpid ≤ pt'.nextpid)
    (hnew : (pt'.proc np).pid = pt.nextpid ∧ pt.nextpid < pt'.nextpid ∨
      (pt'.proc np).pid = 0 ∧ (pt'.proc np).state = .unused) : pt'.Pids := by
  have hpos := h.positive
  refine ⟨by omega, fun p => ?_, fun p hp => ?_, fun p q hne heq => ?_⟩
  · have hbound := h.bound p
    by_cases hp : p = np
    · rw [hp]
      omega
    · rw [hsame p hp]
      omega
  · by_cases hnp : p = np
    · rw [hnp] at hp ⊢
      rcases hnew with ⟨hpid, -⟩ | ⟨-, hunused⟩
      · omega
      · exact absurd hunused hp
    · rw [hsame p hnp] at hp ⊢
      exact h.used p hp
  · -- the new pid is above all others
    have hp := h.bound p
    have hq := h.bound q
    by_cases hpn : p = np
    · have hqn : q ≠ np := fun hqn => hne (hpn.trans hqn.symm)
      rw [hsame q hqn] at heq
      rw [hpn] at heq ⊢
      omega
    · rw [hsame p hpn] at heq ⊢
      by_cases hqn : q = np
      · rw [hqn] at heq
        omega
      · rw [hsame q hqn] at heq
        exact h.distinct p q hne heq

theorem Pids.boot (hboot : userinit .zero = some pt) : pt.Pids := by
  obtain ⟨hnextpid, ⟨hpid, -⟩, -, hother⟩ := boot_table hboot
  refine ⟨by omega, fun p => ?_, fun p hp => ?_, fun p q hne heq => ?_⟩
  · by_cases hp : p = pt.initproc
    · rw [hp]
      omega
    · rw [(hother p hp).1]
      omega
  · by_cases hp' : p = pt.initproc
    · rw [hp']
      omega
    · exact absurd (hother p hp').2 hp
  · by_cases hp : p = pt.initproc
    · have hq : q ≠ pt.initproc := fun hq => hne (hp.trans hq.symm)
      rw [heq, (hother q hq).1]
    · exact (hother p hp).1

theorem Vacant.boot (hboot : userinit .zero = some pt) : pt.Vacant := by
  obtain ⟨-, ⟨-, hstate⟩, -, hother⟩ := boot_table hboot
  intro p hp
  by_cases hp' : p = pt.initproc
  · rw [hp', hstate] at hp
    cases hp
  · exact (hother p hp').1

end Ptable

variable {C : Type*} [DecidableEq C] {k k' : Kernel C} {e : Event C}

omit [DecidableEq C] in
theorem Ptable.Pids.turnover (h : k.ptable.Pids) (hturn : k.Turnover e k') : k'.ptable.Pids := by
  cases hturn with
  | same hclaimed hsame =>
      refine h.congr hsame.nextpid hsame.pid fun p hp => ?_
      rwa [ne_eq, ← hsame.unused p]
  | claim np hclaimed hunused hptable =>
      rw [hptable]
      refine h.update np (fun p hp => ?_) (Int.le_add_one (le_refl _))
        (Or.inl ⟨?_, Int.lt_succ _⟩)
      · simp [Write.apply, Ptable.modify_of_ne _ hp]
      · simp [Write.apply]
  | reap p hclaimed hptable =>
      rw [hptable]
      refine h.update p (fun q hq => ?_) (le_refl _) (Or.inr ⟨?_, ?_⟩)
      · simp [Write.apply, Ptable.modify_of_ne _ hq]
      · simp [Write.apply]
      · simp [Write.apply]
  | fail c np he hptable =>
      rw [hptable]
      refine h.congr rfl (Ptable.field_modify (·.pid) fun _ => rfl) fun p hp => ?_
      rwa [← Ptable.modify_of_used (fun _ => rfl) hp]
  | count c p highest he hcpu hptable =>
      rw [hptable]
      refine h.congr rfl (Ptable.field_modify (·.pid) fun _ => rfl) fun q hq => ?_
      have hstate : ((k.ptable.modify p fun p => { p with nice := p.nice + 1 }).proc q).state =
          (k.ptable.proc q).state := Ptable.field_modify (·.state) (by simp) q
      rwa [hstate] at hq

theorem pids (hreach : (fromBoot C).Reachable k) : k.ptable.Pids := by
  induction hreach with
  | init hinit => exact .boot hinit.2.1
  | step e hreach _ hnext ih =>
      exact ih.turnover (Kernel.turnover (orderly (reachable_booted hreach)) hnext)

/-! ## Forks that fail -/

def Event.forkFails : Event C → Bool
  | .call _ .forkFails => true
  | _ => false

def forkSucceeds (_ : Kernel C) (e : Event C) : Prop := e.forkFails = false

instance (k : Kernel C) (e : Event C) : Decidable (forkSucceeds k e) :=
  inferInstanceAs (Decidable (_ = _))

omit [DecidableEq C] in
theorem Ptable.Vacant.turnover (h : k.ptable.Vacant) (hok : forkSucceeds k e)
    (hturn : k.Turnover e k') : k'.ptable.Vacant := by
  intro q hq
  cases hturn with
  | same hclaimed hsame =>
      rw [hsame.pid]
      exact h q ((hsame.unused q).mp hq)
  | claim np hclaimed hunused hptable =>
      rw [hptable] at hq ⊢
      by_cases hnp : q = np
      · simp [Write.apply, hnp] at hq
      · simp only [Write.apply, Ptable.modify_of_ne _ hnp] at hq ⊢
        exact h q hq
  | reap p hclaimed hptable =>
      rw [hptable] at hq ⊢
      by_cases hqp : q = p
      · simp [Write.apply, hqp]
      · simp only [Write.apply, Ptable.modify_of_ne _ hqp] at hq ⊢
        exact h q hq
  | fail c np he hptable =>
      rw [he] at hok
      cases hok
  | count c p highest he hcpu hptable =>
      have hstate : ((k.ptable.modify p fun p => { p with nice := p.nice + 1 }).proc q).state =
          (k.ptable.proc q).state := Ptable.field_modify (·.state) (by simp) q
      have hpid : ((k.ptable.modify p fun p => { p with nice := p.nice + 1 }).proc q).pid =
          (k.ptable.proc q).pid := Ptable.field_modify (·.pid) (by simp) q
      rw [hptable, hstate] at hq
      rw [hptable, hpid]
      exact h q hq

theorem vacant (hreach : (fromBoot C).ReachableWhere forkSucceeds k) : k.ptable.Vacant := by
  induction hreach with
  | init hinit => exact .boot hinit.2.1
  | step e hreach hok hnext ih =>
      exact ih.turnover hok (Kernel.turnover (orderly (reachable_booted hreach)) hnext)

/-- The lookup is right about `pid` if and only if no slot without a process has that pid.  If
no `fork` fails, it is right about every pid but 0. -/
theorem getProcInfo_reports :
    (∀ k : Kernel C, (fromBoot C).Reachable k → ∀ pid,
      k.ptable.Reports pid ↔
        ∀ p, (k.ptable.proc p).state = .unused → (k.ptable.proc p).pid ≠ pid) ∧
    ∀ k : Kernel C, (fromBoot C).ReachableWhere forkSucceeds k → ∀ pid, pid ≠ 0 →
      k.ptable.Reports pid := by
  constructor
  · intro k hreach pid
    exact (pids hreach).reports_iff
  · intro k hreach pid hpid
    rw [(pids hreach.reachable).reports_iff]
    intro p hunused heq
    exact hpid (heq.symm.trans (vacant hreach p hunused))

open Event in
/-- The first process is switched to and calls `fork`, which gets a slot and pid 2. -/
def firstFork : List (Event Unit) :=
  List.replicate 67 (scheduler ()) ++ [resume (), call () .allocproc, write (), write ()]

/-- The new process is reported, and a pid that is still to come is not found. -/
theorem getProcInfo_reports_firstFork :
    ∃ k, (fromBoot Unit).ReachableWhere forkSucceeds k ∧
      (k.ptable.proc ⟨1, by decide⟩).state = .embryo ∧
      (k.ptable.proc ⟨1, by decide⟩).pid = 2 ∧ k.ptable.Reports 2 ∧ k.ptable.Reports 3 := by
  obtain ⟨k, hreach, htest⟩ := System.exists_reachableWhere_of_run (M := fromBoot Unit)
    forkSucceeds firstFork
    (fun k : Kernel Unit => decide ((k.ptable.proc ⟨1, by decide⟩).state = .embryo ∧
      (k.ptable.proc ⟨1, by decide⟩).pid = 2 ∧
      ∀ p, (k.ptable.proc p).state = .unused → (k.ptable.proc p).pid ≠ 3))
    bootKernel_init (by decide +kernel)
  obtain ⟨hstate, hpid, hvacant⟩ := of_decide_eq_true htest
  have hreports := getProcInfo_reports (C := Unit)
  exact ⟨k, hreach, hstate, hpid, hreports.2 k hreach 2 (by decide),
    (hreports.1 k hreach.reachable 3).mpr hvacant⟩

/-- The fork fails: no process has pid 2, and `get_proc_info(2)` returns 0.  So does
`get_proc_info(0)`, in every state with a slot that was never used. -/
theorem exists_stale_pid :
    ∃ k, (fromBoot Unit).Reachable k ∧ (∀ p, ¬k.ptable.Hosts p 2) ∧
      (∀ pInfo, (k.ptable.getProcInfo 2 pInfo).1 = 0) ∧ ¬k.ptable.Reports 2 ∧
      ¬k.ptable.Reports 0 := by
  obtain ⟨k, hreach, htest⟩ := System.exists_reachable_of_run (M := fromBoot Unit)
    (firstFork ++ [.call () .forkFails])
    (fun k : Kernel Unit => decide ((∀ p, (k.ptable.proc p).state = .unused ∨
        (k.ptable.proc p).pid ≠ 2 ∧ (k.ptable.proc p).pid ≠ 0) ∧
      (k.ptable.findPid 2).isSome = true ∧ (k.ptable.findPid 0).isSome = true))
    bootKernel_init (by decide +kernel)
  obtain ⟨hnone, hfound, hzero⟩ := of_decide_eq_true htest
  have hno : ∀ pid, pid = 2 ∨ pid = 0 → ∀ p, ¬k.ptable.Hosts p pid := by
    rintro pid hpid p ⟨hused, rfl⟩
    have hother := (hnone p).resolve_left hused
    omega
  refine ⟨k, hreach, hno 2 (Or.inl rfl), fun pInfo => ?_, fun hreports => ?_, fun hreports => ?_⟩
  · obtain ⟨q, hq⟩ := Option.isSome_iff_exists.mp hfound
    rw [Ptable.getProcInfo, hq]
  · rw [hreports.findPid_eq_none (hno 2 (Or.inl rfl))] at hfound
    cases hfound
  · rw [hreports.findPid_eq_none (hno 0 (Or.inr rfl))] at hzero
    cases hzero

end Os20.Xv6
