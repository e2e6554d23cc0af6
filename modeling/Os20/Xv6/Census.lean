import Os20.Xv6.Parents

/-!
# Counting the processes

`get_num_proc`, `get_max_pid` and the table that `getprocinfo_test` prints with
`get_proc_info`.  The program asks for the pids below `NPROC` only, and pids are not used
again, so that from the 64th process on the table can be incomplete.
-/

namespace Os20.Xv6

open Os20.Lib.Transition

namespace Ptable

def getNumProc (pt : Ptable) : Int :=
  (List.finRange nproc).foldl
    (fun numProc p => if (pt.proc p).state = .unused then numProc else numProc + 1) 0

def getMaxPid (pt : Ptable) : Int :=
  (List.finRange nproc).foldl
    (fun maxPid p =>
      if (pt.proc p).state = .unused then maxPid
      else if maxPid > (pt.proc p).pid then maxPid else (pt.proc p).pid) 0

/-- The lines of `getprocinfo_test`, while the table does not change. -/
def getprocinfoTest (pt : Ptable) (pInfo : ProcessInfo) : List (Int × ProcessInfo) :=
  (List.range' 1 (nproc - 1)).filterMap fun pid : Nat =>
    if (pt.getProcInfo pid pInfo).1 = -1 then none
    else some (pid, (pt.getProcInfo pid pInfo).2)

def used (pt : Ptable) : List Slot :=
  (List.finRange nproc).filter fun p => (pt.proc p).state ≠ .unused

variable {pt : Ptable} {p : Slot}

theorem mem_used : p ∈ pt.used ↔ (pt.proc p).state ≠ .unused := by
  simp [used]

theorem getNumProc_eq (pt : Ptable) : pt.getNumProc = pt.used.length := by
  have hloop (ps : List Slot) (n : Int) :
      ps.foldl (fun numProc p => if (pt.proc p).state = .unused then numProc else numProc + 1) n =
        n + (ps.filter fun p => (pt.proc p).state ≠ .unused).length := by
    induction ps generalizing n with
    | nil => simp
    | cons p ps ih =>
        rw [List.foldl_cons, ih]
        by_cases hp : (pt.proc p).state = .unused
        · simp [hp]
        · rw [if_neg hp, List.filter_cons_of_pos (by simpa using hp), List.length_cons]
          omega
  rw [getNumProc, hloop, Int.zero_add]
  rfl

theorem maxPid_loop (pt : Ptable) (ps : List Slot) (m : Int) :
    let n := ps.foldl (fun maxPid p =>
      if (pt.proc p).state = .unused then maxPid
      else if maxPid > (pt.proc p).pid then maxPid else (pt.proc p).pid) m
    m ≤ n ∧ (∀ p ∈ ps, (pt.proc p).state ≠ .unused → (pt.proc p).pid ≤ n) ∧
      (n = m ∨ ∃ p ∈ ps, (pt.proc p).state ≠ .unused ∧ (pt.proc p).pid = n) := by
  induction ps generalizing m with
  | nil => simp
  | cons p ps ih =>
      simp only [List.foldl_cons]
      by_cases hp : (pt.proc p).state = .unused
      · rw [if_pos hp]
        obtain ⟨hle, hall, hor⟩ := ih m
        refine ⟨hle, List.forall_mem_cons.mpr ⟨fun hne => absurd hp hne, hall⟩, hor.imp_right ?_⟩
        rintro ⟨q, hq, hval⟩
        exact ⟨q, List.mem_cons_of_mem _ hq, hval⟩
      · rw [if_neg hp]
        obtain ⟨hle, hall, hor⟩ := ih (if m > (pt.proc p).pid then m else (pt.proc p).pid)
        have hmax : m ≤ (if m > (pt.proc p).pid then m else (pt.proc p).pid) ∧
            (pt.proc p).pid ≤ (if m > (pt.proc p).pid then m else (pt.proc p).pid) := by
          split
          · omega
          · omega
        refine ⟨hmax.1.trans hle, List.forall_mem_cons.mpr ⟨fun _ => hmax.2.trans hle, hall⟩, ?_⟩
        rcases hor with heq | ⟨q, hq, hval⟩
        · rw [heq]
          split
          · exact .inl rfl
          · exact .inr ⟨p, List.mem_cons_self .., hp, rfl⟩
        · exact .inr ⟨q, List.mem_cons_of_mem _ hq, hval⟩

theorem le_getMaxPid (hp : (pt.proc p).state ≠ .unused) : (pt.proc p).pid ≤ pt.getMaxPid :=
  (maxPid_loop pt (List.finRange nproc) 0).2.1 p (List.mem_finRange p) hp

theorem Pids.exists_maxPid (h : pt.Pids) (hp : (pt.proc p).state ≠ .unused) :
    ∃ q, (pt.proc q).state ≠ .unused ∧ (pt.proc q).pid = pt.getMaxPid := by
  rcases (maxPid_loop pt (List.finRange nproc) 0).2.2 with hzero | ⟨q, -, hq⟩
  · have hle : (pt.proc p).pid ≤ 0 := (le_getMaxPid hp).trans hzero.le
    have hpid := h.used p hp
    have hbound := (h.bound p).1
    omega
  · exact ⟨q, hq⟩

/-- A pid is found where no slot without a process has it. -/
theorem Vacant.getProcInfo_eq (h : pt.Vacant) (hpids : pt.Pids) {pid : Int} (hpid : pid ≠ 0)
    (pInfo : ProcessInfo) :
    (∀ p, pt.Hosts p pid → pt.getProcInfo pid pInfo = (0, pt.info p)) ∧
      ((∀ p, ¬pt.Hosts p pid) → pt.getProcInfo pid pInfo = (-1, pInfo)) := by
  refine (hpids.reports_iff.mpr fun q hunused heq => ?_) pInfo
  exact hpid (heq.symm.trans (h q hunused))

theorem mem_getprocinfoTest (h : pt.Vacant) (hpids : pt.Pids) (pInfo : ProcessInfo)
    (line : Int × ProcessInfo) :
    line ∈ pt.getprocinfoTest pInfo ↔
      ∃ p ∈ pt.used, (pt.proc p).pid < nproc ∧ ((pt.proc p).pid, pt.info p) = line := by
  have hcall (pid : Int) (hpid : pid ≠ 0) := h.getProcInfo_eq hpids hpid pInfo
  simp only [getprocinfoTest, List.mem_filterMap, List.mem_range'_1]
  constructor
  · rintro ⟨pid, ⟨hlow, hhigh⟩, hline⟩
    split at hline
    · cases hline
    · next hfound =>
        have hhosts : ∃ p, pt.Hosts p pid := by
          by_contra hnone
          exact hfound (by rw [(hcall pid (by omega)).2 (not_exists.mp hnone)])
        obtain ⟨p, hused, hpid⟩ := hhosts
        refine ⟨p, mem_used.mpr hused, by omega, ?_⟩
        rw [(hcall pid (by omega)).1 p ⟨hused, hpid⟩] at hline
        rw [hpid]
        exact Option.some.inj hline
  · rintro ⟨p, hp, hlt, rfl⟩
    have hused := mem_used.mp hp
    have hpid := hpids.used p hused
    have hbound := (hpids.bound p).1
    refine ⟨(pt.proc p).pid.toNat, by unfold nproc at hlt ⊢; omega, ?_⟩
    rw [Int.toNat_of_nonneg hbound, (hcall _ hpid).1 p ⟨hused, rfl⟩]
    simp

theorem getprocinfoTest_perm (h : pt.Vacant) (hpids : pt.Pids) (pInfo : ProcessInfo) :
    (pt.getprocinfoTest pInfo).Perm
      ((pt.used.filter fun p => (pt.proc p).pid < nproc).map fun p =>
        ((pt.proc p).pid, pt.info p)) := by
  apply (List.perm_ext_iff_of_nodup ?_ ?_).mpr
  · intro line
    simp only [mem_getprocinfoTest h hpids, List.mem_map, List.mem_filter, decide_eq_true_eq,
      and_assoc]
  · -- every pid is asked for once
    apply List.Nodup.filterMap
    · intro pid pid' line hline hline'
      split at hline
      · cases hline
      · split at hline'
        · cases hline'
        · have heq :=
            congrArg Prod.fst ((Option.some.inj hline).trans (Option.some.inj hline').symm)
          exact Int.ofNat.inj heq
    · exact List.nodup_range'
  · apply List.Nodup.map_on
    · intro p hp q hq heq
      by_contra hne
      have hused := mem_used.mp (List.mem_filter.mp hp).1
      exact hpids.used p hused (hpids.distinct p q hne (congrArg Prod.fst heq))
    · exact ((List.nodup_finRange nproc).filter _).filter _

end Ptable

variable {C : Type*} [DecidableEq C] {k : Kernel C}

/-- While no `fork` fails: `get_max_pid` is the largest pid of a process; `getprocinfo_test`
prints one line for each process with a pid below `NPROC`, as many as `get_num_proc` counts if
and only if `get_max_pid` is below `NPROC`. -/
theorem getprocinfoTest_complete_iff (hreach : (fromBoot C).ReachableWhere forkSucceeds k)
    (pInfo : ProcessInfo) :
    (∃ p, (k.ptable.proc p).state ≠ .unused ∧ (k.ptable.proc p).pid = k.ptable.getMaxPid) ∧
      (∀ p, (k.ptable.proc p).state ≠ .unused → (k.ptable.proc p).pid ≤ k.ptable.getMaxPid) ∧
      (k.ptable.getprocinfoTest pInfo).Perm
        ((k.ptable.used.filter fun p => (k.ptable.proc p).pid < nproc).map fun p =>
          ((k.ptable.proc p).pid, k.ptable.info p)) ∧
      (((k.ptable.getprocinfoTest pInfo).length : Int) = k.ptable.getNumProc ↔
        k.ptable.getMaxPid < nproc) := by
  have hpids := pids hreach.reachable
  have hperm := Ptable.getprocinfoTest_perm (vacant hreach) hpids pInfo
  have hroot : (k.ptable.proc k.ptable.initproc).state ≠ .unused :=
    (family hreach.reachable).tree.root.2.1.1
  obtain ⟨q, hq, hmax⟩ := hpids.exists_maxPid hroot
  refine ⟨⟨q, hq, hmax⟩, fun p hp => Ptable.le_getMaxPid hp, hperm, ?_⟩
  rw [Ptable.getNumProc_eq, hperm.length_eq, List.length_map, Int.ofNat_inj,
    List.length_filter_eq_length_iff]
  constructor
  · intro hall
    rw [← hmax]
    simpa using hall q (Ptable.mem_used.mpr hq)
  · intro hlt p hp
    have hle := Ptable.le_getMaxPid (Ptable.mem_used.mp hp)
    simpa using lt_of_le_of_lt hle hlt

/-- After the first `fork` there are two processes, and both are printed. -/
theorem getprocinfoTest_firstFork :
    ∃ k, (fromBoot Unit).ReachableWhere forkSucceeds k ∧ k.ptable.getMaxPid = 2 ∧
      ((k.ptable.getprocinfoTest ⟨0, 0, 0⟩).length : Int) = k.ptable.getNumProc := by
  obtain ⟨k, hreach, htest⟩ := System.exists_reachableWhere_of_run (M := fromBoot Unit)
    forkSucceeds firstFork (fun k : Kernel Unit => decide (k.ptable.getMaxPid = 2))
    bootKernel_init (by decide +kernel)
  have hmax := of_decide_eq_true htest
  have hcensus := getprocinfoTest_complete_iff hreach ⟨0, 0, 0⟩
  refine ⟨k, hreach, hmax, hcensus.2.2.2.mpr ?_⟩
  rw [hmax]
  decide

end Os20.Xv6
