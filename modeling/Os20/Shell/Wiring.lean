import Mathlib.Data.Set.Basic
import Mathlib.Logic.Function.Basic
import Mathlib.Tactic.Common
import Os20.Lib.Descriptors

/-!
# The pipes of a line

`main` of `ssu_shell.c` opens one pipe for every command before it forks, and every child
inherits them all.  Child `cmdc`, counted from 1, reads from pipe `cmdc - 1` and writes to
pipe `cmdc`; no child uses pipe 0.  The shell closes both ends of every pipe, a child
closes those of the pipes below `cmdc`, so the later ones stay open in it.
-/

namespace Os20.Shell

open Lib.Descriptors

/-- What a descriptor refers to: a file that was open before the line, or an end of one of
the pipes. -/
inductive Target (α : Type*) where
  | other (file : α)
  | readEnd (i : Nat)
  | writeEnd (i : Nat)
  deriving DecidableEq

def Target.IsEnd {α : Type*} : Target α → Prop
  | .other _ => False
  | .readEnd _ | .writeEnd _ => True

/-- The shell between two lines. -/
structure Idle (α : Type*) where
  table : Table (Target α)
  stdin : (table.get 0).isSome
  stdout : (table.get 1).isSome
  noEnds : ∀ fd x, table.get fd = some x → ¬x.IsEnd

variable {α : Type*}

/-! ## main -/

structure Opened (α : Type*) where
  table : Table (Target α)
  pipefds : Nat → Nat × Nat

/-- The loop that opens `cmdLength` pipes. -/
def openPipes (shell : Idle α) : Nat → Opened α
  | 0 => { table := shell.table, pipefds := fun _ => (0, 0) }
  | i + 1 =>
    let opened := openPipes shell i
    let made := opened.table.pipe (.readEnd i) (.writeEnd i)
    { table := made.2.2
      pipefds := Function.update opened.pipefds i (made.1, made.2.1) }

/-- A loop that closes both ends of the first pipes. -/
def closePipes (pipefds : Nat → Nat × Nat) : Nat → Table (Target α) → Table (Target α)
  | 0, t => t
  | i + 1, t => ((closePipes pipefds i t).close (pipefds i).1).close (pipefds i).2

def dupStdin (opened : Opened α) (cmdc : Nat) (t : Table (Target α)) : Table (Target α) :=
  if cmdc ≠ 1 then t.dup2 (opened.pipefds (cmdc - 1)).1 0 else t

def dupStdout (opened : Opened α) (cmdLength cmdc : Nat) (t : Table (Target α)) :
    Table (Target α) :=
  if cmdc ≠ cmdLength then t.dup2 (opened.pipefds cmdc).2 1 else t

/-- What child `cmdc` of `cmdLength` has open when it calls `execvp`. -/
def childTable (shell : Idle α) (cmdLength cmdc : Nat) : Table (Target α) :=
  let opened := openPipes shell cmdLength
  let t := dupStdin opened cmdc opened.table
  let t := dupStdout opened cmdLength cmdc t
  closePipes opened.pipefds cmdc t

/-- What the shell has open when it waits for the children. -/
def shellTable (shell : Idle α) (cmdLength : Nat) : Table (Target α) :=
  let opened := openPipes shell cmdLength
  closePipes opened.pipefds cmdLength opened.table

/-! ## A wired pipeline -/

/-- Child `k` of `n` has its neighbours on its standard descriptors and no pipe on another. -/
structure Wired (shell : Idle α) (n k : Nat) : Prop where
  stdin_first : k = 1 → (childTable shell n k).get 0 = shell.table.get 0
  stdin : k ≠ 1 → ∃ i, (childTable shell n k).get 0 = some (.readEnd i) ∧
    (childTable shell n (k - 1)).get 1 = some (.writeEnd i)
  stdout_last : k = n → (childTable shell n k).get 1 = shell.table.get 1
  stdout : k ≠ n → ∃ i, (childTable shell n k).get 1 = some (.writeEnd i) ∧
    (childTable shell n (k + 1)).get 0 = some (.readEnd i)
  others : ∀ fd x, fd ≠ 0 → fd ≠ 1 → (childTable shell n k).get fd = some x → ¬x.IsEnd

/-- A process of the line has the end open: the shell, or a child that has not exited. -/
def IsOpen (shell : Idle α) (n : Nat) (exited : Set Nat) (x : Target α) : Prop :=
  (shellTable shell n).Holds x ∨
    ∃ m, 1 ≤ m ∧ m ≤ n ∧ m ∉ exited ∧ (childTable shell n m).Holds x

/-- Child `k` reads to the end of its pipe once the child before it has exited, and is
stopped by `SIGPIPE` once the child behind it has. -/
structure Notices (shell : Idle α) (n k : Nat) : Prop where
  eof : ∀ exited i, k - 1 ∈ exited → (childTable shell n k).get 0 = some (.readEnd i) →
    ¬IsOpen shell n exited (.writeEnd i)
  sigpipe : ∀ exited i, k + 1 ∈ exited → (childTable shell n k).get 1 = some (.writeEnd i) →
    ¬IsOpen shell n exited (.readEnd i)

/-! ## The open pipes -/

/-- With `n` pipes open, `pipefds` has the only descriptors of their ends, and every other
descriptor is as it was. -/
structure Opened.Holding (shell : Idle α) (n : Nat) (o : Opened α) : Prop where
  readEnd : ∀ fd i, o.table.get fd = some (.readEnd i) ↔ i < n ∧ fd = (o.pipefds i).1
  writeEnd : ∀ fd i, o.table.get fd = some (.writeEnd i) ↔ i < n ∧ fd = (o.pipefds i).2
  other : ∀ fd a, o.table.get fd = some (.other a) ↔ shell.table.get fd = some (.other a)

theorem openPipes_holding (shell : Idle α) (n : Nat) :
    (openPipes shell n).Holding shell n := by
  induction n with
  | zero =>
    refine ⟨fun fd i => ?_, fun fd i => ?_, fun fd a => Iff.rfl⟩
    · simpa [openPipes] using fun h => shell.noEnds fd (.readEnd i) h trivial
    · simpa [openPipes] using fun h => shell.noEnds fd (.writeEnd i) h trivial
  | succ n ih =>
    refine ⟨fun fd i => ?_, fun fd i => ?_, fun fd a => ?_⟩
    · simp only [openPipes]
      by_cases hi : i = n
      · subst hi
        rw [Table.get_pipe_readEnd (by simp), ih.readEnd]
        simp
      · rw [Table.get_pipe_of_ne (by simpa using hi) (by simp), ih.readEnd,
          Function.update_of_ne hi]
        omega
    · simp only [openPipes]
      by_cases hi : i = n
      · subst hi
        rw [Table.get_pipe_writeEnd (by simp), ih.writeEnd]
        simp
      · rw [Table.get_pipe_of_ne (by simp) (by simpa using hi), ih.writeEnd,
          Function.update_of_ne hi]
        omega
    · rw [openPipes, Table.get_pipe_of_ne (by simp) (by simp), ih.other]

def Spared (pipefds : Nat → Nat × Nat) (n fd : Nat) : Prop :=
  ∀ i < n, fd ≠ (pipefds i).1 ∧ fd ≠ (pipefds i).2

variable {shell : Idle α} {o : Opened α} {n k i fd : Nat} {x : Target α}

theorem Spared.mono {pipefds : Nat → Nat × Nat} (h : Spared pipefds n fd) (hkn : k ≤ n) :
    Spared pipefds k fd :=
  fun i hi => h i (Nat.lt_of_lt_of_le hi hkn)

theorem Idle.exists_other (hopen : shell.table.get fd = some x) : ∃ a, x = .other a := by
  have hend := shell.noEnds fd x hopen
  cases x with
  | other a => exact ⟨a, rfl⟩
  | readEnd i => exact absurd trivial hend
  | writeEnd i => exact absurd trivial hend

theorem Opened.Holding.ne_of_open (h : o.Holding shell n) (hopen : (shell.table.get fd).isSome)
    (hi : i < n) : fd ≠ (o.pipefds i).1 ∧ fd ≠ (o.pipefds i).2 := by
  obtain ⟨x, hx⟩ := Option.isSome_iff_exists.1 hopen
  obtain ⟨a, rfl⟩ := Idle.exists_other hx
  have hother := (h.other fd a).2 hx
  constructor
  · intro heq
    rw [(h.readEnd fd i).2 ⟨hi, heq⟩] at hother
    cases hother
  · intro heq
    rw [(h.writeEnd fd i).2 ⟨hi, heq⟩] at hother
    cases hother

theorem Opened.Holding.get_eq (h : o.Holding shell n) (hfree : Spared o.pipefds n fd) :
    o.table.get fd = shell.table.get fd := by
  apply Option.ext
  intro x
  cases x with
  | other a => exact h.other fd a
  | readEnd i =>
    rw [h.readEnd]
    constructor
    · rintro ⟨hi, heq⟩
      exact absurd heq (hfree i hi).1
    · exact fun hx => absurd trivial (shell.noEnds fd _ hx)
  | writeEnd i =>
    rw [h.writeEnd]
    constructor
    · rintro ⟨hi, heq⟩
      exact absurd heq (hfree i hi).2
    · exact fun hx => absurd trivial (shell.noEnds fd _ hx)

/-! ## Closing -/

theorem get_closePipes_of_spared {pipefds : Nat → Nat × Nat} {t : Table (Target α)}
    (hfree : Spared pipefds n fd) : (closePipes pipefds n t).get fd = t.get fd := by
  induction n with
  | zero => rfl
  | succ n ih =>
    have hn := hfree n (Nat.lt_succ_self n)
    rw [closePipes, Table.get_close, if_neg hn.2, Table.get_close, if_neg hn.1]
    exact ih (hfree.mono (Nat.le_succ n))

theorem get_closePipes_of_not_spared {pipefds : Nat → Nat × Nat} {t : Table (Target α)}
    (hclosed : ¬Spared pipefds n fd) : (closePipes pipefds n t).get fd = none := by
  induction n with
  | zero => exact absurd (fun i hi => absurd hi (Nat.not_lt_zero i)) hclosed
  | succ n ih =>
    rw [closePipes, Table.get_close]
    split
    · rfl
    · next hsnd =>
        rw [Table.get_close]
        split
        · rfl
        · next hfst =>
            refine ih fun hfree => hclosed fun i hi => ?_
            rcases Nat.lt_succ_iff_lt_or_eq.1 hi with hi | rfl
            · exact hfree i hi
            · exact ⟨hfst, hsnd⟩

theorem get_shellTable (shell : Idle α) (n fd : Nat) :
    (shellTable shell n).get fd = shell.table.get fd := by
  have hopen := openPipes_holding shell n
  by_cases hfree : Spared (openPipes shell n).pipefds n fd
  · exact (get_closePipes_of_spared hfree).trans (hopen.get_eq hfree)
  · have hnone : shell.table.get fd = none := by
      by_contra hsome
      exact hfree fun i hi => hopen.ne_of_open (Option.isSome_iff_ne_none.2 hsome) hi
    rw [hnone]
    exact get_closePipes_of_not_spared hfree

def Idle.after (shell : Idle α) (n : Nat) : Idle α where
  table := shellTable shell n
  stdin := by
    rw [get_shellTable]
    exact shell.stdin
  stdout := by
    rw [get_shellTable]
    exact shell.stdout
  noEnds fd x hget := by
    rw [get_shellTable] at hget
    exact shell.noEnds fd x hget

theorem not_holds_shellTable (hend : x.IsEnd) : ¬(shellTable shell n).Holds x := by
  rintro ⟨fd, hfd⟩
  rw [get_shellTable] at hfd
  exact shell.noEnds fd x hfd hend

/-! ## The children -/

theorem spared_of_get_childTable (hget : (childTable shell n k).get fd = some x) :
    Spared (openPipes shell n).pipefds k fd := by
  by_contra hclosed
  have hnone : (childTable shell n k).get fd = none := get_closePipes_of_not_spared hclosed
  rw [hnone] at hget
  cases hget

theorem Opened.Holding.get_dupStdin (h : o.Holding shell n) (hk : 1 ≤ k) (hkn : k ≤ n) :
    (dupStdin o k o.table).get fd =
      if fd = 0 ∧ k ≠ 1 then some (.readEnd (k - 1)) else o.table.get fd := by
  rw [dupStdin]
  by_cases h1 : k = 1
  · simp [h1]
  · have hread := (h.readEnd (o.pipefds (k - 1)).1 (k - 1)).2 ⟨by omega, rfl⟩
    rw [if_pos h1, Table.get_dup2 hread]
    simp [h1]

theorem Opened.Holding.get_dupStdout (h : o.Holding shell n) (hk : 1 ≤ k) (hkn : k ≤ n) :
    (dupStdout o n k (dupStdin o k o.table)).get fd =
      if fd = 1 ∧ k ≠ n then some (.writeEnd k) else (dupStdin o k o.table).get fd := by
  rw [dupStdout]
  by_cases hlast : k = n
  · simp [hlast]
  · have hlt : k < n := by omega
    have hne := (h.ne_of_open shell.stdin hlt).2
    have hwrite : (dupStdin o k o.table).get (o.pipefds k).2 = some (.writeEnd k) := by
      rw [h.get_dupStdin hk hkn, if_neg (fun hfd => hne hfd.1.symm)]
      exact (h.writeEnd _ k).2 ⟨hlt, rfl⟩
    rw [if_pos hlast, Table.get_dup2 hwrite]
    simp [hlast]

/-- What child `k` does not close is its neighbours on the standard descriptors, and all else
as in the shell. -/
theorem get_childTable_of_spared (hk : 1 ≤ k) (hkn : k ≤ n)
    (hfree : Spared (openPipes shell n).pipefds k fd) :
    (childTable shell n k).get fd =
      if fd = 1 ∧ k ≠ n then some (.writeEnd k)
      else if fd = 0 ∧ k ≠ 1 then some (.readEnd (k - 1))
      else (openPipes shell n).table.get fd := by
  have hopen := openPipes_holding shell n
  rw [← hopen.get_dupStdin hk hkn, ← hopen.get_dupStdout hk hkn]
  exact get_closePipes_of_spared hfree

theorem get_childTable_of_open (hk : 1 ≤ k) (hkn : k ≤ n) (hopen : (shell.table.get fd).isSome) :
    (childTable shell n k).get fd =
      if fd = 1 ∧ k ≠ n then some (.writeEnd k)
      else if fd = 0 ∧ k ≠ 1 then some (.readEnd (k - 1))
      else shell.table.get fd := by
  have hholding := openPipes_holding shell n
  have hfree : Spared (openPipes shell n).pipefds n fd := fun i hi => hholding.ne_of_open hopen hi
  rw [get_childTable_of_spared hk hkn (hfree.mono hkn), hholding.get_eq hfree]

theorem get_childTable_zero (hk : 1 ≤ k) (hkn : k ≤ n) :
    (childTable shell n k).get 0 =
      if k = 1 then shell.table.get 0 else some (.readEnd (k - 1)) := by
  simp [get_childTable_of_open hk hkn shell.stdin]

theorem get_childTable_one (hk : 1 ≤ k) (hkn : k ≤ n) :
    (childTable shell n k).get 1 =
      if k = n then shell.table.get 1 else some (.writeEnd k) := by
  simp [get_childTable_of_open hk hkn shell.stdout]

theorem get_childTable_later (hk : 1 ≤ k) (hki : k ≤ i) (hi : i < n) :
    (childTable shell n k).get ((openPipes shell n).pipefds i).2 = some (.writeEnd i) := by
  have hopen := openPipes_holding shell n
  have hwrite := (hopen.writeEnd _ i).2 ⟨hi, rfl⟩
  have hfree : Spared (openPipes shell n).pipefds k ((openPipes shell n).pipefds i).2 := by
    intro j hj
    constructor
    · intro heq
      rw [(hopen.readEnd _ j).2 ⟨by omega, heq⟩] at hwrite
      cases hwrite
    · intro heq
      rw [(hopen.writeEnd _ j).2 ⟨by omega, heq⟩] at hwrite
      cases hwrite
      omega
  have hstdin := (hopen.ne_of_open shell.stdin hi).2
  have hstdout := (hopen.ne_of_open shell.stdout hi).2
  rw [get_childTable_of_spared hk (by omega) hfree, if_neg (fun h => hstdout h.1.symm),
    if_neg (fun h => hstdin h.1.symm), hwrite]

theorem le_of_get_childTable (hk : 1 ≤ k) (hkn : k ≤ n)
    (hget : (childTable shell n k).get fd = some (.writeEnd i)) : k ≤ i := by
  have hfree := spared_of_get_childTable hget
  rw [get_childTable_of_spared hk hkn hfree] at hget
  split at hget
  · cases hget
    exact Nat.le_refl k
  · split at hget
    · cases hget
    · have hend := ((openPipes_holding shell n).writeEnd fd i).1 hget
      by_contra hlt
      exact (hfree i (Nat.not_le.1 hlt)).2 hend.2

/-- The last child has closed every pipe. -/
theorem not_isEnd_of_last (hn : 1 ≤ n) (h0 : fd ≠ 0) (h1 : fd ≠ 1)
    (hget : (childTable shell n n).get fd = some x) : ¬x.IsEnd := by
  have hfree := spared_of_get_childTable hget
  rw [get_childTable_of_spared hn (Nat.le_refl n) hfree, if_neg (fun h => h1 h.1),
    if_neg (fun h => h0 h.1), (openPipes_holding shell n).get_eq hfree] at hget
  exact shell.noEnds fd x hget

/-! ## Which children are wired -/

theorem wired_of_others (hk : 1 ≤ k) (hkn : k ≤ n)
    (hothers : ∀ fd x, fd ≠ 0 → fd ≠ 1 → (childTable shell n k).get fd = some x → ¬x.IsEnd) :
    Wired shell n k where
  stdin_first h1 := by rw [get_childTable_zero hk hkn, if_pos h1]
  stdin h1 := by
    refine ⟨k - 1, by rw [get_childTable_zero hk hkn, if_neg h1], ?_⟩
    rw [get_childTable_one (by omega) (by omega), if_neg (by omega)]
  stdout_last hlast := by rw [get_childTable_one hk hkn, if_pos hlast]
  stdout hlast := by
    refine ⟨k, by rw [get_childTable_one hk hkn, if_neg hlast], ?_⟩
    rw [get_childTable_zero (by omega) (by omega), if_neg (by omega)]
    rfl
  others := hothers

theorem wired_iff_eq (hk : 1 ≤ k) (hkn : k ≤ n) : Wired shell n k ↔ k = n := by
  have hopen := openPipes_holding shell n
  constructor
  · intro hwired
    by_contra hne
    have hlt : k < n := by omega
    have hstdin := (hopen.ne_of_open shell.stdin hlt).2
    have hstdout := (hopen.ne_of_open shell.stdout hlt).2
    have hlater : (childTable shell n k).get ((openPipes shell n).pipefds k).2 =
        some (.writeEnd k) := get_childTable_later hk (Nat.le_refl k) hlt
    exact hwired.others _ _ hstdin.symm hstdout.symm hlater trivial
  · rintro rfl
    exact wired_of_others hk hkn fun fd x h0 h1 hget => not_isEnd_of_last hk h0 h1 hget

/-- The first child keeps the pipe into the last one open, unless it is the producer itself. -/
theorem notices_last_iff (hn : 1 ≤ n) : Notices shell n n ↔ n ≤ 2 := by
  constructor
  · intro hnotices
    by_contra hgt
    have hget : (childTable shell n n).get 0 = some (.readEnd (n - 1)) := by
      rw [get_childTable_zero hn (Nat.le_refl n), if_neg (by omega)]
    have hheld : (childTable shell n 1).Holds (.writeEnd (n - 1)) :=
      ⟨_, get_childTable_later (Nat.le_refl 1) (by omega) (by omega)⟩
    have hfirst : 1 ∉ ({n - 1} : Set Nat) := by
      intro heq
      have : 1 = n - 1 := heq
      omega
    exact hnotices.eof {n - 1} (n - 1) rfl hget (.inr ⟨1, Nat.le_refl 1, hn, hfirst, hheld⟩)
  · intro hle
    constructor
    · rintro exited i hexited hget (hshell | ⟨m, hm, hmn, hlive, fd, hheld⟩)
      · exact not_holds_shellTable (x := .writeEnd i) trivial hshell
      · rw [get_childTable_zero hn (Nat.le_refl n)] at hget
        split at hget
        · exact shell.noEnds 0 _ hget trivial
        · cases hget
          have hmi := le_of_get_childTable hm hmn hheld
          obtain rfl : m = n - 1 := by omega
          exact hlive hexited
    · intro exited i _ hget
      rw [get_childTable_one hn (Nat.le_refl n), if_pos rfl] at hget
      exact absurd trivial (shell.noEnds 1 _ hget)

/-- Only the last child is wired as intended, and it notices the end of its input only when
no command stands before the one that feeds it. -/
theorem wired_notices_iff (shell : Idle α) (hk : 1 ≤ k) (hkn : k ≤ n) :
    (Wired shell n k ↔ k = n) ∧ (Wired shell n k ∧ Notices shell n k ↔ k = n ∧ n ≤ 2) := by
  refine ⟨wired_iff_eq hk hkn, ?_⟩
  rw [wired_iff_eq hk hkn]
  refine and_congr_right ?_
  rintro rfl
  exact notices_last_iff hk

def terminal : Idle Unit where
  table := ⟨[some (.other ()), some (.other ()), some (.other ())]⟩
  stdin := rfl
  stdout := rfl
  noEnds := by
    intro fd x hget
    rcases fd with _ | _ | _ | fd
    · cases hget
      exact id
    · cases hget
      exact id
    · cases hget
      exact id
    · cases hget

/-- The second of two commands. -/
theorem wired_second : Wired terminal 2 2 ∧ Notices terminal 2 2 :=
  (wired_notices_iff terminal (by decide) (by decide)).2.2 ⟨rfl, by decide⟩

/-- The first of two commands has the pipe it writes to on the descriptors 5 and 6 as well;
the first of three keeps the input of the last one open when the second has exited. -/
theorem not_wired_first :
    ((childTable terminal 2 1).get 1 = some (.writeEnd 1) ∧
      (childTable terminal 2 1).get 5 = some (.readEnd 1) ∧
      (childTable terminal 2 1).get 6 = some (.writeEnd 1) ∧ ¬Wired terminal 2 1) ∧
    ((childTable terminal 3 3).get 0 = some (.readEnd 2) ∧
      (childTable terminal 3 1).get 8 = some (.writeEnd 2) ∧ ¬Notices terminal 3 3) := by
  have h5 : (childTable terminal 2 1).get 5 = some (.readEnd 1) := by decide
  have h0 : (childTable terminal 3 3).get 0 = some (.readEnd 2) := by decide
  have h8 : (childTable terminal 3 1).get 8 = some (.writeEnd 2) := by decide
  have hfirst : 1 ∉ ({2} : Set Nat) := by
    intro heq
    cases heq
  refine ⟨⟨by decide, h5, by decide, ?_⟩, h0, h8, ?_⟩
  · intro hwired
    exact hwired.others 5 _ (by decide) (by decide) h5 trivial
  · intro hnotices
    exact hnotices.eof {2} 2 rfl h0 (.inr ⟨1, by decide, by decide, hfirst, 8, h8⟩)

end Os20.Shell
