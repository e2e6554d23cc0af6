import Os20.Grep.Match
import Os20.Lib.Records

/-!
# `grep.c`: the lines of a file

`grep` reads into a buffer of 1024 characters, prints the lines in it that match, and keeps what
is behind the last newline for the next read.  Where the buffer has no newline it keeps nothing.
-/

namespace Os20.Grep

open Lib.Records

/-! ## The code -/

def bufSize : Nat := 1024

def nul : Char := '\x00'

/-- `strchr`: how far it is to the first `c`. -/
def strchr (c : Char) : List Char → Option Nat
  | [] => none
  | a :: s => if a = nul then none else if a = c then some 0 else (strchr c s).map (· + 1)

/-- A read of `n` characters from a file, or from a pipe that has them one piece after another:
what it gets, and what is left. -/
def read (n : Nat) : List (List Char) → List Char × List (List Char)
  | [] => ([], [])
  | piece :: pieces =>
      (piece.take n, if piece.length ≤ n then pieces else piece.drop n :: pieces)

/-- The loop over the lines in the buffer: what it writes, and the rest from `p` on. -/
def printLines (pattern : List Char) : Nat → List Char → List Char × List Char
  | 0, p => ([], p)
  | fuel + 1, p =>
      match strchr '\n' p with
      | none => ([], p)
      | some q =>
          let (out, p') := printLines pattern fuel (p.drop (q + 1))
          ((if match_ pattern (p.take q) then p.take (q + 1) else []) ++ out, p')

/-- The loop of `grep`, of at most `fuel` rounds. -/
def grepLoop (pattern : List Char) : Nat → List Char → List (List Char) → List Char
  | 0, _, _ => []
  | fuel + 1, buf, input =>
      let (got, input) := read (bufSize - buf.length - 1) input
      if got = [] then []
      else
        let buf := buf ++ got
        let (out, p) := printLines pattern buf.length buf
        out ++ grepLoop pattern fuel (if p.length = buf.length then [] else p) input

/-- `grep`: all that it writes.  Each round reads a character. -/
def grep (pattern : List Char) (input : List (List Char)) : List Char :=
  grepLoop pattern (input.flatten.length + 1) [] input

/-! ## The lines -/

def isNewline (c : Char) : Bool := c == '\n'

def printed (pattern : List Char) (lines : List (List Char)) : List Char :=
  (lines.filter (match_ pattern)).flatMap (· ++ ['\n'])

variable {pattern l line r buf : List Char} {input : List (List Char)} {fuel : Nat}

theorem strchr_of_not_mem (hl : ∀ x ∈ l, isNewline x = false) : strchr '\n' l = none := by
  induction l with
  | nil => rfl
  | cons a l ih =>
      have ha : a ≠ '\n' := by simpa [isNewline] using hl a (by simp)
      rw [strchr, if_neg ha, ih fun x hx => hl x (List.mem_cons_of_mem _ hx), Option.map_none,
        ite_self]

theorem strchr_append (hl : ∀ x ∈ l, isNewline x = false) (hnul : nul ∉ l) (r : List Char) :
    strchr '\n' (l ++ '\n' :: r) = some l.length := by
  induction l with
  | nil => rfl
  | cons a l ih =>
      have ha : a ≠ '\n' := by simpa [isNewline] using hl a (by simp)
      rw [List.mem_cons, not_or] at hnul
      rw [List.cons_append, strchr, if_neg (Ne.symm hnul.1), if_neg ha,
        ih (fun x hx => hl x (List.mem_cons_of_mem _ hx)) hnul.2, Option.map_some,
        List.length_cons]

theorem printLines_eq (hnul : nul ∉ l) (hfuel : l.length ≤ fuel) :
    printLines pattern fuel l =
      (printed pattern (finished isNewline l), unfinished isNewline l) := by
  induction l using Lib.Words.line_induction isNewline generalizing fuel with
  | nil =>
      cases fuel with
      | zero => rfl
      | succ fuel => rfl
  | last l hl hne =>
      rw [finished_of_forall_not hl, unfinished_of_forall_not hl]
      cases fuel with
      | zero => rfl
      | succ fuel =>
          rw [printLines, strchr_of_not_mem hl]
          rfl
  | line l a r hl ha ih =>
      obtain rfl : a = '\n' := by simpa [isNewline] using ha
      rw [List.length_append, List.length_cons] at hfuel
      obtain ⟨fuel, rfl⟩ := Nat.exists_eq_succ_of_ne_zero (by omega : fuel ≠ 0)
      rw [List.mem_append, List.mem_cons, not_or, not_or] at hnul
      have hdrop : (l ++ '\n' :: r).drop (l.length + 1) = r := by
        rw [List.append_cons]
        exact List.drop_left' (by simp)
      have htake : (l ++ '\n' :: r).take (l.length + 1) = l ++ ['\n'] := by
        rw [List.append_cons]
        exact List.take_left' (by simp)
      rw [printLines, strchr_append hl hnul.1]
      dsimp only
      rw [hdrop, htake, List.take_left, ih hnul.2.2 (by omega), finished_append_cons hl ha,
        unfinished_append_cons hl ha]
      by_cases hmatch : match_ pattern l = true
      · simp [printed, hmatch]
      · simp [printed, hmatch]

/-! ## Rounds -/

theorem read_flatten (n : Nat) (input : List (List Char)) :
    (read n input).1 ++ (read n input).2.flatten = input.flatten := by
  cases input with
  | nil => rfl
  | cons piece pieces =>
      simp only [read]
      split
      · next hfits => simp [List.take_of_length_le hfits]
      · rw [List.flatten_cons, List.flatten_cons, ← List.append_assoc, List.take_append_drop]

def WholeLines (input : List (List Char)) : Prop :=
  ∀ piece ∈ input.dropLast, piece.getLast? = some '\n'

theorem WholeLines.read (h : WholeLines input) (n : Nat) : WholeLines (Grep.read n input).2 := by
  cases input with
  | nil => exact h
  | cons piece pieces =>
      cases pieces with
      | nil =>
          simp only [Grep.read]
          split
          · exact fun piece hpiece => by cases hpiece
          · exact fun piece hpiece => by cases hpiece
      | cons next pieces =>
          have hrest : WholeLines (next :: pieces) := fun piece hpiece =>
            h piece (List.mem_cons_of_mem _ hpiece)
          simp only [Grep.read]
          split
          · exact hrest
          · next hlong =>
              intro piece' hpiece'
              rw [List.dropLast_cons_of_ne_nil (by simp), List.mem_cons] at hpiece'
              rcases hpiece' with rfl | hpiece'
              · rw [List.getLast?_drop, if_neg hlong]
                exact h piece (by simp)
              · exact hrest piece' hpiece'

theorem grepLoop_of_forall_not (hbuf : ∀ x ∈ buf, isNewline x = false)
    (hinput : ∀ x ∈ input.flatten, isNewline x = false) :
    grepLoop pattern fuel buf input = [] := by
  induction fuel generalizing buf input with
  | zero => rfl
  | succ fuel ih =>
      have hread := read_flatten (bufSize - buf.length - 1) input
      have hgot : ∀ x ∈ buf ++ (read (bufSize - buf.length - 1) input).1, isNewline x = false := by
        intro x hx
        rcases List.mem_append.mp hx with hx | hx
        · exact hbuf x hx
        · exact hinput x (by rw [← hread]; exact List.mem_append_left _ hx)
      have hleft : ∀ x ∈ (read (bufSize - buf.length - 1) input).2.flatten,
          isNewline x = false := by
        intro x hx
        exact hinput x (by rw [← hread]; exact List.mem_append_right _ hx)
      have hnone (n : Nat) (l : List Char) (hl : ∀ x ∈ l, isNewline x = false) :
          printLines pattern n l = ([], l) := by
        cases n with
        | zero => rfl
        | succ n =>
            rw [printLines, strchr_of_not_mem hl]
      rw [grepLoop]
      dsimp only
      split
      · rfl
      · rw [hnone _ _ hgot, if_pos rfl, List.nil_append]
        exact ih (by simp) hleft

/-- A read brings a newline, if there is still one to come. -/
theorem read_newline (hbuf : ∀ x ∈ buf, isNewline x = false) (hinput : WholeLines input)
    (hsome : ∃ x ∈ input.flatten, isNewline x = true)
    (hshort : ∀ line ∈ finished isNewline (buf ++ input.flatten), line.length + 1 < bufSize) :
    ∃ x ∈ (read (bufSize - buf.length - 1) input).1, isNewline x = true := by
  cases input with
  | nil =>
      obtain ⟨x, hx, -⟩ := hsome
      cases hx
  | cons piece pieces =>
      by_cases hfits : piece.length ≤ bufSize - buf.length - 1
      · rw [read, List.take_of_length_le hfits]
        cases pieces with
        | nil => simpa using hsome
        | cons next pieces =>
            have hend := hinput piece (by simp)
            exact ⟨'\n', List.mem_of_getLast? hend, rfl⟩
      · by_contra hnone
        push Not at hnone
        simp only [Bool.not_eq_true] at hnone
        have hread := read_flatten (bufSize - buf.length - 1) (piece :: pieces)
        have hfree : ∀ x ∈ buf ++ (read (bufSize - buf.length - 1) (piece :: pieces)).1,
            isNewline x = false := by
          intro x hx
          rcases List.mem_append.mp hx with hx | hx
          · exact hbuf x hx
          · exact hnone x hx
        have hlater : ∃ x ∈ (read (bufSize - buf.length - 1) (piece :: pieces)).2.flatten,
            isNewline x = true := by
          obtain ⟨x, hx, hcut⟩ := hsome
          rw [← hread, List.mem_append] at hx
          rcases hx with hx | hx
          · rw [hnone x hx] at hcut
            cases hcut
          · exact ⟨x, hx, hcut⟩
        -- The buffer would be full, and the line longer than it.
        obtain ⟨line, hline, hle⟩ := exists_finished_length_le hfree hlater
        rw [List.append_assoc, hread] at hline
        have hlt := hshort line hline
        rw [List.length_append, read, List.length_take] at hle
        omega

theorem grepLoop_eq (hfuel : input.flatten.length < fuel)
    (hbuf : ∀ x ∈ buf, isNewline x = false) (hnul : nul ∉ buf ++ input.flatten)
    (hinput : WholeLines input)
    (hshort : ∀ line ∈ finished isNewline (buf ++ input.flatten), line.length + 1 < bufSize) :
    grepLoop pattern fuel buf input =
      printed pattern (finished isNewline (buf ++ input.flatten)) := by
  induction fuel generalizing buf input with
  | zero => omega
  | succ fuel ih =>
      by_cases hsome : ∃ x ∈ input.flatten, isNewline x = true
      · have hnewline := read_newline hbuf hinput hsome hshort
        have hrest := hinput.read (bufSize - buf.length - 1)
        have hread := read_flatten (bufSize - buf.length - 1) input
        revert hnewline hrest hread
        generalize hgot : read (bufSize - buf.length - 1) input = r
        obtain ⟨got, rest⟩ := r
        intro hnewline hrest hread
        dsimp only at hnewline hrest hread
        obtain ⟨x, hx, hcut⟩ := hnewline
        have hne : got ≠ [] := List.ne_nil_of_mem hx
        have hlt := length_unfinished_lt ⟨x, List.mem_append_right buf hx, hcut⟩
        rw [← hread, ← List.append_assoc] at hnul hshort ⊢
        rw [finished_append] at hshort ⊢
        have hpos := List.length_pos_iff.mpr hne
        have hfuel' : rest.flatten.length < fuel := by
          rw [← hread, List.length_append] at hfuel
          omega
        have hnul' : nul ∉ unfinished isNewline (buf ++ got) ++ rest.flatten := by
          intro h
          apply hnul
          rcases List.mem_append.mp h with h | h
          · exact List.mem_append_left _ ((unfinished_suffix _ _).mem h)
          · exact List.mem_append_right _ h
        have hround := ih hfuel' unfinished_not_mem hnul' hrest
          fun line hline => hshort line (List.mem_append_right _ hline)
        rw [grepLoop, hgot]
        dsimp only
        rw [if_neg hne, printLines_eq (fun h => hnul (List.mem_append_left _ h)) le_rfl]
        dsimp only
        rw [if_neg hlt.ne, hround, printed, printed, printed, List.filter_append,
          List.flatMap_append]
      · push Not at hsome
        simp only [Bool.not_eq_true] at hsome
        rw [grepLoop_of_forall_not hbuf hsome, finished_of_forall_not]
        · rfl
        · intro x hx
          rcases List.mem_append.mp hx with hx | hx
          · exact hbuf x hx
          · exact hsome x hx

/-- For every pattern and input without NUL, from a file or in pieces that are whole lines: if
each line fits in the buffer with its newline, `grep` prints the lines that match, in order. -/
theorem grep_prints_matches (pattern : List Char) (input : List (List Char))
    (hinput : WholeLines input) (hnul : nul ∉ input.flatten)
    (hshort : ∀ line ∈ finished isNewline input.flatten, line.length + 1 < bufSize) :
    grep pattern input = printed pattern (finished isNewline input.flatten) :=
  grepLoop_eq (Nat.lt_succ_self _) (by simp) hnul hinput hshort

/-- Three lines in two pieces, the last one unfinished. -/
theorem grep_prints_matches_threeLines :
    grep ['^', 'a', '*', 'b', '$'] [['b', '\n', 'a', 'a', '\n'], ['a', 'b', '\n', 'b']] =
      ['b', '\n', 'a', 'b', '\n'] := by
  rw [grep_prints_matches _ _ (by unfold WholeLines; decide) (by decide) (by decide)]
  decide

end Os20.Grep
