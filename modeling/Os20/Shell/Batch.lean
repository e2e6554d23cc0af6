import Mathlib.Data.List.Forall2
import Os20.Shell.Bounds

/-!
# Batch files

With a file as its argument `ssu_shell` takes its lines from there: `fgets` into a buffer
of `MAX_INPUT_SIZE` characters, a NUL over the last character it got, a newline over the
NUL, and `tokenize`.  The character under the NUL is the newline of the line, unless there is
none at the end of the file: then it is the last character of the last line.

A round ends when the children of the line have, and the tokens are freed.  The loop does not go
on behind a line that leaves the arrays of `tokenize`, behind one whose children run on or disturb
the file, and behind a blank line, unless the last line with words before it has no more than two
of them: `token_len` is still that of this line, or has no value yet, and `main` reads and frees
entries that it has not stored.
-/

namespace Os20.Shell

open Lib.Words

def maxInputSize : Nat := 1024

def nul : Char := '\x00'

/-! ## The read loop -/

/-- The next characters of the file, up to the first newline and no more than `n`, and what
is left of it. -/
def readLine : Nat → List Char → List Char × List Char
  | 0, file => ([], file)
  | _ + 1, [] => ([], [])
  | n + 1, c :: file =>
    if c = '\n' then ([c], file)
    else (c :: (readLine n file).1, (readLine n file).2)

/-- `NULL` at the end of the file, else the array with the characters and a NUL behind them,
and what is left of the file. -/
def fgets (line : List Char) (n : Nat) (file : List Char) : Option (List Char × List Char) :=
  if file = [] then none
  else
    let got := (readLine (n - 1) file).1
    some (got ++ nul :: line.drop (got.length + 1), (readLine (n - 1) file).2)

def cString (line : List Char) : List Char := line.takeWhile (· != nul)

def strlen (line : List Char) : Nat := (cString line).length

def parse (line : List Char) : Except Fault (List (Option Token)) :=
  if strlen line = 0 then .error .overrun
  else
    let line := line.set (strlen line - 1) nul
    let line := line.set (strlen line) '\n'
    tokenize (cString line)

/-! ## The rest of a round -/

inductive Ending where
  /-- `wait` has returned for each of them, and the batch file is as it was. -/
  | ended
  /-- So it has, but one of them has moved the offset of the file, or changed the file. -/
  | disturbed
  /-- One of them runs on. -/
  | running
  deriving DecidableEq

/-- What becomes of the children of a round. -/
abbrev Host := Nat → List (Except Fault (List Token)) → Ending

/-- The rounds behind the loop, and `token_len`, which starts without a value. -/
structure Loop where
  round : Nat
  tokenLen : Option Nat
  deriving DecidableEq

def Loop.start : Loop := ⟨0, none⟩

/-- `for (int i = 0; tokens[i] != NULL; i++) token_len = i;` -/
def setTokenLen : Option Nat → Nat → List (Option Token) → Option Nat
  | _, i, some _ :: tokens => setTokenLen (some i) (i + 1) tokens
  | tokenLen, _, _ => tokenLen

/-- The children that `main` forks for `tokens`. -/
def forked (tokens : List (Option Token)) : Except Fault (List (Except Fault (List Token))) := do
  let pipeQueue ←
    if tokens.head? = some none then pure queueNew else queuePush queueNew (-1)
  let (tokens, pipeQueue) ← replacePipes tokens.length 0 tokens pipeQueue
  let cmdLength := queueLength pipeQueue
  return launch tokens cmdLength.toNat pipeQueue

/-- The loop of `free` reads the first `token_len` entries of `tokens`; those behind the `NULL`
were never stored in this round. -/
def freeable (tokenLen : Option Nat) (tokens : List (Option Token)) : Bool :=
  tokenLen.any (· ≤ tokens.length)

/-- From the tokens to the next round, if the loop comes there.  A child in which `execvp` comes
back disturbs the file: it leaves by `exit`, which gives up its copy of `fp` and moves the offset
that it shares with the shell.  What the shell reads from there on is not defined. -/
def Loop.finish (host : Host) (s : Loop) (tokens : List (Option Token)) : Option Loop :=
  let tokenLen := setTokenLen s.tokenLen 0 tokens
  match forked tokens with
  | .error _ => none
  | .ok vectors =>
    if (vectors.isEmpty ∨ host s.round vectors = .ended) ∧ freeable tokenLen tokens then
      some ⟨s.round + 1, tokenLen⟩
    else none

/-- The token lists of the loop, at most `fuel` of them, up to a round that `finish` does not
finish. -/
def batch (host : Host) : Nat → Loop → List Char → List (Except Fault (List (Option Token)))
  | 0, _, _ => []
  | fuel + 1, s, file =>
    match fgets (List.replicate maxInputSize nul) maxInputSize file with
    | none => []
    | some (line, rest) =>
      let tokens := parse line
      tokens :: match tokens.toOption.bind (s.finish host) with
        | none => []
        | some s => batch host fuel s rest

/-! ## The lines of a file -/

def fileLines (file : List Char) : List (List Char) := lines (· == '\n') file

/-- The lists are those of the lines: each line within the limits of `tokenize` has the list of
its words. -/
structure Agree (ls : List (List Char)) (lists : List (Except Fault (List (Option Token)))) :
    Prop where
  length_le : lists.length ≤ ls.length
  reads : ∀ (i : Nat) (line : List Char), ls[i]? = some line → Fits (words isBlank line) →
    lists[i]? = some (Except.ok ((words isBlank line).map some ++ [none]))

def Faithful (host : Host) (file : List Char) : Prop :=
  Agree (fileLines file) (batch host file.length .start file)

def lastWords (before : List (List Char)) : Option (List Token) :=
  ((before.map (words isBlank)).filter (!·.isEmpty)).getLast?

/-- The round of `line`, behind those of the lines `before`, comes to its end. -/
structure GoesOn (host : Host) (before : List (List Char)) (line : List Char) : Prop where
  fits : Fits (words isBlank line)
  ended : ∀ vectors, children line = .ok vectors → words isBlank line ≠ [] →
    host before.length vectors = .ended
  freeable : words isBlank line = [] → ∃ ws ∈ lastWords before, ws.length ≤ 2

variable {file line rest got : List Char} {c : Char} {n fuel : Nat} {host : Host} {s : Loop}
  {before : List (List Char)}

/-! ## One round -/

theorem readLine_of_newline (hline : '\n' ∉ line) (hn : line.length < n) :
    readLine n (line ++ '\n' :: rest) = (line ++ ['\n'], rest) := by
  induction line generalizing n with
  | nil =>
    obtain ⟨n, rfl⟩ := Nat.exists_eq_succ_of_ne_zero (Nat.ne_of_gt hn)
    simp [readLine]
  | cons c line ih =>
    obtain ⟨n, rfl⟩ := Nat.exists_eq_succ_of_ne_zero (Nat.ne_of_gt (Nat.zero_lt_of_lt hn))
    rw [List.mem_cons, not_or] at hline
    rw [List.cons_append, readLine, if_neg (Ne.symm hline.1),
      ih hline.2 (Nat.lt_of_succ_lt_succ hn)]
    rfl

theorem readLine_of_end (hline : '\n' ∉ line) (hn : line.length ≤ n) :
    readLine n line = (line, []) := by
  induction line generalizing n with
  | nil => cases n <;> rfl
  | cons c line ih =>
    obtain ⟨n, rfl⟩ := Nat.exists_eq_succ_of_ne_zero (Nat.ne_of_gt (Nat.zero_lt_of_lt hn))
    rw [List.mem_cons, not_or] at hline
    rw [readLine, if_neg (Ne.symm hline.1), ih hline.2 (Nat.le_of_succ_le_succ hn)]

theorem cString_append (hgot : nul ∉ got) : cString (got ++ nul :: rest) = got := by
  have hkeep : ∀ x ∈ got, (x != nul) = true := by
    intro x hx
    simpa using fun heq : x = nul => hgot (heq ▸ hx)
  rw [cString, List.takeWhile_append_of_pos hkeep]
  simp

theorem parse_eq (hline : nul ∉ line) (hc : c ≠ nul) :
    parse (line ++ c :: nul :: rest) = tokenize (line ++ ['\n']) := by
  have hstring : cString (line ++ c :: nul :: rest) = line ++ [c] := by
    rw [List.append_cons]
    apply cString_append
    simpa using ⟨hline, Ne.symm hc⟩
  have hlen : strlen (line ++ c :: nul :: rest) = line.length + 1 := by
    rw [strlen, hstring, List.length_append, List.length_singleton]
  have hcut : (line ++ c :: nul :: rest).set (line.length + 1 - 1) nul =
      line ++ nul :: nul :: rest := by
    simp
  have hlen' : strlen (line ++ nul :: nul :: rest) = line.length := by
    rw [strlen, cString_append hline]
  have hend : (line ++ nul :: nul :: rest).set line.length '\n' =
      (line ++ ['\n']) ++ nul :: rest := by
    simp
  have hstring' : cString ((line ++ ['\n']) ++ nul :: rest) = line ++ ['\n'] := by
    apply cString_append
    simpa using ⟨hline, by decide⟩
  rw [parse, hlen, if_neg (Nat.succ_ne_zero _)]
  simp only [hcut, hlen', hend, hstring']

@[simp] theorem batch_nil (host : Host) (fuel : Nat) (s : Loop) : batch host fuel s [] = [] := by
  cases fuel <;> rfl

theorem batch_line (host : Host) (s : Loop) (hline : '\n' ∉ line) (hnul : nul ∉ line)
    (hlen : line.length ≤ 1000) :
    batch host (fuel + 1) s (line ++ '\n' :: rest) = tokenize (line ++ ['\n']) ::
      match (tokenize (line ++ ['\n'])).toOption.bind (s.finish host) with
      | none => []
      | some s => batch host fuel s rest := by
  have hread : readLine (maxInputSize - 1) (line ++ '\n' :: rest) = (line ++ ['\n'], rest) :=
    readLine_of_newline hline (by rw [maxInputSize]; omega)
  rw [batch, fgets, if_neg (by simp), hread]
  simp only [List.append_assoc, List.singleton_append]
  rw [parse_eq hnul (by decide)]

/-- A last line without a newline loses its last character. -/
theorem batch_last (host : Host) (s : Loop) (hline : '\n' ∉ line ++ [c])
    (hnul : nul ∉ line ++ [c]) (hlen : (line ++ [c]).length ≤ 1000) :
    batch host (fuel + 1) s (line ++ [c]) = [tokenize (line ++ ['\n'])] := by
  have hread := readLine_of_end (n := maxInputSize - 1) hline (by rw [maxInputSize]; omega)
  have hfree : nul ∉ line ∧ nul ≠ c := by simpa using hnul
  rw [batch, fgets, if_neg (by simp), hread]
  simp only [List.append_assoc, List.singleton_append]
  rw [parse_eq hfree.1 (Ne.symm hfree.2)]
  congr 1
  split <;> simp

/-! ## The end of a round -/

theorem setTokenLen_words (tokenLen : Option Nat) (i : Nat) (ws : List Token) :
    setTokenLen tokenLen i (ws.map some ++ [none]) =
      if ws = [] then tokenLen else some (i + ws.length - 1) := by
  induction ws generalizing tokenLen i with
  | nil => rfl
  | cons w ws ih =>
    rw [List.map_cons, List.cons_append, setTokenLen, ih, if_neg (List.cons_ne_nil w ws)]
    split
    · next hws => rw [hws]; rfl
    · rw [List.length_cons]
      congr 1
      omega

theorem lastWords_concat (before : List (List Char)) (line : List Char) :
    lastWords (before ++ [line]) =
      if words isBlank line = [] then lastWords before else some (words isBlank line) := by
  rw [lastWords, List.map_append, List.filter_append]
  by_cases hblank : words isBlank line = []
  · simp [hblank, lastWords]
  · simp [hblank]

structure Loop.Behind (s : Loop) (before : List (List Char)) : Prop where
  round : s.round = before.length
  tokenLen : s.tokenLen = (lastWords before).map (·.length - 1)

theorem Loop.Behind.start : Loop.start.Behind [] := ⟨rfl, rfl⟩

theorem children_eq_forked (hline : '\n' ∉ line) (hfits : Fits (words isBlank line)) :
    children line = forked ((words isBlank line).map some ++ [none]) := by
  rw [children, tokenize_eq hline hfits]
  rfl

theorem exists_children (hline : '\n' ∉ line) (hfits : Fits (words isBlank line)) :
    ∃ vectors, children line = .ok vectors ∧ (vectors.isEmpty ↔ words isBlank line = []) := by
  by_cases hblank : words isBlank line = []
  · refine ⟨[], ?_, by simp [hblank]⟩
    rw [children_eq_forked hline hfits, hblank]
    rfl
  · exact ⟨_, children_eq hline hfits hblank, by simp [hblank]⟩

theorem Loop.Behind.finish (host : Host) (h : s.Behind before) (hline : '\n' ∉ line)
    (hfits : Fits (words isBlank line)) :
    ∃ s', s'.Behind (before ++ [line]) ∧ (GoesOn host before line →
      s.finish host ((words isBlank line).map some ++ [none]) = some s') ∧
      (¬GoesOn host before line →
        s.finish host ((words isBlank line).map some ++ [none]) = none) := by
  obtain ⟨vectors, hchildren, hempty⟩ := exists_children hline hfits
  have hforked := hchildren
  rw [children_eq_forked hline hfits] at hforked
  have htokenLen : setTokenLen s.tokenLen 0 ((words isBlank line).map some ++ [none]) =
      (lastWords (before ++ [line])).map (·.length - 1) := by
    rw [setTokenLen_words, h.tokenLen, lastWords_concat]
    split <;> simp
  -- a line with words stores as many tokens as `token_len` says
  have hfreeable : freeable ((lastWords (before ++ [line])).map (·.length - 1))
      ((words isBlank line).map some ++ [none]) = true ↔
        (words isBlank line = [] → ∃ ws ∈ lastWords before, ws.length ≤ 2) := by
    rw [lastWords_concat]
    by_cases hblank : words isBlank line = []
    · cases hlast : lastWords before with
      | none => simp [freeable, hblank]
      | some ws => simp [freeable, hblank]
    · simp [freeable, hblank]
      omega
  have hgoes : GoesOn host before line ↔
      (vectors.isEmpty ∨ host s.round vectors = .ended) ∧
        freeable ((lastWords (before ++ [line])).map (·.length - 1))
          ((words isBlank line).map some ++ [none]) = true := by
    rw [hfreeable, hempty, h.round]
    constructor
    · intro hgo
      refine ⟨?_, hgo.freeable⟩
      by_cases hblank : words isBlank line = []
      · exact .inl hblank
      · exact .inr (hgo.ended vectors hchildren hblank)
    · rintro ⟨hended, hfree⟩
      refine ⟨hfits, fun vs hvs hblank => ?_, hfree⟩
      rw [hchildren] at hvs
      obtain rfl := Except.ok.inj hvs
      exact hended.resolve_left hblank
  refine ⟨⟨s.round + 1, (lastWords (before ++ [line])).map (·.length - 1)⟩, ⟨?_, rfl⟩, ?_, ?_⟩
  · rw [h.round, List.length_append]
    rfl
  · intro hgo
    rw [Loop.finish, htokenLen, hforked]
    exact if_pos (hgoes.1 hgo)
  · intro hno
    rw [Loop.finish, htokenLen, hforked]
    exact if_neg fun hall => hno (hgoes.2 hall)

/-! ## Whole files -/

theorem words_isWhite (hline : '\n' ∉ line) : words isWhite line = words isBlank line := by
  apply words_congr
  intro x hx
  have hne : (x == '\n') = false := beq_false_of_ne fun heq => hline (heq ▸ hx)
  simp [isWhite, isBlank, hne]

theorem eq_words_of_tokenize {tokens : List (Option Token)} (hline : '\n' ∉ line)
    (htokens : tokenize (line ++ ['\n']) = .ok tokens) :
    tokens = (words isBlank line).map some ++ [none] := by
  have hfits := (inBounds_iff line).1 (tokenize_ok_iff.1 ⟨tokens, htokens⟩)
  rw [words_isWhite hline] at hfits
  rw [tokenize_eq hline hfits] at htokens
  exact (Except.ok.inj htokens).symm

/-- A line that leaves the arrays of `tokenize` has no tokens. -/
theorem tokenize_of_not_fits (hline : '\n' ∉ line) (hfits : ¬Fits (words isBlank line)) :
    (tokenize (line ++ ['\n'])).toOption = none := by
  cases htokens : tokenize (line ++ ['\n']) with
  | error _ => rfl
  | ok tokens =>
    have hbounds := (inBounds_iff line).1 (tokenize_ok_iff.1 ⟨tokens, htokens⟩)
    rw [words_isWhite hline] at hbounds
    exact absurd hbounds hfits

def Reads (line : List Char) (tokens : Except Fault (List (Option Token))) : Prop :=
  Fits (words isBlank line) → tokens = .ok ((words isBlank line).map some ++ [none])

/-- Without its last character a line comes to the words of the whole line exactly when that
character is white space. -/
theorem tokenize_init_iff (hline : '\n' ∉ line ++ [c]) :
    Reads (line ++ [c]) (tokenize (line ++ ['\n'])) ↔
      (isWhite c = false → ¬Fits (words isBlank (line ++ [c]))) := by
  have hfree : '\n' ∉ line ∧ '\n' ≠ c := by simpa using hline
  have hwhite : isWhite c = isBlank c := by
    have hne : (c == '\n') = false := beq_false_of_ne (Ne.symm hfree.2)
    simp [isWhite, isBlank, hne]
  rw [hwhite]
  by_cases hc : isBlank c = true
  · rw [Reads, words_concat_of_sep hc]
    exact ⟨fun _ hblack => absurd (hblack.symm.trans hc) (by decide),
      fun _ hfits => tokenize_eq hfree.1 hfits⟩
  · have hblack : isBlank c = false := by simpa using hc
    constructor
    · intro hall _ hfits
      have hwords := eq_words_of_tokenize hfree.1 (hall hfits)
      have hsame : words isBlank (line ++ [c]) = words isBlank line :=
        List.map_injective_iff.2 (fun _ _ => Option.some.inj) (List.append_cancel_right hwords)
      -- the words have one character fewer
      have hflat := congrArg (fun ws => ws.flatten.length) hsame
      simp [flatten_words, hblack] at hflat
    · exact fun hno hfits => absurd hfits (hno hblack)

@[simp] theorem agree_nil_right {ls : List (List Char)} :
    Agree ls [] ↔ ∀ line ∈ ls, ¬Fits (words isBlank line) := by
  constructor
  · intro h line hline hfits
    obtain ⟨i, hi⟩ := List.getElem?_of_mem hline
    simpa using h.reads i line hi hfits
  · intro h
    exact ⟨by simp, fun i line hi hfits => absurd hfits (h line (List.mem_of_getElem? hi))⟩

theorem agree_cons {ls : List (List Char)} {tokens : Except Fault (List (Option Token))}
    {lists : List (Except Fault (List (Option Token)))} :
    Agree (line :: ls) (tokens :: lists) ↔ Reads line tokens ∧ Agree ls lists := by
  constructor
  · intro h
    refine ⟨fun hfits => ?_, ⟨by simpa using h.length_le, fun i l hi hfits => ?_⟩⟩
    · simpa using h.reads 0 line rfl hfits
    · simpa using h.reads (i + 1) l (by simpa using hi) hfits
  · rintro ⟨hreads, h⟩
    refine ⟨by simpa using h.length_le, fun i l hi hfits => ?_⟩
    cases i with
    | zero =>
      obtain rfl : line = l := by simpa using hi
      rw [hreads hfits]
      rfl
    | succ i => simpa using h.reads i l (by simpa using hi) hfits

/-- The last character of the file is no part of a word, unless the last line is beyond the
limits. -/
def EndsBlank (file : List Char) : Prop :=
  ∀ c ∈ file.getLast?, isWhite c = false →
    ∀ line ∈ (fileLines file).getLast?, ¬Fits (words isBlank line)

/-- Behind `before`, the rounds in front of a line within the limits come to their ends. -/
def KeepsOn (host : Host) (before : List (List Char)) (file : List Char) : Prop :=
  ∀ pre line post, fileLines file = pre ++ line :: post →
    (∃ l ∈ post, Fits (words isBlank l)) → GoesOn host (before ++ pre) line

theorem keepsOn_last (h : fileLines file = [line]) : KeepsOn host before file := by
  intro pre l post hsplit hlater
  rw [h] at hsplit
  have hlength := congrArg List.length hsplit
  obtain ⟨l', hl', -⟩ := hlater
  have hpos := List.length_pos_of_mem hl'
  simp at hlength
  omega

theorem keepsOn_cons (h : fileLines file = line :: fileLines rest) :
    KeepsOn host before file ↔
      ((∃ l ∈ fileLines rest, Fits (words isBlank l)) → GoesOn host before line) ∧
        KeepsOn host (before ++ [line]) rest := by
  constructor
  · intro hkeeps
    refine ⟨fun hlater => ?_, fun pre l post hsplit hlater => ?_⟩
    · simpa using hkeeps [] line (fileLines rest) h hlater
    · simpa using hkeeps (line :: pre) l post (by rw [h, hsplit]; rfl) hlater
  · rintro ⟨hfirst, hkeeps⟩ pre l post hsplit hlater
    rw [h] at hsplit
    cases pre with
    | nil =>
      obtain ⟨rfl, rfl⟩ := List.cons.inj hsplit
      simpa using hfirst hlater
    | cons x pre =>
      obtain ⟨rfl, hrest⟩ := List.cons.inj hsplit
      simpa using hkeeps pre l post hrest hlater

/-- The loop behind the lines `before`, on the rest of the file. -/
theorem agree_batch_iff (hfuel : file.length ≤ fuel) (hnul : nul ∉ file)
    (hlines : ∀ line ∈ fileLines file, line.length ≤ 1000) (hs : s.Behind before) :
    Agree (fileLines file) (batch host fuel s file) ↔
      KeepsOn host before file ∧ EndsBlank file := by
  induction file using line_induction (· == '\n') generalizing fuel s before with
  | nil => simp [fileLines, KeepsOn, EndsBlank]
  | last l hl hne =>
    obtain ⟨line, c, rfl⟩ := List.eq_nil_or_concat l |>.resolve_left hne
    obtain ⟨fuel, rfl⟩ := Nat.exists_eq_succ_of_ne_zero (n := fuel) (by
      rw [List.concat_eq_append, List.length_append, List.length_singleton] at hfuel
      omega)
    rw [List.concat_eq_append] at *
    have hnewline : '\n' ∉ line ++ [c] := fun hmem => by simpa using hl _ hmem
    have hone : fileLines (line ++ [c]) = [line ++ [c]] := lines_of_forall_not hl hne
    rw [hone] at hlines
    rw [and_iff_right (keepsOn_last hone), EndsBlank, hone,
      batch_last host s hnewline hnul (hlines _ (by simp)), agree_cons]
    simpa using tokenize_init_iff hnewline
  | line l a r hl ha ih =>
    obtain rfl : a = '\n' := by simpa using ha
    obtain ⟨fuel, rfl⟩ := Nat.exists_eq_succ_of_ne_zero (n := fuel) (by
      rw [List.length_append, List.length_cons] at hfuel
      omega)
    have hnewline : '\n' ∉ l := fun hmem => by simpa using hl _ hmem
    have hcons : fileLines (l ++ '\n' :: r) = l :: fileLines r := lines_append_cons hl ha
    rw [hcons] at hlines
    rw [List.mem_append, List.mem_cons, not_or, not_or] at hnul
    have hreads : Reads l (tokenize (l ++ ['\n'])) := fun hfits => tokenize_eq hnewline hfits
    have hlength : r.length ≤ fuel := by
      rw [List.length_append, List.length_cons] at hfuel
      omega
    have hends : EndsBlank (l ++ '\n' :: r) ↔ EndsBlank r := by
      by_cases hr : r = []
      · subst hr
        simp [EndsBlank, isWhite]
      · have hlast : (l ++ '\n' :: r).getLast? = r.getLast? := by
          rw [List.getLast?_append_of_ne_nil _ (by simp), List.getLast?_cons_of_ne_nil hr]
        have hlines_ne : fileLines r ≠ [] := lines_ne_nil hr
        rw [EndsBlank, hlast, hcons, List.getLast?_cons_of_ne_nil hlines_ne, EndsBlank]
    rw [batch_line host s hnewline hnul.1 (hlines l (by simp)), hcons, agree_cons,
      and_iff_right hreads, keepsOn_cons hcons, hends]
    by_cases hgo : GoesOn host before l
    · obtain ⟨s', hs', hfinish, -⟩ := hs.finish host hnewline hgo.fits
      rw [tokenize_eq hnewline hgo.fits]
      simp only [Except.toOption, Option.bind_some, hfinish hgo]
      rw [ih hlength hnul.2.2 (fun line hline => hlines line (by simp [hline])) hs']
      simp [hgo]
    · -- the loop stops here, so no line behind may be within the limits
      have hstop : (tokenize (l ++ ['\n'])).toOption.bind (s.finish host) = none := by
        by_cases hfits : Fits (words isBlank l)
        · obtain ⟨s', -, -, hno⟩ := hs.finish host hnewline hfits
          rw [tokenize_eq hnewline hfits]
          exact hno hgo
        · rw [tokenize_of_not_fits hnewline hfits, Option.bind_none]
      rw [hstop]
      simp only [agree_nil_right]
      constructor
      · intro hnone
        refine ⟨⟨fun hlater => ?_, fun pre x post hsplit hlater => ?_⟩, fun c _ _ x hx => ?_⟩
        · obtain ⟨x, hx, hfits⟩ := hlater
          exact absurd hfits (hnone x hx)
        · obtain ⟨y, hy, hfits⟩ := hlater
          exact absurd hfits (hnone y (by simp [hsplit, hy]))
        · exact hnone x (List.mem_of_getLast? hx)
      · rintro ⟨⟨hfirst, -⟩, -⟩ x hx hfits
        exact hgo (hfirst ⟨x, hx, hfits⟩)

/-- On a file without NUL and with lines of no more than 1000 characters, whatever its commands
do, the loop reads every line within the limits, as its words, if and only if the rounds in front
of it come to their ends, and the file does not end in a character of a word. -/
theorem faithful_iff (host : Host) (hnul : nul ∉ file)
    (hlines : ∀ line ∈ fileLines file, line.length ≤ 1000) :
    Faithful host file ↔ KeepsOn host [] file ∧ EndsBlank file :=
  agree_batch_iff (Nat.le_refl _) hnul hlines .start

theorem faithful_ls_pwd :
    Faithful (fun _ _ => .ended) ['l', 's', '\n', '\n', ' ', 'p', 'w', 'd', '\n'] := by
  have hfile : fileLines ['l', 's', '\n', '\n', ' ', 'p', 'w', 'd', '\n'] =
      [['l', 's'], [], [' ', 'p', 'w', 'd']] := by decide
  have hlast : lastWords [['l', 's']] = some [['l', 's']] := by decide
  have hfirst : GoesOn (fun _ _ => .ended) [] ['l', 's'] :=
    ⟨⟨by decide, by decide⟩, fun _ _ _ => rfl, fun hblank => absurd hblank (by decide)⟩
  have hsecond : GoesOn (fun _ _ => .ended) [['l', 's']] [] :=
    ⟨⟨by decide, by decide⟩, fun _ _ _ => rfl, fun _ => ⟨_, hlast, by decide⟩⟩
  refine (faithful_iff _ (by decide) (by decide)).2 ⟨fun pre line post hsplit hlater => ?_, ?_⟩
  · rw [hfile] at hsplit
    obtain _ | ⟨x, _ | ⟨y, pre⟩⟩ := pre
    · obtain ⟨rfl, -⟩ := List.cons.inj hsplit
      exact hfirst
    · simp only [List.cons_append, List.nil_append, List.cons.injEq] at hsplit
      obtain ⟨rfl, rfl, -⟩ := hsplit
      exact hsecond
    · -- nothing comes behind the last line
      obtain ⟨l, hl, -⟩ := hlater
      have hlength := congrArg List.length hsplit
      have hpos := List.length_pos_of_mem hl
      simp at hlength
      omega
  · intro c hc hblack
    cases hc
    exact absurd hblack (by decide)

/-- A file with the line `ls` and no newline runs the command `l`. -/
theorem not_faithful_ls :
    fileLines ['l', 's'] = [['l', 's']] ∧ Fits (words isBlank ['l', 's']) ∧
      words isBlank ['l', 's'] = [['l', 's']] ∧ ∀ host,
        batch host 2 .start ['l', 's'] = [.ok [some ['l'], none]] ∧ ¬Faithful host ['l', 's'] := by
  have hlines : fileLines ['l', 's'] = [['l', 's']] := by decide
  have hfits : Fits (words isBlank ['l', 's']) := ⟨by decide, by decide⟩
  refine ⟨hlines, hfits, by decide, fun host => ?_⟩
  have hlast : batch host 2 .start (['l'] ++ ['s']) = [tokenize (['l'] ++ ['\n'])] :=
    batch_last host .start (by decide) (by decide) (by decide)
  have htokens : tokenize (['l'] ++ ['\n']) = .ok [some ['l'], none] := by decide +kernel
  have hbatch : batch host 2 .start ['l', 's'] = [.ok [some ['l'], none]] := by
    rw [← htokens]
    exact hlast
  refine ⟨hbatch, fun hfaithful => ?_⟩
  have hagree : Agree (fileLines ['l', 's']) (batch host 2 .start ['l', 's']) := hfaithful
  rw [hlines, hbatch, agree_cons] at hagree
  exact absurd (hagree.1 hfits) (by decide)

/-- After a line of five words and a blank line `main` frees what is not there. -/
example : batch (fun _ _ => .ended) 18 .start
    ['l', 's', ' ', 'a', ' ', 'b', ' ', 'c', ' ', 'd', '\n', '\n', 'l', 's', '\n'] =
      [.ok [some ['l', 's'], some ['a'], some ['b'], some ['c'], some ['d'], none],
        .ok [none]] := by
  decide +kernel

end Os20.Shell
