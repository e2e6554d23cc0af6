import Mathlib.Tactic.Common
import Os20.Shell.Pipeline

/-!
# The arrays of tokenize

`tokenize` keeps two counters and compares neither with the length of its array.  Here
are the cells it stores to, in their order: the characters of the word being read and
the NUL behind it in `token`, the pointers in `tokens` up to the final `NULL`, and the
characters `strcpy` moves into the array of a new token.
-/

namespace Os20.Shell

open Lib.Words

/-! ## The stores of a line -/

inductive Store where
  /-- `token[i]` -/
  | token (i : Nat)
  /-- `tokens[i]` -/
  | tokens (i : Nat)
  /-- `tokens[tokenNo][i]`, from `strcpy` -/
  | copy (tokenNo i : Nat)
  deriving DecidableEq, Repr

def Store.InBounds : Store → Prop
  | .token i => i < maxTokenSize
  | .tokens i => i < maxNumTokens
  | .copy _ i => i < maxTokenSize

instance : DecidablePred Store.InBounds := fun s =>
  match s with
  | .token i => inferInstanceAs (Decidable (i < maxTokenSize))
  | .tokens i => inferInstanceAs (Decidable (i < maxNumTokens))
  | .copy _ i => inferInstanceAs (Decidable (i < maxTokenSize))

/-- The test of the loop in `tokenize`. -/
def isWhite (c : Char) : Bool := c == ' ' || c == '\n' || c == '\t'

structure Cursor where
  tokenIndex : Nat
  tokenNo : Nat
  deriving DecidableEq, Repr

def Cursor.next (s : Cursor) (readChar : Char) : Cursor :=
  if isWhite readChar then
    if s.tokenIndex ≠ 0 then { tokenIndex := 0, tokenNo := s.tokenNo + 1 } else s
  else { s with tokenIndex := s.tokenIndex + 1 }

/-- What one character makes the loop store.  `strcpy` stops behind the NUL that was
stored at `tokenIndex` just before. -/
def Cursor.stores (s : Cursor) (readChar : Char) : List Store :=
  if isWhite readChar then
    .token s.tokenIndex ::
      if s.tokenIndex ≠ 0 then
        .tokens s.tokenNo :: (List.range (s.tokenIndex + 1)).map (.copy s.tokenNo)
      else []
  else [.token s.tokenIndex]

/-- The loop from the counters `s` on, and the `NULL` behind the last token. -/
def Cursor.run (s : Cursor) : List Char → List Store
  | [] => [.tokens s.tokenNo]
  | readChar :: line => s.stores readChar ++ (s.next readChar).run line

def stores (line : List Char) : List Store :=
  Cursor.run { tokenIndex := 0, tokenNo := 0 } line

def InBounds (line : List Char) : Prop :=
  ∀ s ∈ stores line, s.InBounds

instance : DecidablePred InBounds := fun line =>
  inferInstanceAs (Decidable (∀ s ∈ stores line, s.InBounds))

/-! ## One character -/

variable {s : Cursor} {c : Char} {line : List Char}

/-- The array of a new token is as long as `token`, so `strcpy` adds nothing to ask for. -/
theorem stores_of_white (hc : isWhite c = true) :
    (∀ x ∈ s.stores c, x.InBounds) ↔
      s.tokenIndex < maxTokenSize ∧ (s.tokenIndex ≠ 0 → s.tokenNo < maxNumTokens) := by
  by_cases h0 : s.tokenIndex = 0
  · simp [Cursor.stores, hc, h0, Store.InBounds]
  · simp only [Cursor.stores, hc, h0, if_true, ne_eq, not_false_eq_true, List.forall_mem_cons,
      List.forall_mem_map, Store.InBounds, List.mem_range, forall_true_left]
    constructor
    · rintro ⟨hindex, hno, -⟩
      exact ⟨hindex, hno⟩
    · rintro ⟨hindex, hno⟩
      exact ⟨hindex, hno, fun i hi => Nat.lt_of_lt_of_le hi hindex⟩

theorem stores_of_black (hc : isWhite c = false) :
    (∀ x ∈ s.stores c, x.InBounds) ↔ s.tokenIndex < maxTokenSize := by
  simp [Cursor.stores, hc, Store.InBounds]

theorem run_cons :
    (∀ x ∈ s.run (c :: line), x.InBounds) ↔
      (∀ x ∈ s.stores c, x.InBounds) ∧ ∀ x ∈ (s.next c).run line, x.InBounds := by
  rw [Cursor.run, List.forall_mem_append]

theorem run_nil : (∀ x ∈ s.run [], x.InBounds) ↔ s.tokenNo < maxNumTokens := by
  simp [Cursor.run, Store.InBounds]

/-! ## Whole lines -/

/-- The loop on the rest `l` of a line, with `t` read of the current word and `n` tokens
stored. -/
theorem run_inBounds_iff {l t : List Char} (n : Nat) (ht : ∀ x ∈ t, isWhite x = false) :
    (∀ x ∈ Cursor.run ⟨t.length, n⟩ (l ++ ['\n']), x.InBounds) ↔
      n + (words isWhite (t ++ l)).length < maxNumTokens ∧
        ∀ w ∈ words isWhite (t ++ l), w.length < maxTokenSize := by
  induction l generalizing t n with
  | nil =>
    have hnewline : isWhite '\n' = true := by decide
    rw [List.nil_append, run_cons, run_nil, stores_of_white hnewline]
    by_cases hne : t = []
    · subst hne
      simp [Cursor.next, hnewline, maxTokenSize]
    · have hword := words_append (l := []) ht hne (by simp [Ends])
      rw [hword]
      simp [Cursor.next, hnewline, hne]
      omega
  | cons c l ih =>
    rw [List.cons_append, run_cons]
    by_cases hc : isWhite c = true
    · rw [stores_of_white hc]
      by_cases hne : t = []
      · subst hne
        have hrest := ih n (t := []) (by simp)
        rw [List.nil_append, words_cons_of_sep hc, ← List.nil_append l, ← hrest]
        simp [Cursor.next, hc, maxTokenSize]
      · have hword : words isWhite (t ++ c :: l) = t :: words isWhite l := by
          rw [words_append ht hne (by simpa [Ends] using hc), words_cons_of_sep hc]
        have hrest := ih (n + 1) (t := []) (by simp)
        have hnext : Cursor.next ⟨t.length, n⟩ c = ⟨0, n + 1⟩ := by
          simp [Cursor.next, hc, hne]
        rw [List.length_nil, List.nil_append] at hrest
        rw [hnext, hrest, hword, List.length_cons, List.forall_mem_cons]
        constructor
        · rintro ⟨⟨hindex, -⟩, hno, hwords⟩
          exact ⟨by omega, hindex, hwords⟩
        · rintro ⟨hno, hindex, hwords⟩
          have hroom : n < maxNumTokens := by omega
          exact ⟨⟨hindex, fun _ => hroom⟩, by omega, hwords⟩
    · have hc' : isWhite c = false := by simpa using hc
      have htc : ∀ x ∈ t ++ [c], isWhite x = false := by
        intro x hx
        rcases List.mem_append.1 hx with hx | hx
        · exact ht x hx
        · rw [List.mem_singleton.1 hx]
          exact hc'
      have hrest := ih n htc
      have hnext : Cursor.next ⟨t.length, n⟩ c = ⟨(t ++ [c]).length, n⟩ := by
        simp [Cursor.next, hc']
      rw [hnext, hrest, stores_of_black hc', List.append_cons t c l]
      refine and_iff_right_of_imp ?_
      rintro ⟨-, hwords⟩
      -- the word that is being read is at least as long as what is read of it
      obtain ⟨v, hv, hle⟩ := exists_mem_words_append (l := l) htc (by simp)
      have hlt := hwords v hv
      rw [List.length_append] at hle
      exact Nat.lt_of_lt_of_le (Nat.lt_of_lt_of_le (Nat.lt_succ_self _) hle) (Nat.le_of_lt hlt)

/-- On a line that ends in a newline, every store is in bounds exactly when there are fewer
words than `tokens` has cells, and each is shorter than `token`. -/
theorem inBounds_iff (line : List Char) :
    InBounds (line ++ ['\n']) ↔ Fits (words isWhite line) := by
  have hrun := run_inBounds_iff (l := line) (t := []) 0 (by simp)
  rw [List.nil_append, Nat.zero_add] at hrun
  exact hrun.trans ⟨fun h => ⟨h.1, h.2⟩, fun h => ⟨h.length_lt, h.token_lt⟩⟩

/-! ## The limits of the assignment -/

/-- At most 64 tokens, and none of more than 64 characters. -/
structure Documented (ws : List Token) : Prop where
  length_le : ws.length ≤ 64
  token_le : ∀ w ∈ ws, w.length ≤ 64

def longWord : List Char := List.replicate 64 'a'

def manyWords : List Char := (List.replicate 64 ['a', ' ']).flatten

/-- The NUL behind the longest word and the `NULL` behind the last of 64 words are written
behind the ends of their arrays. -/
theorem documented_overrun :
    (Documented (words isWhite longWord) ∧ .token 64 ∈ stores (longWord ++ ['\n']) ∧
      ¬InBounds (longWord ++ ['\n'])) ∧
    (Documented (words isWhite manyWords) ∧ .tokens 64 ∈ stores (manyWords ++ ['\n']) ∧
      ¬InBounds (manyWords ++ ['\n'])) :=
  ⟨⟨⟨by decide, by decide⟩, by decide, by decide⟩,
    ⟨⟨by decide, by decide⟩, by decide +kernel, by decide +kernel⟩⟩

/-! ## The parse -/

def Scan.cursor (s : Scan) : Cursor where
  tokenIndex := s.token.length
  tokenNo := s.tokens.length

theorem isWhite_iff : isWhite c = true ↔ c = ' ' ∨ c = '\n' ∨ c = '\t' := by
  simp [isWhite, or_assoc]

theorem read_of_inBounds {s : Scan} (h : ∀ x ∈ s.cursor.stores c, x.InBounds) :
    ∃ s', s.read c = .ok s' ∧ s'.cursor = s.cursor.next c := by
  by_cases hc : isWhite c = true
  · obtain ⟨hindex, hno⟩ : s.token.length < maxTokenSize ∧
        (s.token.length ≠ 0 → s.tokens.length < maxNumTokens) := (stores_of_white hc).1 h
    rw [Scan.read, if_neg (Nat.not_le.2 hindex), if_pos (isWhite_iff.1 hc)]
    by_cases ht : s.token.length = 0
    · exact ⟨s, by simp [ht], by simp [Cursor.next, Scan.cursor, hc, ht]⟩
    · rw [if_pos ht, if_neg (Nat.not_le.2 (hno ht))]
      exact ⟨_, rfl, by simp [Cursor.next, Scan.cursor, hc, ht]⟩
  · have hindex : s.token.length < maxTokenSize := (stores_of_black (by simpa using hc)).1 h
    rw [Scan.read, if_neg (Nat.not_le.2 hindex), if_neg (mt isWhite_iff.2 hc)]
    exact ⟨_, rfl, by simp [Cursor.next, Scan.cursor, hc]⟩

theorem inBounds_of_read {s s' : Scan} (h : s.read c = .ok s') :
    ∀ x ∈ s.cursor.stores c, x.InBounds := by
  have hindex : s.token.length < maxTokenSize := by
    by_contra hle
    rw [Scan.read, if_pos (Nat.not_lt.1 hle)] at h
    cases h
  by_cases hc : isWhite c = true
  · have hno : s.token.length ≠ 0 → s.tokens.length < maxNumTokens := by
      intro ht
      by_contra hle
      rw [Scan.read, if_neg (Nat.not_le.2 hindex), if_pos (isWhite_iff.1 hc), if_pos ht,
        if_pos (Nat.not_lt.1 hle)] at h
      cases h
    exact (stores_of_white hc).2 ⟨hindex, hno⟩
  · exact (stores_of_black (by simpa using hc)).2 hindex

theorem foldlM_read_iff {s : Scan} :
    (∃ s', line.foldlM Scan.read s = .ok s' ∧ s'.tokens.length < maxNumTokens) ↔
      ∀ x ∈ s.cursor.run line, x.InBounds := by
  induction line generalizing s with
  | nil =>
    rw [run_nil, List.foldlM_nil]
    constructor
    · rintro ⟨s', hs, hlt⟩
      cases hs
      exact hlt
    · exact fun hlt => ⟨s, rfl, hlt⟩
  | cons c line ih =>
    rw [run_cons, List.foldlM_cons]
    constructor
    · rintro ⟨s', hrun, hlt⟩
      cases hread : s.read c with
      | error e =>
        rw [hread] at hrun
        cases hrun
      | ok s₁ =>
        have hin := inBounds_of_read hread
        obtain ⟨s₂, hread₂, hnext⟩ := read_of_inBounds hin
        rw [hread] at hrun hread₂
        cases hread₂
        rw [← hnext]
        exact ⟨hin, ih.1 ⟨s', hrun, hlt⟩⟩
    · rintro ⟨hin, hrest⟩
      obtain ⟨s₁, hread, hnext⟩ := read_of_inBounds hin
      rw [← hnext] at hrest
      rw [hread]
      exact ih.2 hrest

/-- The parse of a line ends in its tokens exactly when no store leaves its array. -/
theorem tokenize_ok_iff : (∃ tokens, tokenize line = .ok tokens) ↔ InBounds line := by
  refine Iff.trans ?_ (foldlM_read_iff (s := { tokens := [], token := [] }))
  rw [tokenize]
  cases line.foldlM Scan.read { tokens := [], token := [] } with
  | error e => simp [bind, Except.bind]
  | ok s =>
    by_cases hlt : s.tokens.length < maxNumTokens
    · simp [bind, Except.bind, hlt, Nat.not_le.2 hlt]
    · simp [bind, Except.bind, hlt, Nat.not_lt.1 hlt]

end Os20.Shell
