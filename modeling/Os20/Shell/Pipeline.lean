import Mathlib.Tactic.Common
import Os20.Shell.Parse

/-!
# Pipelines

Within its limits the parse of a line is its words, cut at the words that begin with
`|`; a child whose part is empty never reaches `execvp`.
-/

namespace Os20.Shell

open Lib.Words

variable {line : List Char}

/-! ## tokenize -/

theorem isBlank_iff {c : Char} : isBlank c = true ↔ c = ' ' ∨ c = '\t' := by
  simp [isBlank]

structure Fits (ws : List Token) : Prop where
  length_lt : ws.length < maxNumTokens
  token_lt : ∀ w ∈ ws, w.length < maxTokenSize

theorem Fits.room {l t : List Char} {ts : List Token}
    (hfits : Fits (ts ++ words isBlank (t ++ l))) (ht : ∀ c ∈ t, isBlank c = false) :
    t.length < maxTokenSize ∧ ts.length < maxNumTokens := by
  constructor
  · by_cases hne : t = []
    · simp [hne, maxTokenSize]
    · obtain ⟨v, hv, hle⟩ := exists_mem_words_append (l := l) ht hne
      exact Nat.lt_of_le_of_lt hle (hfits.token_lt v (List.mem_append_right _ hv))
  · have hlen := hfits.length_lt
    rw [List.length_append] at hlen
    omega

theorem read_of_blank {s : Scan} {c : Char} (hc : isBlank c = true ∨ c = '\n')
    (htoken : s.token.length < maxTokenSize) (htokens : s.tokens.length < maxNumTokens) :
    s.read c = .ok ⟨if s.token = [] then s.tokens else s.tokens ++ [s.token], []⟩ := by
  have hwhite : c = ' ' ∨ c = '\n' ∨ c = '\t' := by
    rw [isBlank_iff] at hc
    tauto
  rw [Scan.read, if_neg (Nat.not_le.2 htoken), if_pos hwhite]
  by_cases ht : s.token = []
  · obtain ⟨tokens, token⟩ := s
    obtain rfl : token = [] := ht
    simp
  · simp [ht, Nat.not_le.2 htokens]

theorem read_of_not_blank {s : Scan} {c : Char} (hc : isBlank c = false) (hn : c ≠ '\n')
    (htoken : s.token.length < maxTokenSize) :
    s.read c = .ok { s with token := s.token ++ [c] } := by
  have hblack : ¬(c = ' ' ∨ c = '\n' ∨ c = '\t') := by
    have := isBlank_iff (c := c)
    simp only [hc] at this
    tauto
  rw [Scan.read, if_neg (Nat.not_le.2 htoken), if_neg hblack]

theorem foldlM_read {l t : List Char} (ts : List Token) (hl : '\n' ∉ l)
    (ht : ∀ c ∈ t, isBlank c = false) (hfits : Fits (ts ++ words isBlank (t ++ l))) :
    (l ++ ['\n']).foldlM Scan.read ⟨ts, t⟩ = .ok ⟨ts ++ words isBlank (t ++ l), []⟩ := by
  induction l generalizing t ts with
  | nil =>
    obtain ⟨htoken, htokens⟩ := hfits.room ht
    have hread := read_of_blank (s := ⟨ts, t⟩) (.inr rfl) htoken htokens
    by_cases hne : t = []
    · subst hne
      simpa using hread
    · have hword := words_append (l := []) ht hne (by simp [Ends])
      rw [hword]
      simpa [hne] using hread
  | cons c l ih =>
    obtain ⟨htoken, htokens⟩ := hfits.room ht
    rw [List.mem_cons, not_or] at hl
    rw [List.cons_append, List.foldlM_cons]
    by_cases hc : isBlank c = true
    · rw [read_of_blank (s := ⟨ts, t⟩) (.inl hc) htoken htokens]
      by_cases hne : t = []
      · subst hne
        rw [List.nil_append, words_cons_of_sep hc] at hfits ⊢
        exact ih ts hl.2 (by simp) hfits
      · have hword : words isBlank (t ++ c :: l) = t :: words isBlank l := by
          rw [words_append ht hne (by simpa [Ends] using hc), words_cons_of_sep hc]
        rw [hword, List.append_cons] at hfits
        rw [hword, List.append_cons ts t (words isBlank l)]
        simp only [hne, if_false]
        exact ih (ts ++ [t]) hl.2 (t := []) (by simp) hfits
    · have hc' : isBlank c = false := by simpa using hc
      rw [read_of_not_blank (s := ⟨ts, t⟩) hc' (Ne.symm hl.1) htoken]
      rw [List.append_cons t c l] at hfits ⊢
      refine ih ts hl.2 ?_ hfits
      intro d hd
      rcases List.mem_append.1 hd with hd | hd
      · exact ht d hd
      · rw [List.mem_singleton.1 hd]
        exact hc'

theorem tokenize_eq (hline : '\n' ∉ line) (hfits : Fits (words isBlank line)) :
    tokenize (line ++ ['\n']) = .ok ((words isBlank line).map some ++ [none]) := by
  have hread := foldlM_read (t := []) [] hline (by simp) hfits
  rw [List.nil_append, List.nil_append] at hread
  rw [tokenize, hread]
  exact if_neg (Nat.not_le.2 hfits.length_lt)

/-! ## The queue -/

def Queue.elems (q : Queue) : List Int :=
  (List.range' q.front (q.rear - q.front)).map q.body

theorem queuePush_run {q : Queue} (elem : Int) (hle : q.front ≤ q.rear)
    (hroom : q.rear < queueSize) :
    ∃ q', queuePush q elem = .ok q' ∧ q'.front = q.front ∧ q'.rear = q.rear + 1 ∧
      q'.elems = q.elems ++ [elem] := by
  refine ⟨_, if_pos hroom, rfl, rfl, ?_⟩
  have hsize : q.rear + 1 - q.front = q.rear - q.front + 1 := by omega
  have hlast : q.front + (q.rear - q.front) = q.rear := by omega
  rw [Queue.elems, hsize, List.range'_concat, List.map_append, Queue.elems, Nat.one_mul, hlast]
  congr 1
  · apply List.map_congr_left
    intro i hi
    have hlt : q.front ≤ i ∧ i < q.front + (q.rear - q.front) := List.mem_range'_1.1 hi
    exact Function.update_of_ne (by omega) _ _
  · simp

theorem elems_eq_cons {q : Queue} (hlt : q.front < q.rear) :
    q.elems = queueFront q :: (queuePop q).2.elems := by
  have hsize : q.rear - q.front = q.rear - (q.front + 1) + 1 := by omega
  rw [queuePop, if_neg (by omega), Queue.elems, hsize, List.range'_succ, List.map_cons]
  congr 1
  apply List.map_congr_left
  intro i hi
  have := List.mem_range'_1.1 hi
  exact (Function.update_of_ne (by omega) _ _).symm

theorem launch_eq (tokens : List (Option Token)) {n : Nat} {q : Queue}
    (hn : q.rear = q.front + n) : launch tokens n q = q.elems.map (child tokens) := by
  induction n generalizing q with
  | zero => simp [launch, Queue.elems, hn]
  | succ n ih =>
    have hlt : q.front < q.rear := by omega
    have hpop : (queuePop q).2.rear = (queuePop q).2.front + n := by
      simp only [queuePop, if_neg (show ¬q.front = q.rear by omega)]
      omega
    have hempty : queueEmpty q = false := by
      simp [queueEmpty]
      omega
    rw [launch, hempty, elems_eq_cons hlt, List.map_cons, ih hpop]
    rfl

/-! ## The pipe tokens -/

def punctured (ws : List Token) : List (Option Token) :=
  ws.map fun w => if isPipe w then none else some w

def pipeIndices (k : Nat) : List Token → List Int
  | [] => []
  | w :: ws => if isPipe w then (k : Int) :: pipeIndices (k + 1) ws else pipeIndices (k + 1) ws

theorem replacePipes_run (done : List (Option Token)) {ws : List Token} {q : Queue} {fuel : Nat}
    (hfuel : ws.length < fuel) (hle : q.front ≤ q.rear) (hroom : q.rear + ws.length ≤ queueSize) :
    ∃ q', replacePipes fuel done.length (done ++ (ws.map some ++ [none])) q =
        .ok (done ++ (punctured ws ++ [none]), q') ∧
      q'.front ≤ q'.rear ∧ q'.elems = q.elems ++ pipeIndices done.length ws := by
  induction ws generalizing done q fuel with
  | nil =>
    obtain ⟨fuel, rfl⟩ := Nat.exists_eq_succ_of_ne_zero (Nat.ne_of_gt hfuel)
    exact ⟨q, by simp [replacePipes, punctured], hle, by simp [pipeIndices]⟩
  | cons w ws ih =>
    obtain ⟨fuel, rfl⟩ := Nat.exists_eq_succ_of_ne_zero (Nat.ne_of_gt (Nat.zero_lt_of_lt hfuel))
    rw [List.length_cons] at hfuel hroom
    have hat : (done ++ ((w :: ws).map some ++ [none]))[done.length]? = some (some w) := by simp
    rw [replacePipes, hat]
    by_cases hw : isPipe w = true
    · obtain ⟨q₁, hpush, hfront, hrear, helems⟩ :=
        queuePush_run (done.length : Int) hle (by omega)
      have hset : (done ++ ((w :: ws).map some ++ [none])).set done.length none =
          (done ++ [none]) ++ (ws.map some ++ [none]) := by simp
      obtain ⟨q', hrun, hle', hq'⟩ := ih (done ++ [none]) (q := q₁)
        (Nat.lt_of_succ_lt_succ hfuel) (by omega) (by omega)
      rw [List.length_append, List.length_singleton] at hrun hq'
      refine ⟨q', ?_, hle', ?_⟩
      · simp only [hw, if_true, hpush, hset]
        refine hrun.trans ?_
        simp [punctured, hw]
      · rw [hq', helems]
        simp [pipeIndices, hw]
    · obtain ⟨q', hrun, hle', hq'⟩ := ih (done ++ [some w]) (q := q)
        (Nat.lt_of_succ_lt_succ hfuel) hle (by omega)
      rw [List.length_append, List.length_singleton] at hrun hq'
      refine ⟨q', ?_, hle', ?_⟩
      · simpa [punctured, hw] using hrun
      · simpa [pipeIndices, hw] using hq'

/-- The vectors behind the queued indices are the parts of the word list. -/
theorem argv_cons_map_pipeIndices (done : List (Option Token)) (ws : List Token) :
    argv (done ++ (punctured ws ++ [none])) done.length ::
        (pipeIndices done.length ws).map
          (fun i => argv (done ++ (punctured ws ++ [none])) (i + 1).toNat) =
      ws.splitOnP isPipe := by
  induction ws generalizing done with
  | nil => simp [argv, punctured, pipeIndices]
  | cons w ws ih =>
    rw [List.splitOnP_cons_eq_if_modifyHead]
    by_cases hw : isPipe w = true
    · have hrest := ih (done ++ [none])
      rw [if_pos hw, ← hrest]
      simp [argv, punctured, pipeIndices, hw]
    · have hrest := ih (done ++ [some w])
      rw [if_neg hw, ← hrest]
      simp [argv, punctured, pipeIndices, hw]

/-! ## The parse of a line -/

theorem filterMap_child {tokens : List (Option Token)} {ds : List Int} :
    (ds.map (child tokens)).filterMap Except.toOption =
      (ds.map fun d => argv tokens (d + 1).toNat).filter (!·.isEmpty) := by
  induction ds with
  | nil => rfl
  | cons d ds ih =>
    rw [List.map_cons, List.map_cons, List.filterMap_cons, ih, child]
    cases argv tokens (d + 1).toNat <;> simp [Except.toOption]

theorem children_eq (hline : '\n' ∉ line) (hfits : Fits (words isBlank line))
    (hne : words isBlank line ≠ []) :
    children line = .ok ((-1 :: pipeIndices 0 (words isBlank line)).map
      (child (punctured (words isBlank line) ++ [none]))) := by
  have hlen := hfits.length_lt
  have hhead : ((words isBlank line).map some ++ [none]).head? ≠ some none := by
    obtain ⟨w, ws, hws⟩ := List.exists_cons_of_ne_nil hne
    simp [hws]
  obtain ⟨q, hpush, hfront, hrear, helems⟩ :=
    queuePush_run (q := queueNew) (-1) (Nat.le_refl 0) (by decide)
  have hsize : q.rear + (words isBlank line).length ≤ queueSize := by
    simp only [hrear, queueNew, queueSize, maxNumTokens] at hlen ⊢
    omega
  obtain ⟨q', hrun, hle, hq'⟩ := replacePipes_run [] (Nat.lt_succ_self _)
    (by rw [hfront, hrear]; exact Nat.zero_le _) hsize
  have hlaunch := launch_eq (punctured (words isBlank line) ++ [none])
    (n := (queueLength q').toNat) (q := q') (by simp only [queueLength]; omega)
  rw [hq', helems] at hlaunch
  rw [children, tokenize_eq hline hfits]
  simp only [bind, Except.bind, if_neg hhead, hpush, pure, Except.pure]
  rw [List.nil_append, List.length_nil, List.nil_append] at hrun
  rw [List.length_append, List.length_map, List.length_singleton, hrun]
  simp only [hlaunch]
  rfl

/-- The vectors handed on are the words of the line cut at the words that begin with `|`,
the empty ones left out. -/
theorem argVectors_eq (hline : '\n' ∉ line) (hfits : Fits (words isBlank line)) :
    argVectors line = .ok (((words isBlank line).splitOnP isPipe).filter (!·.isEmpty)) := by
  by_cases hne : words isBlank line = []
  · rw [argVectors, children, tokenize_eq hline hfits, hne]
    rfl
  · rw [argVectors, children_eq hline hfits hne]
    have hparts := argv_cons_map_pipeIndices [] (words isBlank line)
    simp only [bind, Except.bind, pure, Except.pure]
    rw [filterMap_child, ← hparts]
    rfl

/-! ## Every mark a word of its own -/

theorem isPipe_iff {w : Token} : isPipe w = true ↔ ∃ v, w = '|' :: v := by
  cases w <;> simp [isPipe]

theorem commands_eq_map :
    commands line = (line.splitOnP (· == '|')).map (words isBlank) := rfl

theorem isBlank_of_pipe (c : Char) (hc : (c == '|') = true) : isBlank c = false := by
  rw [beq_iff_eq.1 hc]
  decide

/-- A word that is overwritten costs at least the one character of a pipe. -/
theorem countP_isPipe_add_le (ws : List Token) :
    ws.countP isPipe + (ws.filter (!isPipe ·)).flatten.length ≤ ws.flatten.length := by
  induction ws with
  | nil => simp
  | cons w ws ih =>
    by_cases hw : isPipe w = true
    · obtain ⟨v, rfl⟩ := isPipe_iff.1 hw
      simp [hw] at ih ⊢
      omega
    · simp [hw] at ih ⊢
      omega

theorem eq_pipe_of_length_le {ws : List Token}
    (hle : ws.flatten.length ≤ ws.countP isPipe + (ws.filter (!isPipe ·)).flatten.length)
    {w : Token} (hmem : w ∈ ws) (hw : isPipe w = true) : w = ['|'] := by
  induction ws with
  | nil => simp at hmem
  | cons v ws ih =>
    have hrest := countP_isPipe_add_le ws
    by_cases hv : isPipe v = true
    · obtain ⟨u, rfl⟩ := isPipe_iff.1 hv
      simp [hv] at hle hrest
      rcases List.mem_cons.1 hmem with rfl | hmem
      · have hu : u = [] := List.length_eq_zero_iff.1 (by omega)
        rw [hu]
      · exact ih (by simp; omega) hmem
    · simp [hv] at hle hrest
      rcases List.mem_cons.1 hmem with rfl | hmem
      · exact absurd hw hv
      · exact ih (by simp; omega) hmem

/-- When the children run the commands of the line, no word was overwritten but a `|` of
its own: a longer one loses characters, and a later `|` of a word stays in it. -/
theorem eq_pipe_of_argVectors
    (h : ((words isBlank line).splitOnP isPipe).filter (!·.isEmpty) = commands line)
    {w : Token} (hmem : w ∈ words isBlank line) (hw : '|' ∈ w) : w = ['|'] := by
  have hflat : (commands line).flatten = (words isBlank line).filter (!isPipe ·) := by
    rw [← h, List.flatten_filter_not_isEmpty, flatten_splitOnP]
  by_cases hpipe : isPipe w = true
  · refine eq_pipe_of_length_le ?_ hmem hpipe
    have hlen : (commands line).length ≤ (words isBlank line).countP isPipe + 1 := by
      rw [← h, ← length_splitOnP]
      exact List.length_filter_le _ _
    have htotal := length_add_length_map_words (l := line) isBlank_of_pipe
    rw [← commands_eq_map, hflat] at htotal
    omega
  · have hkept : '|' ∈ (commands line).flatten.flatten := by
      rw [hflat]
      exact List.mem_flatten.2 ⟨w, List.mem_filter.2 ⟨hmem, by simpa using hpipe⟩, hw⟩
    rw [commands_eq_map, flatten_map_words] at hkept
    simp at hkept

/-- Within the limits of `tokenize`, the children run the commands of the line exactly
when every `|` of it is a word of its own and every command has a word. -/
theorem argVectors_eq_commands_iff (hline : '\n' ∉ line) (hfits : Fits (words isBlank line)) :
    argVectors line = .ok (commands line) ↔
      (∀ w ∈ words isBlank line, '|' ∈ w → w = ['|']) ∧ ∀ c ∈ commands line, c ≠ [] := by
  rw [argVectors_eq hline hfits, Except.ok.injEq]
  constructor
  · intro h
    refine ⟨fun w hmem hw => eq_pipe_of_argVectors h hmem hw, ?_⟩
    intro c hc
    rw [← h] at hc
    simpa using (List.mem_filter.1 hc).2
  · rintro ⟨halone, hwords⟩
    have hsplit : commands line = (words isBlank line).splitOnP isPipe := by
      refine map_words_splitOnP isBlank_of_pipe ?_ ?_
      · intro w hmem hw
        obtain ⟨v, rfl⟩ := isPipe_iff.1 hw
        exact ⟨'|', by decide, halone _ hmem (by simp)⟩
      · intro w hmem hw x hx
        by_contra hcut
        obtain rfl : x = '|' := by simpa using hcut
        rw [halone w hmem hx] at hw
        exact absurd hw (by decide)
    rw [hsplit] at hwords ⊢
    refine List.filter_eq_self.2 ?_
    intro c hc
    simpa using hwords c hc

theorem argVectors_ls_wc :
    argVectors ['l', 's', ' ', '|', '\t', 'w', 'c'] =
      .ok (commands ['l', 's', ' ', '|', '\t', 'w', 'c']) :=
  (argVectors_eq_commands_iff (by decide) ⟨by decide, by decide⟩).2 ⟨by decide, by decide⟩

def lsMore : List Char := ['l', 's', ' ', '|', 'm', 'o', 'r', 'e']

/-- `more` is overwritten with its pipe, and the second child finds no command. -/
theorem argVectors_lsMore :
    '\n' ∉ lsMore ∧ Fits (words isBlank lsMore) ∧
      children lsMore = .ok [.ok [['l', 's']], .error .null] ∧
      commands lsMore = [[['l', 's']], [['m', 'o', 'r', 'e']]] ∧
      argVectors lsMore ≠ .ok (commands lsMore) :=
  ⟨by decide, ⟨by decide, by decide⟩, by decide +kernel, by decide, by decide +kernel⟩

end Os20.Shell
