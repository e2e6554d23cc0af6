import Mathlib.Data.List.Basic
import Mathlib.Data.List.TakeWhile
import Mathlib.Tactic.TypeStar

/-!
# Words between separators

`words sep l` are the maximal runs of `l` without a separator, and `lines cut l` the parts
between the marks of `cut`.  A list can be walked over one separator or one word at a time,
or line by line, and the two ways of cutting a list, at some marks first or into words
first, agree when every mark stands alone.
-/

namespace Os20.Lib.Words

variable {α : Type*}

/-- The maximal nonempty runs of elements that are not separators. -/
def words (sep : α → Bool) (l : List α) : List (List α) :=
  (l.splitOnP sep).filter (!·.isEmpty)

variable {sep cut : α → Bool} {l w : List α} {a : α}

@[simp] theorem words_nil : words sep [] = [] := by
  simp [words]

theorem words_cons_of_sep (ha : sep a) : words sep (a :: l) = words sep l := by
  simp [words, List.splitOnP_cons_eq_if_modifyHead, ha]

def Ends (sep : α → Bool) (l : List α) : Prop :=
  ∀ a ∈ l.head?, sep a = true

theorem words_append (hw : ∀ x ∈ w, sep x = false) (hne : w ≠ []) (hl : Ends sep l) :
    words sep (w ++ l) = w :: words sep l := by
  cases l with
  | nil => simp [words, List.splitOnP_eq_singleton hw, hne]
  | cons a l =>
    have ha : sep a = true := hl a rfl
    rw [words_cons_of_sep ha, words, List.splitOnP_append_cons_of_forall_mem hw a ha]
    simp [words, hne]

theorem ends_dropWhile : Ends sep (l.dropWhile (!sep ·)) := by
  intro b hb
  have hstop := List.head?_dropWhile_not (!sep ·) l
  rw [Option.mem_def.1 hb] at hstop
  simpa using hstop

/-- Induction over a list by its separators and its words. -/
theorem word_induction (sep : α → Bool) {P : List α → Prop} (nil : P [])
    (blank : ∀ a l, sep a = true → P l → P (a :: l))
    (word : ∀ w l, (∀ x ∈ w, sep x = false) → w ≠ [] → Ends sep l → P l → P (w ++ l))
    (l : List α) : P l := by
  induction hn : l.length using Nat.strongRecOn generalizing l with
  | ind n ih =>
    subst hn
    cases l with
    | nil => exact nil
    | cons a l =>
      by_cases ha : sep a = true
      · exact blank a l ha (ih l.length (by simp) l rfl)
      · have hsplit := List.takeWhile_append_dropWhile (p := (!sep ·)) (l := l)
        have hlen : (l.dropWhile (!sep ·)).length ≤ l.length :=
          (List.dropWhile_suffix _).length_le
        have hrest := ih _ (by simpa [Nat.lt_succ_iff] using hlen)
          (l.dropWhile (!sep ·)) rfl
        rw [← hsplit]
        refine word (a :: l.takeWhile (!sep ·)) _ ?_ (by simp) ?_ hrest
        · intro x hx
          rcases List.mem_cons.1 hx with rfl | hx
          · simpa using ha
          · simpa using List.mem_takeWhile_imp hx
        · exact ends_dropWhile

theorem flatten_words : (words sep l).flatten = l.filter (!sep ·) := by
  induction l using word_induction sep with
  | nil => simp
  | blank a l ha ih => simp [words_cons_of_sep ha, ih, ha]
  | word w l hw hne hl ih =>
    have hkeep : w.filter (!sep ·) = w := List.filter_eq_self.2 fun x hx => by simp [hw x hx]
    rw [words_append hw hne hl, List.flatten_cons, ih, List.filter_append, hkeep]

theorem exists_mem_words_append (hw : ∀ x ∈ w, sep x = false) (hne : w ≠ []) :
    ∃ v ∈ words sep (w ++ l), w.length ≤ v.length := by
  refine ⟨w ++ l.takeWhile (!sep ·), ?_, by simp⟩
  have hend : Ends sep (l.dropWhile (!sep ·)) := ends_dropWhile
  have hv : ∀ x ∈ w ++ l.takeWhile (!sep ·), sep x = false := by
    intro x hx
    rcases List.mem_append.1 hx with hx | hx
    · exact hw x hx
    · simpa using List.mem_takeWhile_imp hx
  conv in w ++ l => rw [← List.takeWhile_append_dropWhile (p := (!sep ·)) (l := l)]
  rw [← List.append_assoc, words_append hv (by simp [hne]) hend]
  exact List.mem_cons_self

theorem words_concat_of_sep (ha : sep a = true) : words sep (l ++ [a]) = words sep l := by
  induction l using word_induction sep with
  | nil => exact words_cons_of_sep ha
  | blank b l hb ih => rw [List.cons_append, words_cons_of_sep hb, words_cons_of_sep hb, ih]
  | word w l hw hne hl ih =>
    have hend : Ends sep (l ++ [a]) := by
      cases l with
      | nil => simpa [Ends] using ha
      | cons b l => exact hl
    rw [List.append_assoc, words_append hw hne hend, words_append hw hne hl, ih]

theorem words_congr {sep' : α → Bool} (h : ∀ x ∈ l, sep x = sep' x) :
    words sep l = words sep' l := by
  have hparts : l.splitOnP sep = l.splitOnP sep' := by
    induction l with
    | nil => simp
    | cons a l ih =>
      rw [List.splitOnP_cons_eq_if_modifyHead, List.splitOnP_cons_eq_if_modifyHead,
        h a (by simp), ih fun x hx => h x (List.mem_cons_of_mem _ hx)]
  rw [words, words, hparts]

/-! ## Lines -/

/-- The parts between the marks.  An empty part behind the last mark is no line. -/
def lines (cut : α → Bool) (l : List α) : List (List α) :=
  if (l.splitOnP cut).getLast?.any (·.isEmpty) then (l.splitOnP cut).dropLast else l.splitOnP cut

@[simp] theorem lines_nil : lines cut [] = [] := by
  simp [lines]

theorem lines_of_forall_not (hl : ∀ x ∈ l, cut x = false) (hne : l ≠ []) :
    lines cut l = [l] := by
  simp [lines, List.splitOnP_eq_singleton hl, hne]

theorem lines_append_cons {r : List α} (hl : ∀ x ∈ l, cut x = false) (ha : cut a = true) :
    lines cut (l ++ a :: r) = l :: lines cut r := by
  obtain ⟨s, ss, hs⟩ := List.exists_cons_of_ne_nil (List.splitOnP_ne_nil cut r)
  rw [lines, List.splitOnP_append_cons_of_forall_mem hl a ha, lines, hs]
  simp only [List.getLast?_cons_cons, List.dropLast_cons_cons]
  split <;> rfl

/-- Induction over a list by its lines, the last of which may lack its mark. -/
theorem line_induction (cut : α → Bool) {P : List α → Prop} (nil : P [])
    (last : ∀ l, (∀ x ∈ l, cut x = false) → l ≠ [] → P l)
    (line : ∀ l a r, (∀ x ∈ l, cut x = false) → cut a = true → P r → P (l ++ a :: r))
    (l : List α) : P l := by
  induction hn : l.length using Nat.strongRecOn generalizing l with
  | ind n ih =>
    subst hn
    have hfree : ∀ x ∈ l.takeWhile (!cut ·), cut x = false := by
      intro x hx
      simpa using List.mem_takeWhile_imp hx
    have hsplit := List.takeWhile_append_dropWhile (p := (!cut ·)) (l := l)
    cases hrest : l.dropWhile (!cut ·) with
    | nil =>
      rw [hrest, List.append_nil] at hsplit
      rw [hsplit] at hfree
      by_cases hne : l = []
      · exact hne ▸ nil
      · exact last l hfree hne
    | cons a r =>
      rw [hrest] at hsplit
      have ha : cut a = true := by
        have hstop := List.head?_dropWhile_not (!cut ·) l
        rw [hrest] at hstop
        simpa using hstop
      have hlt : r.length < l.length := by
        rw [← hsplit, List.length_append, List.length_cons]
        omega
      rw [← hsplit]
      exact line _ a r hfree ha (ih r.length hlt r rfl)

theorem lines_ne_nil (hne : l ≠ []) : lines cut l ≠ [] := by
  induction l using line_induction cut with
  | nil => exact absurd rfl hne
  | last l hl hne => simp [lines_of_forall_not hl hne]
  | line l a r hl ha ih => simp [lines_append_cons hl ha]

/-! ## Cutting at marks -/

theorem length_splitOnP : (l.splitOnP cut).length = l.countP cut + 1 := by
  induction l with
  | nil => simp
  | cons a l ih =>
    by_cases ha : cut a = true
    · simp [List.splitOnP_cons_eq_if_modifyHead, ha, ih]
    · simp [List.splitOnP_cons_eq_if_modifyHead, ha, ih]

theorem flatten_splitOnP : (l.splitOnP cut).flatten = l.filter (!cut ·) := by
  induction l with
  | nil => simp
  | cons a l ih =>
    by_cases ha : cut a = true
    · simp [List.splitOnP_cons_eq_if_modifyHead, ha, ih]
    · obtain ⟨s, ss, hs⟩ := List.exists_cons_of_ne_nil (List.splitOnP_ne_nil cut l)
      rw [hs] at ih
      simpa [List.splitOnP_cons_eq_if_modifyHead, ha, hs] using ih

theorem flatten_map_words :
    ((l.splitOnP cut).map (words sep)).flatten.flatten = (l.filter (!sep ·)).filter (!cut ·) := by
  have hparts : (l.splitOnP cut).flatten = l.filter (!cut ·) := flatten_splitOnP
  rw [List.filter_comm, ← hparts]
  induction l.splitOnP cut with
  | nil => simp
  | cons s ss ih => simp [ih, flatten_words]

/-- The parts and the elements of their words are as many as the elements of the words of
the whole list, and one more: a mark is lost with each cut and nothing else. -/
theorem length_add_length_map_words (hcut : ∀ x, cut x = true → sep x = false) :
    ((l.splitOnP cut).map (words sep)).length +
        ((l.splitOnP cut).map (words sep)).flatten.flatten.length =
      (words sep l).flatten.length + 1 := by
  have hmarks : l.countP cut = (l.filter (!sep ·)).countP cut := by
    rw [List.countP_filter]
    apply List.countP_congr
    intro x _
    by_cases hx : cut x = true
    · simp [hx, hcut x hx]
    · simp [hx]
  have htotal := List.length_eq_countP_add_countP cut (l := l.filter (!sep ·))
  rw [List.length_map, length_splitOnP, flatten_map_words, flatten_words, hmarks,
    ← List.countP_eq_length_filter]
  have hrest : (l.filter (!sep ·)).countP (!cut ·) =
      (l.filter (!sep ·)).countP (fun x => decide ¬cut x = true) := by
    congr 1
    funext x
    simp
  omega

theorem splitOnP_append_of_forall_not (hw : ∀ x ∈ w, cut x = false) :
    (w ++ l).splitOnP cut = (l.splitOnP cut).modifyHead (w ++ ·) := by
  induction w with
  | nil =>
    obtain ⟨s, ss, hs⟩ := List.exists_cons_of_ne_nil (List.splitOnP_ne_nil cut l)
    simp [hs]
  | cons a w ih =>
    have ha := hw a (by simp)
    rw [List.cons_append, List.splitOnP_cons_eq_if_modifyHead,
      ih fun x hx => hw x (List.mem_cons_of_mem _ hx)]
    simp [ha, Function.comp_def]

theorem head_splitOnP_ends (hcut : ∀ x, cut x = true → sep x = false) (hl : Ends sep l)
    {s : List α} {ss : List (List α)} (hs : l.splitOnP cut = s :: ss) : Ends sep s := by
  cases l with
  | nil =>
    rw [List.splitOnP_nil] at hs
    cases hs
    intro a ha
    simp at ha
  | cons a l =>
    have ha : sep a = true := hl a rfl
    have hac : cut a = false := by
      by_contra hc
      simp [hcut a (by simpa using hc)] at ha
    obtain ⟨t, ts, ht⟩ := List.exists_cons_of_ne_nil (List.splitOnP_ne_nil cut l)
    rw [List.splitOnP_cons_eq_if_modifyHead, hac, ht] at hs
    cases hs
    intro b hb
    cases hb
    exact ha

/-- When every mark is a word of its own, cutting the list at the marks and taking the
words of each part is cutting the list of words. -/
theorem map_words_splitOnP (hcut : ∀ x, cut x = true → sep x = false) {mark : List α → Bool}
    (hmark : ∀ w ∈ words sep l, mark w = true → ∃ x, cut x = true ∧ w = [x])
    (hplain : ∀ w ∈ words sep l, mark w = false → ∀ x ∈ w, cut x = false) :
    (l.splitOnP cut).map (words sep) = (words sep l).splitOnP mark := by
  induction l using word_induction sep with
  | nil => simp
  | blank a l ha ih =>
    have hac : cut a = false := by
      by_contra hc
      simp [hcut a (by simpa using hc)] at ha
    rw [words_cons_of_sep ha] at hmark hplain ⊢
    rw [← ih hmark hplain, List.splitOnP_cons_eq_if_modifyHead, hac]
    obtain ⟨s, ss, hs⟩ := List.exists_cons_of_ne_nil (List.splitOnP_ne_nil cut l)
    simp [hs, words_cons_of_sep ha]
  | word w l hw hne hl ih =>
    rw [words_append hw hne hl] at hmark hplain ⊢
    have hrest := ih (fun v hv => hmark v (List.mem_cons_of_mem _ hv))
      (fun v hv => hplain v (List.mem_cons_of_mem _ hv))
    obtain ⟨s, ss, hs⟩ := List.exists_cons_of_ne_nil (List.splitOnP_ne_nil cut l)
    rw [List.splitOnP_cons_eq_if_modifyHead, ← hrest]
    by_cases hm : mark w = true
    · obtain ⟨x, hx, rfl⟩ := hmark w (by simp) hm
      simp [List.splitOnP_cons_eq_if_modifyHead, hx, hm]
    · have hfree := hplain w (by simp) (by simpa using hm)
      rw [splitOnP_append_of_forall_not hfree, hs]
      simp [hm, words_append hw hne (head_splitOnP_ends hcut hl hs)]

end Os20.Lib.Words
