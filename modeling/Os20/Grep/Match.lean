import Os20.Lib.Letters

/-!
# `grep.c`: the matcher

A pattern stands for a language, and `match` says whether a text is in it.  A string is the list
of its characters up to the NUL.
-/

namespace Os20.Grep

open Lib.Letters

/-! ## The code -/

/-- `matchstar`: `c*re` at the beginning of the text, where `here` is `matchhere` for `re` -/
def matchstar (c : Char) (here : List Char → Bool) : List Char → Bool
  | [] => here []
  | a :: text => here (a :: text) || (a == c || c == '.') && matchstar c here text

/-- The last `if` of `matchhere`, where `here` is `matchhere` for what follows `c` -/
def matchone (c : Char) (here : List Char → Bool) : List Char → Bool
  | [] => false
  | a :: text => (c == '.' || c == a) && here text

def matchhere : List Char → List Char → Bool
  | [], _ => true
  | [c], text => if c = '$' then text.isEmpty else matchone c (matchhere []) text
  | c :: d :: re, text =>
      if d = '*' then matchstar c (matchhere re) text else matchone c (matchhere (d :: re)) text

/-- The loop of `match`. -/
def matchAnywhere (re : List Char) : List Char → Bool
  | [] => matchhere re []
  | a :: text => matchhere re (a :: text) || matchAnywhere re text

def match_ (re text : List Char) : Bool :=
  if re.head? = some '^' then matchhere re.tail text else matchAnywhere re text

/-! ## Patterns -/

inductive Item where
  | one (c : Char)
  | star (c : Char)
  deriving DecidableEq

/-- A pattern: the text starts with the first item when there is a `^`, and ends with the last
one when there is a `$`. -/
structure Pattern where
  start : Bool
  items : List Item
  stop : Bool

def fits (c a : Char) : Prop := c = '.' ∨ c = a

def Item.language : Item → Language Char
  | .one c => letters (fits c)
  | .star c => KStar.kstar (letters (fits c))

def margin (anchored : Bool) : Language Char := if anchored then 1 else ⊤

def Pattern.language (r : Pattern) : Language Char :=
  margin r.start * ((r.items.map Item.language).prod * margin r.stop)

/-- The items, and whether a `$` ends them.  A `*` makes a star of any character before it. -/
def itemsOf : List Char → List Item × Bool
  | [] => ([], false)
  | [c] => if c = '$' then ([], true) else ([.one c], false)
  | c :: d :: re =>
      if d = '*' then (.star c :: (itemsOf re).1, (itemsOf re).2)
      else (.one c :: (itemsOf (d :: re)).1, (itemsOf (d :: re)).2)

def Pattern.ofString (re : List Char) : Pattern :=
  if re.head? = some '^' then ⟨true, (itemsOf re.tail).1, (itemsOf re.tail).2⟩
  else ⟨false, (itemsOf re).1, (itemsOf re).2⟩

/-! ## What the matcher decides -/

def rest (re : List Char) : Language Char :=
  ((itemsOf re).1.map Item.language).prod * margin (itemsOf re).2

variable {c d a : Char} {re text : List Char}

theorem matchstar_iff {here : List Char → Bool} {L : Language Char}
    (hhere : ∀ text, here text = true ↔ text ∈ L) (text : List Char) :
    matchstar c here text = true ↔ text ∈ KStar.kstar (letters (fits c)) * L := by
  induction text with
  | nil => rw [matchstar, nil_mem_kstar_letters_mul, hhere]
  | cons a text ih =>
      have hfits : (a == c || c == '.') = true ↔ fits c a := by
        rw [Bool.or_eq_true, beq_iff_eq, beq_iff_eq, or_comm, eq_comm (a := a)]
        rfl
      rw [matchstar, cons_mem_kstar_letters_mul, Bool.or_eq_true, Bool.and_eq_true, hhere, hfits,
        ih]

theorem matchone_iff {here : List Char → Bool} {L : Language Char}
    (hhere : ∀ text, here text = true ↔ text ∈ L) (text : List Char) :
    matchone c here text = true ↔ text ∈ letters (fits c) * L := by
  cases text with
  | nil => simp [matchone]
  | cons a text =>
      rw [matchone, cons_mem_letters_mul, Bool.and_eq_true, Bool.or_eq_true, beq_iff_eq,
        beq_iff_eq, hhere]
      rfl

theorem rest_star (c : Char) (re : List Char) :
    rest (c :: '*' :: re) = KStar.kstar (letters (fits c)) * rest re := by
  simp [rest, itemsOf, Item.language, mul_assoc]

theorem rest_one (hd : d ≠ '*') (c : Char) (re : List Char) :
    rest (c :: d :: re) = letters (fits c) * rest (d :: re) := by
  simp [rest, itemsOf, Item.language, mul_assoc, hd]

theorem matchhere_iff (re text : List Char) : matchhere re text = true ↔ text ∈ rest re := by
  induction re using itemsOf.induct generalizing text with
  | case1 =>
      rw [matchhere, rest, itemsOf, List.map_nil, List.prod_nil, one_mul]
      exact ⟨fun _ => trivial, fun _ => rfl⟩
  | case2 =>
      have hitems : itemsOf ['$'] = ([], true) := rfl
      rw [matchhere, if_pos rfl, rest, hitems, List.map_nil, List.prod_nil, one_mul,
        List.isEmpty_iff]
      rfl
  | case3 c hc =>
      have hnil (text : List Char) : matchhere [] text = true ↔ text ∈ margin false :=
        ⟨fun _ => trivial, fun _ => by rw [matchhere]⟩
      rw [matchhere, if_neg hc, matchone_iff hnil, rest, itemsOf, if_neg hc]
      simp [Item.language]
  | case4 c re ih => rw [matchhere, if_pos rfl, matchstar_iff ih, rest_star]
  | case5 c d re hd ih => rw [matchhere, if_neg hd, matchone_iff ih, rest_one hd]

theorem matchAnywhere_iff (re text : List Char) :
    matchAnywhere re text = true ↔ text ∈ (⊤ : Language Char) * rest re := by
  induction text with
  | nil => rw [matchAnywhere, nil_mem_top_mul, matchhere_iff]
  | cons a text ih =>
      rw [matchAnywhere, cons_mem_top_mul, Bool.or_eq_true, matchhere_iff, ih]

/-- `match` decides the language of its pattern, for all patterns and texts. -/
theorem match_iff (re text : List Char) :
    match_ re text = true ↔ text ∈ (Pattern.ofString re).language := by
  unfold match_ Pattern.ofString
  split
  · rw [matchhere_iff]
    simp [Pattern.language, rest, margin]
  · rw [matchAnywhere_iff]
    rfl

end Os20.Grep
