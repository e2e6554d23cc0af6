import Mathlib.Data.List.Chain
import Mathlib.Algebra.BigOperators.Group.List.Lemmas
import Mathlib.Algebra.GroupWithZero.Nat
import Mathlib.Order.Bounds.Defs

/-!
# Tilings of an address range

An address range cut into consecutive blocks, each used or free.  A tiling is
given by the list of its blocks, so addresses are not stored: the address of a
block is the extent of the blocks before it.

The second half relates the blocks to the bytes they cover.  In a tiling without
adjacent free blocks a run of free bytes lies in one block, which is why first
fit over the blocks finds the lowest maximal free run.
-/

namespace Os20.Lib.Segments

structure Block where
  size : Nat
  used : Bool
  deriving DecidableEq, Repr

def extent (bs : List Block) : Nat := (bs.map Block.size).sum

/-- Address and size of the used blocks of a tiling that starts at `o`. -/
def usedSpans : Nat → List Block → List (Nat × Nat)
  | _, [] => []
  | o, b :: bs =>
      if b.used then (o, b.size) :: usedSpans (o + b.size) bs
      else usedSpans (o + b.size) bs

def Sized (unit : Nat) (bs : List Block) : Prop :=
  ∀ b ∈ bs, 0 < b.size ∧ unit ∣ b.size

def Coalesced (bs : List Block) : Prop :=
  bs.IsChain fun b c => b.used = true ∨ c.used = true

@[simp] theorem extent_nil : extent [] = 0 := rfl

@[simp] theorem extent_cons (b : Block) (bs : List Block) :
    extent (b :: bs) = b.size + extent bs := by
  simp [extent]

@[simp] theorem extent_append (bs cs : List Block) :
    extent (bs ++ cs) = extent bs + extent cs := by
  simp [extent]

@[simp] theorem sized_nil (unit : Nat) : Sized unit [] := by
  simp [Sized]

@[simp] theorem sized_cons {unit : Nat} {b : Block} {bs : List Block} :
    Sized unit (b :: bs) ↔ (0 < b.size ∧ unit ∣ b.size) ∧ Sized unit bs := by
  simp [Sized]

@[simp] theorem sized_append {unit : Nat} {bs cs : List Block} :
    Sized unit (bs ++ cs) ↔ Sized unit bs ∧ Sized unit cs :=
  List.forall_mem_append

theorem Sized.dvd_extent {unit : Nat} {bs : List Block} (h : Sized unit bs) :
    unit ∣ extent bs := by
  induction bs with
  | nil => exact Nat.dvd_zero unit
  | cons b bs ih =>
      rw [sized_cons] at h
      rw [extent_cons]
      exact Nat.dvd_add h.1.2 (ih h.2)

theorem Sized.length_le {unit : Nat} {bs : List Block} (hpos : 0 < unit) (h : Sized unit bs) :
    bs.length ≤ extent bs / unit := by
  rw [Nat.le_div_iff_mul_le hpos]
  induction bs with
  | nil => simp
  | cons b bs ih =>
      rw [sized_cons] at h
      have hb := Nat.le_of_dvd h.1.1 h.1.2
      have hbs := ih h.2
      rw [extent_cons, List.length_cons, Nat.succ_mul]
      omega

@[simp] theorem usedSpans_nil (o : Nat) : usedSpans o [] = [] := rfl

theorem usedSpans_cons_used {o : Nat} {b : Block} {bs : List Block} (h : b.used = true) :
    usedSpans o (b :: bs) = (o, b.size) :: usedSpans (o + b.size) bs := by
  simp [usedSpans, h]

theorem usedSpans_cons_free {o : Nat} {b : Block} {bs : List Block} (h : b.used = false) :
    usedSpans o (b :: bs) = usedSpans (o + b.size) bs := by
  simp [usedSpans, h]

theorem usedSpans_append (o : Nat) (bs cs : List Block) :
    usedSpans o (bs ++ cs) = usedSpans o bs ++ usedSpans (o + extent bs) cs := by
  induction bs generalizing o with
  | nil => simp
  | cons b bs ih =>
      rw [List.cons_append, extent_cons, ← Nat.add_assoc]
      cases h : b.used with
      | true => rw [usedSpans_cons_used h, usedSpans_cons_used h, ih, List.cons_append]
      | false => rw [usedSpans_cons_free h, usedSpans_cons_free h, ih]

/-! ## Where the used spans lie -/

theorem usedSpans_bounds {o : Nat} {bs : List Block} {s : Nat × Nat}
    (hs : s ∈ usedSpans o bs) : o ≤ s.1 ∧ s.1 + s.2 ≤ o + extent bs := by
  induction bs generalizing o with
  | nil => simp at hs
  | cons b bs ih =>
      rw [extent_cons]
      cases hb : b.used with
      | true =>
          rw [usedSpans_cons_used hb, List.mem_cons] at hs
          rcases hs with rfl | hs
          · exact ⟨le_refl _, by simp⟩
          · have := ih hs
            omega
      | false =>
          rw [usedSpans_cons_free hb] at hs
          have := ih hs
          omega

theorem usedSpans_dvd {unit o : Nat} {bs : List Block} {s : Nat × Nat}
    (hsized : Sized unit bs) (ho : unit ∣ o) (hs : s ∈ usedSpans o bs) : unit ∣ s.1 := by
  induction bs generalizing o with
  | nil => simp at hs
  | cons b bs ih =>
      rw [sized_cons] at hsized
      have ho' : unit ∣ o + b.size := Nat.dvd_add ho hsized.1.2
      cases hb : b.used with
      | true =>
          rw [usedSpans_cons_used hb, List.mem_cons] at hs
          rcases hs with rfl | hs
          · exact ho
          · exact ih hsized.2 ho' hs
      | false =>
          rw [usedSpans_cons_free hb] at hs
          exact ih hsized.2 ho' hs

theorem usedSpans_pairwise (o : Nat) (bs : List Block) :
    (usedSpans o bs).Pairwise fun s t => s.1 + s.2 ≤ t.1 := by
  induction bs generalizing o with
  | nil => exact List.Pairwise.nil
  | cons b bs ih =>
      cases hb : b.used with
      | true =>
          rw [usedSpans_cons_used hb, List.pairwise_cons]
          exact ⟨fun t ht => (usedSpans_bounds ht).1, ih _⟩
      | false =>
          rw [usedSpans_cons_free hb]
          exact ih _

theorem exists_block_of_mem_usedSpans {o : Nat} {bs : List Block} {s : Nat × Nat}
    (hs : s ∈ usedSpans o bs) :
    ∃ pre post, bs = pre ++ ⟨s.2, true⟩ :: post ∧ s.1 = o + extent pre := by
  induction bs generalizing o with
  | nil => simp at hs
  | cons b bs ih =>
      cases hb : b.used with
      | true =>
          rw [usedSpans_cons_used hb, List.mem_cons] at hs
          rcases hs with rfl | hs
          · exact ⟨[], bs, by simp [← hb], by simp⟩
          · obtain ⟨pre, post, rfl, hpre⟩ := ih hs
            exact ⟨b :: pre, post, by simp, by simp [hpre]; omega⟩
      | false =>
          rw [usedSpans_cons_free hb] at hs
          obtain ⟨pre, post, rfl, hpre⟩ := ih hs
          exact ⟨b :: pre, post, by simp, by simp [hpre]; omega⟩

/-! ## Taking and releasing a block -/

/-- What replaces a free block from which `n` bytes are taken. -/
def carve (n : Nat) (b : Block) : List Block :=
  if b.size = n then [⟨n, true⟩] else [⟨n, true⟩, ⟨b.size - n, false⟩]

/-- What replaces a used block of `n` bytes and the blocks after it when the
block is released and joined with a free right neighbour. -/
def joinRight (n : Nat) : List Block → List Block
  | [] => [⟨n, false⟩]
  | b :: bs => if b.used then ⟨n, false⟩ :: b :: bs else ⟨n + b.size, false⟩ :: bs

theorem extent_carve {n : Nat} {b : Block} (h : n ≤ b.size) :
    extent (carve n b) = b.size := by
  unfold carve
  split <;> simp <;> omega

theorem sized_carve {unit n : Nat} {b : Block} (hn : 0 < n) (hdvd : unit ∣ n)
    (hb : unit ∣ b.size) (h : n ≤ b.size) : Sized unit (carve n b) := by
  unfold carve
  split
  · simp [hn, hdvd]
  · simp only [sized_cons, sized_nil, and_true]
    exact ⟨⟨hn, hdvd⟩, by omega, Nat.dvd_sub hb hdvd⟩

theorem usedSpans_carve {o n : Nat} {b : Block} (h : n ≤ b.size) (bs : List Block) :
    usedSpans o (carve n b ++ bs) = (o, n) :: usedSpans (o + b.size) bs := by
  unfold carve
  split
  · next heq => simp [usedSpans, heq]
  · simp only [usedSpans, List.cons_append, List.nil_append, if_true]
    rw [if_neg (by simp), show o + n + (b.size - n) = o + b.size by omega]

theorem extent_joinRight (n : Nat) (bs : List Block) :
    extent (joinRight n bs) = n + extent bs := by
  cases bs with
  | nil => simp [joinRight]
  | cons b bs =>
      rw [joinRight]
      split
      · simp
      · simp
        omega

theorem sized_joinRight {unit n : Nat} {bs : List Block} (hn : 0 < n) (hdvd : unit ∣ n)
    (h : Sized unit bs) : Sized unit (joinRight n bs) := by
  cases bs with
  | nil => simp [joinRight, hn, hdvd]
  | cons b bs =>
      rw [sized_cons] at h
      rw [joinRight]
      split
      · simp only [sized_cons]
        exact ⟨⟨hn, hdvd⟩, h⟩
      · simp only [sized_cons]
        exact ⟨⟨by omega, Nat.dvd_add hdvd h.1.2⟩, h.2⟩

theorem usedSpans_joinRight (o n : Nat) (bs : List Block) :
    usedSpans o (joinRight n bs) = usedSpans (o + n) bs := by
  cases bs with
  | nil => simp [joinRight, usedSpans]
  | cons b bs =>
      rw [joinRight]
      cases hb : b.used with
      | true => simp [usedSpans, hb]
      | false => simp [usedSpans, hb, Nat.add_assoc]

theorem exists_joinRight_eq (n : Nat) (bs : List Block) :
    ∃ k rest, joinRight n bs = ⟨k, false⟩ :: rest ∧ n ≤ k ∧ k + extent rest = n + extent bs ∧
      (Coalesced bs → Coalesced (⟨k, false⟩ :: rest)) := by
  cases bs with
  | nil => exact ⟨n, [], rfl, le_refl n, rfl, fun _ => List.isChain_singleton _⟩
  | cons b bs =>
      rw [joinRight]
      cases hb : b.used with
      | true =>
          refine ⟨n, b :: bs, by simp, le_refl n, rfl, fun h => ?_⟩
          exact List.isChain_cons_cons.mpr ⟨Or.inr hb, h⟩
      | false =>
          refine ⟨n + b.size, bs, by simp, by omega, by simp; omega, fun h => ?_⟩
          exact h.imp_head fun hc => by simpa [hb] using hc

theorem joinRight_add {n k : Nat} {bs rest : List Block}
    (h : joinRight n bs = ⟨k, false⟩ :: rest) (k' : Nat) :
    joinRight (k' + n) bs = ⟨k' + k, false⟩ :: rest := by
  cases bs with
  | nil =>
      simp only [joinRight, List.cons.injEq, Block.mk.injEq] at h ⊢
      simp [h.1.1, h.2]
  | cons b bs =>
      rw [joinRight] at h ⊢
      cases hb : b.used with
      | true =>
          simp only [hb, if_true, List.cons.injEq, Block.mk.injEq] at h ⊢
          simp [h.1.1, h.2]
      | false =>
          simp only [hb, Bool.false_eq_true, if_false, List.cons.injEq, Block.mk.injEq] at h ⊢
          simp [← h.1.1, h.2, Nat.add_assoc]

theorem usedSpans_pos {unit o : Nat} {bs : List Block} {s : Nat × Nat}
    (hsized : Sized unit bs) (hs : s ∈ usedSpans o bs) : 0 < s.2 := by
  obtain ⟨pre, post, rfl, -⟩ := exists_block_of_mem_usedSpans hs
  simp only [sized_append, sized_cons] at hsized
  exact hsized.2.1.1

/-- Removing the pointer of a used block removes exactly its span. -/
theorem filter_spans {unit addr n : Nat} {pre post : List Block}
    (hsized : Sized unit (pre ++ ⟨n, true⟩ :: post)) :
    ((usedSpans 0 (pre ++ ⟨n, true⟩ :: post)).map fun s => (addr + s.1, s.2)).filter
        (fun b => b.1 ≠ addr + extent pre) =
      (usedSpans 0 pre ++ usedSpans (extent pre + n) post).map fun s => (addr + s.1, s.2) := by
  simp only [sized_append, sized_cons] at hsized
  rw [usedSpans_append, usedSpans_cons_used rfl]
  simp only [Nat.zero_add, List.map_append, List.map_cons, List.filter_append]
  rw [List.filter_cons_of_neg (by simp), List.filter_eq_self.mpr, List.filter_eq_self.mpr]
  · intro b hb
    obtain ⟨s, hs, rfl⟩ := List.mem_map.mp hb
    have hlo := (usedSpans_bounds hs).1
    have hpos := hsized.2.1.1
    simp
    omega
  · intro b hb
    obtain ⟨s, hs, rfl⟩ := List.mem_map.mp hb
    have hhi := (usedSpans_bounds hs).2
    have hpos := usedSpans_pos hsized.1 hs
    simp
    omega

theorem Coalesced.carve {n : Nat} {pre post : List Block} {b : Block} (hb : b.used = false)
    (h : Coalesced (pre ++ b :: post)) : Coalesced (pre ++ (carve n b ++ post)) := by
  obtain ⟨hpre, hpost, -⟩ := List.isChain_append.mp h
  have hrest : Coalesced (Segments.carve n b ++ post) := by
    unfold Segments.carve
    split
    · exact List.isChain_cons.mpr ⟨fun _ _ => Or.inl rfl, hpost.tail⟩
    · refine List.isChain_cons_cons.mpr ⟨Or.inl rfl, ?_⟩
      exact hpost.imp_head fun hc => by simpa [hb] using hc
  refine List.isChain_append.mpr ⟨hpre, hrest, fun c _ d hd => ?_⟩
  have hd' : d = ⟨n, true⟩ := by
    unfold Segments.carve at hd
    split at hd <;> simpa using hd.symm
  exact Or.inr (by rw [hd'])

/-- A released block may follow the blocks before it if the last of them is used. -/
theorem coalesced_append_joinRight {n : Nat} {pre post : List Block}
    (hpre : Coalesced pre) (hpost : Coalesced post)
    (hlast : ∀ init k, pre ≠ init ++ [⟨k, false⟩]) : Coalesced (pre ++ joinRight n post) := by
  obtain ⟨k, rest, hjoin, -, -, hcoal⟩ := exists_joinRight_eq n post
  rw [hjoin]
  refine List.isChain_append.mpr ⟨hpre, hcoal hpost, fun c hc d _ => ?_⟩
  obtain ⟨init, hinit⟩ := List.getLast?_eq_some_iff.mp hc
  obtain ⟨size, used⟩ := c
  cases used with
  | true => exact Or.inl rfl
  | false => exact absurd hinit (hlast init size)

theorem exists_firstFit (n : Nat) (bs : List Block) :
    (∀ c ∈ bs, c.used = false → c.size < n) ∨
      ∃ pre b post, bs = pre ++ b :: post ∧ b.used = false ∧ n ≤ b.size ∧
        ∀ c ∈ pre, c.used = false → c.size < n := by
  induction bs with
  | nil => left; simp
  | cons b bs ih =>
      by_cases hb : b.used = false ∧ n ≤ b.size
      · exact Or.inr ⟨[], b, bs, rfl, hb.1, hb.2, by simp⟩
      · have hhead : b.used = false → b.size < n := fun h => by
          by_contra hle
          exact hb ⟨h, by omega⟩
        rcases ih with hnone | ⟨pre, c, post, rfl, hc, hfit, hfirst⟩
        · left
          simpa using ⟨hhead, hnone⟩
        · exact Or.inr ⟨b :: pre, c, post, rfl, hc, hfit, by simpa using ⟨hhead, hfirst⟩⟩

/-- Without used blocks a tiling without adjacent free blocks is one block. -/
theorem eq_singleton_of_free {bs : List Block} (hcoal : Coalesced bs)
    (hfree : usedSpans 0 bs = []) (hpos : 0 < extent bs) : bs = [⟨extent bs, false⟩] := by
  cases bs with
  | nil => simp at hpos
  | cons b bs =>
      have hb : b.used = false := by
        by_contra hused
        rw [usedSpans_cons_used (Bool.not_eq_false _ ▸ hused)] at hfree
        cases hfree
      cases bs with
      | nil =>
          obtain ⟨size, used⟩ := b
          subst hb
          simp
      | cons c bs =>
          have hc : c.used = true := by
            simpa [hb] using (List.isChain_cons_cons.mp hcoal).1
          rw [usedSpans_cons_free hb, usedSpans_cons_used hc] at hfree
          cases hfree

/-! ## Bytes -/

def Covered (spans : List (Nat × Nat)) (x : Nat) : Prop :=
  ∃ s ∈ spans, s.1 ≤ x ∧ x < s.1 + s.2

def FreeRun (top : Nat) (spans : List (Nat × Nat)) (a n : Nat) : Prop :=
  a + n ≤ top ∧ ∀ x, a ≤ x → x < a + n → ¬Covered spans x

def MaximalRun (top : Nat) (spans : List (Nat × Nat)) (n a : Nat) : Prop :=
  FreeRun top spans a n ∧ (0 < a → Covered spans (a - 1))

theorem not_covered_of_free {o x : Nat} {pre post : List Block} {b : Block}
    (hb : b.used = false) (hlo : o + extent pre ≤ x) (hhi : x < o + extent pre + b.size) :
    ¬Covered (usedSpans o (pre ++ b :: post)) x := by
  rintro ⟨s, hs, hx⟩
  rw [usedSpans_append, List.mem_append, usedSpans_cons_free hb] at hs
  rcases hs with hs | hs
  · have := usedSpans_bounds hs
    omega
  · have := usedSpans_bounds hs
    omega

theorem covered_of_used {o x : Nat} (pre post : List Block) {b : Block}
    (hb : b.used = true) (hlo : o + extent pre ≤ x) (hhi : x < o + extent pre + b.size) :
    Covered (usedSpans o (pre ++ b :: post)) x := by
  refine ⟨(o + extent pre, b.size), ?_, hlo, hhi⟩
  rw [usedSpans_append, usedSpans_cons_used hb]
  simp

/-- Without adjacent free blocks a run of free bytes lies in one free block. -/
theorem exists_block_of_free {unit o a n : Nat} {bs : List Block} (hn : 0 < n)
    (hsized : Sized unit bs) (hcoal : Coalesced bs) (hlo : o ≤ a)
    (hhi : a + n ≤ o + extent bs)
    (hfree : ∀ x, a ≤ x → x < a + n → ¬Covered (usedSpans o bs) x) :
    ∃ pre b post, bs = pre ++ b :: post ∧ b.used = false ∧
      o + extent pre ≤ a ∧ a + n ≤ o + extent pre + b.size := by
  induction bs generalizing o with
  | nil => simp at hhi; omega
  | cons b bs ih =>
      rw [sized_cons] at hsized
      rw [extent_cons] at hhi
      by_cases ha : a < o + b.size
      · -- the run starts in `b`, so `b` is free; it cannot leave `b`, since the
        -- block after a free one is used
        have hb : b.used = false := by
          by_contra hused
          rw [Bool.not_eq_false] at hused
          refine hfree a (le_refl a) (by omega) ?_
          simpa using covered_of_used [] bs hused
            (by simpa using hlo) (by simpa using ha)
        refine ⟨[], b, bs, rfl, hb, by simpa using hlo, ?_⟩
        by_contra hlong
        simp only [extent_nil, Nat.add_zero, not_le] at hlong
        cases bs with
        | nil => simp at hhi; omega
        | cons c cs =>
            have hc : c.used = true := by
              have := (List.isChain_cons_cons.mp hcoal).1
              simpa [hb] using this
            rw [sized_cons] at hsized
            refine hfree (o + b.size) (by omega) (by omega) ?_
            simpa using covered_of_used [b] cs hc
              (by simp) (by simp; omega)
      · have hcoal' : Coalesced bs := hcoal.tail
        have hfree' : ∀ x, a ≤ x → x < a + n → ¬Covered (usedSpans (o + b.size) bs) x := by
          rintro x hx1 hx2 ⟨s, hs, hx⟩
          refine hfree x hx1 hx2 ⟨s, ?_, hx⟩
          rw [← List.singleton_append, usedSpans_append]
          exact List.mem_append_right _ (by simpa using hs)
        obtain ⟨pre, c, post, rfl, hc, h1, h2⟩ :=
          ih (o := o + b.size) hsized.2 hcoal' (by omega) (by omega) hfree'
        exact ⟨b :: pre, c, post, by simp, hc, by simp; omega, by simp; omega⟩

theorem covered_before_free {unit : Nat} {pre post : List Block} {b : Block}
    (hsized : Sized unit pre) (hcoal : Coalesced (pre ++ b :: post))
    (hb : b.used = false) (hpos : 0 < extent pre) :
    Covered (usedSpans 0 (pre ++ b :: post)) (extent pre - 1) := by
  rcases List.eq_nil_or_concat pre with rfl | ⟨init, c, rfl⟩
  · simp at hpos
  · rw [List.concat_eq_append] at *
    rw [List.append_assoc] at hcoal ⊢
    have hc : c.used = true := by
      have hpair := (List.isChain_append_cons_cons.mp hcoal).2.1
      simpa [hb] using hpair
    have hcsize : 0 < c.size := by
      rw [sized_append, sized_cons] at hsized
      exact hsized.2.1.1
    rw [extent_append, extent_cons, extent_nil]
    exact covered_of_used init _ hc (by omega) (by omega)

/-- First fit over a coalesced tiling finds the lowest maximal free run. -/
theorem isLeast_firstFit {unit n : Nat} {pre post : List Block} {b : Block} (hn : 0 < n)
    (hsized : Sized unit (pre ++ b :: post)) (hcoal : Coalesced (pre ++ b :: post))
    (hb : b.used = false) (hfit : n ≤ b.size)
    (hfirst : ∀ c ∈ pre, c.used = false → c.size < n) :
    IsLeast {a | MaximalRun (extent (pre ++ b :: post))
      (usedSpans 0 (pre ++ b :: post)) n a} (extent pre) := by
  constructor
  · refine ⟨⟨by simp; omega, fun x hx1 hx2 => ?_⟩, fun hpos => ?_⟩
    · exact not_covered_of_free hb (by omega) (by omega)
    · exact covered_before_free (sized_append.mp hsized).1 hcoal hb hpos
  · rintro a ⟨⟨htop, hfree⟩, -⟩
    obtain ⟨pre', b', post', heq, hb', hlo, hhi⟩ :=
      exists_block_of_free hn hsized hcoal (Nat.zero_le a) (by omega) hfree
    rw [Nat.zero_add] at hlo hhi
    -- the free block around `a` is large enough, so it is not among the blocks before `b`
    rcases List.append_eq_append_iff.mp heq with ⟨more, rfl, -⟩ | ⟨more, hpre, hpost⟩
    · rw [extent_append] at hlo
      omega
    · cases more with
      | nil =>
          rw [List.append_nil] at hpre
          rw [hpre]
          exact hlo
      | cons c cs =>
          obtain ⟨rfl, -⟩ := List.cons.inj hpost
          have := hfirst b' (by simp [hpre]) hb'
          omega

theorem not_freeRun_of_no_fit {unit n : Nat} {bs : List Block} (hn : 0 < n)
    (hsized : Sized unit bs) (hcoal : Coalesced bs)
    (hnofit : ∀ c ∈ bs, c.used = false → c.size < n) (a : Nat) :
    ¬FreeRun (extent bs) (usedSpans 0 bs) a n := by
  rintro ⟨htop, hfree⟩
  obtain ⟨pre, b, post, rfl, hb, hlo, hhi⟩ :=
    exists_block_of_free hn hsized hcoal (Nat.zero_le a) (by omega) hfree
  have := hnofit b (by simp) hb
  omega

end Os20.Lib.Segments
