import Os20.Bio.Steps

/-!
# The buffers in the order of their use

The list through `bcache.head` always holds every buffer once, and those released last come
first.  So the loops of `bget` miss no buffer, and the one it recycles is, of those that are free,
the one that has not been used for the longest time.
-/

namespace Os20.Bio

open Os20.Lib.Dlist
open Os20.Lib.Refinement
open Os20.Lib.Transition

variable {P : Type*} [DecidableEq P] {s s' : State P} {p : P} {k : Key} {b c : BufNo}
  {e : Event P} {rel order : List BufNo} {disk : Key → Data}

/-! ## The list -/

theorem linked_foldl {r : Links BufNo} {l l₀ : List BufNo} (h : Linked r l₀)
    (hnodup : (l.reverse ++ l₀).Nodup) : Linked (l.foldl Links.pushFront r) (l.reverse ++ l₀) := by
  induction l generalizing r l₀ with
  | nil => exact h
  | cons b l ih =>
      rw [List.reverse_cons, List.append_assoc, List.singleton_append] at hnodup ⊢
      have hb : b ∉ l₀ := by
        have hmid := (List.nodup_append.mp hnodup).2.1
        exact (List.nodup_cons.mp hmid).1
      exact ih (h.pushFront hb) hnodup

theorem linked_binit : Linked binit buffers.reverse := by
  have hnodup : (buffers.reverse ++ []).Nodup := by
    rw [List.append_nil, List.nodup_reverse]
    exact List.nodup_finRange nbuf
  have hlinked := linked_foldl linked_empty hnodup
  rw [List.append_nil] at hlinked
  exact hlinked

/-- How long ago the last release was, in a list of releases with the last one in front. -/
def age (rel : List BufNo) (b : BufNo) : Nat := rel.idxOf b

/-- The list holds all buffers, and the last released come first. -/
structure Sorted (s : State P) (rel order : List BufNo) : Prop where
  linked : Linked s.links order
  perm : order.Perm buffers
  sorted : order.Pairwise fun b c => age rel b ≤ age rel c

omit [DecidableEq P] in
theorem Sorted.length (h : Sorted s rel order) : order.length = nbuf := by
  rw [h.perm.length_eq]
  exact List.length_finRange

omit [DecidableEq P] in
theorem Sorted.mem (h : Sorted s rel order) (b : BufNo) : b ∈ order :=
  h.perm.mem_iff.mpr (List.mem_finRange b)

omit [DecidableEq P] in
theorem Sorted.release (h : Sorted s rel order) (b : BufNo)
    (hlinks : s'.links = (s.links.unlink b).pushFront b) :
    ∃ order', Sorted s' (b :: rel) order' := by
  obtain ⟨l₁, l₂, rfl⟩ := List.append_of_mem (h.mem b)
  have hnodup := h.linked.nodup
  rw [List.nodup_middle, List.nodup_cons] at hnodup
  have hage (c : BufNo) (hc : c ∈ l₁ ++ l₂) : age (b :: rel) c = age rel c + 1 := by
    have hne : b ≠ c := fun heq => hnodup.1 (heq ▸ hc)
    rw [age, List.idxOf_cons_ne _ hne, age]
  refine ⟨b :: (l₁ ++ l₂), ?_, ?_, ?_⟩
  · rw [hlinks]
    exact h.linked.unlink.pushFront hnodup.1
  · exact List.perm_middle.symm.trans h.perm
  · rw [List.pairwise_cons]
    constructor
    · intro c _
      rw [age, List.idxOf_cons_self]
      exact Nat.zero_le _
    · have hrest := h.sorted.sublist (List.Sublist.append_left (List.sublist_cons_self b l₂) l₁)
      refine hrest.imp_of_mem fun {c d} hc hd hle => ?_
      rw [hage c hc, hage d hd]
      exact Nat.succ_le_succ hle

/-- The buffer that nobody uses any more, after this event. -/
def released (s : State P) : Event P → List BufNo
  | .step p =>
      match s.task p with
      | .releasing b => if (s.buf b).refcnt - 1 = 0 then [b] else []
      | _ => []
  | _ => []

theorem Effect.links (heffect : Effect s e s') :
    (released s e = [] ∧ s'.links = s.links) ∨
      ∃ b, released s e = [b] ∧ s'.links = (s.links.unlink b).pushFront b := by
  cases heffect with
  | hit | recycle | write | logWrite | brelse | spurious | written | unread | fetched =>
      exact Or.inl ⟨rfl, rfl⟩
  | bwrite p b htask hlock => exact Or.inl ⟨rfl, State.enqueue_links _ _ _⟩
  | take p b htask hfree hvalid => exact Or.inl ⟨by simp [released, htask], rfl⟩
  | fetch p b htask hfree hvalid =>
      exact Or.inl ⟨by simp [released, htask], State.enqueue_links _ _ _⟩
  | done p b htask hvalid hclean => exact Or.inl ⟨by simp [released, htask], rfl⟩
  | unref p b htask =>
      by_cases hlast : (s.buf b).refcnt - 1 = 0
      · refine Or.inr ⟨b, by simp [released, htask, hlast], ?_⟩
        rw [State.unref, if_pos hlast]
        rfl
      · refine Or.inl ⟨by simp [released, htask, hlast], ?_⟩
        rw [State.unref, if_neg hlast]
        rfl

theorem Sorted.run {es : List (Event P)} (h : Sorted s rel order)
    (hrun : (bio P disk).run s es = some s') :
    ∃ order', Sorted s' ((trace (bio P disk) released s es).reverse ++ rel) order' := by
  induction es generalizing s rel order with
  | nil =>
      obtain rfl : s = s' := Option.some.inj hrun
      exact ⟨order, h⟩
  | cons e es ih =>
      obtain ⟨u, hnext, hrest⟩ := Option.bind_eq_some_iff.mp hrun
      rw [trace, hnext]
      dsimp only
      rw [List.reverse_append, List.append_assoc]
      rcases (next_effect hnext).links with ⟨hnone, hlinks⟩ | ⟨b, hb, hlinks⟩
      · rw [hnone]
        exact ih ⟨hlinks ▸ h.linked, h.perm, h.sorted⟩ hrest
      · rw [hb]
        obtain ⟨order', h'⟩ := h.release b hlinks
        exact ih h' hrest

theorem Sorted.init (hinit : (bio P disk).init s) : Sorted s [] buffers.reverse := by
  refine ⟨by rw [hinit.1.1]; exact linked_binit, List.reverse_perm _, ?_⟩
  exact List.pairwise_of_forall fun _ _ => le_rfl

/-! ## The loops of `bget` -/

omit [DecidableEq P] in
theorem Sorted.cached_eq (h : Sorted s rel order) (k : Key) :
    s.cached k = order.find? fun b => (s.buf b).key = k :=
  h.linked.search_next h.length.le _

omit [DecidableEq P] in
theorem Sorted.unused_eq (h : Sorted s rel order) : s.unused =
    order.reverse.find? fun b => (s.buf b).refcnt = 0 ∧ (s.buf b).dirty = false :=
  h.linked.search_prev h.length.le _

omit [DecidableEq P] in
theorem Sorted.miss (h : Sorted s rel order) (hnone : s.cached k = none) (b : BufNo) :
    (s.buf b).key ≠ k := by
  rw [h.cached_eq, List.find?_eq_none] at hnone
  simpa using hnone b (h.mem b)

/-- For all processes and runs: the list holds every buffer once, in the order of the last
releases.  A block that some buffer has is found, and the buffer recycled for another one is, of
those nobody uses and that are not dirty, one whose last release is the longest ago.  Only when
there is none `bget` comes to its `panic`. -/
theorem bget_recycles_oldest (s₀ s : State P) (es : List (Event P)) (hinit : (bio P disk).init s₀)
    (hrun : (bio P disk).run s₀ es = some s) (k : Key) :
    (∃ order, Sorted s (trace (bio P disk) released s₀ es).reverse order) ∧
      (∀ b, s.cached k = some b → (s.buf b).key = k) ∧
      (s.cached k = none → ∀ b, (s.buf b).key ≠ k) ∧
      (∀ b, s.unused = some b → ((s.buf b).refcnt = 0 ∧ (s.buf b).dirty = false) ∧
        ∀ c, (s.buf c).refcnt = 0 → (s.buf c).dirty = false →
          age (trace (bio P disk) released s₀ es).reverse c ≤
            age (trace (bio P disk) released s₀ es).reverse b) ∧
      (s.unused = none → ∀ b, (s.buf b).refcnt = 0 → (s.buf b).dirty = true) := by
  obtain ⟨order, h⟩ := (Sorted.init hinit).run hrun
  rw [List.append_nil] at h
  refine ⟨⟨order, h⟩, fun b hb => by simpa using search_some hb, fun hnone b => h.miss hnone b,
    fun b hb => ?_, fun hnone b hfree => ?_⟩
  · rw [h.unused_eq] at hb
    refine ⟨by simpa using List.find?_some hb, fun c hc hclean => ?_⟩
    obtain ⟨-, older, younger, hsplit, hnone⟩ := List.find?_eq_some_iff_append.mp hb
    have hmem : c ∈ order.reverse := List.mem_reverse.mpr (h.mem c)
    rw [hsplit, List.mem_append, List.mem_cons] at hmem
    rcases hmem with hmem | rfl | hmem
    · have hnot := hnone c hmem
      simp [hc, hclean] at hnot
    · exact le_rfl
    · have hsorted := List.pairwise_reverse.mpr h.sorted
      rw [hsplit, List.pairwise_append, List.pairwise_cons] at hsorted
      exact hsorted.2.1.1 c hmem
  · rw [h.unused_eq, List.find?_eq_none] at hnone
    simpa [hfree] using hnone b (List.mem_reverse.mpr (h.mem b))

def blank : Key → Data := fun _ _ => 0

def booted : State Bool where
  links := binit
  buf _ := ⟨(0, 0), false, false, none, 0, fun _ => 0⟩
  idequeue := []
  disk := blank
  task _ := .user

theorem booted_init : (bio Bool blank).init booted :=
  ⟨⟨rfl, rfl⟩, fun _ => ⟨fun _ => 0, rfl⟩, rfl, fun _ => rfl⟩

def firstBuf : BufNo := ⟨0, by decide⟩

/-- A process reads a block and gives it back. -/
def readBlock : List (Event Bool) :=
  [.bread false (1, 5), .step false, .ideintr false, .step false, .brelse false firstBuf,
    .step false]

theorem bget_recycles_oldest_readBlock : ∃ s, (bio Bool blank).run booted readBlock = some s ∧
    (∃ order, Sorted s (trace (bio Bool blank) released booted readBlock).reverse order) ∧
    s.cached (1, 5) = some firstBuf ∧ (s.buf firstBuf).key = (1, 5) ∧
    ∀ b, s.unused = some b →
      age (trace (bio Bool blank) released booted readBlock).reverse firstBuf ≤
        age (trace (bio Bool blank) released booted readBlock).reverse b := by
  have hend : ((bio Bool blank).run booted readBlock).any (fun s =>
      decide (s.cached (1, 5) = some firstBuf) && (decide ((s.buf firstBuf).refcnt = 0) &&
        decide ((s.buf firstBuf).dirty = false))) = true := by decide +kernel
  obtain ⟨s, hrun, hs⟩ := (Option.any_eq_true _ _).mp hend
  rw [Bool.and_eq_true, Bool.and_eq_true, decide_eq_true_eq, decide_eq_true_eq,
    decide_eq_true_eq] at hs
  obtain ⟨horder, hcached, -, holdest, -⟩ :=
    bget_recycles_oldest booted s readBlock booted_init hrun (1, 5)
  exact ⟨s, hrun, horder, hs.1, hcached firstBuf hs.1,
    fun b hb => (holdest b hb).2 firstBuf hs.2.1 hs.2.2⟩

end Os20.Bio
