import Os20.Lib.Transition
import Os20.Alloc.Links
import Os20.Ealloc.Mman

/-!
# `ealloc.c`: runs of the allocator

The pages together with the blocks the callers hold.  Callers may ask for any size and give back
any pointer they hold; `mmap` may fail, and puts a page where there is none.

`Inv` is the invariant of the runs in which the left merges are exact: every page is tiled by
its chunks, or is one for which `mmap` has failed.
-/

namespace Os20.Ealloc

open Os20.Lib.Transition Os20.Lib.Segments
open Os20.Alloc.Page (Fault pagesize mapFailed Neat Linked Taken Freed PrevExact)

/-- Where `mmap` may put a page: away from the pages there are, and not where its failure
would be. -/
def Mman.Free (m : Mman) (addr : Nat) : Prop :=
  0 < addr ∧ addr + pagesize ≤ mapFailed ∧
    ∀ i < m.sz, addr + pagesize ≤ (m.cmans i).addr ∨ (m.cmans i).addr + pagesize ≤ addr

instance (m : Mman) (addr : Nat) : Decidable (m.Free addr) :=
  inferInstanceAs (Decidable (_ ∧ _))

structure Heap where
  mman : Mman
  live : List (Nat × Nat)

inductive Call where
  /-- `mmap` is what the system call returns if `alloc` makes it. -/
  | alloc (size : Int) (mmap : Option Nat)
  | dealloc (ptr : Nat)
  deriving DecidableEq, Repr

/-- One call.  A fault ends the run, and so does giving back a pointer that is not held. -/
def Heap.call (h : Heap) : Call → Option Heap
  | .alloc size mmap =>
      if ∀ addr ∈ mmap, h.mman.Free addr then
        match alloc h.mman size mmap with
        | .ok (m, some p) => some ⟨m, (p, size.toNat) :: h.live⟩
        | .ok (m, none) => some ⟨m, h.live⟩
        | .error _ => none
      else none
  | .dealloc p =>
      if p ∈ h.live.map Prod.fst then
        match dealloc h.mman p with
        | .ok m => some ⟨m, h.live.filter fun b => b.1 ≠ p⟩
        | .error _ => none
      else none

def heap : System Heap Call where
  init h := h.mman = initAlloc Mman.zero ∧ h.live = []
  next := Heap.call

def Mman.Mapped (m : Mman) (i : Nat) : Prop := i < m.sz ∧ (m.cmans i).addr ≠ mapFailed

def Heap.spans (h : Heap) (i : Nat) : List (Nat × Nat) :=
  (h.live.filter fun b => (h.mman.cmans i).addr ≤ b.1 ∧ b.1 < (h.mman.cmans i).addr + pagesize).map
    fun b => (b.1 - (h.mman.cmans i).addr, b.2)

/-! ## The invariant -/

theorem minalloc_pos : 0 < minalloc := by decide

theorem minalloc_dvd_pagesize : minalloc ∣ pagesize := by decide

structure Failed (page : Alloc.Page.Mman) : Prop where
  addr : page.addr = mapFailed
  chunkList : page.chunkList = none

structure Good (page : Alloc.Page.Mman) (bs : List Block) : Prop where
  neat : Neat minalloc page bs
  pos : 0 < page.addr
  top : page.addr + pagesize ≤ mapFailed

def pageBlocks (addr : Nat) (bs : List Block) : List (Nat × Nat) :=
  (usedSpans 0 bs).map fun s => (addr + s.1, s.2)

/-- `bss` are the tilings of the pages; it is empty for a page that is not there. -/
structure Inv (h : Heap) (bss : Nat → List Block) : Prop where
  sz_le : h.mman.sz ≤ maxPages
  page : ∀ i < h.mman.sz, Failed (h.mman.cmans i) ∧ bss i = [] ∨ Good (h.mman.cmans i) (bss i)
  apart : ∀ i < h.mman.sz, ∀ j < h.mman.sz, i ≠ j → (h.mman.cmans i).addr ≠ mapFailed →
    (h.mman.cmans i).addr + pagesize ≤ (h.mman.cmans j).addr ∨
      (h.mman.cmans j).addr + pagesize ≤ (h.mman.cmans i).addr
  live : h.live.Perm
    ((List.range h.mman.sz).flatMap fun i => pageBlocks (h.mman.cmans i).addr (bss i))

theorem flatMap_perm_cons {α β : Type*} [DecidableEq α] {l : List α} {f g : α → List β} {i : α}
    {x : β} (hi : i ∈ l) (hnodup : l.Nodup) (hsame : ∀ j ∈ l, j ≠ i → g j = f j)
    (hx : (g i).Perm (x :: f i)) : (l.flatMap g).Perm (x :: l.flatMap f) := by
  have hperm := List.perm_cons_erase hi
  have hrest : (l.erase i).flatMap g = (l.erase i).flatMap f := by
    refine List.flatMap_congr fun j hj => ?_
    obtain ⟨hne, hmem⟩ := hnodup.mem_erase_iff.mp hj
    exact hsame j hmem hne
  refine (hperm.flatMap_right g).trans ?_
  rw [List.flatMap_cons, hrest]
  refine (hx.append_right _).trans ?_
  rw [List.cons_append, ← List.flatMap_cons]
  exact (hperm.symm.flatMap_right f).cons x

theorem Good.bounds {page : Alloc.Page.Mman} {bs : List Block} (hgood : Good page bs)
    {b : Nat × Nat} (hb : b ∈ pageBlocks page.addr bs) :
    page.addr ≤ b.1 ∧ b.1 + b.2 ≤ page.addr + pagesize ∧ 0 < b.2 := by
  obtain ⟨s, hs, rfl⟩ := List.mem_map.mp hb
  have htop := (usedSpans_bounds hs).2
  have hpos := usedSpans_pos hgood.neat.tiles.sized hs
  rw [hgood.neat.tiles.covers] at htop
  simp only
  omega

namespace Inv

variable {h : Heap} {bss : Nat → List Block} {i : Nat}

theorem good (hinv : Inv h bss) (hi : h.mman.Mapped i) : Good (h.mman.cmans i) (bss i) := by
  rcases hinv.page i hi.1 with ⟨hfailed, -⟩ | hgood
  · exact absurd hfailed.addr hi.2
  · exact hgood

theorem setPage (hinv : Inv h bss) (hi : i < h.mman.sz) {page : Alloc.Page.Mman}
    {bs : List Block} (hneat : Neat minalloc page bs) (haddr : page.addr = (h.mman.cmans i).addr)
    (hgood : Good (h.mman.cmans i) (bss i)) {live : List (Nat × Nat)}
    (hlive : live.Perm ((List.range h.mman.sz).flatMap fun j =>
      pageBlocks (h.mman.cmans j).addr (Function.update bss i bs j))) :
    Inv ⟨h.mman.setPage i page, live⟩ (Function.update bss i bs) := by
  have haddrs (j : Nat) : ((h.mman.setPage i page).cmans j).addr = (h.mman.cmans j).addr := by
    by_cases hj : j = i
    · rw [hj, Mman.setPage_self, haddr]
    · rw [Mman.setPage_of_ne _ hj]
  refine ⟨hinv.sz_le, fun j hj => ?_, fun j hj k hk hne => ?_, ?_⟩
  · by_cases hji : j = i
    · subst hji
      rw [Mman.setPage_self, Function.update_self]
      exact .inr ⟨hneat, haddr ▸ hgood.pos, haddr ▸ hgood.top⟩
    · rw [Mman.setPage_of_ne _ hji, Function.update_of_ne hji]
      exact hinv.page j hj
  · simp only [haddrs]
    exact hinv.apart j hj k hk hne
  · simpa only [haddrs, Mman.setPage_sz] using hlive

theorem take (hinv : Inv h bss) (hi : i < h.mman.sz) {page : Alloc.Page.Mman}
    {pre post : List Block} {b : Block} {n : Nat} (hbs : bss i = pre ++ b :: post)
    (hgood : Good (h.mman.cmans i) (bss i)) (hb : b.used = false) (hfit : n ≤ b.size)
    (htaken : Taken minalloc (h.mman.cmans i) page (extent pre) n b)
    (hneat : Neat minalloc page (pre ++ (carve n b ++ post))) :
    Inv ⟨h.mman.setPage i page, ((h.mman.cmans i).addr + extent pre, n) :: h.live⟩
      (Function.update bss i (pre ++ (carve n b ++ post))) := by
  refine hinv.setPage hi hneat htaken.addr hgood ?_
  refine (hinv.live.cons _).trans (List.Perm.symm ?_)
  refine flatMap_perm_cons (List.mem_range.mpr hi) List.nodup_range (fun j _ hj => ?_) ?_
  · rw [Function.update_of_ne hj]
  · rw [Function.update_self, hbs, pageBlocks, pageBlocks, usedSpans_append,
      usedSpans_carve hfit, usedSpans_append, usedSpans_cons_free hb]
    simp only [Nat.zero_add, List.map_append, List.map_cons]
    exact List.perm_middle

theorem grow (hinv : Inv h bss) (hsz : h.mman.sz < maxPages) {page : Alloc.Page.Mman}
    {bs : List Block} (hpage : Failed page ∧ bs = [] ∨ Good page bs ∧ h.mman.Free page.addr)
    (hfree : usedSpans 0 bs = []) :
    Inv ⟨h.mman.addPage page, h.live⟩ (Function.update bss h.mman.sz bs) := by
  have hold {j : Nat} (hj : j < h.mman.sz) :
      (h.mman.addPage page).cmans j = h.mman.cmans j :=
    Mman.addPage_of_ne _ (Nat.ne_of_lt hj) page
  -- the new page is away from the old ones, if it is there at all
  have hapart (hmapped : page.addr ≠ mapFailed) : h.mman.Free page.addr := by
    rcases hpage with ⟨hfailed, -⟩ | ⟨-, hfree⟩
    · exact absurd hfailed.addr hmapped
    · exact hfree
  refine ⟨hsz, fun j hj => ?_, fun j hj k hk hne hmapped => ?_, ?_⟩
  · rcases Nat.lt_succ_iff_lt_or_eq.mp hj with hj | rfl
    · simp only [hold hj, Function.update_of_ne (Nat.ne_of_lt hj)]
      exact hinv.page j hj
    · simp only [Mman.addPage_self, Function.update_self]
      exact hpage.imp_right And.left
  · rcases Nat.lt_succ_iff_lt_or_eq.mp hj with hj | rfl
    · simp only [hold hj] at hmapped ⊢
      rcases Nat.lt_succ_iff_lt_or_eq.mp hk with hk | rfl
      · simp only [hold hk]
        exact hinv.apart j hj k hk hne hmapped
      · simp only [Mman.addPage_self]
        rcases hpage with ⟨hfailed, -⟩ | ⟨-, hfree⟩
        · rw [hfailed.addr]
          exact .inl (hinv.good ⟨hj, hmapped⟩).top
        · exact (hfree.2.2 j hj).symm
    · simp only [Mman.addPage_self] at hmapped ⊢
      rcases Nat.lt_succ_iff_lt_or_eq.mp hk with hk | rfl
      · simp only [hold hk]
        exact (hapart hmapped).2.2 k hk
      · exact absurd rfl hne
  · simp only [Mman.addPage_sz, List.range_succ, List.flatMap_append, List.flatMap_cons,
      List.flatMap_nil, Mman.addPage_self, Function.update_self, pageBlocks, hfree, List.map_nil,
      List.append_nil]
    refine hinv.live.trans (List.Perm.of_eq (List.flatMap_congr fun j hj => ?_))
    have hj' := List.mem_range.mp hj
    simp only [hold hj', Function.update_of_ne (Nat.ne_of_lt hj'), pageBlocks]

theorem exists_block (hinv : Inv h bss) {p : Nat} (hp : p ∈ h.live.map Prod.fst) :
    ∃ i < h.mman.sz, ∃ pre post n, bss i = pre ++ ⟨n, true⟩ :: post ∧
      p = (h.mman.cmans i).addr + extent pre ∧ Good (h.mman.cmans i) (bss i) := by
  obtain ⟨⟨q, n⟩, hq, rfl⟩ := List.mem_map.mp hp
  obtain ⟨i, hi, hmem⟩ := List.mem_flatMap.mp (hinv.live.mem_iff.mp hq)
  obtain ⟨s, hs, heq⟩ := List.mem_map.mp hmem
  obtain ⟨rfl, rfl⟩ := Prod.mk.inj heq
  obtain ⟨pre, post, hbs, hoff⟩ := exists_block_of_mem_usedSpans hs
  have hi' := List.mem_range.mp hi
  refine ⟨i, hi', pre, post, s.2, hbs, by simp only; omega, ?_⟩
  rcases hinv.page i hi' with ⟨-, hnil⟩ | hgood
  · simp [hnil] at hbs
  · exact hgood

theorem pageOf_eq (hinv : Inv h bss) (hi : i < h.mman.sz) (hgood : Good (h.mman.cmans i) (bss i))
    {o : Nat} (ho : o < pagesize) : pageOf h.mman ((h.mman.cmans i).addr + o) = some i := by
  have htop := hgood.top
  have hmapped : (h.mman.cmans i).addr ≠ mapFailed := by
    have : 0 < pagesize := by decide
    omega
  rw [pageOf, List.find?_range_eq_some]
  refine ⟨?_, List.mem_range.mpr hi, fun j hj => ?_⟩
  · have hwrap : ((h.mman.cmans i).addr + pagesize) % 2 ^ 64 = (h.mman.cmans i).addr + pagesize :=
      Nat.mod_eq_of_lt (Nat.lt_of_le_of_lt htop (by decide))
    simp only [hwrap, decide_eq_true_eq]
    omega
  · have hle := Nat.mod_le ((h.mman.cmans j).addr + pagesize) (2 ^ 64)
    have hapart := hinv.apart i hi j (by omega) (by omega) hmapped
    simp only [Bool.not_eq_true', decide_eq_false_iff_not, not_and, not_lt]
    omega

theorem release (hinv : Inv h bss) (hi : i < h.mman.sz) {page : Alloc.Page.Mman}
    {pre post bs : List Block} {n : Nat} (hbs : bss i = pre ++ ⟨n, true⟩ :: post)
    (hgood : Good (h.mman.cmans i) (bss i)) (hneat : Neat minalloc page bs)
    (haddr : page.addr = (h.mman.cmans i).addr)
    (hspans : usedSpans 0 bs = usedSpans 0 pre ++ usedSpans (extent pre + n) post) :
    Inv ⟨h.mman.setPage i page,
        h.live.filter fun b => b.1 ≠ (h.mman.cmans i).addr + extent pre⟩
      (Function.update bss i bs) := by
  refine hinv.setPage hi hneat haddr hgood ((hinv.live.filter _).trans (List.Perm.of_eq ?_))
  rw [List.filter_flatMap]
  refine List.flatMap_congr fun j hj => ?_
  by_cases hji : j = i
  · subst hji
    have hsized := hgood.neat.tiles.sized
    rw [hbs] at hsized ⊢
    rw [Function.update_self, pageBlocks, pageBlocks, hspans]
    exact filter_spans hsized
  · rw [Function.update_of_ne hji]
    refine List.filter_eq_self.mpr fun b hb => ?_
    -- a block of another page
    have hj' := List.mem_range.mp hj
    have hext := hgood.neat.tiles.covers
    have hsized := hgood.neat.tiles.sized
    rw [hbs] at hext hsized
    simp only [extent_append, extent_cons] at hext
    simp only [sized_append, sized_cons] at hsized
    have hpos := hsized.2.1.1
    have hmapped : (h.mman.cmans i).addr ≠ mapFailed := by
      have := hgood.top
      omega
    have hapart := hinv.apart i hi j hj' (Ne.symm hji) hmapped
    rcases hinv.page j hj' with ⟨-, hnil⟩ | hgood'
    · simp [hnil, pageBlocks] at hb
    · have := hgood'.bounds hb
      simp only [ne_eq, decide_eq_true_eq]
      omega

/-- What page `i` does with a request for `n` bytes. -/
theorem offer (hinv : Inv h bss) {n : Nat} (hn : 0 < n) (hdvd : minalloc ∣ n)
    (hi : i < h.mman.sz) :
    (Refuses (h.mman.cmans i) n ∧ ∀ c ∈ bss i, c.used = false → c.size < n) ∨
      ∃ pre b post page, bss i = pre ++ b :: post ∧ Good (h.mman.cmans i) (bss i) ∧
        b.used = false ∧ n ≤ b.size ∧
        Alloc.Page.alloc minalloc (h.mman.cmans i) n =
          .ok (page, some ((h.mman.cmans i).addr + extent pre)) ∧
        Taken minalloc (h.mman.cmans i) page (extent pre) n b ∧
        Neat minalloc page (pre ++ (carve n b ++ post)) := by
  rcases hinv.page i hi with ⟨hfailed, hnil⟩ | hgood
  · refine .inl ⟨refuses_of_empty hfailed.chunkList n, ?_⟩
    rw [hnil]
    simp
  · rcases hgood.neat.alloc minalloc_pos minalloc_dvd_pagesize hn hdvd with ⟨hnofit, hcall⟩ |
      ⟨pre, b, post, page, hbs, hb, hfit, hcall, htaken, hneat⟩
    · exact .inl ⟨hcall, hnofit⟩
    · exact .inr ⟨pre, b, post, page, hbs, hgood, hb, hfit, hcall, htaken, hneat⟩

/-- A request goes to the first page that has a chunk for it, if there is one. -/
theorem alloc_cases (hinv : Inv h bss) {n : Nat} (hn : 0 < n) (hdvd : minalloc ∣ n)
    (mmap : Option Nat) :
    ((∀ i < h.mman.sz, ∀ c ∈ bss i, c.used = false → c.size < n) ∧
        allocIn h.mman n (List.range h.mman.sz) = .ok (h.mman, none)) ∨
      ∃ i < h.mman.sz, ∃ pre b post page, bss i = pre ++ b :: post ∧
        Good (h.mman.cmans i) (bss i) ∧ b.used = false ∧ n ≤ b.size ∧
        (∀ j < i, ∀ c ∈ bss j, c.used = false → c.size < n) ∧
        alloc h.mman n mmap =
          .ok (h.mman.setPage i page, some ((h.mman.cmans i).addr + extent pre)) ∧
        Taken minalloc (h.mman.cmans i) page (extent pre) n b ∧
        Neat minalloc page (pre ++ (carve n b ++ post)) := by
  have hlt : ∀ i ∈ List.range h.mman.sz, i < maxPages :=
    fun i hi => (List.mem_range.mp hi).trans_le hinv.sz_le
  -- a page that refuses has no chunk for the request
  have hnofit {i : Nat} (hi : i < h.mman.sz) (hrefuses : Refuses (h.mman.cmans i) n) :
      ∀ c ∈ bss i, c.used = false → c.size < n := by
    rcases hinv.offer hn hdvd hi with ⟨-, hnofit⟩ | ⟨_, _, _, _, -, -, -, -, hcall, -⟩
    · exact hnofit
    · rw [Refuses, hcall] at hrefuses
      cases hrefuses
  have hpage : ∀ i ∈ List.range h.mman.sz, Refuses (h.mman.cmans i) n ∨
      ∃ page p, Alloc.Page.alloc minalloc (h.mman.cmans i) n = .ok (page, some p) := by
    intro i hi
    rcases hinv.offer hn hdvd (List.mem_range.mp hi) with ⟨hrefuses, -⟩ |
      ⟨_, _, _, page, -, -, -, -, hcall, -⟩
    · exact .inl hrefuses
    · exact .inr ⟨page, _, hcall⟩
  rcases allocIn_cases (List.range h.mman.sz) hlt hpage with ⟨hall, hres⟩ |
    ⟨before, i, after, page, p, hrange, hbefore, hcall, hres⟩
  · exact .inl ⟨fun i hi => hnofit hi (hall i (List.mem_range.mpr hi)), hres⟩
  · have hi : i < h.mman.sz := by
      rw [← List.mem_range, hrange]
      simp
    rcases hinv.offer hn hdvd hi with ⟨hrefuses, -⟩ |
      ⟨pre, b, post, page', hbs, hgood, hb, hfit, hcall', htaken, hneat⟩
    · rw [Refuses, hcall] at hrefuses
      cases hrefuses
    · rw [hcall] at hcall'
      obtain ⟨rfl, hp⟩ := Prod.mk.inj (Except.ok.inj hcall')
      obtain rfl := Option.some.inj hp
      refine .inr ⟨i, hi, pre, b, post, page, hbs, hgood, hb, hfit, fun j hj => ?_,
        alloc_of_page mmap hres, htaken, hneat⟩
      refine hnofit (hj.trans hi) (hbefore j ?_)
      -- the pages after `i` have higher numbers
      have hsorted := @List.pairwise_lt_range h.mman.sz
      have hmem := List.mem_range.mpr (hj.trans hi)
      rw [hrange] at hsorted hmem
      have hafter := (List.pairwise_cons.mp (List.pairwise_append.mp hsorted).2.1).1
      rcases List.mem_append.mp hmem with hmem | hmem
      · exact hmem
      · rcases List.mem_cons.mp hmem with rfl | hmem
        · exact absurd hj (Nat.lt_irrefl _)
        · exact absurd hj (Nat.lt_asymm (hafter j hmem))

theorem allocIn_invalid (hinv : Inv h bss) {size : Int}
    (hinvalid : ¬∃ n : Nat, size = n ∧ 0 < n ∧ minalloc ∣ n) :
    allocIn h.mman size (List.range h.mman.sz) = .ok (h.mman, none) := by
  have hrefuses (i : Nat) : Refuses (h.mman.cmans i) size :=
    Alloc.Page.alloc_invalid minalloc_pos hinvalid
  rcases allocIn_cases (List.range h.mman.sz)
      (fun i hi => (List.mem_range.mp hi).trans_le hinv.sz_le) (fun i _ => .inl (hrefuses i)) with
    ⟨-, hres⟩ | ⟨_, i, _, page, p, -, -, hcall, -⟩
  · exact hres
  · rw [hrefuses i] at hcall
    cases hcall

/-! ## A new page -/

variable {size : Int} {addr : Nat} (hsz : h.mman.sz < maxPages)
  (hnone : allocIn h.mman size (List.range h.mman.sz) = .ok (h.mman, none))
include hsz hnone

theorem alloc_mapped (hinv : Inv h bss) (hfree : h.mman.Free addr) {n : Nat} (hsize : size = n)
    (hn : 0 < n) (hdvd : minalloc ∣ n) (hle : n ≤ pagesize) :
    ∃ page, alloc h.mman size (some addr) = .ok (h.mman.addPage page, some addr) ∧
      Inv ⟨h.mman.addPage page, (addr, n) :: h.live⟩
        (Function.update bss h.mman.sz (carve n ⟨pagesize, false⟩)) ∧
      page.addr = addr ∧ Linked minalloc page.chunks 0 none (carve n ⟨pagesize, false⟩) := by
  subst hsize
  obtain ⟨page, hinit, rfl, hneat, hlinked⟩ := Alloc.Page.initAlloc_neat minalloc_pos
    minalloc_dvd_pagesize (h.mman.cmans h.mman.sz) addr
  have hgood : Good page [⟨pagesize, false⟩] := ⟨hneat, hfree.1, hfree.2.1⟩
  have hgrown := hinv.grow hsz (.inr ⟨hgood, hfree⟩) (by simp [usedSpans])
  rcases hneat.alloc minalloc_pos minalloc_dvd_pagesize hn hdvd with ⟨hnofit, -⟩ |
    ⟨pre, b, post, page', hbs, hb, hfit, hcall, htaken, hneat'⟩
  · exact absurd (hnofit _ (List.mem_singleton.mpr rfl) rfl) (Nat.not_lt.mpr hle)
  · obtain ⟨rfl, rfl, rfl⟩ : pre = [] ∧ b = ⟨pagesize, false⟩ ∧ post = [] := by
      simpa [List.append_eq_cons_iff, eq_comm] using hbs
    refine ⟨page', by simpa using alloc_of_new hsz hnone hinit hcall, ?_, htaken.addr, ?_⟩
    · have htake := hgrown.take (Nat.lt_succ_self h.mman.sz) (Function.update_self _ _ _)
        (by simpa using hgood) hb hfit (by simpa using htaken) hneat'
      simpa using htake
    · simpa using htaken.linked hneat.tiles hn hdvd hlinked

theorem alloc_refused (hinv : Inv h bss) (hfree : h.mman.Free addr)
    (hinvalid : ¬∃ n : Nat, size = n ∧ 0 < n ∧ minalloc ∣ n ∧ n ≤ pagesize) :
    ∃ page, alloc h.mman size (some addr) = .ok (h.mman.addPage page, none) ∧
      Inv ⟨h.mman.addPage page, h.live⟩
        (Function.update bss h.mman.sz [⟨pagesize, false⟩]) := by
  obtain ⟨page, hinit, rfl, hneat, -⟩ := Alloc.Page.initAlloc_neat minalloc_pos
    minalloc_dvd_pagesize (h.mman.cmans h.mman.sz) addr
  have hgood : Good page [⟨pagesize, false⟩] := ⟨hneat, hfree.1, hfree.2.1⟩
  have hrefuses : Refuses page size := by
    by_cases hvalid : ∃ n : Nat, size = n ∧ 0 < n ∧ minalloc ∣ n
    · obtain ⟨n, rfl, hn, hdvd⟩ := hvalid
      refine Alloc.Page.alloc_noFit minalloc_pos hneat.tiles hn hdvd fun c hc _ => ?_
      obtain rfl := List.mem_singleton.mp hc
      by_contra hle
      exact hinvalid ⟨n, rfl, hn, hdvd, Nat.not_lt.mp hle⟩
    · exact Alloc.Page.alloc_invalid minalloc_pos hvalid
  exact ⟨page, alloc_of_new hsz hnone hinit hrefuses,
    hinv.grow hsz (.inr ⟨hgood, hfree⟩) (by simp [usedSpans])⟩

theorem alloc_failed (hinv : Inv h bss) (hempty : (h.mman.cmans h.mman.sz).chunkList = none) :
    ∃ page, alloc h.mman size none = .ok (h.mman.addPage page, none) ∧
      Inv ⟨h.mman.addPage page, h.live⟩ (Function.update bss h.mman.sz []) := by
  have hfailed : Failed { h.mman.cmans h.mman.sz with addr := mapFailed } := ⟨rfl, hempty⟩
  have hrefuses := refuses_of_empty hfailed.chunkList size
  exact ⟨_, alloc_of_new hsz hnone rfl hrefuses, hinv.grow hsz (.inl ⟨hfailed, rfl⟩) rfl⟩

end Inv

end Os20.Ealloc
