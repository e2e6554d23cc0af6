import Os20.Lib.Transition
import Os20.Alloc.Release

/-!
# `alloc.c`: runs of the allocator

The page allocator at the granularity of `alloc.h`, together with the blocks its
callers hold.  Callers may ask for any size and give back any pointer they hold.

`alloc` does not mend the `prev` link of the chunk behind the one it splits, so
after a split `dealloc` may follow a link to a chunk that is no neighbour.
`exists_overlap` and `exists_lost_space` are runs in which this hands out bytes
twice and loses the page for good; `noDoubleAllocation` and `findsSpace` say that
nothing else goes wrong.
-/

namespace Os20.Alloc

open Os20.Lib.Transition Os20.Lib.Segments
open Page (Mman Chunk Fault pagesize)

def minalloc : Nat := 8

def initAlloc : Mman → Option Nat → Except Fault (Mman × Int) := Page.initAlloc minalloc

def alloc : Mman → Int → Except Fault (Mman × Option Nat) := Page.alloc minalloc

def dealloc : Mman → Nat → Except Fault Mman := Page.dealloc minalloc

def Mman.zero : Mman := { addr := 0, chunkList := none, chunks := fun _ => {} }

structure Heap where
  mman : Mman
  live : List (Nat × Nat)

inductive Call where
  | alloc (size : Int)
  | dealloc (ptr : Nat)
  deriving DecidableEq, Repr

/-- One call.  A fault ends the run, and so does giving back a pointer that is
not held. -/
def Heap.call (h : Heap) : Call → Option Heap
  | .alloc size =>
      match alloc h.mman size with
      | .ok (m, some p) => some ⟨m, (p, size.toNat) :: h.live⟩
      | .ok (m, none) => some ⟨m, h.live⟩
      | .error _ => none
  | .dealloc p =>
      if p ∈ h.live.map Prod.fst then
        match dealloc h.mman p with
        | .ok m => some ⟨m, h.live.filter fun b => b.1 ≠ p⟩
        | .error _ => none
      else none

/-- Runs that start with a successful `init_alloc`, on whatever earlier use left
in the slots. -/
def heap : System Heap Call where
  init h := ∃ m addr, initAlloc m (some addr) = .ok (h.mman, 0) ∧ h.live = []
  next := Heap.call

/-- Live blocks lie in the page, are aligned and do not overlap. -/
def NoDoubleAllocation (h : Heap) : Prop :=
  (∀ b ∈ h.live, h.mman.addr ≤ b.1 ∧ b.1 + b.2 ≤ h.mman.addr + pagesize ∧
    minalloc ∣ b.1 - h.mman.addr) ∧
  h.live.Pairwise fun b c => b.1 + b.2 ≤ c.1 ∨ c.1 + c.2 ≤ b.1

def Heap.spans (h : Heap) : List (Nat × Nat) :=
  h.live.map fun b => (b.1 - h.mman.addr, b.2)

/-- `alloc(n)` fails exactly if there is no free run of `n` bytes, and otherwise
returns where the lowest maximal free run of at least `n` bytes starts. -/
def FindsSpace (h : Heap) (n : Nat) : Prop :=
  ((¬∃ a, FreeRun pagesize h.spans a n) → ∃ m, alloc h.mman n = .ok (m, none)) ∧
  ((∃ a, FreeRun pagesize h.spans a n) →
    ∃ m a, alloc h.mman n = .ok (m, some (h.mman.addr + a)) ∧
      IsLeast {a | MaximalRun pagesize h.spans n a} a)

/-- The left merge of this `dealloc` does not join chunks that are apart. -/
def leftMergeSound (h : Heap) : Call → Prop
  | .alloc _ => True
  | .dealloc p => Page.PrevSound minalloc h.mman (Page.victim minalloc h.mman p)

/-- The left merge of this `dealloc` joins the left neighbour exactly if it is free. -/
def leftMergeExact (h : Heap) : Call → Prop
  | .alloc _ => True
  | .dealloc p => Page.PrevExact minalloc h.mman (Page.victim minalloc h.mman p)

instance (h : Heap) : (c : Call) → Decidable (leftMergeSound h c)
  | .alloc _ => inferInstanceAs (Decidable True)
  | .dealloc _ => inferInstanceAs (Decidable (∀ l ∈ Page.chunkSlots minalloc h.mman, _ → _ → _))

instance (h : Heap) : (c : Call) → Decidable (leftMergeExact h c)
  | .alloc _ => inferInstanceAs (Decidable True)
  | .dealloc _ => inferInstanceAs (Decidable (Page.PrevExact _ _ _))

instance (h : Heap) : Decidable (NoDoubleAllocation h) :=
  inferInstanceAs (Decidable (_ ∧ _))

/-! ## The invariant -/

theorem minalloc_pos : 0 < minalloc := by decide

theorem minalloc_dvd_pagesize : minalloc ∣ pagesize := by decide

/-- The list tiles the page, and the live blocks are its assigned chunks. -/
structure Inv (h : Heap) (bs : List Block) : Prop where
  tiles : Page.Tiles minalloc h.mman bs
  below : Page.PrevBelow h.mman (Page.slots minalloc 0 bs)
  live : h.live.Perm ((usedSpans 0 bs).map fun s => (h.mman.addr + s.1, s.2))

theorem inv_init {h : Heap} (hinit : heap.init h) : Inv h [⟨pagesize, false⟩] := by
  obtain ⟨m, addr, hcall, hlive⟩ := hinit
  have hmod : (pagesize : Int).tmod minalloc = 0 := by decide
  have hidx : 0 < Page.chunkBufSize minalloc := by decide
  simp only [initAlloc, Page.initAlloc, Page.chunkNew, bind, Except.bind, pure, Except.pure,
    hmod, ne_eq, not_true_eq_false, if_false, Nat.zero_div, hidx, if_true, Except.ok.injEq,
    Prod.mk.injEq, and_true] at hcall
  refine ⟨⟨?_, by simp, by simp [minalloc_dvd_pagesize]; decide⟩, ?_, by simp [hlive, usedSpans]⟩
  · rw [← hcall]
    simp [Page.Seg, Page.Mman.modify]
    exact ⟨rfl, rfl, rfl⟩
  · intro i hi j hj
    simp only [Page.slots, Nat.zero_div, List.mem_singleton] at hi
    subst hi
    rw [← hcall] at hj
    simp [Page.Mman.modify] at hj

theorem Inv.exists_block {h : Heap} {bs : List Block} (hinv : Inv h bs) {p n : Nat}
    (hp : (p, n) ∈ h.live) :
    ∃ pre post, bs = pre ++ ⟨n, true⟩ :: post ∧ p = h.mman.addr + extent pre := by
  have hmem := hinv.live.mem_iff.mp hp
  obtain ⟨s, hs, heq⟩ := List.mem_map.mp hmem
  obtain ⟨rfl, rfl⟩ := Prod.mk.inj heq
  obtain ⟨pre, post, hbs, hoff⟩ := exists_block_of_mem_usedSpans hs
  exact ⟨pre, post, hbs, by omega⟩

/-! ## One call -/

/-- Effect of a successful or failing `alloc` on the tiling. -/
theorem Inv.alloc {h h' : Heap} {bs : List Block} {size : Int} (hinv : Inv h bs)
    (hcall : h.call (.alloc size) = some h') :
    ∃ bs', Inv h' bs' ∧ (Coalesced bs → Coalesced bs') := by
  by_cases hvalid : ∃ n : Nat, size = n ∧ 0 < n ∧ minalloc ∣ n
  · obtain ⟨n, rfl, hn, hdvd⟩ := hvalid
    rcases exists_firstFit n bs with hnofit | ⟨pre, b, post, rfl, hb, hfit, hfirst⟩
    · have hres := Page.alloc_noFit minalloc_pos hinv.tiles hn hdvd hnofit
      simp only [Heap.call, Alloc.alloc, hres, Option.some.injEq] at hcall
      subst hcall
      exact ⟨bs, hinv, id⟩
    · obtain ⟨m', hres, htaken⟩ := Page.alloc_fit minalloc_pos minalloc_dvd_pagesize
        hinv.tiles hn hdvd hb hfit hfirst
      simp only [Heap.call, Alloc.alloc, hres, Option.some.injEq, Int.toNat_natCast] at hcall
      subst hcall
      refine ⟨pre ++ (carve n b ++ post), ⟨?_, ?_, ?_⟩, Coalesced.carve hb⟩
      · exact htaken.tiles hinv.tiles hn hdvd hfit
      · exact htaken.prevBelow hfit hinv.below
      · have hlive := hinv.live
        rw [usedSpans_append, usedSpans_cons_free hb] at hlive
        simp only [Nat.zero_add, List.map_append] at hlive
        rw [usedSpans_append, usedSpans_carve hfit, htaken.addr]
        simp only [Nat.zero_add, List.map_append, List.map_cons]
        exact (hlive.cons _).trans List.perm_middle.symm
  · have hres := Page.alloc_invalid (m := h.mman) minalloc_pos hvalid
    simp only [Heap.call, Alloc.alloc, hres, Option.some.injEq] at hcall
    subst hcall
    exact ⟨bs, hinv, id⟩

/-- Effect of `dealloc` on the tiling, where its left merge is sound. -/
theorem Inv.dealloc {h h' : Heap} {bs : List Block} {p : Nat} (hinv : Inv h bs)
    (hsound : leftMergeSound h (.dealloc p)) (hcall : h.call (.dealloc p) = some h') :
    ∃ pre post n bs', bs = pre ++ ⟨n, true⟩ :: post ∧ p = h.mman.addr + extent pre ∧
      Page.Freed minalloc h.mman pre post n bs' ∧ Inv h' bs' := by
  simp only [Heap.call] at hcall
  split at hcall
  swap
  · simp at hcall
  next hheld =>
  obtain ⟨⟨q, n⟩, hq, rfl⟩ := List.mem_map.mp hheld
  obtain ⟨pre, post, rfl, rfl⟩ := hinv.exists_block hq
  have hvictim : Page.victim minalloc h.mman (h.mman.addr + extent pre) =
      extent pre / minalloc := by
    simp [Page.victim]
  rw [leftMergeSound, hvictim] at hsound
  obtain ⟨m', bs', hres, haddr, htiles, hbelow, hfreed⟩ :=
    Page.dealloc_tiles minalloc_pos minalloc_dvd_pagesize hinv.tiles hinv.below hsound
  simp only [Alloc.dealloc, hres, Option.some.injEq] at hcall
  subst hcall
  refine ⟨pre, post, n, bs', rfl, rfl, hfreed, htiles, hbelow, ?_⟩
  rw [hfreed.usedSpans, haddr, ← filter_spans hinv.tiles.sized]
  exact hinv.live.filter _

/-! ## Every run whose left merges are sound -/

theorem exists_inv {h : Heap} (hreach : heap.ReachableWhere leftMergeSound h) :
    ∃ bs, Inv h bs := by
  induction hreach with
  | init hinit => exact ⟨_, inv_init hinit⟩
  | step c _ hok hnext ih =>
      obtain ⟨bs, hinv⟩ := ih
      cases c with
      | alloc size =>
          obtain ⟨bs', hinv', -⟩ := hinv.alloc hnext
          exact ⟨bs', hinv'⟩
      | dealloc p =>
          obtain ⟨-, -, -, bs', -, -, -, hinv'⟩ := hinv.dealloc hok hnext
          exact ⟨bs', hinv'⟩

/-- Under `leftMergeSound` every state of a run has disjoint live blocks. -/
theorem noDoubleAllocation {h : Heap} (hreach : heap.ReachableWhere leftMergeSound h) :
    NoDoubleAllocation h := by
  obtain ⟨bs, hinv⟩ := exists_inv hreach
  have hsized := hinv.tiles.sized
  constructor
  · intro b hb
    have hmem := hinv.live.mem_iff.mp hb
    obtain ⟨s, hs, rfl⟩ := List.mem_map.mp hmem
    have hhi := (usedSpans_bounds hs).2
    rw [hinv.tiles.covers] at hhi
    have hdvd := usedSpans_dvd hsized (Nat.dvd_zero _) hs
    refine ⟨by simp, by simp only; omega, ?_⟩
    rwa [Nat.add_sub_cancel_left]
  · rw [hinv.live.pairwise_iff fun hbc => hbc.symm]
    apply List.Pairwise.map _ _ (usedSpans_pairwise 0 bs)
    intro s t hst
    left
    simp only
    omega

def Heap.start (addr : Nat) : Heap :=
  match initAlloc Mman.zero (some addr) with
  | .ok (m, _) => ⟨m, []⟩
  | .error _ => ⟨Mman.zero, []⟩

theorem start_init (addr : Nat) : heap.init (Heap.start addr) :=
  ⟨Mman.zero, addr, rfl, rfl⟩

/-- Two blocks are taken, and the first one is given back and taken again. -/
theorem noDoubleAllocation_reuse :
    ∃ h, h.live = [(65536, 24), (65560, 16)] ∧ heap.ReachableWhere leftMergeSound h ∧
      NoDoubleAllocation h := by
  obtain ⟨h, hreach, hlive⟩ := System.exists_reachableWhere_of_run leftMergeSound
    [.alloc 24, .alloc 16, .dealloc 65536, .alloc 24]
    (fun h => h.live == [(65536, 24), (65560, 16)]) (start_init 65536) (by decide +kernel)
  exact ⟨h, by simpa using hlive, hreach, noDoubleAllocation hreach⟩

/-- `alloc(24)`, `alloc(4072)`, then the first block is replaced by two of 8 bytes
and the outer two of the three blocks are given back. -/
def overlapRun : List Call :=
  [.alloc 24, .alloc 4072, .dealloc 65536, .alloc 8, .alloc 8, .dealloc 65536,
    .dealloc 65560, .alloc 16]

theorem exists_overlap : ∃ h, heap.Reachable h ∧ ¬NoDoubleAllocation h := by
  obtain ⟨h, hreach, hbad⟩ := System.exists_reachable_of_run overlapRun
    (fun h => !decide (NoDoubleAllocation h)) (start_init 65536) (by decide +kernel)
  exact ⟨h, hreach, by simpa using hbad⟩

/-! ## Every run whose left merges are exact -/

theorem leftMergeExact.sound {h : Heap} {c : Call} (hok : leftMergeExact h c) :
    leftMergeSound h c := by
  cases c with
  | alloc => trivial
  | dealloc => exact Page.PrevExact.sound hok

/-- With an exact left merge no two free chunks stand side by side. -/
theorem Inv.dealloc_coalesced {h h' : Heap} {bs : List Block} {p : Nat} (hinv : Inv h bs)
    (hcoal : Coalesced bs) (hexact : leftMergeExact h (.dealloc p))
    (hcall : h.call (.dealloc p) = some h') : ∃ bs', Inv h' bs' ∧ Coalesced bs' := by
  obtain ⟨pre, post, n, bs', rfl, rfl, hfreed, hinv'⟩ :=
    hinv.dealloc (leftMergeExact.sound hexact) hcall
  have hvictim : Page.victim minalloc h.mman (h.mman.addr + extent pre) =
      extent pre / minalloc := by
    simp [Page.victim]
  rw [leftMergeExact, hvictim] at hexact
  exact ⟨bs', hinv', hfreed.coalesced minalloc_pos hinv.tiles hexact hcoal⟩

theorem exists_inv_coalesced {h : Heap} (hreach : heap.ReachableWhere leftMergeExact h) :
    ∃ bs, Inv h bs ∧ Coalesced bs := by
  induction hreach with
  | init hinit => exact ⟨_, inv_init hinit, List.isChain_singleton _⟩
  | step c _ hok hnext ih =>
      obtain ⟨bs, hinv, hcoal⟩ := ih
      cases c with
      | alloc size =>
          obtain ⟨bs', hinv', hcoal'⟩ := hinv.alloc hnext
          exact ⟨bs', hinv', hcoal' hcoal⟩
      | dealloc p => exact hinv.dealloc_coalesced hcoal hok hnext

theorem covered_perm {spans spans' : List (Nat × Nat)} (h : spans.Perm spans') (x : Nat) :
    Covered spans x ↔ Covered spans' x := by
  simp [Covered, h.mem_iff]

theorem Inv.spans_perm {h : Heap} {bs : List Block} (hinv : Inv h bs) :
    h.spans.Perm (usedSpans 0 bs) := by
  have hmap := hinv.live.map fun b : Nat × Nat => (b.1 - h.mman.addr, b.2)
  simpa [Heap.spans, List.map_map, Function.comp_def] using hmap

theorem findsSpace_of_coalesced {h : Heap} {bs : List Block} (hinv : Inv h bs)
    (hcoal : Coalesced bs) {n : Nat} (hn : 0 < n) (hdvd : minalloc ∣ n) : FindsSpace h n := by
  have hcov := fun x => covered_perm hinv.spans_perm x
  unfold FindsSpace
  simp only [FreeRun, MaximalRun, hcov]
  rw [← hinv.tiles.covers]
  rcases exists_firstFit n bs with hnofit | ⟨pre, b, post, rfl, hb, hfit, hfirst⟩
  · have hres := Page.alloc_noFit minalloc_pos hinv.tiles hn hdvd hnofit
    constructor
    · exact fun _ => ⟨_, hres⟩
    · rintro ⟨a, ha⟩
      exact absurd ha (not_freeRun_of_no_fit hn hinv.tiles.sized hcoal hnofit a)
  · obtain ⟨m', hres, -⟩ := Page.alloc_fit minalloc_pos minalloc_dvd_pagesize
      hinv.tiles hn hdvd hb hfit hfirst
    have hleast := isLeast_firstFit hn hinv.tiles.sized hcoal hb hfit hfirst
    constructor
    · exact fun hnone => absurd ⟨_, hleast.1.1⟩ hnone
    · exact fun _ => ⟨m', extent pre, hres, hleast⟩

/-- Under `leftMergeExact` no space is lost in any state of a run; with all blocks
given back the whole page can be had again. -/
theorem findsSpace {h : Heap} (hreach : heap.ReachableWhere leftMergeExact h) :
    (∀ n : Nat, 0 < n → minalloc ∣ n → FindsSpace h n) ∧
      (h.live = [] → ∃ m, alloc h.mman pagesize = .ok (m, some h.mman.addr)) := by
  obtain ⟨bs, hinv, hcoal⟩ := exists_inv_coalesced hreach
  refine ⟨fun n hn hdvd => findsSpace_of_coalesced hinv hcoal hn hdvd, fun hlive => ?_⟩
  have hfind := findsSpace_of_coalesced hinv hcoal (n := pagesize) (by decide)
    minalloc_dvd_pagesize
  have hrun : FreeRun pagesize h.spans 0 pagesize := by
    simp [FreeRun, Heap.spans, hlive, Covered]
  obtain ⟨m, a, hres, hleast⟩ := hfind.2 ⟨0, hrun⟩
  have ha : a + pagesize ≤ pagesize := hleast.1.1.1
  obtain rfl : a = 0 := by omega
  exact ⟨m, hres⟩

/-- The state after three blocks were taken and the outer two given back. -/
theorem findsSpace_gaps :
    ∃ h, h.live = [(65552, 32)] ∧ heap.ReachableWhere leftMergeExact h ∧ FindsSpace h 24 := by
  obtain ⟨h, hreach, hlive⟩ := System.exists_reachableWhere_of_run leftMergeExact
    [.alloc 16, .alloc 32, .alloc 4048, .dealloc 65536, .dealloc 65584]
    (fun h => h.live == [(65552, 32)]) (start_init 65536) (by decide +kernel)
  exact ⟨h, by simpa using hlive, hreach, (findsSpace hreach).1 24 (by decide) (by decide)⟩

/-- The page is filled by two blocks, the first one is replaced by a smaller one, and
then both are given back. -/
def lostSpaceRun : List Call :=
  [.alloc 16, .alloc 4080, .dealloc 65536, .alloc 8, .dealloc 65552, .dealloc 65536]

/-- With no live block left, `alloc(PAGESIZE)` fails. -/
theorem exists_lost_space :
    ∃ h, heap.Reachable h ∧ h.live = [] ∧ (∃ a, FreeRun pagesize h.spans a pagesize) ∧
      ∀ m p, alloc h.mman pagesize ≠ .ok (m, some p) := by
  obtain ⟨h, hreach, hlost⟩ := System.exists_reachable_of_run lostSpaceRun
    (fun h => h.live.isEmpty && match alloc h.mman pagesize with
      | .ok (_, none) => true
      | _ => false) (start_init 65536) (by decide +kernel)
  rw [Bool.and_eq_true, List.isEmpty_iff] at hlost
  obtain ⟨hlive, hnull⟩ := hlost
  refine ⟨h, hreach, hlive, ⟨0, by simp [FreeRun, Heap.spans, hlive, Covered]⟩, ?_⟩
  intro m p hres
  simp [hres] at hnull

end Os20.Alloc
