import Os20.Ealloc.Heap

/-!
# Pages on demand

`alloc` leaves it to the pages to look at the size, so a request that every page refuses costs a
page, and a page that `mmap` does not give is counted as well.  `pagesOnDemand` says that
nothing else goes wrong, as long as the left merges are exact.
-/

namespace Os20.Ealloc

open Os20.Lib.Transition Os20.Lib.Segments
open Os20.Alloc.Page (pagesize mapFailed PrevExact)

def ValidSize (size : Int) : Prop :=
  (minalloc : Int) ∣ size ∧ minalloc ≤ size ∧ size ≤ pagesize

/-- Some page has a run of `n` bytes that no live block covers. -/
def Heap.HasRoom (h : Heap) (n : Nat) : Prop :=
  ∃ i, h.mman.Mapped i ∧ ∃ a, FreeRun pagesize (h.spans i) a n

/-- `alloc(size)` has returned `res` and left `m`: there are more pages only if the size is valid
and there was no room, and `NULL` leaves the pages as they were. -/
def PagesOnDemand (h : Heap) (size : Int) (m : Mman) (res : Option Nat) : Prop :=
  (h.mman.sz < m.sz → ValidSize size ∧ ¬h.HasRoom size.toNat) ∧
  (res = none → m.sz = h.mman.sz ∧ ∀ i < maxPages,
    (m.cmans i).chunkList = (h.mman.cmans i).chunkList ∧
      (m.cmans i).chunks = (h.mman.cmans i).chunks)

/-- The left merge of this `dealloc` joins the left neighbour exactly if it is free. -/
def leftMergeExact (h : Heap) : Call → Prop
  | .alloc _ _ => True
  | .dealloc p => ∀ i ∈ pageOf h.mman p,
      PrevExact minalloc (h.mman.cmans i) (Alloc.Page.victim minalloc (h.mman.cmans i) p)

instance (size : Int) : Decidable (ValidSize size) := inferInstanceAs (Decidable (_ ∧ _))

instance (h : Heap) : (c : Call) → Decidable (leftMergeExact h c)
  | .alloc _ _ => inferInstanceAs (Decidable True)
  | .dealloc _ => inferInstanceAs (Decidable (∀ i ∈ pageOf _ _, PrevExact _ _ _))

/-! ## Free runs and free chunks -/

variable {h h' : Heap} {bss : Nat → List Block}

theorem validSize_iff {size : Int} :
    ValidSize size ↔ ∃ n : Nat, size = n ∧ 0 < n ∧ minalloc ∣ n ∧ n ≤ pagesize := by
  constructor
  · rintro ⟨hdvd, hlo, hhi⟩
    have hpos := minalloc_pos
    refine ⟨size.toNat, by omega, by omega, ?_, by omega⟩
    rw [← Int.natCast_dvd_natCast, Int.toNat_of_nonneg (by omega)]
    exact hdvd
  · rintro ⟨n, rfl, hn, hdvd, hle⟩
    have := Nat.le_of_dvd hn hdvd
    exact ⟨Int.natCast_dvd_natCast.mpr hdvd, by omega, by omega⟩

theorem Inv.mem_spans (hinv : Inv h bss) {i : Nat} (hi : h.mman.Mapped i) {s : Nat × Nat} :
    s ∈ h.spans i ↔ s ∈ usedSpans 0 (bss i) := by
  have hgood := hinv.good hi
  simp only [Heap.spans, List.mem_map, List.mem_filter, hinv.live.mem_iff, List.mem_flatMap,
    List.mem_range, decide_eq_true_eq]
  constructor
  · rintro ⟨b, ⟨⟨j, hj, hb⟩, hin⟩, rfl⟩
    obtain rfl : j = i := by
      by_contra hne
      have hapart := hinv.apart i hi.1 j hj (Ne.symm hne) hi.2
      rcases hinv.page j hj with ⟨-, hnil⟩ | hgood'
      · simp [hnil, pageBlocks] at hb
      · have := hgood'.bounds hb
        omega
    obtain ⟨s, hs, rfl⟩ := List.mem_map.mp hb
    simpa using hs
  · intro hs
    have hmem : ((h.mman.cmans i).addr + s.1, s.2) ∈ pageBlocks (h.mman.cmans i).addr (bss i) :=
      List.mem_map.mpr ⟨s, hs, rfl⟩
    have hbounds := hgood.bounds hmem
    exact ⟨_, ⟨⟨i, hi.1, hmem⟩, by simp only at hbounds ⊢; omega⟩, by simp⟩

/-- There is room exactly if a free chunk fits. -/
theorem Inv.hasRoom_iff (hinv : Inv h bss) {n : Nat} (hn : 0 < n) :
    h.HasRoom n ↔ ∃ i < h.mman.sz, ∃ c ∈ bss i, c.used = false ∧ n ≤ c.size := by
  have hcov {i : Nat} (hi : h.mman.Mapped i) (x : Nat) :
      Covered (h.spans i) x ↔ Covered (usedSpans 0 (bss i)) x := by
    simp only [Covered, hinv.mem_spans hi]
  constructor
  · rintro ⟨i, hi, a, hrun⟩
    have hneat := (hinv.good hi).neat
    refine ⟨i, hi.1, ?_⟩
    by_contra hnofit
    refine not_freeRun_of_no_fit hn hneat.tiles.sized hneat.coalesced (fun c hc hfree => ?_) a ?_
    · by_contra hle
      exact hnofit ⟨c, hc, hfree, Nat.not_lt.mp hle⟩
    · rw [hneat.tiles.covers]
      exact ⟨hrun.1, fun x hlo hhi => (hcov hi x).not.mp (hrun.2 x hlo hhi)⟩
  · rintro ⟨i, hi, c, hc, hfree, hfit⟩
    rcases hinv.page i hi with ⟨-, hnil⟩ | hgood
    · simp [hnil] at hc
    · have htop := hgood.top
      have hmapped : h.mman.Mapped i := ⟨hi, by
        have : 0 < pagesize := by decide
        omega⟩
      obtain ⟨pre, post, hbs⟩ := List.append_of_mem hc
      have hext := hgood.neat.tiles.covers
      rw [hbs, extent_append, extent_cons] at hext
      refine ⟨i, hmapped, extent pre, by omega, fun x hlo hhi => ?_⟩
      rw [hcov hmapped, hbs]
      exact not_covered_of_free hfree (by omega) (by omega)

/-! ## One call -/

def Untouched (m : Mman) : Prop := ∀ i, m.sz ≤ i → (m.cmans i).chunkList = none

theorem Untouched.setPage {m : Mman} (h : Untouched m) {i : Nat} (hi : i < m.sz)
    (page : Alloc.Page.Mman) : Untouched (m.setPage i page) := by
  intro j hj
  rw [Mman.setPage_sz] at hj
  rw [Mman.setPage_of_ne _ (by omega)]
  exact h j hj

theorem Untouched.addPage {m : Mman} (h : Untouched m) (page : Alloc.Page.Mman) :
    Untouched (m.addPage page) := by
  intro j hj
  rw [Mman.addPage_sz] at hj
  rw [Mman.addPage_of_ne _ (by omega)]
  exact h j (by omega)

inductive Outcome (h : Heap) (size : Int) (mmap : Option Nat) (m : Mman) (res : Option Nat) :
    Prop
  | served (hvalid : ValidSize size) (hroom : h.HasRoom size.toNat) (hsz : m.sz = h.mman.sz)
      (hres : res ≠ none)
  | mapped (hvalid : ValidSize size) (hroom : ¬h.HasRoom size.toNat) (hmmap : mmap ≠ none)
      (hsz : m.sz = h.mman.sz + 1) (hres : res ≠ none)
  /-- The size is not valid, or there is no page for it. -/
  | wasted (hwhy : ValidSize size → ¬h.HasRoom size.toNat ∧ mmap = none)
      (hsz : m.sz = h.mman.sz + 1) (hres : res = none)

def liveAfter (live : List (Nat × Nat)) (size : Int) : Option Nat → List (Nat × Nat)
  | some p => (p, size.toNat) :: live
  | none => live

theorem Inv.alloc_outcome (hinv : Inv h bss) (huntouched : Untouched h.mman) {size : Int}
    {mmap : Option Nat} (hfree : ∀ addr ∈ mmap, h.mman.Free addr) {m : Mman} {res : Option Nat}
    (hcall : alloc h.mman size mmap = .ok (m, res)) :
    Outcome h size mmap m res ∧
      ∃ bss', Inv ⟨m, liveAfter h.live size res⟩ bss' ∧ Untouched m := by
  -- what happens when all pages refuse
  have hnew (hnone : allocIn h.mman size (List.range h.mman.sz) = .ok (h.mman, none))
      (hroom : ValidSize size → ¬h.HasRoom size.toNat) :
      Outcome h size mmap m res ∧
        ∃ bss', Inv ⟨m, liveAfter h.live size res⟩ bss' ∧ Untouched m := by
    have hsz : h.mman.sz < maxPages := by
      by_contra hfull
      rw [alloc_of_full mmap hfull hnone] at hcall
      cases hcall
    cases mmap with
    | none =>
        obtain ⟨page, hres, hinv'⟩ :=
          hinv.alloc_failed hsz hnone (huntouched h.mman.sz (Nat.le_refl _))
        obtain ⟨rfl, rfl⟩ := Prod.mk.inj (Except.ok.inj (hres.symm.trans hcall))
        exact ⟨.wasted (fun hvalid => ⟨hroom hvalid, rfl⟩) rfl rfl, _, hinv',
          huntouched.addPage page⟩
    | some addr =>
        by_cases hvalid : ValidSize size
        · obtain ⟨n, rfl, hn, hdvd, hle⟩ := validSize_iff.mp hvalid
          obtain ⟨page, hres, hinv', -⟩ :=
            hinv.alloc_mapped hsz hnone (hfree addr rfl) rfl hn hdvd hle
          obtain ⟨rfl, rfl⟩ := Prod.mk.inj (Except.ok.inj (hres.symm.trans hcall))
          exact ⟨.mapped hvalid (hroom hvalid) nofun rfl nofun, _, hinv',
            huntouched.addPage page⟩
        · obtain ⟨page, hres, hinv'⟩ :=
            hinv.alloc_refused hsz hnone (hfree addr rfl) (validSize_iff.not.mp hvalid)
          obtain ⟨rfl, rfl⟩ := Prod.mk.inj (Except.ok.inj (hres.symm.trans hcall))
          exact ⟨.wasted (fun hvalid' => absurd hvalid' hvalid) rfl rfl, _, hinv',
            huntouched.addPage page⟩
  by_cases hvalid : ∃ n : Nat, size = n ∧ 0 < n ∧ minalloc ∣ n
  · obtain ⟨n, rfl, hn, hdvd⟩ := hvalid
    rcases hinv.alloc_cases hn hdvd mmap with ⟨hnofit, hnone⟩ |
      ⟨i, hi, pre, b, post, page, hbs, hgood, hb, hfit, -, hres, htaken, hneat⟩
    · refine hnew hnone fun _ hroom => ?_
      obtain ⟨i, hi, c, hc, hcfree, hle⟩ := (hinv.hasRoom_iff hn).mp hroom
      exact absurd hle (Nat.not_le.mpr (hnofit i hi c hc hcfree))
    · obtain ⟨rfl, rfl⟩ := Prod.mk.inj (Except.ok.inj (hres.symm.trans hcall))
      have hle : n ≤ pagesize := by
        have hext := hgood.neat.tiles.covers
        rw [hbs, extent_append, extent_cons] at hext
        omega
      refine ⟨.served (validSize_iff.mpr ⟨n, rfl, hn, hdvd, hle⟩) ?_ rfl nofun, _,
        hinv.take hi hbs hgood hb hfit htaken hneat, huntouched.setPage hi page⟩
      exact (hinv.hasRoom_iff hn).mpr ⟨i, hi, b, by simp [hbs], hb, hfit⟩
  · refine hnew (hinv.allocIn_invalid hvalid) fun hvalid' => ?_
    obtain ⟨n, rfl, hn, hdvd, -⟩ := validSize_iff.mp hvalid'
    exact absurd ⟨n, rfl, hn, hdvd⟩ hvalid

theorem Inv.dealloc (hinv : Inv h bss) {p : Nat} (hp : p ∈ h.live.map Prod.fst)
    (hexact : leftMergeExact h (.dealloc p)) :
    ∃ i < h.mman.sz, ∃ page bs, dealloc h.mman p = .ok (h.mman.setPage i page) ∧
      Inv ⟨h.mman.setPage i page, h.live.filter fun b => b.1 ≠ p⟩ (Function.update bss i bs) := by
  obtain ⟨i, hi, pre, post, n, hbs, rfl, hgood⟩ := hinv.exists_block hp
  have hext := hgood.neat.tiles.covers
  have hsized := hgood.neat.tiles.sized
  rw [hbs] at hext hsized
  simp only [extent_append, extent_cons] at hext
  simp only [sized_append, sized_cons] at hsized
  have hpos := hsized.2.1.1
  have hpage := hinv.pageOf_eq hi hgood (o := extent pre) (by omega)
  have hneat := hgood.neat
  rw [hbs] at hneat
  have hexact' : PrevExact minalloc (h.mman.cmans i) (extent pre / minalloc) := by
    have := hexact i hpage
    rwa [Alloc.Page.victim, Nat.add_sub_cancel_left] at this
  obtain ⟨page, bs, hcall, haddr, hneat', hfreed⟩ :=
    hneat.dealloc minalloc_pos minalloc_dvd_pagesize hexact'
  refine ⟨i, hi, page, bs, ?_, hinv.release hi hbs hgood hneat' haddr hfreed.usedSpans⟩
  rw [Ealloc.dealloc, hpage]
  exact smallDealloc_of_ok (hi.trans_le hinv.sz_le) hcall

/-! ## Every run whose left merges are exact -/

theorem exists_inv (hreach : heap.ReachableWhere leftMergeExact h) :
    ∃ bss, Inv h bss ∧ Untouched h.mman := by
  induction hreach with
  | @init h hinit =>
      obtain ⟨m, live⟩ := h
      obtain ⟨rfl, rfl⟩ := hinit
      refine ⟨fun _ => [], ⟨Nat.zero_le _, ?_, ?_, ?_⟩, fun _ _ => rfl⟩
      · exact fun i hi => absurd hi (Nat.not_lt_zero i)
      · exact fun i hi => absurd hi (Nat.not_lt_zero i)
      · exact List.Perm.refl _
  | @step h h' c _ hok hnext ih =>
      obtain ⟨bss, hinv, huntouched⟩ := ih
      cases c with
      | alloc size mmap =>
          simp only [heap, Heap.call] at hnext
          split at hnext
          · next hfree =>
              cases hcall : alloc h.mman size mmap with
              | error e => simp [hcall] at hnext
              | ok r =>
                  obtain ⟨m, res⟩ := r
                  obtain ⟨-, bss', hinv', huntouched'⟩ :=
                    hinv.alloc_outcome huntouched hfree hcall
                  rw [hcall] at hnext
                  cases res <;> cases hnext <;> exact ⟨bss', hinv', huntouched'⟩
          · cases hnext
      | dealloc p =>
          simp only [heap, Heap.call] at hnext
          split at hnext
          · next hp =>
              obtain ⟨i, hi, page, bs, hcall, hinv'⟩ := hinv.dealloc hp hok
              rw [hcall] at hnext
              cases hnext
              exact ⟨_, hinv', huntouched.setPage hi page⟩
          · cases hnext

/-- In every state of such a run, `alloc(size)` takes pages on demand if and only if the size is
valid and there is room for it or `mmap` succeeds. -/
theorem pagesOnDemand (hreach : heap.ReachableWhere leftMergeExact h) {size : Int}
    {mmap : Option Nat} (hfree : ∀ addr ∈ mmap, h.mman.Free addr) {m : Mman} {res : Option Nat}
    (hcall : alloc h.mman size mmap = .ok (m, res)) :
    PagesOnDemand h size m res ↔ ValidSize size ∧ (h.HasRoom size.toNat ∨ mmap ≠ none) := by
  obtain ⟨bss, hinv, huntouched⟩ := exists_inv hreach
  obtain ⟨houtcome, -⟩ := hinv.alloc_outcome huntouched hfree hcall
  cases houtcome with
  | served hvalid hroom hsz hres =>
      refine iff_of_true ⟨fun hlt => ?_, fun hnull => absurd hnull hres⟩ ⟨hvalid, .inl hroom⟩
      omega
  | mapped hvalid hroom hmmap hsz hres =>
      exact iff_of_true ⟨fun _ => ⟨hvalid, hroom⟩, fun hnull => absurd hnull hres⟩
        ⟨hvalid, .inr hmmap⟩
  | wasted hwhy hsz hres =>
      refine iff_of_false (fun hgood => ?_) fun hcond => ?_
      · have := (hgood.2 hres).1
        omega
      · obtain ⟨hroom, hmmap⟩ := hwhy hcond.1
        exact hcond.2.elim hroom (absurd hmmap)

def Heap.start : Heap := ⟨initAlloc Mman.zero, []⟩

theorem start_init : heap.init Heap.start := ⟨rfl, rfl⟩

/-- A page is given back and taken again; the next request for a page gets a new one. -/
theorem pagesOnDemand_third :
    ∃ h m res, heap.ReachableWhere leftMergeExact h ∧
      alloc h.mman 4096 (some 262144) = .ok (m, res) ∧ m.sz = 3 ∧ PagesOnDemand h 4096 m res := by
  obtain ⟨h, hreach, htest⟩ := System.exists_reachableWhere_of_run leftMergeExact
    [.alloc 4096 (some 65536), .alloc 1024 (some 131072), .dealloc 65536, .alloc 4096 none]
    (fun h => decide (h.mman.Free 262144) && match alloc h.mman 4096 (some 262144) with
      | .ok (m, _) => m.sz == 3
      | .error _ => false) start_init (by decide +kernel)
  rw [Bool.and_eq_true, decide_eq_true_eq] at htest
  obtain ⟨hfree, hcall⟩ := htest
  split at hcall
  · next m res heq =>
      refine ⟨h, m, res, hreach, heq, by simpa using hcall, ?_⟩
      exact (pagesOnDemand hreach (by simpa using hfree) heq).mpr ⟨by decide, .inr nofun⟩
  · cases hcall

/-- `alloc(100)` on an empty heap returns `NULL` and costs a page. -/
theorem exists_page_wasted :
    ∃ h size mmap m res, heap.Reachable h ∧ (∀ addr ∈ mmap, h.mman.Free addr) ∧
      alloc h.mman size mmap = .ok (m, res) ∧ ¬PagesOnDemand h size m res := by
  refine ⟨Heap.start, 100, some 65536, _, _, .init start_init, by decide, rfl, fun hgood => ?_⟩
  exact absurd (hgood.1 Nat.zero_lt_one).1 (by decide)

end Os20.Ealloc
