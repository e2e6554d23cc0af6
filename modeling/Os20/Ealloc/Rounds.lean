import Os20.Ealloc.Demand
import Os20.Lib.Packing

/-!
# Rounds

A round takes blocks and gives all of them back, in any order.  While blocks are taken, every page
is filled from below, so `alloc` only ever splits the last chunk of a page and the back links
stay exact; `dealloc` keeps them exact.  After a round every page is one free chunk again.
-/

namespace Os20.Ealloc

open Os20.Lib.Segments Os20.Lib.Packing
open Os20.Alloc.Page (pagesize mapFailed Linked Neat)

/-- Where `mmap` puts the pages, in the order of its calls. -/
structure Pages (page : Nat → Nat) : Prop where
  pos : ∀ i < maxPages, 0 < page i
  top : ∀ i < maxPages, page i + pagesize ≤ mapFailed
  apart : ∀ i < maxPages, ∀ j < maxPages, i ≠ j →
    page i + pagesize ≤ page j ∨ page j + pagesize ≤ page i

/-- `alloc` for each of the sizes.  All of them have to succeed. -/
def Heap.allocAll (page : Nat → Nat) (h : Heap) : List Nat → Option (Heap × List Nat)
  | [] => some (h, [])
  | n :: sizes =>
      match alloc h.mman n (some (page h.mman.sz)) with
      | .ok (m, some p) =>
          (Heap.allocAll page ⟨m, (p, n) :: h.live⟩ sizes).map fun (h, ps) => (h, p :: ps)
      | _ => none

/-- `dealloc` of each of the pointers, which have to be live. -/
def Heap.deallocAll (h : Heap) : List Nat → Option Heap
  | [] => some h
  | p :: ps => (h.call (.dealloc p)).bind fun h => Heap.deallocAll h ps

/-- The heap after `init_alloc` and these rounds, each of them given by the sizes it asks for. -/
inductive Rounds (page : Nat → Nat) : List (List Nat) → Heap → Prop
  | start (m : Mman) : Rounds page [] ⟨initAlloc m, []⟩
  | round {rounds : List (List Nat)} {sizes ps order : List Nat} {h h₁ h₂ : Heap}
      (hrounds : Rounds page rounds h) (halloc : h.allocAll page sizes = some (h₁, ps))
      (horder : order.Perm ps) (hdealloc : h₁.deallocAll order = some h₂) :
      Rounds page (rounds ++ [sizes]) h₂

def pagesNeeded (sizes : List Nat) : Nat := (pack pagesize sizes).length

structure Restored (page : Alloc.Page.Mman) : Prop where
  chunkList : page.chunkList = some 0
  next : (page.chunks 0).next = none
  assigned : (page.chunks 0).assigned = false
  offset : (page.chunks 0).offset = 0
  sz : (page.chunks 0).sz = pagesize

def NoOverlap (live : List (Nat × Nat)) : Prop :=
  live.Pairwise fun b c => b.1 + b.2 ≤ c.1 ∨ c.1 + c.2 ≤ b.1

/-! ## The invariant -/

structure Steady (page : Nat → Nat) (h : Heap) (bss : Nat → List Block) : Prop where
  inv : Inv h bss
  linked : ∀ i < h.mman.sz, Linked minalloc (h.mman.cmans i).chunks 0 none (bss i)
  addr : ∀ i < h.mman.sz, (h.mman.cmans i).addr = page i

variable {page : Nat → Nat} {h : Heap} {bss : Nat → List Block}

theorem Pages.ne_mapFailed (hpages : Pages page) {i : Nat} (hi : i < maxPages) :
    page i ≠ mapFailed := by
  have := hpages.top i hi
  have : 0 < pagesize := by decide
  omega

theorem Steady.mapped (hpages : Pages page) (h' : Steady page h bss) {i : Nat}
    (hi : i < h.mman.sz) : h.mman.Mapped i := by
  refine ⟨hi, ?_⟩
  rw [h'.addr i hi]
  exact hpages.ne_mapFailed (hi.trans_le h'.inv.sz_le)

theorem Steady.free (hpages : Pages page) (h' : Steady page h bss) (hsz : h.mman.sz < maxPages) :
    h.mman.Free (page h.mman.sz) := by
  refine ⟨hpages.pos _ hsz, hpages.top _ hsz, fun i hi => ?_⟩
  rw [h'.addr i hi]
  exact hpages.apart _ hsz i (hi.trans hsz) (Nat.ne_of_gt hi)

theorem Steady.noOverlap (hpages : Pages page) (h' : Steady page h bss) : NoOverlap h.live := by
  rw [NoOverlap, h'.inv.live.pairwise_iff fun hbc => hbc.symm, List.pairwise_flatMap]
  constructor
  · intro i hi
    refine List.Pairwise.map _ (fun s t hst => ?_) (usedSpans_pairwise 0 (bss i))
    left
    simp only
    omega
  · refine List.pairwise_lt_range.imp_of_mem fun {i j} hi hj hij b hb c hc => ?_
    have hi' := List.mem_range.mp hi
    have hj' := List.mem_range.mp hj
    have hib := (h'.inv.good (h'.mapped hpages hi')).bounds hb
    have hjc := (h'.inv.good (h'.mapped hpages hj')).bounds hc
    have := h'.inv.apart i hi' j hj' (Nat.ne_of_lt hij) (h'.mapped hpages hi').2
    omega

theorem Steady.setPage (h' : Steady page h bss) {i : Nat} {page' : Alloc.Page.Mman}
    {bs : List Block} {live : List (Nat × Nat)}
    (hinv : Inv ⟨h.mman.setPage i page', live⟩ (Function.update bss i bs))
    (haddr : page'.addr = (h.mman.cmans i).addr)
    (hlinked : Linked minalloc page'.chunks 0 none bs) :
    Steady page ⟨h.mman.setPage i page', live⟩ (Function.update bss i bs) := by
  refine ⟨hinv, fun j hj => ?_, fun j hj => ?_⟩
  · by_cases hji : j = i
    · subst hji
      simpa only [Mman.setPage_self, Function.update_self] using hlinked
    · simpa only [Mman.setPage_of_ne _ hji, Function.update_of_ne hji] using h'.linked j hj
  · by_cases hji : j = i
    · subst hji
      simpa only [Mman.setPage_self, haddr] using h'.addr j hj
    · simpa only [Mman.setPage_of_ne _ hji] using h'.addr j hj

/-! ## Taking blocks -/

/-- The chunks of a page that is in use from below, with `free` bytes left at the end. -/
def Filled (bs : List Block) (free : Nat) : Prop :=
  ∃ used, (∀ b ∈ used, b.used = true) ∧ bs = used ++ if free = 0 then [] else [⟨free, false⟩]

theorem filled_empty : Filled [⟨pagesize, false⟩] pagesize :=
  ⟨[], nofun, by simp [show pagesize ≠ 0 by decide]⟩

namespace Filled

variable {bs pre post : List Block} {b : Block} {free n : Nat}

theorem eq_last (hfilled : Filled (pre ++ b :: post) free) (hb : b.used = false) :
    (∀ c ∈ pre, c.used = true) ∧ b = ⟨free, false⟩ ∧ post = [] := by
  obtain ⟨used, hused, heq⟩ := hfilled
  rcases List.append_eq_append_iff.mp heq with ⟨more, rfl, hrest⟩ | ⟨more, rfl, hrest⟩
  · -- `b` is not among the used chunks
    cases more with
    | nil =>
        split at hrest
        · simp at hrest
        · obtain ⟨rfl, rfl⟩ : b = ⟨free, false⟩ ∧ post = [] := by simpa using hrest
          exact ⟨by simpa using hused, rfl, rfl⟩
    | cons c more =>
        obtain ⟨rfl, -⟩ := List.cons.inj hrest
        have := hused b (by simp)
        rw [hb] at this
        cases this
  · split at hrest
    · simp at hrest
    · cases more with
      | nil =>
          obtain ⟨rfl, rfl⟩ : b = ⟨free, false⟩ ∧ post = [] := by simpa [eq_comm] using hrest
          exact ⟨by simpa using hused, rfl, rfl⟩
      | cons c more => simp at hrest

theorem lt_of_noFit (hfilled : Filled bs free) (hn : 0 < n)
    (hnofit : ∀ c ∈ bs, c.used = false → c.size < n) : free < n := by
  obtain ⟨used, -, rfl⟩ := hfilled
  by_cases hfree : free = 0
  · omega
  · exact hnofit ⟨free, false⟩ (by simp [hfree]) rfl

theorem carve (hpre : ∀ c ∈ pre, c.used = true) (hle : n ≤ free) :
    Filled (pre ++ (carve n ⟨free, false⟩ ++ [])) (free - n) := by
  refine ⟨pre ++ [⟨n, true⟩], fun c hc => ?_, ?_⟩
  · rcases List.mem_append.mp hc with hc | hc
    · exact hpre c hc
    · rw [List.mem_singleton.mp hc]
  · rw [Lib.Segments.carve]
    split
    · next heq => simp [show free - n = 0 by simp only at heq; omega]
    · next hne => simp [show free - n ≠ 0 by simp only at hne; omega]

end Filled

/-- During a round, after the sizes whose packing is `bins`; there were `base` pages before. -/
structure Filling (page : Nat → Nat) (base : Nat) (bins : List Nat) (h : Heap)
    (bss : Nat → List Block) : Prop where
  steady : Steady page h bss
  sz : h.mman.sz = max base bins.length
  filled : ∀ i < h.mman.sz, Filled (bss i) (room pagesize bins i)

/-- `alloc` puts a block where first fit puts it. -/
theorem Filling.alloc (hpages : Pages page) {base n : Nat} {bins : List Nat}
    (h' : Filling page base bins h bss) (hn : 0 < n) (hdvd : minalloc ∣ n) (hle : n ≤ pagesize)
    (hbins : (place pagesize n bins).length ≤ maxPages) :
    ∃ m p bss', alloc h.mman n (some (page h.mman.sz)) = .ok (m, some p) ∧
      Filling page base (place pagesize n bins) ⟨m, (p, n) :: h.live⟩ bss' := by
  obtain ⟨k, hk, hbefore, hroom, hlength, hrooms⟩ := place_spec hle bins
  have hsz := h'.sz
  have hsteady := h'.steady
  rcases hsteady.inv.alloc_cases hn hdvd (some (page h.mman.sz)) with ⟨hnofit, hnone⟩ |
    ⟨i, hi, pre, b, post, page', hbs, hgood, hb, hfit, hfirst, hcall, htaken, hneat⟩
  · -- no page has room, and there is no page in the packing that the heap does not have
    have hge : ¬k < h.mman.sz := fun hlt =>
      absurd hroom (Nat.not_le.mpr ((h'.filled k hlt).lt_of_noFit hn (hnofit k hlt)))
    obtain rfl : k = h.mman.sz := by omega
    have hmax : h.mman.sz < maxPages := by omega
    obtain ⟨page', hcall, hinv, haddr, hlinked⟩ := hsteady.inv.alloc_mapped hmax hnone
      (hsteady.free hpages hmax) rfl hn hdvd hle
    refine ⟨_, _, _, hcall, ⟨hinv, fun i hi => ?_, fun i hi => ?_⟩, ?_, fun i hi => ?_⟩
    · rcases Nat.lt_succ_iff_lt_or_eq.mp hi with hi | rfl
      · have hne := Nat.ne_of_lt hi
        simpa only [Mman.addPage_of_ne _ hne, Function.update_of_ne hne] using hsteady.linked i hi
      · simpa only [Mman.addPage_self, Function.update_self] using hlinked
    · rcases Nat.lt_succ_iff_lt_or_eq.mp hi with hi | rfl
      · simpa only [Mman.addPage_of_ne _ (Nat.ne_of_lt hi)] using hsteady.addr i hi
      · simpa only [Mman.addPage_self] using haddr
    · rw [Mman.addPage_sz, hlength]
      omega
    · rw [hrooms]
      rcases Nat.lt_succ_iff_lt_or_eq.mp hi with hi | rfl
      · have hne := Nat.ne_of_lt hi
        rw [if_neg hne, Function.update_of_ne hne]
        exact h'.filled i hi
      · rw [if_pos rfl, Function.update_self, room_of_ge (by omega)]
        have hcarve : Filled ([] ++ (carve n ⟨pagesize, false⟩ ++ [])) (pagesize - n) :=
          Filled.carve nofun hle
        simpa using hcarve
  · have hfilled := h'.filled i hi
    rw [hbs] at hfilled
    obtain ⟨hpre, rfl, rfl⟩ := hfilled.eq_last hb
    obtain rfl : k = i := by
      rcases Nat.lt_trichotomy k i with hlt | heq | hlt
      · have := (h'.filled k (hlt.trans hi)).lt_of_noFit hn (hfirst k hlt)
        omega
      · exact heq
      · exact absurd hfit (Nat.not_le.mpr (hbefore i hlt))
    have hinv := hsteady.inv.take hi hbs hgood hb hfit htaken hneat
    have htiles := hgood.neat.tiles
    have hlinked := hsteady.linked k hi
    rw [hbs] at htiles hlinked
    have hlinked' : Linked minalloc page'.chunks 0 none
        (pre ++ (carve n ⟨room pagesize bins k, false⟩ ++ [])) := by
      rw [List.append_nil]
      exact htaken.linked htiles hn hdvd hlinked
    refine ⟨_, _, _, hcall, hsteady.setPage hinv htaken.addr hlinked', ?_, fun i hi => ?_⟩
    · rw [Mman.setPage_sz, hlength]
      omega
    · rw [hrooms]
      by_cases hik : i = k
      · subst hik
        rw [if_pos rfl, Function.update_self]
        exact Filled.carve hpre hfit
      · rw [if_neg hik, Function.update_of_ne hik]
        exact h'.filled i hi

def ValidSizes (sizes : List Nat) : Prop := ∀ n ∈ sizes, ValidSize n

theorem Filling.allocAll (hpages : Pages page) {base : Nat} (done : List Nat) {sizes : List Nat}
    (h' : Filling page base (pack pagesize done) h bss) (hsizes : ValidSizes sizes)
    (hneed : pagesNeeded (done ++ sizes) ≤ maxPages) :
    ∃ g ps bss', h.allocAll page sizes = some (g, ps) ∧
      Filling page base (pack pagesize (done ++ sizes)) g bss' ∧
      g.live.map Prod.fst = ps.reverse ++ h.live.map Prod.fst := by
  induction sizes generalizing done h bss with
  | nil => exact ⟨h, [], bss, rfl, by simpa using h', by simp⟩
  | cons n sizes ih =>
      obtain ⟨hvalid, hsizes'⟩ := List.forall_mem_cons.mp hsizes
      obtain ⟨n', hn', hpos, hdvd, hle⟩ := validSize_iff.mp hvalid
      obtain rfl : n = n' := Int.ofNat_inj.mp hn'
      have hle' : ∀ n ∈ sizes, n ≤ pagesize := fun n hn => by
        have := (hsizes' n hn).2.2
        omega
      have hprefix := length_pack_le (done ++ [n]) hle'
      rw [List.append_assoc, List.singleton_append] at hprefix
      obtain ⟨m, p, bss₁, hcall, h₁⟩ := h'.alloc hpages hpos hdvd hle (by
        rw [← pack_concat]
        exact hprefix.trans hneed)
      rw [← pack_concat] at h₁
      obtain ⟨g, ps, bss₂, hrest, h₂, hlive⟩ := ih (done ++ [n]) h₁ hsizes' (by simpa using hneed)
      refine ⟨g, p :: ps, bss₂, ?_, by simpa using h₂, by simp [hlive]⟩
      rw [Heap.allocAll, hcall]
      simp [hrest]

/-! ## Giving blocks back -/

theorem Steady.nodup (hpages : Pages page) (h' : Steady page h bss) :
    (h.live.map Prod.fst).Nodup := by
  have hpos : ∀ b ∈ h.live, 0 < b.2 := by
    intro b hb
    obtain ⟨i, hi, hmem⟩ := List.mem_flatMap.mp (h'.inv.live.mem_iff.mp hb)
    exact ((h'.inv.good (h'.mapped hpages (List.mem_range.mp hi))).bounds hmem).2.2
  refine List.pairwise_map.mpr ((h'.noOverlap hpages).imp_of_mem fun {b c} hb hc hbc => ?_)
  have := hpos b hb
  have := hpos c hc
  omega

theorem Steady.dealloc (h' : Steady page h bss) {p : Nat}
    (hp : p ∈ h.live.map Prod.fst) :
    ∃ g bss', h.call (.dealloc p) = some g ∧ Steady page g bss' ∧
      g.live = (h.live.filter fun b => b.1 ≠ p) ∧ g.mman.sz = h.mman.sz := by
  obtain ⟨i, hi, pre, post, n, hbs, rfl, hgood⟩ := h'.inv.exists_block hp
  have hneat := hgood.neat
  have hlinked := h'.linked i hi
  rw [hbs] at hneat hlinked
  obtain ⟨page', bs, hcall, haddr, hneat', hlinked', hspans⟩ := Alloc.Page.dealloc_linked
    minalloc_pos minalloc_dvd_pagesize hneat hlinked
  have hext := hneat.tiles.covers
  have hsized := hneat.tiles.sized
  simp only [extent_append, extent_cons] at hext
  simp only [sized_append, sized_cons] at hsized
  have hpos := hsized.2.1.1
  have hpage := h'.inv.pageOf_eq hi hgood (o := extent pre) (by omega)
  have hdealloc : Ealloc.dealloc h.mman ((h.mman.cmans i).addr + extent pre) =
      .ok (h.mman.setPage i page') := by
    rw [Ealloc.dealloc, hpage]
    exact smallDealloc_of_ok (hi.trans_le h'.inv.sz_le) hcall
  refine ⟨_, _, ?_, h'.setPage (h'.inv.release hi hbs hgood hneat' haddr hspans) haddr hlinked',
    rfl, rfl⟩
  rw [Heap.call, if_pos hp, hdealloc]

theorem Steady.deallocAll (hpages : Pages page) (h' : Steady page h bss) {ps rest : List Nat}
    (hps : (ps ++ rest).Perm (h.live.map Prod.fst)) :
    ∃ g bss', h.deallocAll ps = some g ∧ Steady page g bss' ∧
      rest.Perm (g.live.map Prod.fst) ∧ g.mman.sz = h.mman.sz := by
  induction ps generalizing h bss with
  | nil => exact ⟨h, bss, rfl, h', hps, rfl⟩
  | cons p ps ih =>
      have hp : p ∈ h.live.map Prod.fst := hps.mem_iff.mp (by simp)
      obtain ⟨g, bss₁, hcall, h₁, hlive, hsz⟩ := h'.dealloc hp
      have hnodup := hps.nodup_iff.mpr (h'.nodup hpages)
      have hps' : (ps ++ rest).Perm (g.live.map Prod.fst) := by
        have hfilter := hps.filter fun q => q ≠ p
        rw [List.cons_append, List.filter_cons_of_neg (by simp), List.filter_eq_self.mpr] at hfilter
        · rw [hlive]
          rw [List.filter_map] at hfilter
          exact hfilter
        · intro q hq
          have := (List.nodup_cons.mp hnodup).1
          simp only [ne_eq, decide_eq_true_eq]
          rintro rfl
          exact this hq
      obtain ⟨g', bss₂, hrest, h₂, hlive₂, hsz₂⟩ := ih h₁ hps'
      refine ⟨g', bss₂, ?_, h₂, hlive₂, hsz₂.trans hsz⟩
      rw [Heap.deallocAll, hcall]
      exact hrest

/-- With nothing live every page is one free chunk. -/
theorem Steady.eq_singleton (hpages : Pages page) (h' : Steady page h bss) (hlive : h.live = [])
    {i : Nat} (hi : i < h.mman.sz) : bss i = [⟨pagesize, false⟩] := by
  have hneat := (h'.inv.good (h'.mapped hpages hi)).neat
  have hnone : pageBlocks (h.mman.cmans i).addr (bss i) = [] := by
    have hperm := h'.inv.live
    rw [hlive] at hperm
    exact List.flatMap_eq_nil_iff.mp hperm.symm.eq_nil i (List.mem_range.mpr hi)
  have hext := hneat.tiles.covers
  have hsingle := eq_singleton_of_free hneat.coalesced (List.map_eq_nil_iff.mp hnone)
    (by rw [hext]; decide)
  rwa [hext] at hsingle

/-! ## Whole rounds -/

theorem Steady.filling (hpages : Pages page) (h' : Steady page h bss) (hlive : h.live = []) :
    Filling page h.mman.sz (pack pagesize []) h bss := by
  refine ⟨h', by simp [pack], fun i hi => ?_⟩
  rw [h'.eq_singleton hpages hlive hi, room_of_ge (by simp [pack])]
  exact filled_empty

def mostNeeded (rounds : List (List Nat)) : Nat := (rounds.map pagesNeeded).foldl max 0

theorem exists_steady (hpages : Pages page) {rounds : List (List Nat)}
    (hrounds : Rounds page rounds h) (hsizes : ∀ sizes ∈ rounds, ValidSizes sizes)
    (hneed : ∀ sizes ∈ rounds, pagesNeeded sizes ≤ maxPages) :
    ∃ bss, Steady page h bss ∧ h.live = [] ∧ h.mman.sz = mostNeeded rounds := by
  induction hrounds with
  | start m =>
      refine ⟨fun _ => [], ⟨⟨Nat.zero_le _, ?_, ?_, List.Perm.refl _⟩, ?_, ?_⟩, rfl, rfl⟩
      all_goals exact fun i hi => absurd hi (Nat.not_lt_zero i)
  | @round rounds sizes ps order h h₁ h₂ _ halloc horder hdealloc ih =>
      have hlast : sizes ∈ rounds ++ [sizes] := by simp
      obtain ⟨bss, hsteady, hlive, hsz⟩ := ih (fun r hr => hsizes r (by simp [hr]))
        fun r hr => hneed r (by simp [hr])
      obtain ⟨g, ps', bss₁, halloc', hfilling, hlive₁⟩ := (hsteady.filling hpages hlive).allocAll
        hpages [] (hsizes _ hlast) (hneed _ hlast)
      obtain ⟨rfl, rfl⟩ := Prod.mk.inj (Option.some.inj (halloc'.symm.trans halloc))
      have hperm : (order ++ []).Perm (g.live.map Prod.fst) := by
        rw [hlive₁, hlive, List.append_nil]
        simpa using horder.trans (List.reverse_perm ps').symm
      obtain ⟨g', bss₂, hdealloc', hsteady', hlive₂, hsz₂⟩ :=
        hfilling.steady.deallocAll hpages hperm
      obtain rfl := Option.some.inj (hdealloc'.symm.trans hdealloc)
      refine ⟨bss₂, hsteady', List.map_eq_nil_iff.mp hlive₂.symm.eq_nil, ?_⟩
      rw [hsz₂, hfilling.sz, hsz, List.nil_append]
      simp [mostNeeded, pagesNeeded]

theorem Steady.restored (hpages : Pages page) (h' : Steady page h bss) (hlive : h.live = [])
    {i : Nat} (hi : i < h.mman.sz) : Restored (h.mman.cmans i) := by
  have hseg := (h'.inv.good (h'.mapped hpages hi)).neat.tiles.seg
  rw [h'.eq_singleton hpages hlive hi] at hseg
  simp only [Alloc.Page.Seg, Nat.zero_div] at hseg
  obtain ⟨hlist, hchunk, hnext⟩ := hseg
  exact ⟨hlist, hnext, hchunk.assigned, hchunk.offset, hchunk.sz⟩

/-- After any rounds every page is restored, and there are as many as the most demanding round
needs.  In a further round every `alloc` and every `dealloc` succeeds, and at no time do live
blocks overlap. -/
theorem roundsRestore (hpages : Pages page) {rounds : List (List Nat)}
    (hrounds : Rounds page rounds h) (hsizes : ∀ sizes ∈ rounds, ValidSizes sizes)
    (hneed : ∀ sizes ∈ rounds, pagesNeeded sizes ≤ maxPages) :
    (∀ i < h.mman.sz, Restored (h.mman.cmans i)) ∧ h.mman.sz = mostNeeded rounds ∧
      ∀ sizes, ValidSizes sizes → pagesNeeded sizes ≤ maxPages →
        (∀ first rest, first ++ rest = sizes →
          ∃ g ps, h.allocAll page first = some (g, ps) ∧ NoOverlap g.live) ∧
        ∃ h₁ ps, h.allocAll page sizes = some (h₁, ps) ∧
          ∀ first rest, (first ++ rest).Perm ps →
            ∃ g, h₁.deallocAll first = some g ∧ NoOverlap g.live := by
  obtain ⟨bss, hsteady, hlive, hsz⟩ := exists_steady hpages hrounds hsizes hneed
  have hfilling := hsteady.filling hpages hlive
  refine ⟨fun i hi => hsteady.restored hpages hlive hi, hsz, fun sizes hvalid hle => ⟨?_, ?_⟩⟩
  · rintro first rest rfl
    have hrest : ∀ n ∈ rest, n ≤ pagesize := fun n hn => by
      have := (hvalid n (by simp [hn])).2.2
      omega
    obtain ⟨g, ps, bss₁, halloc, hfilling₁, -⟩ := hfilling.allocAll hpages []
      (fun n hn => hvalid n (by simp [hn])) ((length_pack_le first hrest).trans hle)
    exact ⟨g, ps, halloc, hfilling₁.steady.noOverlap hpages⟩
  · obtain ⟨h₁, ps, bss₁, halloc, hfilling₁, hlive₁⟩ := hfilling.allocAll hpages [] hvalid hle
    refine ⟨h₁, ps, halloc, fun first rest hperm => ?_⟩
    have hperm₁ : (first ++ rest).Perm (h₁.live.map Prod.fst) := by
      rw [hlive₁, hlive, List.map_nil, List.append_nil]
      exact hperm.trans (List.reverse_perm ps).symm
    obtain ⟨g, bss₂, hdealloc, hsteady₂, -, -⟩ := hfilling₁.steady.deallocAll hpages hperm₁
    exact ⟨g, hdealloc, hsteady₂.noOverlap hpages⟩

/-- A round that needs two pages. -/
theorem roundsRestore_two :
    ∃ page h, Pages page ∧ Rounds page [[4096, 256]] h ∧ h.mman.sz = 2 ∧
      Restored (h.mman.cmans 1) := by
  have hpages : Pages fun i => 65536 * (i + 1) := ⟨by decide, by decide, by decide⟩
  have hvalid : ValidSizes [4096, 256] := by
    intro n hn
    simp only [List.mem_cons, List.not_mem_nil, or_false] at hn
    rcases hn with rfl | rfl <;> decide
  have hneed : pagesNeeded [4096, 256] ≤ maxPages := by decide
  obtain ⟨-, -, hround⟩ := roundsRestore hpages (.start Mman.zero) nofun nofun
  obtain ⟨-, h₁, ps, halloc, hdealloc⟩ := hround [4096, 256] hvalid hneed
  obtain ⟨h, hfreed, -⟩ := hdealloc ps [] (by simp)
  have hrounds := (Rounds.start Mman.zero).round halloc (List.Perm.refl ps) hfreed
  obtain ⟨hrestored, hsz, -⟩ := roundsRestore hpages hrounds (by simpa using hvalid)
    (by simpa using hneed)
  have hsz' : h.mman.sz = 2 := hsz.trans (by decide)
  exact ⟨_, h, hpages, hrounds, hsz', hrestored 1 (by omega)⟩

end Os20.Ealloc
