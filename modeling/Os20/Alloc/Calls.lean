import Os20.Alloc.Heap
import Os20.Alloc.Links

/-!
# `alloc.c`: one call from any state

What a single `alloc` or `dealloc` does to a page, whatever calls led there.  `alloc` asks only
that the forward list tiles the page.  `dealloc` also asks that `prev` is the inverse of `next`
and that no two free chunks are neighbours, and leaves a page of which the same can be said.
-/

namespace Os20.Alloc

open Os20.Lib.Segments
open Page (Mman Chunk Fault pagesize)

/-- Chunk `k` is on the list and assigned, at offset `o` and of `n` bytes. -/
def LiveChunk (m : Mman) (k o n : Nat) : Prop :=
  k ∈ Page.chunkSlots minalloc m ∧ (m.chunks k).assigned = true ∧
    (m.chunks k).offset = o ∧ (m.chunks k).sz = n

def LiveByte (m : Mman) (x : Nat) : Prop :=
  ∃ k o n, LiveChunk m k o n ∧ o ≤ x ∧ x < o + n

def freeBytes (m : Mman) : Int :=
  (((Page.chunkSlots minalloc m).filter fun k => !(m.chunks k).assigned).map
    fun k => (m.chunks k).sz).sum

def Fits (m : Mman) (size : Int) (k : Nat) : Prop :=
  (m.chunks k).assigned = false ∧ size ≤ (m.chunks k).sz

instance (m : Mman) (size : Int) (k : Nat) : Decidable (Fits m size k) :=
  inferInstanceAs (Decidable (_ ∧ _))

def firstFree (m : Mman) (size : Int) : Option Nat :=
  (Page.chunkSlots minalloc m).find? fun k => Fits m size k

def ValidSize (size : Int) : Prop := 0 < size ∧ (minalloc : Int) ∣ size

/-- The list tiles the page, `prev` leads back along it, and free chunks are coalesced. -/
structure Intact (m : Mman) (bs : List Block) : Prop where
  tiles : Page.Tiles minalloc m bs
  linked : Page.Linked minalloc m.chunks 0 none bs
  coalesced : Coalesced bs

variable {m m' : Mman} {bs pre post : List Block} {b : Block}

/-! ## The list and the blocks it stands for -/

theorem mem_usedSpans_iff {chunks : Nat → Chunk} {o : Nat} {start stop : Option Nat}
    (h : Page.Seg minalloc chunks o start bs stop) (k p n : Nat) :
    (k ∈ Page.slots minalloc o bs ∧ (chunks k).assigned = true ∧ (chunks k).offset = p ∧
      (chunks k).sz = n) ↔ (p, n) ∈ usedSpans o bs ∧ k = p / minalloc := by
  induction bs generalizing o start with
  | nil => simp [Page.slots]
  | cons b bs ih =>
      obtain ⟨-, hb, hrest⟩ := h
      have htail := ih hrest
      rw [Page.slots, List.mem_cons]
      cases hused : b.used with
      | true =>
          rw [usedSpans_cons_used hused, List.mem_cons, or_and_right, or_and_right, htail]
          apply or_congr_left
          constructor
          · rintro ⟨rfl, -, hoff, hsz⟩
            rw [hb.offset] at hoff
            rw [hb.sz] at hsz
            exact ⟨Prod.ext hoff.symm (Int.ofNat.inj hsz).symm, by rw [← hoff]⟩
          · rintro ⟨heq, rfl⟩
            obtain ⟨rfl, rfl⟩ := Prod.mk.inj heq
            exact ⟨rfl, hb.assigned.trans hused, hb.offset, hb.sz⟩
      | false =>
          rw [usedSpans_cons_free hused, or_and_right, htail]
          apply or_iff_right
          rintro ⟨rfl, hassigned, -⟩
          rw [hb.assigned, hused] at hassigned
          cases hassigned

theorem liveChunk_iff (ht : Page.Tiles minalloc m bs) (k o n : Nat) :
    LiveChunk m k o n ↔ (o, n) ∈ usedSpans 0 bs ∧ k = o / minalloc := by
  rw [← mem_usedSpans_iff ht.seg, LiveChunk, ht.chunkSlots_eq minalloc_pos]

theorem liveByte_iff (ht : Page.Tiles minalloc m bs) (x : Nat) :
    LiveByte m x ↔ Covered (usedSpans 0 bs) x := by
  constructor
  · rintro ⟨k, o, n, hlive, hx⟩
    exact ⟨(o, n), ((liveChunk_iff ht k o n).mp hlive).1, hx⟩
  · rintro ⟨s, hs, hx⟩
    exact ⟨s.1 / minalloc, s.1, s.2, (liveChunk_iff ht _ _ _).mpr ⟨hs, rfl⟩, hx⟩

theorem sum_free_add_used {chunks : Nat → Chunk} {o : Nat} {start stop : Option Nat}
    (h : Page.Seg minalloc chunks o start bs stop) :
    (((Page.slots minalloc o bs).filter fun k => !(chunks k).assigned).map
      fun k => (chunks k).sz).sum + (((usedSpans o bs).map Prod.snd).sum : Nat) = extent bs := by
  induction bs generalizing o start with
  | nil => simp [Page.slots]
  | cons b bs ih =>
      obtain ⟨-, hb, hrest⟩ := h
      have htail := ih hrest
      rw [Page.slots, List.filter_cons, hb.assigned, extent_cons]
      cases hused : b.used with
      | true =>
          rw [usedSpans_cons_used hused, List.map_cons, List.sum_cons]
          simp only [Bool.not_true, Bool.false_eq_true, if_false]
          omega
      | false =>
          rw [usedSpans_cons_free hused]
          simp only [Bool.not_false, if_true, List.map_cons, List.sum_cons, hb.sz]
          omega

theorem freeBytes_eq (ht : Page.Tiles minalloc m bs) :
    freeBytes m = pagesize - (((usedSpans 0 bs).map Prod.snd).sum : Nat) := by
  have hsum := sum_free_add_used ht.seg
  rw [ht.covers] at hsum
  rw [freeBytes, ht.chunkSlots_eq minalloc_pos]
  omega

/-! ## `alloc` -/

/-- The walk of `alloc` is a search of the list. -/
theorem firstFit_eq_find {o fuel : Nat} {start : Option Nat} (size : Int)
    (hfuel : bs.length ≤ fuel) (h : Page.Seg minalloc m.chunks o start bs none) :
    Page.firstFit m size fuel start =
      .ok ((Page.walk m fuel start).find? fun k => Fits m size k) := by
  induction bs generalizing o start fuel with
  | nil =>
      obtain rfl : start = none := h
      cases fuel <;> rfl
  | cons b bs ih =>
      obtain ⟨rfl, -, hrest⟩ := h
      cases fuel with
      | zero => simp at hfuel
      | succ fuel =>
          have htail := ih (by simpa using hfuel) hrest
          rw [Page.firstFit, Page.walk, List.find?_cons]
          cases hassigned : (m.chunks (o / minalloc)).assigned with
          | true => simpa [Fits, hassigned] using htail
          | false =>
              by_cases hsz : size ≤ (m.chunks (o / minalloc)).sz
              · simp [Fits, hassigned, hsz, not_lt.mpr hsz]
              · simpa [Fits, hassigned, hsz, not_le.mp hsz] using htail

theorem firstFree_eq (ht : Page.Tiles minalloc m bs) (size : Int) :
    Page.firstFit m size (Page.chunkBufSize minalloc) m.chunkList = .ok (firstFree m size) :=
  firstFit_eq_find size (ht.length_le minalloc_pos) ht.seg

theorem firstFree_eq_none_iff (m : Mman) (size : Int) :
    firstFree m size = none ↔ ∀ k ∈ Page.chunkSlots minalloc m, ¬Fits m size k := by
  simp [firstFree, List.find?_eq_none]

theorem validSize_iff (size : Int) :
    ValidSize size ↔ ∃ n : Nat, size = n ∧ 0 < n ∧ minalloc ∣ n := by
  constructor
  · rintro ⟨hpos, hdvd⟩
    obtain ⟨n, rfl⟩ := Int.eq_ofNat_of_zero_le hpos.le
    exact ⟨n, rfl, Int.natCast_pos.mp hpos, Int.natCast_dvd_natCast.mp hdvd⟩
  · rintro ⟨n, rfl, hpos, hdvd⟩
    exact ⟨Int.natCast_pos.mpr hpos, Int.natCast_dvd_natCast.mpr hdvd⟩

theorem firstFree_cases (ht : Page.Tiles minalloc m bs) (n : Nat) :
    (firstFree m n = none ∧ ∀ c ∈ bs, c.used = false → c.size < n) ∨
      ∃ pre b post, bs = pre ++ b :: post ∧ b.used = false ∧ n ≤ b.size ∧
        (∀ c ∈ pre, c.used = false → c.size < n) ∧
        firstFree m n = some (extent pre / minalloc) := by
  have hsearch := firstFree_eq ht n
  rcases exists_firstFit n bs with hnofit | ⟨pre, b, post, rfl, hb, hfit, hfirst⟩
  · rw [Page.firstFit_eq_none (ht.length_le minalloc_pos) ht.seg hnofit] at hsearch
    exact Or.inl ⟨(Except.ok.inj hsearch).symm, hnofit⟩
  · rw [Page.firstFit_eq_some (ht.length_le minalloc_pos) ht.seg hb hfit hfirst,
      Nat.zero_add] at hsearch
    exact Or.inr ⟨pre, b, post, rfl, hb, hfit, hfirst, (Except.ok.inj hsearch).symm⟩

/-- The used blocks after the free block `b` gave up its first `n` bytes. -/
theorem mem_usedSpans_carve {n : Nat} (hb : b.used = false) (hfit : n ≤ b.size) (s : Nat × Nat) :
    s ∈ usedSpans 0 (pre ++ (carve n b ++ post)) ↔
      s ∈ usedSpans 0 (pre ++ b :: post) ∨ s = (extent pre, n) := by
  rw [usedSpans_append 0 pre, usedSpans_append 0 pre, usedSpans_carve hfit,
    usedSpans_cons_free hb, Nat.zero_add, List.mem_append, List.mem_append, List.mem_cons]
  tauto

theorem covered_carve_iff {n : Nat} (hb : b.used = false) (hfit : n ≤ b.size) (x : Nat) :
    Covered (usedSpans 0 (pre ++ (carve n b ++ post))) x ↔
      Covered (usedSpans 0 (pre ++ b :: post)) x ∨ extent pre ≤ x ∧ x < extent pre + n := by
  constructor
  · rintro ⟨s, hs, hx⟩
    rcases (mem_usedSpans_carve hb hfit s).mp hs with hs | rfl
    · exact Or.inl ⟨s, hs, hx⟩
    · exact Or.inr hx
  · rintro (⟨s, hs, hx⟩ | hx)
    · exact ⟨s, (mem_usedSpans_carve hb hfit s).mpr (Or.inl hs), hx⟩
    · exact ⟨_, (mem_usedSpans_carve hb hfit _).mpr (Or.inr rfl), hx⟩

/-- `alloc` takes the first free chunk that fits, cut to size, and changes no other chunk in
use.  If the size is refused or nothing fits, it changes nothing. -/
theorem alloc_firstFree (ht : Page.Tiles minalloc m bs) (size : Int) :
    ((¬ValidSize size ∨ ∀ k ∈ Page.chunkSlots minalloc m, ¬Fits m size k) →
      alloc m size = .ok (m, none)) ∧
    ∀ k, ValidSize size → firstFree m size = some k →
      ∃ m' bs', alloc m size = .ok (m', some (m.addr + (m.chunks k).offset)) ∧
        m'.addr = m.addr ∧ Page.Tiles minalloc m' bs' ∧
        (∀ x : Nat, (m.chunks k).offset ≤ x → (x : Int) < (m.chunks k).offset + size →
          ¬LiveByte m x) ∧
        (∀ x : Nat, LiveByte m' x ↔ LiveByte m x ∨
          (m.chunks k).offset ≤ x ∧ (x : Int) < (m.chunks k).offset + size) ∧
        ∀ j o n, LiveChunk m' j o n ↔
          LiveChunk m j o n ∨ j = k ∧ o = (m.chunks k).offset ∧ (n : Int) = size := by
  constructor
  · intro hnone
    by_cases hvalid : ValidSize size
    · obtain ⟨n, rfl, hn, hdvd⟩ := (validSize_iff size).mp hvalid
      have hsearch := (firstFree_eq_none_iff m n).mpr (hnone.resolve_left (not_not.mpr hvalid))
      rcases firstFree_cases ht n with ⟨-, hnofit⟩ | ⟨pre, b, post, -, -, -, -, hfound⟩
      · exact Page.alloc_noFit minalloc_pos ht hn hdvd hnofit
      · rw [hsearch] at hfound
        cases hfound
    · rw [validSize_iff] at hvalid
      exact Page.alloc_invalid minalloc_pos hvalid
  · intro k hvalid hsearch
    obtain ⟨n, rfl, hn, hdvd⟩ := (validSize_iff size).mp hvalid
    rcases firstFree_cases ht n with ⟨hnone, -⟩ | ⟨pre, b, post, rfl, hb, hfit, hfirst, hfound⟩
    · rw [hsearch] at hnone
      cases hnone
    · obtain rfl : k = extent pre / minalloc := Option.some.inj (hsearch.symm.trans hfound)
      obtain ⟨-, -, -, hchunk, -⟩ := ht.at
      obtain ⟨m', hcall, htaken⟩ :=
        Page.alloc_fit minalloc_pos minalloc_dvd_pagesize ht hn hdvd hb hfit hfirst
      have ht' := htaken.tiles ht hn hdvd hfit
      rw [hchunk.offset]
      refine ⟨m', _, hcall, htaken.addr, ht', ?_, ?_, ?_⟩
      · intro x hlo hhi
        rw [liveByte_iff ht]
        exact not_covered_of_free hb (by omega) (by omega)
      · intro x
        rw [liveByte_iff ht', liveByte_iff ht, covered_carve_iff hb hfit]
        apply or_congr_right
        omega
      · intro j o n'
        rw [liveChunk_iff ht', liveChunk_iff ht, mem_usedSpans_carve hb hfit, or_and_right,
          Prod.mk.injEq]
        apply or_congr_right
        constructor
        · rintro ⟨⟨rfl, rfl⟩, rfl⟩
          exact ⟨rfl, rfl, rfl⟩
        · rintro ⟨rfl, rfl, hn'⟩
          exact ⟨⟨rfl, Int.ofNat.inj hn'⟩, rfl⟩

def threeChunks : Mman where
  addr := 4096
  chunkList := some 0
  chunks k :=
    if k = 0 then { next := some 64, prev := none, sz := 512, offset := 0 }
    else if k = 64 then
      { next := some 128, prev := some 0, sz := 512, offset := 512, assigned := true }
    else { next := none, prev := some 64, sz := 3072, offset := 1024 }

theorem intact_threeChunks : Intact threeChunks [⟨512, false⟩, ⟨512, true⟩, ⟨3072, false⟩] where
  tiles :=
    { seg := ⟨rfl, ⟨rfl, rfl, rfl⟩, rfl, ⟨rfl, rfl, rfl⟩, rfl, ⟨rfl, rfl, rfl⟩, rfl⟩
      covers := rfl
      sized := by
        unfold Sized
        decide }
  linked := ⟨rfl, rfl, rfl, trivial⟩
  coalesced := by
    unfold Coalesced
    decide

/-- The first chunk fits exactly, and the size 12 is refused. -/
theorem alloc_firstFree_threeChunks :
    alloc threeChunks 12 = .ok (threeChunks, none) ∧
      ∃ m', alloc threeChunks 512 = .ok (m', some 4096) ∧ LiveByte m' 511 ∧ ¬LiveByte m' 1024 := by
  have hcall := alloc_firstFree intact_threeChunks.tiles
  refine ⟨(hcall 12).1 (Or.inl (by unfold ValidSize; decide)), ?_⟩
  obtain ⟨m', -, hok, -, -, -, hbytes, -⟩ := (hcall 512).2 0 (by unfold ValidSize; decide) rfl
  refine ⟨m', hok, (hbytes 511).mpr (Or.inr (by decide)), ?_⟩
  rw [hbytes, liveByte_iff intact_threeChunks.tiles]
  unfold Covered
  decide

/-! ## `dealloc` -/

theorem Intact.neat (h : Intact m bs) : Page.Neat minalloc m bs where
  tiles := h.tiles
  below := h.linked.prevBelow (Nat.dvd_zero _) h.tiles.sized fun _ hj => by cases hj
  coalesced := h.coalesced

theorem mem_usedSpans_remove {n : Nat} (hsized : Sized minalloc (pre ++ ⟨n, true⟩ :: post))
    (s : Nat × Nat) :
    s ∈ usedSpans 0 pre ++ usedSpans (extent pre + n) post ↔
      s ∈ usedSpans 0 (pre ++ ⟨n, true⟩ :: post) ∧ s.1 ≠ extent pre := by
  rw [sized_append, sized_cons] at hsized
  obtain ⟨hpre, ⟨hn, -⟩, hpost⟩ := hsized
  have hbefore : s ∈ usedSpans 0 pre → s.1 ≠ extent pre := by
    intro hs
    have hbounds := usedSpans_bounds hs
    have hpos := usedSpans_pos hpre hs
    omega
  have hbehind : s ∈ usedSpans (extent pre + n) post → s.1 ≠ extent pre := by
    intro hs
    have hbounds := usedSpans_bounds hs
    dsimp only at hn
    omega
  rw [usedSpans_append, usedSpans_cons_used rfl, Nat.zero_add]
  simp only [List.mem_append, List.mem_cons]
  constructor
  · rintro (hs | hs)
    · exact ⟨Or.inl hs, hbefore hs⟩
    · exact ⟨Or.inr (Or.inr hs), hbehind hs⟩
  · rintro ⟨hs | rfl | hs, hne⟩
    · exact Or.inl hs
    · exact absurd rfl hne
    · exact Or.inr hs

/-- `dealloc` of a chunk in use takes away that chunk and nothing else: its bytes are free, and
the page is left as tidy as it was. -/
theorem dealloc_intact (h : Intact m bs) {k : Nat} (hk : k ∈ Page.chunkSlots minalloc m)
    (hassigned : (m.chunks k).assigned = true) :
    ∃ m' bs', dealloc m (m.addr + (m.chunks k).offset) = .ok m' ∧ m'.addr = m.addr ∧
      Intact m' bs' ∧
      (∀ j o n, LiveChunk m' j o n ↔ LiveChunk m j o n ∧ o ≠ (m.chunks k).offset) ∧
      freeBytes m' = freeBytes m + (m.chunks k).sz := by
  have ht := h.tiles
  rw [ht.chunkSlots_eq minalloc_pos] at hk
  obtain ⟨pre, ⟨n, used⟩, post, rfl, rfl⟩ := Page.exists_of_mem_slots hk
  rw [Nat.zero_add] at hassigned ⊢
  obtain ⟨-, -, -, hchunk, -⟩ := ht.at
  obtain rfl : used = true := hchunk.assigned.symm.trans hassigned
  rw [hchunk.offset, hchunk.sz]
  obtain ⟨m', bs', hcall, haddr, hneat, hlinked, hspans⟩ :=
    Page.dealloc_linked minalloc_pos minalloc_dvd_pagesize h.neat h.linked
  refine ⟨m', bs', hcall, haddr, ⟨hneat.tiles, hlinked, hneat.coalesced⟩, ?_, ?_⟩
  · intro j o s
    rw [liveChunk_iff hneat.tiles, liveChunk_iff ht, hspans, mem_usedSpans_remove ht.sized]
    exact and_right_comm
  · rw [freeBytes_eq hneat.tiles, freeBytes_eq ht, hspans, usedSpans_append 0 pre,
      usedSpans_cons_used rfl, Nat.zero_add]
    simp only [List.map_append, List.map_cons, List.sum_append, List.sum_cons]
    omega

/-- The middle chunk is joined with both its neighbours. -/
theorem dealloc_intact_threeChunks :
    (threeChunks.chunks 64).assigned = true ∧
      ∃ m' bs', dealloc threeChunks 4608 = .ok m' ∧ Intact m' bs' ∧ freeBytes m' = 4096 ∧
        ∀ j o n, ¬LiveChunk m' j o n := by
  refine ⟨rfl, ?_⟩
  obtain ⟨m', bs', hcall, -, hintact, hlive, hfree⟩ :=
    dealloc_intact intact_threeChunks (k := 64) (by decide) rfl
  refine ⟨m', bs', hcall, hintact, hfree.trans (by decide), ?_⟩
  intro j o n
  rw [hlive, liveChunk_iff intact_threeChunks.tiles]
  rintro ⟨⟨hmem, -⟩, hne⟩
  obtain ⟨rfl, -⟩ := Prod.mk.inj (List.mem_singleton.mp hmem)
  exact hne rfl

end Os20.Alloc
