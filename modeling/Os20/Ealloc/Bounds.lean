import Os20.Ealloc.Heap

/-!
# `ealloc.c`: indices in range

Sessions of calls in any order, `init_alloc` and `cleanup` among them.  These only reset
the number of pages, so a page that is taken again may still have its old list; when
`mmap` fails for it, `alloc` hands out pieces of that list at addresses where there is no
page.

The indices stay in range as long as no request needs a seventeenth page and the left
merges are sound.  `exists_overrun` has a session for either.
-/

namespace Os20.Ealloc

open Os20.Lib.Transition Os20.Lib.Segments
open Os20.Alloc.Page (Fault pagesize mapFailed Tiles PrevBelow PrevSound slots chunkSlots)

structure Session where
  mman : Mman
  /-- the pointers `alloc` has returned that were not given back -/
  live : List Nat
  /-- where `mmap` has put pages; nothing is ever unmapped -/
  mapped : List Nat

inductive Op where
  | initAlloc
  /-- `mmap` is what the system call returns if `alloc` makes it. -/
  | alloc (size : Int) (mmap : Option Nat)
  | dealloc (ptr : Nat)
  | cleanup
  deriving DecidableEq, Repr

def Apart (a b : Nat) : Prop := a + pagesize ≤ b ∨ b + pagesize ≤ a

instance (a b : Nat) : Decidable (Apart a b) := inferInstanceAs (Decidable (_ ∨ _))

/-- Where `mmap` may put a page: at a page boundary, not at zero, and away from all it has
put before. -/
def Session.Fresh (s : Session) (addr : Nat) : Prop :=
  pagesize ∣ addr ∧ 0 < addr ∧ addr + pagesize ≤ mapFailed ∧ ∀ a ∈ s.mapped, Apart addr a

instance (s : Session) (addr : Nat) : Decidable (s.Fresh addr) :=
  inferInstanceAs (Decidable (_ ∧ _))

/-- The calls that can be made: only pointers that are held are given back. -/
def Session.Legal (s : Session) : Op → Prop
  | .alloc _ mmap => ∀ addr ∈ mmap, s.Fresh addr
  | .dealloc p => p ∈ s.live
  | _ => True

instance (s : Session) : (op : Op) → Decidable (s.Legal op)
  | .alloc _ mmap => inferInstanceAs (Decidable (∀ addr ∈ mmap, s.Fresh addr))
  | .dealloc p => inferInstanceAs (Decidable (p ∈ s.live))
  | .initAlloc => inferInstanceAs (Decidable True)
  | .cleanup => inferInstanceAs (Decidable True)

/-- One call.  The sum `addr + offset` of `small_alloc` wraps around. -/
def Session.call (s : Session) : Op → Except Fault Session
  | .initAlloc => .ok { s with mman := initAlloc s.mman }
  | .alloc size mmap => do
      let (m, res) ← alloc s.mman size mmap
      return {
        mman := m
        live := (res.map (· % 2 ^ 64)).toList ++ s.live
        mapped := if m.sz = s.mman.sz then s.mapped else mmap.toList ++ s.mapped }
  | .dealloc p => do
      let m ← dealloc s.mman p
      return { s with mman := m, live := s.live.filter (· ≠ p) }
  | .cleanup => .ok { s with mman := cleanup s.mman }

def Session.start : Session := ⟨Mman.zero, [], []⟩

def sessions : System Session Op where
  init s := s = Session.start
  next s op := if s.Legal op then (s.call op).toOption else none

/-- The size passes the checks of `small_alloc`, and one of the pages has an unassigned
chunk for it. -/
def Mman.HasChunk (m : Mman) (size : Int) : Prop :=
  (size.tmod minalloc = 0 ∧ minalloc ≤ size) ∧ ∃ i ∈ List.range m.sz,
    ∃ k ∈ chunkSlots minalloc (m.cmans i),
      ((m.cmans i).chunks k).assigned = false ∧ size ≤ ((m.cmans i).chunks k).sz

/-- With all pages in use a request is made only for a chunk that is there, and the left
merge of a `dealloc` does not join chunks that are apart. -/
def Session.Within (s : Session) : Op → Prop
  | .alloc size _ => s.mman.sz < maxPages ∨ s.mman.HasChunk size
  | .dealloc p => ∀ i ∈ pageOf s.mman p,
      PrevSound minalloc (s.mman.cmans i) (Alloc.Page.victim minalloc (s.mman.cmans i) p)
  | _ => True

instance (m : Mman) (size : Int) : Decidable (m.HasChunk size) :=
  inferInstanceAs (Decidable ((_ ∧ _) ∧ ∃ i ∈ List.range m.sz, ∃ k ∈ chunkSlots _ _, _ ∧ _))

instance (s : Session) : (op : Op) → Decidable (s.Within op)
  | .alloc _ _ => inferInstanceAs (Decidable (_ ∨ _))
  | .dealloc _ => inferInstanceAs
      (Decidable (∀ i ∈ pageOf _ _, ∀ l ∈ chunkSlots minalloc _, _ → _ → _))
  | .initAlloc => inferInstanceAs (Decidable True)
  | .cleanup => inferInstanceAs (Decidable True)

/-! ## One page -/

/-- A page without chunks, or one that is tiled by them. -/
inductive Intact (page : Alloc.Page.Mman) : List Block → Prop
  | empty (hlist : page.chunkList = none) : Intact page []
  | tiled {bs : List Block} (htiles : Tiles minalloc page bs)
      (hbelow : PrevBelow page (slots minalloc 0 bs)) : Intact page bs

variable {page : Alloc.Page.Mman} {bs : List Block}

theorem Intact.setAddr (h : Intact page bs) (addr : Nat) :
    Intact { page with addr := addr } bs := by
  cases h with
  | empty hlist => exact .empty hlist
  | tiled htiles hbelow => exact .tiled ⟨htiles.seg, htiles.covers, htiles.sized⟩ hbelow

/-- A page that is taken is tiled anew, or keeps its list when `mmap` fails. -/
theorem Intact.initAlloc (h : Intact page bs) (mmap : Option Nat) :
    ∃ page' r bs', Alloc.Page.initAlloc minalloc page mmap = .ok (page', r) ∧
      page'.addr = mmap.getD mapFailed ∧ Intact page' bs' := by
  cases mmap with
  | none => exact ⟨_, _, bs, rfl, rfl, h.setAddr mapFailed⟩
  | some addr =>
      obtain ⟨page', hinit, haddr, hneat, -⟩ :=
        Alloc.Page.initAlloc_neat minalloc_pos minalloc_dvd_pagesize page addr
      exact ⟨page', _, _, hinit, haddr, .tiled hneat.tiles hneat.below⟩

theorem exists_request {size : Int} (hmod : size.tmod minalloc = 0) (hle : minalloc ≤ size) :
    ∃ n : Nat, size = n ∧ 0 < n ∧ minalloc ∣ n := by
  have hpos := minalloc_pos
  refine ⟨size.toNat, by omega, by omega, ?_⟩
  rw [← Int.natCast_dvd_natCast, Int.toNat_of_nonneg (by omega)]
  exact Int.dvd_of_tmod_eq_zero hmod

theorem sz_lt_of_noFit (htiles : Tiles minalloc page bs) {n k : Nat}
    (hnofit : ∀ c ∈ bs, c.used = false → c.size < n) (hk : k ∈ chunkSlots minalloc page)
    (hfree : (page.chunks k).assigned = false) : (page.chunks k).sz < n := by
  rw [htiles.chunkSlots_eq minalloc_pos] at hk
  obtain ⟨pre, b, post, rfl, rfl⟩ := Alloc.Page.exists_of_mem_slots hk
  obtain ⟨-, -, hrest⟩ := htiles.at
  have hchunk := hrest.2.1
  rw [Nat.zero_add] at hfree ⊢
  rw [hchunk.assigned] at hfree
  rw [hchunk.sz]
  exact_mod_cast hnofit b (by simp) hfree

/-- What a page does with a request: it has no chunk for it and stays as it is, or it
hands out a block and keeps those it has handed out before. -/
theorem Intact.alloc (h : Intact page bs) (size : Int) :
    (Refuses page size ∧ (size.tmod minalloc = 0 → minalloc ≤ size →
        ∀ k ∈ chunkSlots minalloc page, (page.chunks k).assigned = false →
          (page.chunks k).sz < size)) ∨
      ∃ page' o n bs', Alloc.Page.alloc minalloc page size = .ok (page', some (page.addr + o)) ∧
        page'.addr = page.addr ∧ Intact page' bs' ∧ (o, n) ∈ usedSpans 0 bs' ∧
        ∀ s ∈ usedSpans 0 bs, s ∈ usedSpans 0 bs' := by
  by_cases hvalid : ∃ n : Nat, size = n ∧ 0 < n ∧ minalloc ∣ n
  · obtain ⟨n, rfl, hn, hdvd⟩ := hvalid
    cases h with
    | empty hlist =>
        refine .inl ⟨refuses_of_empty hlist n, fun _ _ k hk => ?_⟩
        have hnil : chunkSlots minalloc page = [] := by
          rw [chunkSlots, hlist]
          rfl
        simp [hnil] at hk
    | tiled htiles hbelow =>
        rcases exists_firstFit n bs with hnofit | ⟨pre, b, post, rfl, hb, hfit, hfirst⟩
        · exact .inl ⟨Alloc.Page.alloc_noFit minalloc_pos htiles hn hdvd hnofit,
            fun _ _ k hk hfree => sz_lt_of_noFit htiles hnofit hk hfree⟩
        · obtain ⟨page', hcall, htaken⟩ := Alloc.Page.alloc_fit minalloc_pos
            minalloc_dvd_pagesize htiles hn hdvd hb hfit hfirst
          refine .inr ⟨page', extent pre, n, _, hcall, htaken.addr,
            .tiled (htaken.tiles htiles hn hdvd hfit) (htaken.prevBelow hfit hbelow), ?_, ?_⟩
          · rw [usedSpans_append, usedSpans_carve hfit]
            simp
          · intro s hs
            rw [usedSpans_append, usedSpans_cons_free hb] at hs
            rw [usedSpans_append, usedSpans_carve hfit]
            rcases List.mem_append.1 hs with hs | hs
            · exact List.mem_append_left _ hs
            · exact List.mem_append_right _ (List.mem_cons_of_mem _ hs)
  · exact .inl ⟨Alloc.Page.alloc_invalid minalloc_pos hvalid,
      fun hmod hle => absurd (exists_request hmod hle) hvalid⟩

theorem Intact.span_lt (h : Intact page bs) {o n : Nat} (hspan : (o, n) ∈ usedSpans 0 bs) :
    o < pagesize := by
  cases h with
  | empty => simp at hspan
  | tiled htiles =>
      have htop := (usedSpans_bounds hspan).2
      have hpos := usedSpans_pos htiles.sized hspan
      rw [htiles.covers] at htop
      simp only at htop hpos
      omega

theorem Intact.dealloc (h : Intact page bs) {o n : Nat} (hspan : (o, n) ∈ usedSpans 0 bs)
    (hsound : PrevSound minalloc page (o / minalloc)) :
    ∃ page' bs', Alloc.Page.dealloc minalloc page (page.addr + o) = .ok page' ∧
      page'.addr = page.addr ∧ Intact page' bs' ∧
      ∀ s ∈ usedSpans 0 bs, s.1 ≠ o → s ∈ usedSpans 0 bs' := by
  cases h with
  | empty => simp at hspan
  | tiled htiles hbelow =>
      obtain ⟨pre, post, rfl, ho⟩ := exists_block_of_mem_usedSpans hspan
      obtain rfl : o = extent pre := by simpa using ho
      obtain ⟨page', bs', hcall, haddr, htiles', hbelow', hfreed⟩ :=
        Alloc.Page.dealloc_tiles minalloc_pos minalloc_dvd_pagesize htiles hbelow hsound
      refine ⟨page', bs', hcall, haddr, .tiled htiles' hbelow', ?_⟩
      intro s hs hne
      rw [hfreed.usedSpans]
      rw [usedSpans_append, usedSpans_cons_used rfl, Nat.zero_add] at hs
      rcases List.mem_append.1 hs with hs | hs
      · exact List.mem_append_left _ hs
      · rcases List.mem_cons.1 hs with rfl | hs
        · exact absurd rfl hne
        · exact List.mem_append_right _ hs

/-! ## The invariant of a session -/

/-- `dealloc` takes `p` for a pointer into the page at `addr`. -/
def InPage (addr p : Nat) : Prop := addr ≤ p ∧ p < (addr + pagesize) % 2 ^ 64

/-- A pointer into a page that was mapped once, or one that was computed from
`MAP_FAILED`. -/
def Known (s : Session) (p : Nat) : Prop :=
  p < pagesize ∨ mapFailed ≤ p ∨ ∃ a ∈ s.mapped, a ≤ p ∧ p < a + pagesize

/-- `bss` are the tilings of the pages, those behind `sz` included. -/
structure Session.Inv (s : Session) (bss : Nat → List Block) : Prop where
  sz_le : s.mman.sz ≤ maxPages
  page : ∀ i, Intact (s.mman.cmans i) (bss i)
  room : ∀ a ∈ s.mapped, pagesize ≤ a ∧ a + pagesize ≤ mapFailed
  addr : ∀ i < s.mman.sz, (s.mman.cmans i).addr = mapFailed ∨ (s.mman.cmans i).addr ∈ s.mapped
  apart : ∀ i < s.mman.sz, ∀ j < s.mman.sz, i ≠ j → (s.mman.cmans i).addr ≠ mapFailed →
    (s.mman.cmans j).addr ≠ mapFailed → Apart (s.mman.cmans i).addr (s.mman.cmans j).addr
  known : ∀ p ∈ s.live, Known s p
  held : ∀ p ∈ s.live, ∀ i < s.mman.sz, InPage (s.mman.cmans i).addr p →
    ∃ o n, (o, n) ∈ usedSpans 0 (bss i) ∧ p = (s.mman.cmans i).addr + o

theorem not_inPage_mapFailed (p : Nat) : ¬InPage mapFailed p := by
  rintro ⟨hlo, hhi⟩
  have hwrap : (mapFailed + pagesize) % 2 ^ 64 = pagesize - 1 := by decide
  have hlt : pagesize - 1 < mapFailed := by decide
  omega

theorem inPage_iff {addr p : Nat} (htop : addr + pagesize ≤ mapFailed) :
    InPage addr p ↔ addr ≤ p ∧ p < addr + pagesize := by
  rw [InPage, Nat.mod_eq_of_lt (Nat.lt_of_le_of_lt htop (by decide))]

namespace Session.Inv

variable {s : Session} {bss : Nat → List Block} {i j p : Nat}

theorem mem_mapped (hinv : s.Inv bss) (hi : i < s.mman.sz)
    (hin : InPage (s.mman.cmans i).addr p) : (s.mman.cmans i).addr ∈ s.mapped := by
  rcases hinv.addr i hi with hfailed | hmem
  · rw [hfailed] at hin
    exact absurd hin (not_inPage_mapFailed p)
  · exact hmem

theorem inPage_bounds (hinv : s.Inv bss) (hi : i < s.mman.sz)
    (hin : InPage (s.mman.cmans i).addr p) :
    pagesize ≤ (s.mman.cmans i).addr ∧ (s.mman.cmans i).addr ≤ p ∧
      p < (s.mman.cmans i).addr + pagesize ∧ (s.mman.cmans i).addr + pagesize ≤ mapFailed := by
  have hroom := hinv.room _ (hinv.mem_mapped hi hin)
  rw [inPage_iff hroom.2] at hin
  exact ⟨hroom.1, hin.1, hin.2, hroom.2⟩

theorem inPage_unique (hinv : s.Inv bss) (hi : i < s.mman.sz) (hj : j < s.mman.sz)
    (hin : InPage (s.mman.cmans i).addr p) (hin' : InPage (s.mman.cmans j).addr p) : i = j := by
  by_contra hne
  have hi' := hinv.inPage_bounds hi hin
  have hj' := hinv.inPage_bounds hj hin'
  have hpos : 0 < pagesize := by decide
  have hapart := hinv.apart i hi j hj hne (by omega) (by omega)
  unfold Apart at hapart
  omega

theorem reset (hinv : s.Inv bss) (m : Mman) (hcmans : m.cmans = s.mman.cmans) (hsz : m.sz = 0) :
    Session.Inv { s with mman := m } bss where
  sz_le := by simp [hsz]
  page i := by simpa [hcmans] using hinv.page i
  room := hinv.room
  addr i hi := by simp [hsz] at hi
  apart i hi := by simp [hsz] at hi
  known := hinv.known
  held p _ i hi := by simp [hsz] at hi

/-- Page `i` changes at its old address; the pointers that stay with the session point to
blocks that stay with the page. -/
theorem setPage (hinv : s.Inv bss) {page : Alloc.Page.Mman} {bs : List Block}
    (hintact : Intact page bs) (haddr : page.addr = (s.mman.cmans i).addr) {live : List Nat}
    (hknown : ∀ p ∈ live, Known s p)
    (hheld : ∀ p ∈ live, ∀ j < s.mman.sz, InPage (s.mman.cmans j).addr p →
      ∃ o n, (o, n) ∈ usedSpans 0 (Function.update bss i bs j) ∧
        p = (s.mman.cmans j).addr + o) :
    Session.Inv { s with mman := s.mman.setPage i page, live := live }
      (Function.update bss i bs) := by
  have haddrs (j : Nat) : ((s.mman.setPage i page).cmans j).addr = (s.mman.cmans j).addr := by
    by_cases hj : j = i
    · rw [hj, Mman.setPage_self, haddr]
    · rw [Mman.setPage_of_ne _ hj]
  refine ⟨hinv.sz_le, fun j => ?_, hinv.room, fun j hj => ?_, fun j hj k hk hne => ?_, hknown,
    fun p hp j hj => ?_⟩
  · by_cases hji : j = i
    · subst hji
      rw [Mman.setPage_self, Function.update_self]
      exact hintact
    · rw [Mman.setPage_of_ne _ hji, Function.update_of_ne hji]
      exact hinv.page j
  · simpa only [haddrs] using hinv.addr j hj
  · simpa only [haddrs] using hinv.apart j hj k hk hne
  · simpa only [haddrs] using hheld p hp j hj

theorem take (hinv : s.Inv bss) (hi : i < s.mman.sz) {page : Alloc.Page.Mman} {bs : List Block}
    {o n : Nat} (hintact : Intact page bs) (haddr : page.addr = (s.mman.cmans i).addr)
    (hspan : (o, n) ∈ usedSpans 0 bs) (hkept : ∀ t ∈ usedSpans 0 (bss i), t ∈ usedSpans 0 bs) :
    Session.Inv { s with
        mman := s.mman.setPage i page
        live := ((s.mman.cmans i).addr + o) % 2 ^ 64 :: s.live }
      (Function.update bss i bs) := by
  have ho := hintact.span_lt hspan
  have hpage : pagesize < mapFailed := by decide
  have hmax : mapFailed + 1 = 2 ^ 64 := by decide
  -- where the new pointer is
  have hnew : (s.mman.cmans i).addr = mapFailed ∧
        (((s.mman.cmans i).addr + o) % 2 ^ 64 < pagesize ∨
          mapFailed ≤ ((s.mman.cmans i).addr + o) % 2 ^ 64) ∨
      (s.mman.cmans i).addr ∈ s.mapped ∧
        ((s.mman.cmans i).addr + o) % 2 ^ 64 = (s.mman.cmans i).addr + o ∧
        (s.mman.cmans i).addr + pagesize ≤ mapFailed := by
    rcases hinv.addr i hi with hfailed | hmem
    · refine .inl ⟨hfailed, ?_⟩
      rw [hfailed]
      omega
    · have hroom := hinv.room _ hmem
      exact .inr ⟨hmem, Nat.mod_eq_of_lt (by omega), hroom.2⟩
  refine hinv.setPage hintact haddr ?_ ?_
  · intro p hp
    rcases List.mem_cons.1 hp with rfl | hp
    · rcases hnew with ⟨-, hlow | hhigh⟩ | ⟨hmem, hptr, -⟩
      · exact .inl hlow
      · exact .inr (.inl hhigh)
      · rw [hptr]
        exact .inr (.inr ⟨_, hmem, Nat.le_add_right _ _, by omega⟩)
    · exact hinv.known p hp
  · intro p hp j hj hin
    rcases List.mem_cons.1 hp with rfl | hp
    · have hbounds := hinv.inPage_bounds hj hin
      rcases hnew with ⟨-, hout⟩ | ⟨hmem, hptr, htop⟩
      · omega
      · rw [hptr] at hin ⊢
        have hself : InPage (s.mman.cmans i).addr ((s.mman.cmans i).addr + o) :=
          (inPage_iff htop).2 ⟨Nat.le_add_right _ _, by omega⟩
        obtain rfl := hinv.inPage_unique hi hj hself hin
        exact ⟨o, n, by rwa [Function.update_self], rfl⟩
    · obtain ⟨o', n', hspan', hptr⟩ := hinv.held p hp j hj hin
      refine ⟨o', n', ?_, hptr⟩
      by_cases hji : j = i
      · subst hji
        rw [Function.update_self]
        exact hkept _ hspan'
      · rwa [Function.update_of_ne hji]

theorem grow (hinv : s.Inv bss) (hsz : s.mman.sz < maxPages) {page : Alloc.Page.Mman}
    {bs : List Block} {mmap : Option Nat} (hintact : Intact page bs)
    (haddr : page.addr = mmap.getD mapFailed) (hfresh : ∀ addr ∈ mmap, s.Fresh addr) :
    Session.Inv ⟨s.mman.addPage page, s.live, mmap.toList ++ s.mapped⟩
      (Function.update bss s.mman.sz bs) := by
  have hold {j : Nat} (hj : j < s.mman.sz) :
      (s.mman.addPage page).cmans j = s.mman.cmans j :=
    Mman.addPage_of_ne _ (Nat.ne_of_lt hj) page
  -- the new page is not there, or it is away from all the others
  have hnew : page.addr = mapFailed ∨ page.addr ∈ mmap ∧ s.Fresh page.addr := by
    cases mmap with
    | none => exact .inl haddr
    | some addr =>
        obtain rfl : page.addr = addr := haddr
        exact .inr ⟨rfl, hfresh _ rfl⟩
  have hold_apart {j : Nat} (hj : j < s.mman.sz) (hmapped : (s.mman.cmans j).addr ≠ mapFailed)
      (hpage : page.addr ≠ mapFailed) : Apart page.addr (s.mman.cmans j).addr := by
    obtain ⟨-, hfree⟩ := hnew.resolve_left hpage
    exact hfree.2.2.2 _ ((hinv.addr j hj).resolve_left hmapped)
  refine ⟨hsz, fun j => ?_, ?_, fun j hj => ?_, fun j hj k hk hne => ?_, ?_, ?_⟩
  · by_cases hj : j = s.mman.sz
    · subst hj
      simpa only [Mman.addPage_self, Function.update_self] using hintact
    · simpa only [Mman.addPage_of_ne _ hj, Function.update_of_ne hj] using hinv.page j
  · intro a ha
    rcases List.mem_append.1 ha with ha | ha
    · obtain ⟨hdvd, hpos, htop, -⟩ := hfresh a (Option.mem_toList.1 ha)
      exact ⟨Nat.le_of_dvd hpos hdvd, htop⟩
    · exact hinv.room a ha
  · rcases Nat.lt_succ_iff_lt_or_eq.mp hj with hj | rfl
    · simp only [hold hj]
      exact (hinv.addr j hj).imp_right (List.mem_append_right _)
    · simp only [Mman.addPage_self]
      exact hnew.imp_right fun h => List.mem_append_left _ (Option.mem_toList.2 h.1)
  · rcases Nat.lt_succ_iff_lt_or_eq.mp hj with hj | rfl
    · rcases Nat.lt_succ_iff_lt_or_eq.mp hk with hk | rfl
      · simpa only [hold hj, hold hk] using hinv.apart j hj k hk hne
      · simp only [hold hj, Mman.addPage_self]
        exact fun hmapped hpage => (hold_apart hj hmapped hpage).symm
    · rcases Nat.lt_succ_iff_lt_or_eq.mp hk with hk | rfl
      · simp only [hold hk, Mman.addPage_self]
        exact fun hpage hmapped => hold_apart hk hmapped hpage
      · exact absurd rfl hne
  · intro p hp
    rcases hinv.known p hp with hlow | hhigh | ⟨a, ha, hin⟩
    · exact .inl hlow
    · exact .inr (.inl hhigh)
    · exact .inr (.inr ⟨a, List.mem_append_right _ ha, hin⟩)
  · intro p hp j hj hin
    rcases Nat.lt_succ_iff_lt_or_eq.mp hj with hj | rfl
    · simp only [hold hj] at hin ⊢
      rw [Function.update_of_ne (Nat.ne_of_lt hj)]
      exact hinv.held p hp j hj hin
    · -- no pointer that is held points into the new page
      simp only [Mman.addPage_self] at hin
      rcases hnew with hfailed | ⟨-, hdvd, hpos, htop, hfree⟩
      · rw [hfailed] at hin
        exact absurd hin (not_inPage_mapFailed p)
      · rw [inPage_iff htop] at hin
        have hle := Nat.le_of_dvd hpos hdvd
        rcases hinv.known p hp with hlow | hhigh | ⟨a, ha, hlo, hhi⟩
        · omega
        · omega
        · have hapart := hfree a ha
          unfold Apart at hapart
          omega

theorem forget (hinv : s.Inv bss) {live : List Nat} (hsub : ∀ p ∈ live, p ∈ s.live) :
    Session.Inv { s with live := live } bss where
  sz_le := hinv.sz_le
  page := hinv.page
  room := hinv.room
  addr := hinv.addr
  apart := hinv.apart
  known p hp := hinv.known p (hsub p hp)
  held p hp := hinv.held p (hsub p hp)

/-! ## One call -/

theorem alloc (hinv : s.Inv bss) {size : Int} {mmap : Option Nat}
    (hlegal : s.Legal (.alloc size mmap)) (hwithin : s.Within (.alloc size mmap)) :
    ∃ s' bss', s.call (.alloc size mmap) = .ok s' ∧ s'.Inv bss' := by
  have hoffer (i : Nat) := (hinv.page i).alloc size
  have hlt : ∀ i ∈ List.range s.mman.sz, i < maxPages :=
    fun i hi => (List.mem_range.mp hi).trans_le hinv.sz_le
  have hpage : ∀ i ∈ List.range s.mman.sz, Refuses (s.mman.cmans i) size ∨
      ∃ page p, Alloc.Page.alloc minalloc (s.mman.cmans i) size = .ok (page, some p) := by
    intro i _
    rcases hoffer i with ⟨hrefuses, -⟩ | ⟨page, o, n, bs, hcall, -⟩
    · exact .inl hrefuses
    · exact .inr ⟨page, _, hcall⟩
  rcases allocIn_cases (List.range s.mman.sz) hlt hpage with ⟨hall, hnone⟩ |
    ⟨before, i, after, page, p, hrange, -, hcall, hres⟩
  · by_cases hsz : s.mman.sz < maxPages
    · -- a page more
      obtain ⟨page, r, bs, hinit, haddr, hintact⟩ := (hinv.page s.mman.sz).initAlloc mmap
      have hgrown := hinv.grow hsz hintact haddr hlegal
      have hmapped (page' : Alloc.Page.Mman) : (s.mman.addPage page').sz ≠ s.mman.sz := by simp
      rcases hintact.alloc size with ⟨hrefuses, -⟩ |
        ⟨page', o, n, bs', hcall, haddr', hintact', hspan, hkept⟩
      · refine ⟨_, _, ?_, hgrown⟩
        simp only [Session.call, alloc_of_new hsz hnone hinit hrefuses, bind, Except.bind, pure,
          Except.pure, if_neg (hmapped page)]
        rfl
      · have htaken := hgrown.take (i := s.mman.sz) (Nat.lt_succ_self _) hintact'
          (by simpa using haddr') hspan (by simpa using hkept)
        refine ⟨_, _, ?_, htaken⟩
        simp only [Session.call, alloc_of_new hsz hnone hinit hcall, bind, Except.bind, pure,
          Except.pure, if_neg (hmapped page'), Mman.addPage_self, Mman.addPage_setPage]
        rfl
    · -- all pages are in use, and one of them has a chunk
      obtain ⟨⟨hmod, hle⟩, i, hi, k, hk, hfree, hfit⟩ := hwithin.resolve_left hsz
      rcases hoffer i with ⟨-, hsmall⟩ | ⟨page, o, n, bs, hcall, -⟩
      · have := hsmall hmod hle k hk hfree
        omega
      · have hrefuses := hall i hi
        rw [Refuses, hcall] at hrefuses
        cases hrefuses
  · have hi : i < s.mman.sz := by
      rw [← List.mem_range, hrange]
      simp
    rcases hoffer i with ⟨hrefuses, -⟩ | ⟨page', o, n, bs, hcall', haddr, hintact, hspan, hkept⟩
    · rw [Refuses, hcall] at hrefuses
      cases hrefuses
    · rw [hcall] at hcall'
      obtain ⟨rfl, hp⟩ := Prod.mk.inj (Except.ok.inj hcall')
      obtain rfl := Option.some.inj hp
      refine ⟨_, _, ?_, hinv.take hi hintact haddr hspan hkept⟩
      simp only [Session.call, alloc_of_page mmap hres, bind, Except.bind, pure, Except.pure,
        Mman.setPage_sz, if_true]
      rfl

theorem inPage_of_pageOf (hpage : pageOf s.mman p = some i) :
    i < s.mman.sz ∧ InPage (s.mman.cmans i).addr p := by
  have hfound := List.find?_some hpage
  exact ⟨List.mem_range.mp (List.mem_of_find?_eq_some hpage), by simpa [InPage] using hfound⟩

theorem dealloc (hinv : s.Inv bss) (hlegal : s.Legal (.dealloc p))
    (hwithin : s.Within (.dealloc p)) :
    ∃ s' bss', s.call (.dealloc p) = .ok s' ∧ s'.Inv bss' := by
  have hsub : ∀ q ∈ s.live.filter (· ≠ p), q ∈ s.live ∧ q ≠ p := by
    intro q hq
    simpa using List.mem_filter.1 hq
  cases hfind : pageOf s.mman p with
  | none =>
      refine ⟨_, bss, ?_, hinv.forget fun q hq => (hsub q hq).1⟩
      simp only [Session.call, Ealloc.dealloc, hfind]
      rfl
  | some i =>
      obtain ⟨hi, hin⟩ := inPage_of_pageOf hfind
      obtain ⟨o, n, hspan, hptr⟩ := hinv.held p hlegal i hi hin
      have hsound := hwithin i hfind
      have hvictim : Alloc.Page.victim minalloc (s.mman.cmans i) p = o / minalloc := by
        simp [Alloc.Page.victim, hptr]
      rw [hvictim] at hsound
      obtain ⟨page, bs, hcall, haddr, hintact, hkept⟩ := (hinv.page i).dealloc hspan hsound
      rw [← hptr] at hcall
      refine ⟨_, _, ?_, hinv.setPage hintact haddr
        (fun q hq => hinv.known q (hsub q hq).1) fun q hq j hj hinq => ?_⟩
      · simp only [Session.call, Ealloc.dealloc, hfind,
          smallDealloc_of_ok (hi.trans_le hinv.sz_le) hcall]
        rfl
      · obtain ⟨o', n', hspan', hptr'⟩ := hinv.held q (hsub q hq).1 j hj hinq
        refine ⟨o', n', ?_, hptr'⟩
        by_cases hji : j = i
        · subst hji
          rw [Function.update_self]
          refine hkept _ hspan' fun heq => (hsub q hq).2 ?_
          rw [hptr', hptr, ← heq]
        · rwa [Function.update_of_ne hji]

/-- A call that keeps within the pages returns. -/
theorem call (hinv : s.Inv bss) {op : Op} (hlegal : s.Legal op) (hwithin : s.Within op) :
    ∃ s' bss', s.call op = .ok s' ∧ s'.Inv bss' := by
  cases op with
  | initAlloc => exact ⟨_, _, rfl, hinv.reset _ rfl rfl⟩
  | alloc size mmap => exact hinv.alloc hlegal hwithin
  | dealloc p => exact hinv.dealloc hlegal hwithin
  | cleanup => exact ⟨_, _, rfl, hinv.reset _ rfl rfl⟩

end Session.Inv

/-! ## Every session -/

theorem inv_start : Session.start.Inv fun _ => [] where
  sz_le := Nat.zero_le _
  page _ := .empty rfl
  room := by simp [Session.start]
  addr i hi := absurd hi (Nat.not_lt_zero i)
  apart i hi := absurd hi (Nat.not_lt_zero i)
  known := by simp [Session.start]
  held := by simp [Session.start]

theorem sessions_start : sessions.init Session.start := rfl

theorem exists_session_inv {s : Session} (hreach : sessions.ReachableWhere Session.Within s) :
    ∃ bss, s.Inv bss := by
  induction hreach with
  | init hinit =>
      obtain rfl : _ = _ := hinit
      exact ⟨_, inv_start⟩
  | step op _ hwithin hnext ih =>
      obtain ⟨bss, hinv⟩ := ih
      simp only [sessions] at hnext
      split at hnext
      · next hlegal =>
          obtain ⟨s', bss', hcall, hinv'⟩ := hinv.call hlegal hwithin
          rw [hcall] at hnext
          obtain rfl := Option.some.inj hnext
          exact ⟨bss', hinv'⟩
      · cases hnext

/-- In a session that keeps within its pages and whose left merges are sound there are
never more than 16 pages, and no further such call has an index out of range, or any
other fault. -/
theorem indices_in_range {s : Session} (hreach : sessions.ReachableWhere Session.Within s) :
    s.mman.sz ≤ maxPages ∧
      ∀ op, s.Legal op → s.Within op → ∃ s', s.call op = .ok s' := by
  obtain ⟨bss, hinv⟩ := exists_session_inv hreach
  refine ⟨hinv.sz_le, fun op hlegal hwithin => ?_⟩
  obtain ⟨s', -, hcall, -⟩ := hinv.call hlegal hwithin
  exact ⟨s', hcall⟩

/-- A page is filled and the session started over; the old list serves a request although
`mmap` fails, and the pointer of before is given back. -/
theorem indices_in_range_restart :
    ∃ s, sessions.ReachableWhere Session.Within s ∧ s.live = [511, 65536] ∧
      (∃ s', s.call (.dealloc 65536) = .ok s') := by
  obtain ⟨s, hreach, hlive⟩ := System.exists_reachableWhere_of_run Session.Within
    [.initAlloc, .alloc 512 (some 65536), .alloc 256 none, .dealloc 66048, .cleanup, .initAlloc,
      .alloc 256 none]
    (fun s => s.live == [511, 65536] && decide (s.Within (.dealloc 65536)))
    sessions_start (by decide +kernel)
  rw [Bool.and_eq_true, beq_iff_eq, decide_eq_true_eq] at hlive
  refine ⟨s, hreach, hlive.1, (indices_in_range hreach).2 _ ?_ hlive.2⟩
  simp [Session.Legal, hlive.1]

/-! ## Out of range -/

def Session.overruns (s : Session) (op : Op) : Bool :=
  match s.call op with
  | .error .index => true
  | _ => false

theorem Session.call_of_overruns {s : Session} {op : Op} (h : s.overruns op = true) :
    s.call op = .error .index := by
  unfold Session.overruns at h
  split at h
  · assumption
  · cases h

def fillRun : List Op :=
  .initAlloc :: (List.range 16).map fun i => .alloc 4096 (some (65536 + 4096 * i))

/-- Left merges over chunks that are apart make a page of more than 4096 bytes. -/
def stretchRun : List Op :=
  [.initAlloc, .alloc 768 (some 65536), .alloc 3328 none, .dealloc 65536, .alloc 256 none,
    .alloc 256 none, .dealloc 65536, .dealloc 66304, .dealloc 65792, .alloc 3840 none,
    .alloc 256 none]

/-- The seventeenth page is taken from behind `cmans`, and in the one page of the other
session a chunk is put behind `chunks`. -/
theorem exists_overrun :
    (∃ s, sessions.Reachable s ∧ s.mman.sz = maxPages ∧ s.Legal (.alloc 4096 (some 131072)) ∧
      s.call (.alloc 4096 (some 131072)) = .error .index) ∧
    ∃ s, sessions.Reachable s ∧ s.mman.sz = 1 ∧ s.Legal (.alloc 256 none) ∧
      s.call (.alloc 256 none) = .error .index := by
  constructor
  · obtain ⟨s, hreach, hbad⟩ := System.exists_reachable_of_run fillRun
      (fun s : Session => s.mman.sz == maxPages && decide (s.Legal (.alloc 4096 (some 131072))) &&
        s.overruns (.alloc 4096 (some 131072)))
      sessions_start (by decide +kernel)
    simp only [Bool.and_eq_true, beq_iff_eq, decide_eq_true_eq] at hbad
    exact ⟨s, hreach, hbad.1.1, hbad.1.2, Session.call_of_overruns hbad.2⟩
  · obtain ⟨s, hreach, hbad⟩ := System.exists_reachable_of_run stretchRun
      (fun s : Session => s.mman.sz == 1 && decide (s.Legal (.alloc 256 none)) &&
        s.overruns (.alloc 256 none))
      sessions_start (by decide +kernel)
    simp only [Bool.and_eq_true, beq_iff_eq, decide_eq_true_eq] at hbad
    exact ⟨s, hreach, hbad.1.1, hbad.1.2, Session.call_of_overruns hbad.2⟩

end Os20.Ealloc
