import Os20.Alloc.Release

/-!
# Back links

`Neat` is a page without neighbouring free chunks.  `Linked` says that the `prev` links are the
`next` links backwards, which `alloc` keeps if it takes from the last chunk and `dealloc` keeps
always.
-/

namespace Os20.Alloc.Page

open Os20.Lib.Segments

variable {minalloc : Nat}

structure Neat (minalloc : Nat) (m : Mman) (bs : List Block) : Prop where
  tiles : Tiles minalloc m bs
  below : PrevBelow m (slots minalloc 0 bs)
  coalesced : Coalesced bs

/-- The `prev` links of the chunks of `bs` lead back one by one, and the first one to `before`. -/
def Linked (minalloc : Nat) (chunks : Nat → Chunk) : Nat → Option Nat → List Block → Prop
  | _, _, [] => True
  | o, before, b :: bs =>
      (chunks (o / minalloc)).prev = before ∧
        Linked minalloc chunks (o + b.size) (some (o / minalloc)) bs

def lastSlot (minalloc : Nat) : Nat → Option Nat → List Block → Option Nat
  | _, before, [] => before
  | o, _, b :: bs => lastSlot minalloc (o + b.size) (some (o / minalloc)) bs

theorem lastSlot_concat (o : Nat) (before : Option Nat) (bs : List Block) (b : Block) :
    lastSlot minalloc o before (bs ++ [b]) = some ((o + extent bs) / minalloc) := by
  induction bs generalizing o before with
  | nil => simp [lastSlot]
  | cons c bs ih => simp [lastSlot, ih, Nat.add_assoc]

theorem linked_append {chunks : Nat → Chunk} {o : Nat} {before : Option Nat}
    {bs cs : List Block} :
    Linked minalloc chunks o before (bs ++ cs) ↔ Linked minalloc chunks o before bs ∧
      Linked minalloc chunks (o + extent bs) (lastSlot minalloc o before bs) cs := by
  induction bs generalizing o before with
  | nil => simp [Linked, lastSlot]
  | cons b bs ih =>
      simp only [List.cons_append, Linked, lastSlot, ih, extent_cons, Nat.add_assoc, and_assoc]

theorem Linked.congr {chunks chunks' : Nat → Chunk} {o : Nat} {before : Option Nat}
    {bs : List Block} (hsame : ∀ i ∈ slots minalloc o bs, (chunks' i).prev = (chunks i).prev)
    (h : Linked minalloc chunks o before bs) : Linked minalloc chunks' o before bs := by
  induction bs generalizing o before with
  | nil => trivial
  | cons b bs ih =>
      refine ⟨(hsame _ (by simp [slots])).trans h.1, ih (fun i hi => hsame i ?_) h.2⟩
      simp [slots, hi]

theorem Linked.prevBelow {m : Mman} {o : Nat} {before : Option Nat} {bs : List Block}
    (h : Linked minalloc m.chunks o before bs) (ho : minalloc ∣ o) (hsized : Sized minalloc bs)
    (hbefore : ∀ j, before = some j → j < o / minalloc) : PrevBelow m (slots minalloc o bs) := by
  induction bs generalizing o before with
  | nil => simp [PrevBelow, slots]
  | cons b bs ih =>
      obtain ⟨hhead, htail⟩ := h
      rw [sized_cons] at hsized
      have ho' : minalloc ∣ o + b.size := Nat.dvd_add ho hsized.1.2
      have hlt : o / minalloc < (o + b.size) / minalloc :=
        Nat.div_lt_div_of_lt_of_dvd ho' (by omega)
      intro i hi j hj
      rw [slots, List.mem_cons] at hi
      rcases hi with rfl | hi
      · exact hbefore j (hhead.symm.trans hj)
      · refine ih htail ho' hsized.2 ?_ i hi j hj
        intro j' hj'
        rw [← Option.some.inj hj']
        exact hlt

theorem Mman.modify_prev (m : Mman) (i : Nat) {f : Chunk → Chunk} (hf : ∀ c, (f c).prev = c.prev)
    (k : Nat) : ((m.modify i f).chunks k).prev = (m.chunks k).prev := by
  by_cases hk : k = i
  · rw [hk, Mman.modify_chunks_self, hf]
  · rw [Mman.modify_chunks_of_ne m hk]

theorem Mman.setPrev_prev (m : Mman) (next : Option Nat) (p k : Nat) :
    ((m.setPrev next p).chunks k).prev = if next = some k then some p else (m.chunks k).prev := by
  rw [Mman.setPrev_chunks]
  split <;> rfl

/-! ## A fresh page -/

theorem initAlloc_neat (hpos : 0 < minalloc) (hpage : minalloc ∣ pagesize) (m : Mman)
    (addr : Nat) :
    ∃ m', initAlloc minalloc m (some addr) = .ok (m', 0) ∧ m'.addr = addr ∧
      Neat minalloc m' [⟨pagesize, false⟩] ∧
      Linked minalloc m'.chunks 0 none [⟨pagesize, false⟩] := by
  have hmod : (pagesize : Int).tmod minalloc = 0 :=
    Int.tmod_eq_zero_of_dvd (Int.natCast_dvd_natCast.mpr hpage)
  have hidx : 0 < chunkBufSize minalloc := Nat.div_pos (Nat.le_of_dvd (by decide) hpage) hpos
  have hpos' : 0 < pagesize := by decide
  refine ⟨⟨addr, some 0, Function.update m.chunks 0 { sz := pagesize }⟩, ?_, rfl,
    ⟨⟨?_, by simp, by simpa using ⟨hpos', hpage⟩⟩, ?_, List.isChain_singleton _⟩, ?_⟩
  · simp [initAlloc, chunkNew, hmod, hidx, bind, Except.bind, pure, Except.pure, Mman.modify]
  · simp only [Seg, Nat.zero_div, Function.update_self]
    exact ⟨trivial, ⟨rfl, rfl, rfl⟩, trivial⟩
  · intro i hi j hj
    simp only [slots, Nat.zero_div, List.mem_singleton] at hi
    subst hi
    simp at hj
  · simp [Linked]

/-! ## One call -/

section Calls

variable {m m' : Mman} {pre post : List Block} {b : Block} {n : Nat}

/-- In a linked list the left merge is exact. -/
theorem Linked.prevExact (hpos : 0 < minalloc) (ht : Tiles minalloc m (pre ++ b :: post))
    (h : Linked minalloc m.chunks 0 none (pre ++ b :: post)) :
    PrevExact minalloc m (extent pre / minalloc) := by
  have hprev := (linked_append.mp h).2.1
  rw [Nat.zero_add] at hprev
  intro l hl _
  rw [ht.chunkSlots_eq hpos] at hl
  rw [hprev]
  constructor
  · intro hlast
    rcases List.eq_nil_or_concat pre with rfl | ⟨init, c, rfl⟩
    · cases hlast
    · rw [List.concat_eq_append] at *
      rw [lastSlot_concat, Nat.zero_add] at hlast
      obtain rfl := Option.some.inj hlast
      rw [List.append_assoc] at ht
      obtain ⟨-, -, -, -, hnext, -⟩ := ht.at
      simpa using hnext
  · intro hnext
    obtain ⟨init, c, rfl, rfl⟩ := ht.left_of_next hl hnext
    rw [lastSlot_concat, Nat.zero_add]

theorem Taken.linked (h : Taken minalloc m m' (extent pre) n b)
    (ht : Tiles minalloc m (pre ++ [b])) (hn : 0 < n) (hdvd : minalloc ∣ n)
    (hlinked : Linked minalloc m.chunks 0 none (pre ++ [b])) :
    Linked minalloc m'.chunks 0 none (pre ++ carve n b) := by
  have hsized := (sized_append.mp ht.sized).1
  have hkept {k : Nat} (hk : k ≤ extent pre / minalloc) :
      (m'.chunks k).prev = (m.chunks k).prev := by
    rcases h.prev k with hsame | ⟨-, hlt⟩
    · exact hsame
    · omega
  rw [linked_append] at hlinked ⊢
  obtain ⟨hpre, hb, -⟩ := hlinked
  rw [Nat.zero_add] at hb ⊢
  refine ⟨hpre.congr fun i hi => hkept ?_, ?_⟩
  · have hlt := (slots_bounds (Nat.dvd_zero _) hsized hi).2
    rw [Nat.zero_add] at hlt
    exact Nat.le_of_lt hlt
  · have hnew := h.prevNew
    have hhead := (hkept (Nat.le_refl _)).trans hb
    unfold carve at hnew ⊢
    split
    · exact ⟨hhead, trivial⟩
    · next hne =>
        rw [if_neg hne] at hnew
        refine ⟨hhead, ?_, trivial⟩
        rcases hnew ((extent pre + n) / minalloc) (by simp [slots]) with heq | ⟨hprev, -⟩
        · have hlt : extent pre / minalloc < (extent pre + n) / minalloc :=
            Nat.div_lt_div_of_lt_of_dvd (Nat.dvd_add hsized.dvd_extent hdvd) (by omega)
          omega
        · exact hprev

/-- A chunk takes in the chunk behind it: the one behind that is linked back to it. -/
theorem Linked.absorb {chunks chunks' : Nat → Chunk} {b c : Block} {rest : List Block}
    (hsized : Sized minalloc (pre ++ b :: c :: rest))
    (hseg : Seg minalloc chunks (extent pre + b.size + c.size)
      (chunks ((extent pre + b.size) / minalloc)).next rest none)
    (hprev : ∀ k, (chunks' k).prev =
      if (chunks ((extent pre + b.size) / minalloc)).next = some k then
        some (extent pre / minalloc)
      else (chunks k).prev)
    (used : Bool) (h : Linked minalloc chunks 0 none (pre ++ b :: c :: rest)) :
    Linked minalloc chunks' 0 none (pre ++ ⟨b.size + c.size, used⟩ :: rest) := by
  simp only [sized_append, sized_cons] at hsized
  obtain ⟨hspre, ⟨hbpos, hb⟩, ⟨hcpos, hc⟩, hsrest⟩ := hsized
  rw [linked_append, Nat.zero_add] at h ⊢
  obtain ⟨hpre, hhead, -, hrest⟩ := h
  have ho := hspre.dvd_extent
  have hlt : extent pre / minalloc < (extent pre + b.size + c.size) / minalloc :=
    Nat.div_lt_div_of_lt_of_dvd (Nat.dvd_add (Nat.dvd_add ho hb) hc) (by omega)
  -- slots up to `b` are not the one behind `c`
  have hlow {k : Nat} (hk : k ≤ extent pre / minalloc) : (chunks' k).prev = (chunks k).prev := by
    rw [hprev, if_neg]
    intro hnext
    rw [hnext] at hseg
    have := hseg.eq_of_start
    omega
  refine ⟨hpre.congr fun i hi => hlow ?_, (hlow (Nat.le_refl _)).trans hhead, ?_⟩
  · have hlt := (slots_bounds (Nat.dvd_zero _) hspre hi).2
    rw [Nat.zero_add] at hlt
    exact Nat.le_of_lt hlt
  · rw [← Nat.add_assoc]
    cases rest with
    | nil => trivial
    | cons d ds =>
        obtain ⟨hnext, -, -⟩ := hseg
        refine ⟨by rw [hprev, if_pos hnext], hrest.2.congr fun i hi => ?_⟩
        rw [hprev, if_neg]
        rw [hnext]
        intro heq
        rw [sized_cons] at hsrest
        have hlo := (slots_bounds (Nat.dvd_add (Nat.dvd_add (Nat.dvd_add ho hb) hc) hsrest.1.2)
          hsrest.2 hi).1
        have hlt' : (extent pre + b.size + c.size) / minalloc <
            (extent pre + b.size + c.size + d.size) / minalloc :=
          Nat.div_lt_div_of_lt_of_dvd
            (Nat.dvd_add (Nat.dvd_add (Nat.dvd_add ho hb) hc) hsrest.1.2)
            (by have := hsrest.1.1; omega)
        have := Option.some.inj heq
        omega

theorem Linked.mergeRight (ht : Tiles minalloc m (pre ++ ⟨n, true⟩ :: post))
    (h : Linked minalloc m.chunks 0 none (pre ++ ⟨n, true⟩ :: post)) :
    Linked minalloc (mergeRight m (extent pre / minalloc)).chunks 0 none
      (pre ++ joinRight n post) := by
  obtain ⟨-, -, -, -, hrest⟩ := ht.at
  set i := extent pre / minalloc
  -- without a free right neighbour no link changes
  have hstay (hpost : joinRight n post = ⟨n, false⟩ :: post)
      (heq : Page.mergeRight m i = m.modify i fun c => { c with assigned := false }) :
      Linked minalloc (Page.mergeRight m i).chunks 0 none (pre ++ joinRight n post) := by
    rw [hpost, heq]
    have h' : Linked minalloc m.chunks 0 none (pre ++ ⟨n, false⟩ :: post) := by
      rw [linked_append] at h ⊢
      exact h
    refine h'.congr fun k _ => ?_
    rw [Mman.modify_prev]
    exact fun _ => rfl
  cases post with
  | nil =>
      have hnext : (m.chunks i).next = none := hrest
      exact hstay rfl (by simp [Page.mergeRight, hnext])
  | cons c cs =>
      obtain ⟨hnext, hc, htail⟩ := hrest
      cases hused : c.used with
      | true =>
          exact hstay (by simp [joinRight, hused])
            (by simp [Page.mergeRight, hnext, hc.assigned, hused])
      | false =>
          rw [joinRight, if_neg (by simp [hused])]
          refine Linked.absorb ht.sized htail (fun k => ?_) false h
          have hfree : (m.chunks ((extent pre + n) / minalloc)).assigned = false :=
            hc.assigned.trans hused
          have heq : Page.mergeRight m i =
              ((m.setPrev (m.chunks ((extent pre + n) / minalloc)).next i).modify i fun c =>
                { c with
                  next := (m.chunks ((extent pre + n) / minalloc)).next
                  sz := c.sz + (m.chunks ((extent pre + n) / minalloc)).sz }).modify i
                fun c => { c with assigned := false } := by
            simp [Page.mergeRight, hnext, hfree]
          rw [heq, Mman.modify_prev, Mman.modify_prev, Mman.setPrev_prev]
          · exact fun _ => rfl
          · exact fun _ => rfl

theorem Linked.mergeLeft {k k' : Nat}
    (ht : Tiles minalloc m (pre ++ ⟨k', false⟩ :: ⟨k, false⟩ :: post))
    (h : Linked minalloc m.chunks 0 none (pre ++ ⟨k', false⟩ :: ⟨k, false⟩ :: post)) :
    Linked minalloc (mergeLeft m ((extent pre + k') / minalloc)
      (some (extent pre / minalloc))).chunks 0 none (pre ++ ⟨k' + k, false⟩ :: post) := by
  obtain ⟨-, -, -, hleft, -, -, hrest⟩ := ht.at
  refine Linked.absorb ht.sized hrest (fun i => ?_) false h
  simp only [Page.mergeLeft]
  rw [if_neg (by simp [hleft.assigned]), Mman.modify_prev, Mman.setPrev_prev]
  exact fun _ => rfl

section Neat

variable (hpos : 0 < minalloc) (hpage : minalloc ∣ pagesize)
include hpos hpage

/-- Either some free chunk fits, and the first one is taken, or none does. -/
theorem Neat.alloc {bs : List Block} (h : Neat minalloc m bs) (hn : 0 < n) (hdvd : minalloc ∣ n) :
    ((∀ c ∈ bs, c.used = false → c.size < n) ∧ alloc minalloc m n = .ok (m, none)) ∨
      ∃ pre b post m', bs = pre ++ b :: post ∧ b.used = false ∧ n ≤ b.size ∧
        alloc minalloc m n = .ok (m', some (m.addr + extent pre)) ∧
        Taken minalloc m m' (extent pre) n b ∧
        Neat minalloc m' (pre ++ (carve n b ++ post)) := by
  rcases exists_firstFit n bs with hnofit | ⟨pre, b, post, rfl, hb, hfit, hfirst⟩
  · exact .inl ⟨hnofit, alloc_noFit hpos h.tiles hn hdvd hnofit⟩
  · obtain ⟨m', hcall, htaken⟩ := alloc_fit hpos hpage h.tiles hn hdvd hb hfit hfirst
    refine .inr ⟨pre, b, post, m', rfl, hb, hfit, hcall, htaken, ?_, ?_, ?_⟩
    · exact htaken.tiles h.tiles hn hdvd hfit
    · exact htaken.prevBelow hfit h.below
    · exact Coalesced.carve hb h.coalesced

theorem Neat.dealloc (h : Neat minalloc m (pre ++ ⟨n, true⟩ :: post))
    (hexact : PrevExact minalloc m (extent pre / minalloc)) :
    ∃ m' bs, dealloc minalloc m (m.addr + extent pre) = .ok m' ∧ m'.addr = m.addr ∧
      Neat minalloc m' bs ∧ Freed minalloc m pre post n bs := by
  obtain ⟨m', bs, hcall, haddr, htiles, hbelow, hfreed⟩ :=
    dealloc_tiles hpos hpage h.tiles h.below hexact.sound
  exact ⟨m', bs, hcall, haddr,
    ⟨htiles, hbelow, hfreed.coalesced hpos h.tiles hexact h.coalesced⟩, hfreed⟩

end Neat

theorem dealloc_linked (hpos : 0 < minalloc) (hpage : minalloc ∣ pagesize)
    (h : Neat minalloc m (pre ++ ⟨n, true⟩ :: post))
    (hlinked : Linked minalloc m.chunks 0 none (pre ++ ⟨n, true⟩ :: post)) :
    ∃ m' bs, dealloc minalloc m (m.addr + extent pre) = .ok m' ∧ m'.addr = m.addr ∧
      Neat minalloc m' bs ∧ Linked minalloc m'.chunks 0 none bs ∧
      usedSpans 0 bs = usedSpans 0 pre ++ usedSpans (extent pre + n) post := by
  have ht := h.tiles
  obtain ⟨m', bs, hcall, haddr, hneat, hfreed⟩ :=
    h.dealloc hpos hpage (hlinked.prevExact hpos ht)
  refine ⟨m', bs, hcall, haddr, hneat, ?_, hfreed.usedSpans⟩
  obtain rfl : Page.mergeLeft (Page.mergeRight m (extent pre / minalloc)) (extent pre / minalloc)
      (m.chunks (extent pre / minalloc)).prev = m' := by
    rw [dealloc, victim, Nat.add_sub_cancel_left] at hcall
    split at hcall
    · exact Except.ok.inj hcall
    · cases hcall
  have hlinked' := hlinked.mergeRight ht
  have ht' := ht.released.tiles ht
  have hprev := (linked_append.mp hlinked).2.1
  rw [Nat.zero_add] at hprev
  rw [hprev]
  cases hfreed with
  | alone halone =>
      rcases List.eq_nil_or_concat pre with rfl | ⟨init, c, rfl⟩
      · exact hlinked'
      · -- the chunk before the victim is in use, so there is no left merge
        rw [List.concat_eq_append] at *
        rw [lastSlot_concat, Nat.zero_add] at hprev ⊢
        rw [mergeLeft_of_assigned]
        · exact hlinked'
        · rw [List.append_assoc] at ht'
          obtain ⟨-, -, -, hleft, -⟩ := ht'.at
          rw [hleft.assigned]
          obtain ⟨size, used⟩ := c
          cases used with
          | true => rfl
          | false => exact absurd hprev (halone init size rfl)
  | joined pre' k' hpre =>
      subst hpre
      obtain ⟨k, rest, hjoin, -, -, -⟩ := exists_joinRight_eq n post
      rw [hjoin, List.append_assoc] at ht' hlinked'
      have hslot : extent (pre' ++ [⟨k', false⟩]) = extent pre' + k' := by simp
      rw [lastSlot_concat, Nat.zero_add, joinRight_add hjoin k', hslot]
      rw [hslot] at ht' hlinked'
      exact hlinked'.mergeLeft ht'

end Calls

end Os20.Alloc.Page
