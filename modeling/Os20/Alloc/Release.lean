import Os20.Alloc.Take

/-!
# What `dealloc` does to the tiling

The right merge follows `next` and is always sound.  The left merge follows
`prev`: it is sound when `prev` is missing, in use, off the list, or the left
neighbour.  `dealloc_tiles` is the effect of a call in which it is.
-/

namespace Os20.Alloc.Page

open Os20.Lib.Segments

variable {minalloc : Nat}

/-! ## Releasing a chunk -/

@[simp] theorem Mman.setPrev_addr (m : Mman) (next : Option Nat) (p : Nat) :
    (m.setPrev next p).addr = m.addr := by
  cases next <;> rfl

@[simp] theorem Mman.setPrev_chunkList (m : Mman) (next : Option Nat) (p : Nat) :
    (m.setPrev next p).chunkList = m.chunkList := by
  cases next <;> rfl

theorem Mman.setPrev_chunks (m : Mman) (next : Option Nat) (p k : Nat) :
    (m.setPrev next p).chunks k =
      if next = some k then { m.chunks k with prev := some p } else m.chunks k := by
  cases next with
  | none => simp [Mman.setPrev]
  | some next =>
      by_cases hk : k = next
      · subst hk
        simp [Mman.setPrev]
      · rw [Mman.setPrev, Mman.modify_chunks_of_ne m hk, if_neg]
        simpa using Ne.symm hk

@[simp] theorem Mman.setPrev_forward (m : Mman) (next : Option Nat) (p k : Nat) :
    ((m.setPrev next p).chunks k).forward = (m.chunks k).forward := by
  rw [Mman.setPrev_chunks]
  split <;> rfl

@[simp] theorem Mman.setPrev_next (m : Mman) (next : Option Nat) (p k : Nat) :
    ((m.setPrev next p).chunks k).next = (m.chunks k).next := by
  rw [Mman.setPrev_chunks]
  split <;> rfl

@[simp] theorem Mman.setPrev_sz (m : Mman) (next : Option Nat) (p k : Nat) :
    ((m.setPrev next p).chunks k).sz = (m.chunks k).sz := by
  rw [Mman.setPrev_chunks]
  split <;> rfl

/-- Effect of the right merge on the list from the released chunk on. -/
structure Released (minalloc : Nat) (m m' : Mman) (o n : Nat) (post : List Block) : Prop where
  addr : m'.addr = m.addr
  chunkList : m'.chunkList = m.chunkList
  seg : Seg minalloc m'.chunks o (some (o / minalloc)) (joinRight n post) none
  same : ∀ k, k ≠ o / minalloc → (m'.chunks k).forward = (m.chunks k).forward
  prev : ∀ k, PrevKept m m' (o / minalloc) k

/-- The right neighbour is missing or in use. -/
theorem released_of_used {m : Mman} {o n : Nat} {post : List Block}
    (hpost : post = [] ∨ ∃ c cs, post = c :: cs ∧ c.used = true)
    (hpos : 0 < n) (ho : minalloc ∣ o) (hn : minalloc ∣ n) (hsized : Sized minalloc post)
    (h : Seg minalloc m.chunks o (some (o / minalloc)) (⟨n, true⟩ :: post) none) :
    Released minalloc m (mergeRight m (o / minalloc)) o n post := by
  set i := o / minalloc with hi
  obtain ⟨-, hc, hrest⟩ := h
  rw [← hi] at hc hrest
  have heq : mergeRight m i = m.modify i fun c => { c with assigned := false } := by
    rcases hpost with rfl | ⟨c, cs, rfl, hused⟩
    · have hnext : (m.chunks i).next = none := hrest
      simp [mergeRight, hnext]
    · obtain ⟨hnext, hj, -⟩ := hrest
      simp [mergeRight, hnext, hj.assigned, hused]
  have hjoin : joinRight n post = ⟨n, false⟩ :: post := by
    rcases hpost with rfl | ⟨c, cs, rfl, hused⟩
    · rfl
    · simp [joinRight, hused]
  have hlt : i < (o + n) / minalloc :=
    Nat.div_lt_div_of_lt_of_dvd (Nat.dvd_add ho hn) (by omega)
  rw [heq]
  refine ⟨rfl, rfl, ?_, fun k hk => ?_, fun k => ?_⟩
  · rw [hjoin, Seg, ← hi, Mman.modify_chunks_self]
    refine ⟨rfl, ⟨hc.offset, hc.sz, rfl⟩, ?_⟩
    apply hrest.congr
    intro k hk
    have := (slots_bounds (Nat.dvd_add ho hn) hsized hk).1
    rw [Mman.modify_chunks_of_ne m (by omega)]
  · rw [Mman.modify_chunks_of_ne m hk]
  · left
    by_cases hk : k = i
    · rw [hk, Mman.modify_chunks_self]
    · rw [Mman.modify_chunks_of_ne m hk]

/-- The right neighbour is free and joins the released chunk. -/
theorem released_of_free {m : Mman} {o n : Nat} {c : Block} {cs : List Block}
    (hfree : c.used = false) (hpos : 0 < n) (ho : minalloc ∣ o) (hn : minalloc ∣ n)
    (hsized : Sized minalloc (c :: cs))
    (h : Seg minalloc m.chunks o (some (o / minalloc)) (⟨n, true⟩ :: c :: cs) none) :
    Released minalloc m (mergeRight m (o / minalloc)) o n (c :: cs) := by
  set i := o / minalloc with hi
  obtain ⟨-, hc, hnext, hj, hrest⟩ := h
  set j := (o + n) / minalloc with hjdef
  rw [← hi] at hc hnext
  rw [sized_cons] at hsized
  have hlt : i < j := Nat.div_lt_div_of_lt_of_dvd (Nat.dvd_add ho hn) (by omega)
  have hlt' : j < (o + n + c.size) / minalloc :=
    Nat.div_lt_div_of_lt_of_dvd (Nat.dvd_add (Nat.dvd_add ho hn) hsized.1.2) (by omega)
  -- the chunk after the neighbour is not the released one
  have hnext' : (m.chunks j).next ≠ some i := by
    intro hback
    rw [hback] at hrest
    have : i = (o + n + c.size) / minalloc := hrest.eq_of_start
    omega
  have heq : mergeRight m i =
      ((m.setPrev (m.chunks j).next i).modify i fun c =>
        { c with next := (m.chunks j).next, sz := c.sz + (m.chunks j).sz }).modify i
        fun c => { c with assigned := false } := by
    simp [mergeRight, hnext, hj.assigned, hfree]
  have hself : (mergeRight m i).chunks i =
      { m.chunks i with
        next := (m.chunks j).next
        sz := (m.chunks i).sz + (m.chunks j).sz
        assigned := false } := by
    rw [heq, Mman.modify_chunks_self, Mman.modify_chunks_self, Mman.setPrev_chunks, if_neg hnext']
  have hother : ∀ k, k ≠ i →
      (mergeRight m i).chunks k = (m.setPrev (m.chunks j).next i).chunks k := by
    intro k hk
    rw [heq, Mman.modify_chunks_of_ne _ hk, Mman.modify_chunks_of_ne _ hk]
  refine ⟨by simp [heq], by simp [heq], ?_, fun k hk => ?_, fun k => ?_⟩
  · rw [joinRight, if_neg (by simp [hfree]), Seg, ← hi, hself]
    refine ⟨rfl, ⟨hc.offset, by simp [hc.sz, hj.sz], rfl⟩, ?_⟩
    rw [← Nat.add_assoc]
    apply hrest.congr
    intro k hk
    have := (slots_bounds (Nat.dvd_add (Nat.dvd_add ho hn) hsized.1.2) hsized.2 hk).1
    rw [hother k (by omega), Mman.setPrev_forward]
  · rw [hother k hk, Mman.setPrev_forward]
  · by_cases hk : k = i
    · left
      rw [hk, hself]
    · unfold PrevKept
      rw [hother k hk, Mman.setPrev_chunks]
      split
      · next hkn =>
          -- the chunk after the neighbour lies above it
          right
          refine ⟨rfl, ?_⟩
          rw [hkn] at hrest
          have : k = (o + n + c.size) / minalloc := hrest.eq_of_start
          omega
      · left
        rfl

section Tiles

variable {m m' : Mman} {pre post : List Block} {n : Nat}

theorem Tiles.released (ht : Tiles minalloc m (pre ++ ⟨n, true⟩ :: post)) :
    Released minalloc m (mergeRight m (extent pre / minalloc)) (extent pre) n post := by
  obtain ⟨ho, -, hrest⟩ := ht.at
  have hsized := ht.sized
  rw [sized_append, sized_cons] at hsized
  obtain ⟨-, ⟨hpos, hn⟩, hpost⟩ := hsized
  cases post with
  | nil => exact released_of_used (Or.inl rfl) hpos ho hn hpost hrest
  | cons c cs =>
      cases hc : c.used with
      | true => exact released_of_used (Or.inr ⟨c, cs, rfl, hc⟩) hpos ho hn hpost hrest
      | false => exact released_of_free hc hpos ho hn hpost hrest

theorem Released.tiles (ht : Tiles minalloc m (pre ++ ⟨n, true⟩ :: post))
    (h : Released minalloc m m' (extent pre) n post) :
    Tiles minalloc m' (pre ++ joinRight n post) := by
  obtain ⟨ho, hpre, -⟩ := ht.at
  have hsized := ht.sized
  have hext := ht.covers
  rw [sized_append, sized_cons] at hsized
  rw [extent_append, extent_cons] at hext
  refine ⟨?_, ?_, ?_⟩
  · rw [seg_append]
    refine ⟨some (extent pre / minalloc), ?_, ?_⟩
    · rw [h.chunkList]
      apply hpre.congr
      intro k hk
      have := (slots_bounds (Nat.dvd_zero _) hsized.1 hk).2
      rw [Nat.zero_add] at this
      exact h.same k (by omega)
    · rw [Nat.zero_add]
      exact h.seg
  · rw [extent_append, extent_joinRight]
    exact hext
  · rw [sized_append]
    exact ⟨hsized.1, sized_joinRight hsized.2.1.1 hsized.2.1.2 hsized.2.2⟩

theorem slots_joinRight_subset (o n : Nat) (post : List Block) :
    ∀ k ∈ slots minalloc o (joinRight n post),
      k ∈ slots minalloc o (⟨n, true⟩ :: post) := by
  cases post with
  | nil => simp [joinRight, slots]
  | cons c cs =>
      rw [joinRight]
      split
      · simp [slots]
      · intro k hk
        simp only [slots, List.mem_cons] at hk ⊢
        rcases hk with rfl | hk
        · exact Or.inl rfl
        · exact Or.inr (Or.inr (by simpa [Nat.add_assoc] using hk))

end Tiles

/-! ## The left merge -/

section MergeLeft

variable {m : Mman} {pre rest : List Block} {k : Nat}

@[simp] theorem mergeLeft_addr (m : Mman) (piv : Nat) (l : Option Nat) :
    (mergeLeft m piv l).addr = m.addr := by
  unfold mergeLeft
  split
  · rfl
  · split <;> simp

@[simp] theorem mergeLeft_chunkList (m : Mman) (piv : Nat) (l : Option Nat) :
    (mergeLeft m piv l).chunkList = m.chunkList := by
  unfold mergeLeft
  split
  · rfl
  · split <;> simp

theorem mergeLeft_of_assigned {piv l : Nat} (h : (m.chunks l).assigned = true) :
    mergeLeft m piv (some l) = m := by
  simp [mergeLeft, h]

theorem mergeLeft_chunks_of_ne {piv l i : Nat} (hi : i ≠ l)
    (h : (m.chunks l).assigned = false) :
    (mergeLeft m piv (some l)).chunks i = (m.setPrev (m.chunks piv).next l).chunks i := by
  simp [mergeLeft, h, hi]

theorem mergeLeft_tiles_of_not_mem {bs : List Block} {piv l : Nat}
    (ht : Tiles minalloc m bs) (hl : l ∉ slots minalloc 0 bs) :
    Tiles minalloc (mergeLeft m piv (some l)) bs := by
  cases hassigned : (m.chunks l).assigned with
  | true =>
      rw [mergeLeft_of_assigned hassigned]
      exact ht
  | false =>
      refine ⟨?_, ht.covers, ht.sized⟩
      rw [mergeLeft_chunkList]
      apply ht.seg.congr
      intro i hi
      have hne : i ≠ l := by rintro rfl; exact hl hi
      rw [mergeLeft_chunks_of_ne hne hassigned, Mman.setPrev_forward]

/-- A left merge with the free left neighbour joins the two chunks. -/
theorem mergeLeft_tiles_of_left {k' : Nat}
    (ht : Tiles minalloc m (pre ++ ⟨k', false⟩ :: ⟨k, false⟩ :: rest)) :
    Tiles minalloc (mergeLeft m ((extent pre + k') / minalloc)
      (some (extent pre / minalloc))) (pre ++ ⟨k' + k, false⟩ :: rest) := by
  obtain ⟨ho, hpre, hleft⟩ := ht.at
  obtain ⟨-, hl, hstart, hp, hrest⟩ := hleft
  have hsized := ht.sized
  have hext := ht.covers
  simp only [sized_append, sized_cons] at hsized
  simp only [extent_append, extent_cons] at hext
  dsimp only at hp hrest
  obtain ⟨hspre, ⟨hk'pos, hk'⟩, ⟨hkpos, hk⟩, hsrest⟩ := hsized
  set l := extent pre / minalloc with hldef
  set p := (extent pre + k') / minalloc with hpdef
  have hlp : l < p := Nat.div_lt_div_of_lt_of_dvd (Nat.dvd_add ho hk') (by omega)
  have hpr : p < (extent pre + k' + k) / minalloc :=
    Nat.div_lt_div_of_lt_of_dvd (Nat.dvd_add (Nat.dvd_add ho hk') hk) (by omega)
  have hnext : (m.chunks p).next ≠ some l := by
    intro hback
    rw [hback] at hrest
    have : l = (extent pre + k' + k) / minalloc := hrest.eq_of_start
    omega
  have hself : (mergeLeft m p (some l)).chunks l =
      { m.chunks l with
        next := (m.chunks p).next, sz := (m.chunks l).sz + (m.chunks p).sz } := by
    simp [mergeLeft, hl.assigned, Mman.setPrev_chunks m _ l l, hnext]
  have hother : ∀ i, i ≠ l →
      ((mergeLeft m p (some l)).chunks i).forward = (m.chunks i).forward := by
    intro i hi
    rw [mergeLeft_chunks_of_ne hi hl.assigned, Mman.setPrev_forward]
  refine ⟨?_, ?_, ?_⟩
  · rw [seg_append, mergeLeft_chunkList]
    refine ⟨some l, ?_, ?_⟩
    · apply hpre.congr
      intro i hi
      have := (slots_bounds (Nat.dvd_zero _) hspre hi).2
      rw [Nat.zero_add] at this
      exact hother i (by omega)
    · rw [Nat.zero_add, Seg, ← hldef, hself]
      refine ⟨rfl, ⟨hl.offset, by simp [hl.sz, hp.sz], hl.assigned⟩, ?_⟩
      rw [← Nat.add_assoc]
      apply hrest.congr
      intro i hi
      have := (slots_bounds (Nat.dvd_add (Nat.dvd_add ho hk') hk) hsrest hi).1
      exact hother i (by omega)
  · simp only [extent_append, extent_cons]
    omega
  · simp only [sized_append, sized_cons]
    exact ⟨hspre, ⟨by omega, Nat.dvd_add hk' hk⟩, hsrest⟩

theorem mergeLeft_prevBelow {bs : List Block} {l : Nat}
    (ht : Tiles minalloc m (pre ++ ⟨k, false⟩ :: rest)) (hl : l < extent pre / minalloc)
    (hsub : ∀ i ∈ slots minalloc 0 bs, i ∈ slots minalloc 0 (pre ++ ⟨k, false⟩ :: rest))
    (hbelow : PrevBelow m (slots minalloc 0 (pre ++ ⟨k, false⟩ :: rest))) :
    PrevBelow (mergeLeft m (extent pre / minalloc) (some l)) (slots minalloc 0 bs) := by
  intro i hi j hj
  have hold := hbelow i (hsub i hi)
  cases hassigned : (m.chunks l).assigned with
  | true =>
      rw [mergeLeft_of_assigned hassigned] at hj
      exact hold j hj
  | false =>
      have hprev : ((mergeLeft m (extent pre / minalloc) (some l)).chunks i).prev =
          ((m.setPrev (m.chunks (extent pre / minalloc)).next l).chunks i).prev := by
        by_cases hil : i = l
        · subst hil
          simp [mergeLeft, hassigned]
        · rw [mergeLeft_chunks_of_ne hil hassigned]
      rw [hprev, Mman.setPrev_chunks] at hj
      split at hj
      · next hnext =>
          -- the chunk after the merged one lies above it
          obtain ⟨ho, -, -, -, hrest⟩ := ht.at
          have hsized := ht.sized
          simp only [sized_append, sized_cons] at hsized
          rw [hnext] at hrest
          have hi' : i = (extent pre + k) / minalloc := hrest.eq_of_start
          have hlt : extent pre / minalloc < (extent pre + k) / minalloc :=
            Nat.div_lt_div_of_lt_of_dvd (Nat.dvd_add ho hsized.2.1.2) (by
              have := hsized.2.1.1
              omega)
          obtain rfl : l = j := Option.some.inj hj
          omega
      · exact hold j hj

end MergeLeft

/-! ## The whole call -/

/-- If `victim->prev` is an unassigned chunk of the list, it is the chunk in front
of the victim. -/
def PrevSound (minalloc : Nat) (m : Mman) (victim : Nat) : Prop :=
  ∀ l ∈ chunkSlots minalloc m, (m.chunks l).assigned = false →
    (m.chunks victim).prev = some l → (m.chunks l).next = some victim

def PrevExact (minalloc : Nat) (m : Mman) (victim : Nat) : Prop :=
  ∀ l ∈ chunkSlots minalloc m, (m.chunks l).assigned = false →
    ((m.chunks victim).prev = some l ↔ (m.chunks l).next = some victim)

instance (m : Mman) (victim : Nat) : Decidable (PrevExact minalloc m victim) :=
  inferInstanceAs (Decidable (∀ l ∈ chunkSlots minalloc m, _ → _))

theorem PrevExact.sound {m : Mman} {victim : Nat} (h : PrevExact minalloc m victim) :
    PrevSound minalloc m victim :=
  fun l hl hfree => (h l hl hfree).mp

section Dealloc

variable {m : Mman} {pre post : List Block} {b : Block} {n : Nat}

theorem Tiles.left_of_next (ht : Tiles minalloc m (pre ++ b :: post)) {l : Nat}
    (hl : l ∈ slots minalloc 0 (pre ++ b :: post))
    (hnext : (m.chunks l).next = some (extent pre / minalloc)) :
    ∃ pre' c, pre = pre' ++ [c] ∧ l = extent pre' / minalloc := by
  obtain ⟨p, c, q, heq, rfl⟩ := exists_of_mem_slots hl
  rw [Nat.zero_add] at *
  have hsized := ht.sized
  obtain ⟨ho, -, -⟩ := ht.at
  rw [heq] at ht hsized
  obtain ⟨ho', -, -, -, hrest⟩ := ht.at
  simp only [sized_append, sized_cons] at hsized
  rw [hnext] at hrest
  have hslot := hrest.eq_of_start
  have hext : extent pre = extent (p ++ [c]) := by
    have h1 := Nat.div_mul_cancel ho
    have h2 := Nat.div_mul_cancel (Nat.dvd_add ho' hsized.2.1.2)
    rw [hslot, h2] at h1
    simpa using h1.symm
  refine ⟨p, c, ?_, rfl⟩
  rw [show p ++ c :: q = (p ++ [c]) ++ q by simp] at heq
  -- two prefixes of one tiling of the same extent are equal
  rcases List.append_eq_append_iff.mp heq with ⟨more, hmore, hq⟩ | ⟨more, hmore, hq⟩
  · rw [hmore, extent_append] at hext
    cases more with
    | nil => simpa using hmore.symm
    | cons d ds =>
        have hd : 0 < d.size := by
          have hmem : d ∈ p ++ [c] := by simp [hmore]
          rcases List.mem_append.mp hmem with hd | hd
          · exact (hsized.1 d hd).1
          · rw [List.mem_singleton] at hd
            exact hd ▸ hsized.2.1.1
        simp only [extent_cons] at hext
        omega
  · rw [hmore, extent_append] at hext
    cases more with
    | nil => simpa using hmore
    | cons d ds =>
        have hd : 0 < d.size := (hsized.2.2 d (by simp [hq])).1
        simp only [extent_cons] at hext
        omega

/-- The outcome of `dealloc`: whether or not the left neighbour was joined, the
list tiles the page again. -/
inductive Freed (minalloc : Nat) (m : Mman) (pre post : List Block) (n : Nat) :
    List Block → Prop
  | alone (hprev : ∀ pre' k', pre = pre' ++ [⟨k', false⟩] →
      (m.chunks (extent pre / minalloc)).prev ≠ some (extent pre' / minalloc)) :
      Freed minalloc m pre post n (pre ++ joinRight n post)
  | joined (pre' : List Block) (k' : Nat) (hpre : pre = pre' ++ [⟨k', false⟩]) :
      Freed minalloc m pre post n (pre' ++ joinRight (k' + n) post)

theorem dealloc_tiles (hpos : 0 < minalloc) (hpage : minalloc ∣ pagesize)
    (ht : Tiles minalloc m (pre ++ ⟨n, true⟩ :: post))
    (hbelow : PrevBelow m (slots minalloc 0 (pre ++ ⟨n, true⟩ :: post)))
    (hsound : PrevSound minalloc m (extent pre / minalloc)) :
    ∃ m' bs, dealloc minalloc m (m.addr + extent pre) = .ok m' ∧ m'.addr = m.addr ∧
      Tiles minalloc m' bs ∧ PrevBelow m' (slots minalloc 0 bs) ∧
      Freed minalloc m pre post n bs := by
  obtain ⟨ho, -, hrest⟩ := ht.at
  have hsized := ht.sized
  have hext := ht.covers
  simp only [sized_append, sized_cons] at hsized
  simp only [extent_append, extent_cons] at hext
  set i := extent pre / minalloc with hi
  have hidx : i < chunkBufSize minalloc := by
    have := hsized.2.1.1
    exact Nat.div_lt_div_of_lt_of_dvd hpage (by omega)
  have hvictim : victim minalloc m (m.addr + extent pre) = i := by
    simp [victim, hi]
  have hcall : dealloc minalloc m (m.addr + extent pre) =
      .ok (mergeLeft (mergeRight m i) i (m.chunks i).prev) := by
    simp [dealloc, hvictim, hidx]
  have hrel := ht.released
  have ht1 := hrel.tiles ht
  rw [← hi] at hrel ht1
  have hsub : ∀ k ∈ slots minalloc 0 (pre ++ joinRight n post),
      k ∈ slots minalloc 0 (pre ++ ⟨n, true⟩ :: post) := by
    intro k hk
    rw [slots_append, List.mem_append] at hk ⊢
    exact hk.imp_right (slots_joinRight_subset _ n post k)
  have hbelow1 : PrevBelow (mergeRight m i) (slots minalloc 0 (pre ++ joinRight n post)) :=
    fun k hk => (hrel.prev k).below (hbelow k (hsub k hk))
  have haddr : ∀ l, (mergeLeft (mergeRight m i) i l).addr = m.addr := by
    simp [hrel.addr]
  have himem : i ∈ slots minalloc 0 (pre ++ ⟨n, true⟩ :: post) := by
    simp [slots_append, slots, hi]
  rw [hcall]
  cases hprev : (m.chunks i).prev with
  | none => exact ⟨_, _, rfl, haddr _, ht1, hbelow1, .alone (by simp [← hi, hprev])⟩
  | some l =>
      have hli : l < i := hbelow i himem l hprev
      obtain ⟨k, rest, hjoin, -, -, -⟩ := exists_joinRight_eq n post
      have hbelow2 : PrevBelow (mergeLeft (mergeRight m i) i (some l))
          (slots minalloc 0 (pre ++ joinRight n post)) := by
        rw [hjoin] at ht1 hbelow1 ⊢
        exact mergeLeft_prevBelow ht1 hli (fun _ h => h) hbelow1
      by_cases hmem : l ∈ slots minalloc 0 (pre ++ ⟨n, true⟩ :: post)
      · have hassigned1 : ((mergeRight m i).chunks l).assigned = (m.chunks l).assigned := by
          have := congrArg Chunk.assigned (hrel.same l (by omega))
          simpa [Chunk.forward] using this
        cases hassigned : (m.chunks l).assigned with
        | true =>
            rw [mergeLeft_of_assigned (hassigned1.trans hassigned)] at hbelow2 ⊢
            refine ⟨_, _, rfl, hrel.addr, ht1, hbelow2, .alone ?_⟩
            rintro pre' k' rfl heq
            rw [← hi, hprev] at heq
            obtain rfl := Option.some.inj heq
            rw [List.append_assoc] at ht
            obtain ⟨-, -, -, hleft, -⟩ := ht.at
            rw [hleft.assigned] at hassigned
            cases hassigned
        | false =>
            have hnext := hsound l ((ht.chunkSlots_eq hpos).symm ▸ hmem) hassigned hprev
            obtain ⟨pre', c, rfl, rfl⟩ := ht.left_of_next hmem (hi ▸ hnext)
            obtain ⟨k', used⟩ := c
            obtain rfl : used = false := by
              rw [List.append_assoc] at ht
              obtain ⟨-, -, -, hleft, -⟩ := ht.at
              exact hleft.assigned.symm.trans hassigned
            rw [hjoin, List.append_assoc] at ht1
            have ht2 := mergeLeft_tiles_of_left ht1
            have hi2 : (extent pre' + k') / minalloc = i := by simp [hi]
            rw [hi2, ← joinRight_add hjoin k'] at ht2
            refine ⟨_, _, rfl, haddr _, ht2, ?_, .joined pre' k' rfl⟩
            intro s hs
            refine hbelow2 s ?_
            rw [joinRight_add hjoin k'] at hs
            rw [hjoin]
            simp only [slots_append, slots, List.mem_append, List.mem_cons, extent_append,
              extent_cons, extent_nil, ← Nat.add_assoc] at hs ⊢
            rcases hs with hs | hs | hs
            · exact Or.inl (Or.inl hs)
            · exact Or.inl (Or.inr (Or.inl hs))
            · exact Or.inr (Or.inr hs)
      · have hmem1 : l ∉ slots minalloc 0 (pre ++ joinRight n post) := fun h => hmem (hsub l h)
        refine ⟨_, _, rfl, haddr _, mergeLeft_tiles_of_not_mem ht1 hmem1, hbelow2, .alone ?_⟩
        rintro pre' k' rfl heq
        rw [← hi, hprev] at heq
        obtain rfl := Option.some.inj heq
        apply hmem
        simp [slots_append, slots]

theorem Freed.usedSpans {bs : List Block} (h : Freed minalloc m pre post n bs) :
    usedSpans 0 bs = usedSpans 0 pre ++ usedSpans (extent pre + n) post := by
  cases h with
  | alone => rw [usedSpans_append, usedSpans_joinRight, Nat.zero_add]
  | joined pre' k' hpre =>
      subst hpre
      rw [usedSpans_append, usedSpans_joinRight, usedSpans_append]
      simp [Lib.Segments.usedSpans, Nat.add_assoc]

theorem Freed.coalesced {bs : List Block} (hpos : 0 < minalloc)
    (ht : Tiles minalloc m (pre ++ ⟨n, true⟩ :: post))
    (hexact : PrevExact minalloc m (extent pre / minalloc))
    (hcoal : Coalesced (pre ++ ⟨n, true⟩ :: post)) (h : Freed minalloc m pre post n bs) :
    Coalesced bs := by
  obtain ⟨hpre, hpost, -⟩ := List.isChain_append.mp hcoal
  cases h with
  | alone hprev =>
      apply coalesced_append_joinRight hpre hpost.tail
      rintro init k rfl
      -- a free left neighbour is on the list and its `next` is the victim
      have hslots := ht.chunkSlots_eq hpos
      rw [List.append_assoc] at ht
      obtain ⟨-, -, -, hleft, hnext, -⟩ := ht.at
      refine hprev init k rfl ((hexact _ ?_ hleft.assigned).mpr ?_)
      · rw [hslots]
        simp [slots_append, slots]
      · simpa using hnext
  | joined pre' k' hjoin =>
      subst hjoin
      obtain ⟨hpre', -, hlast⟩ := List.isChain_append.mp hpre
      apply coalesced_append_joinRight hpre' hpost.tail
      rintro init k rfl
      simpa using hlast ⟨k, false⟩ (by simp) ⟨k', false⟩ (by simp)

end Dealloc

end Os20.Alloc.Page
