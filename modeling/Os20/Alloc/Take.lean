import Os20.Alloc.Tiling

/-!
# What `alloc` does to the tiling

`alloc_fit`, `alloc_noFit` and `alloc_invalid` are the three outcomes of a call.
The chunk that is taken keeps its slot and its address; the rest of a split gets
the slot of its own offset, which no chunk of the list has.
-/

namespace Os20.Alloc.Page

open Os20.Lib.Segments

variable {minalloc : Nat}

/-! ## Taking a chunk -/

def PrevKept (m m' : Mman) (i k : Nat) : Prop :=
  (m'.chunks k).prev = (m.chunks k).prev ∨ ((m'.chunks k).prev = some i ∧ i < k)

def SameOutside (minalloc : Nat) (m m' : Mman) (o o' : Nat) : Prop :=
  ∀ k, k < o / minalloc ∨ o' / minalloc ≤ k → (m'.chunks k).forward = (m.chunks k).forward

structure Taken (minalloc : Nat) (m m' : Mman) (o n : Nat) (b : Block) : Prop where
  addr : m'.addr = m.addr
  chunkList : m'.chunkList = m.chunkList
  seg : Seg minalloc m'.chunks o (some (o / minalloc)) (carve n b)
    (m.chunks (o / minalloc)).next
  same : SameOutside minalloc m m' o (o + b.size)
  prev : ∀ k, PrevKept m m' (o / minalloc) k
  prevNew : ∀ k ∈ slots minalloc o (carve n b), k = o / minalloc ∨
    ((m'.chunks k).prev = some (o / minalloc) ∧ o / minalloc < k)

@[simp] theorem assign_addr (m : Mman) (i : Nat) (n : Int) : (assign m i n).addr = m.addr := by
  unfold assign
  split <;> rfl

@[simp] theorem assign_chunkList (m : Mman) (i : Nat) (n : Int) :
    (assign m i n).chunkList = m.chunkList := by
  unfold assign
  split <;> rfl

theorem assign_chunks_self {m : Mman} {i : Nat} (n : Int)
    (h : (m.chunks i).next ≠ some i) :
    (assign m i n).chunks i = { m.chunks i with assigned := true, sz := n } := by
  unfold assign
  split
  · next j hj =>
      have hne : i ≠ j := by rintro rfl; exact h hj
      rw [Mman.modify_chunks_self, Mman.modify_chunks_of_ne _ hne]
  · rw [Mman.modify_chunks_self]

theorem assign_chunks_next {m : Mman} {i j : Nat} (n : Int) (hne : j ≠ i)
    (h : (m.chunks i).next = some j) :
    (assign m i n).chunks j =
      { m.chunks j with offset := (m.chunks i).offset + n.toNat, prev := some i } := by
  simp [assign, h, hne]

theorem assign_chunks_of_ne {m : Mman} {i k : Nat} (n : Int) (hne : k ≠ i)
    (h : (m.chunks i).next ≠ some k) : (assign m i n).chunks k = m.chunks k := by
  unfold assign
  split
  · next j hj =>
      have hkj : k ≠ j := by rintro rfl; exact h hj
      rw [Mman.modify_chunks_of_ne _ hne, Mman.modify_chunks_of_ne _ hkj]
  · rw [Mman.modify_chunks_of_ne _ hne]

/-- An exact fit: the successor's offset is written over by the value it has. -/
theorem taken_of_exact {m : Mman} {o : Nat} {b : Block}
    (hc : (m.chunks (o / minalloc)).Is o b)
    (hlt : o / minalloc < (o + b.size) / minalloc)
    (hnext : ∀ j, (m.chunks (o / minalloc)).next = some j →
      j = (o + b.size) / minalloc ∧ (m.chunks j).offset = o + b.size) :
    Taken minalloc m (assign m (o / minalloc) b.size) o b.size b := by
  set i := o / minalloc with hi
  have hself : (m.chunks i).next ≠ some i := fun h => by
    have := (hnext i h).1
    omega
  refine ⟨by simp, by simp, ?_, fun k hk => ?_, fun k => ?_, fun k hk => ?_⟩
  · simp only [carve, if_true, Seg]
    rw [← hi, assign_chunks_self _ hself]
    exact ⟨trivial, ⟨hc.offset, rfl, rfl⟩, rfl⟩
  · have hki : k ≠ i := by omega
    by_cases hk : (m.chunks i).next = some k
    · rw [assign_chunks_next _ hki hk]
      simp [Chunk.forward, hc.offset, (hnext k hk).2]
    · rw [assign_chunks_of_ne _ hki hk]
  · unfold PrevKept
    by_cases hki : k = i
    · subst hki
      rw [assign_chunks_self _ hself]
      exact Or.inl rfl
    · by_cases hk : (m.chunks i).next = some k
      · rw [assign_chunks_next _ hki hk]
        exact Or.inr ⟨rfl, by have := (hnext k hk).1; omega⟩
      · rw [assign_chunks_of_ne _ hki hk]
        exact Or.inl rfl
  · left
    simpa [carve, slots] using hk

def splitAt (m : Mman) (i j : Nat) (sz : Int) : Mman :=
  (m.modify j fun _ => { sz := sz, next := (m.chunks i).next }).modify i
    fun c => { c with next := some j }

theorem split_eq_ok {m : Mman} {o n : Nat} {b : Block}
    (hc : (m.chunks (o / minalloc)).Is o b)
    (hlt : o / minalloc < (o + n) / minalloc)
    (hidx : (o + n) / minalloc < chunkBufSize minalloc)
    (hn : n < b.size) (hdvd : minalloc ∣ b.size - n) :
    split minalloc m (o / minalloc) n =
      .ok (splitAt m (o / minalloc) ((o + n) / minalloc) (b.size - n : Nat)) := by
  set i := o / minalloc
  set j := (o + n) / minalloc with hj
  have hne : i ≠ j := by omega
  have hsz : (m.chunks i).sz - (n : Int) = ((b.size - n : Nat) : Int) := by
    rw [hc.sz]
    omega
  have hmod : ((b.size - n : Nat) : Int).tmod minalloc = 0 :=
    Int.tmod_eq_zero_of_dvd (Int.natCast_dvd_natCast.mpr hdvd)
  have hnew : chunkNew minalloc m (o + n) ((b.size - n : Nat) : Int) =
      .ok (m.modify j fun _ => { sz := ((b.size - n : Nat) : Int) }, j) := by
    simp [chunkNew, hmod, hidx, ← hj]
  have hcond : (m.chunks i).sz ≠ (n : Int) := by
    rw [hc.sz]
    omega
  unfold split
  rw [if_pos hcond, hsz, hc.offset, Int.toNat_natCast, hnew]
  cases hnext : (m.chunks i).next with
  | none =>
      simp [splitAt, hnext, bind, Except.bind, pure, Except.pure]
  | some next =>
      simp only [splitAt, hnext, bind, Except.bind, pure, Except.pure, Option.isSome_some, if_true]
      congr 1
      simp only [Mman.modify, Mman.mk.injEq, true_and]
      rw [Function.update_comm hne]
      simp [hne, hne.symm]

@[simp] theorem splitAt_addr (m : Mman) (i j : Nat) (sz : Int) :
    (splitAt m i j sz).addr = m.addr := rfl

@[simp] theorem splitAt_chunkList (m : Mman) (i j : Nat) (sz : Int) :
    (splitAt m i j sz).chunkList = m.chunkList := rfl

theorem splitAt_chunks_self (m : Mman) {i j : Nat} (sz : Int) (hne : i ≠ j) :
    (splitAt m i j sz).chunks i = { m.chunks i with next := some j } := by
  rw [splitAt, Mman.modify_chunks_self, Mman.modify_chunks_of_ne _ hne]

theorem splitAt_chunks_new (m : Mman) {i j : Nat} (sz : Int) (hne : i ≠ j) :
    (splitAt m i j sz).chunks j = { sz := sz, next := (m.chunks i).next } := by
  rw [splitAt, Mman.modify_chunks_of_ne _ hne.symm, Mman.modify_chunks_self]

theorem splitAt_chunks_of_ne (m : Mman) {i j k : Nat} (sz : Int) (hi : k ≠ i) (hj : k ≠ j) :
    (splitAt m i j sz).chunks k = m.chunks k := by
  rw [splitAt, Mman.modify_chunks_of_ne _ hi, Mman.modify_chunks_of_ne _ hj]

/-- A split: the new chunk takes the place between the two pieces. -/
theorem taken_of_split {m : Mman} {o n : Nat} {b : Block}
    (hc : (m.chunks (o / minalloc)).Is o b)
    (hlt : o / minalloc < (o + n) / minalloc)
    (hlt' : (o + n) / minalloc < (o + b.size) / minalloc) (hn : n < b.size) :
    Taken minalloc m (assign (splitAt m (o / minalloc) ((o + n) / minalloc)
      (b.size - n : Nat)) (o / minalloc) n) o n b := by
  set i := o / minalloc with hi
  set j := (o + n) / minalloc with hj
  have hne : i ≠ j := by omega
  set s := splitAt m i j (b.size - n : Nat)
  have hsi : s.chunks i = { m.chunks i with next := some j } := splitAt_chunks_self m _ hne
  have hsj : s.chunks j = { sz := (b.size - n : Nat), next := (m.chunks i).next } :=
    splitAt_chunks_new m _ hne
  have hnext : (s.chunks i).next = some j := by rw [hsi]
  have hself : (s.chunks i).next ≠ some i := by
    rw [hnext]
    simpa using hne.symm
  refine ⟨by simp [s], by simp [s], ?_, fun k hk => ?_, fun k => ?_, fun k hk => ?_⟩
  · rw [carve, if_neg (by omega)]
    simp only [Seg, ← hi, ← hj]
    rw [assign_chunks_self _ hself, assign_chunks_next _ hne.symm hnext, hsi, hsj]
    exact ⟨trivial, ⟨hc.offset, rfl, rfl⟩, rfl, ⟨by simp [hc.offset], rfl, rfl⟩, rfl⟩
  · have hki : k ≠ i := by omega
    have hkj : k ≠ j := by omega
    rw [assign_chunks_of_ne _ hki (by rw [hnext]; simpa using hkj.symm),
      splitAt_chunks_of_ne m _ hki hkj]
  · unfold PrevKept
    by_cases hki : k = i
    · subst hki
      rw [assign_chunks_self _ hself, hsi]
      exact Or.inl rfl
    · by_cases hkj : k = j
      · subst hkj
        rw [assign_chunks_next _ hki hnext]
        exact Or.inr ⟨rfl, hlt⟩
      · rw [assign_chunks_of_ne _ hki (by rw [hnext]; simpa using Ne.symm hkj),
          splitAt_chunks_of_ne m _ hki hkj]
        exact Or.inl rfl
  · rw [carve, if_neg (by omega)] at hk
    simp only [slots, ← hi, ← hj, List.mem_cons, List.not_mem_nil, or_false] at hk
    rcases hk with rfl | rfl
    · exact Or.inl rfl
    · rw [assign_chunks_next _ hne.symm hnext]
      exact Or.inr ⟨rfl, hlt⟩

/-- The two shapes together: `alloc` never faults at a free chunk that fits. -/
theorem exists_taken {m : Mman} {o n : Nat} {b : Block} {rest : List Block}
    (ho : minalloc ∣ o) (hb : minalloc ∣ b.size) (hn : 0 < n) (hdvd : minalloc ∣ n)
    (hfit : n ≤ b.size) (hend : o + b.size ≤ pagesize) (hpage : minalloc ∣ pagesize)
    (h : Seg minalloc m.chunks o (some (o / minalloc)) (b :: rest) none) :
    ∃ s, split minalloc m (o / minalloc) n = .ok s ∧
      Taken minalloc m (assign s (o / minalloc) n) o n b := by
  obtain ⟨-, hc, hrest⟩ := h
  have hlt : o / minalloc < (o + n) / minalloc :=
    Nat.div_lt_div_of_lt_of_dvd (Nat.dvd_add ho hdvd) (by omega)
  rcases Nat.lt_or_eq_of_le hfit with hsmall | rfl
  · have hlt' : (o + n) / minalloc < (o + b.size) / minalloc :=
      Nat.div_lt_div_of_lt_of_dvd (Nat.dvd_add ho hb) (by omega)
    have hidx : (o + n) / minalloc < chunkBufSize minalloc :=
      Nat.div_lt_div_of_lt_of_dvd hpage (by omega)
    exact ⟨_, split_eq_ok hc hlt hidx hsmall (Nat.dvd_sub hb hdvd),
      taken_of_split hc hlt hlt' hsmall⟩
  · refine ⟨m, ?_, taken_of_exact hc hlt fun j hj => ?_⟩
    · rw [split, if_neg (by simp [hc.sz])]
      rfl
    · cases rest with
      | nil =>
          rw [Seg, hj] at hrest
          cases hrest
      | cons c cs =>
          obtain ⟨hstart, his, -⟩ := hrest
          rw [hj] at hstart
          obtain rfl := Option.some.inj hstart
          exact ⟨rfl, his.offset⟩

def PrevBelow (m : Mman) (is : List Nat) : Prop :=
  ∀ i ∈ is, ∀ j, (m.chunks i).prev = some j → j < i

theorem PrevKept.below {m m' : Mman} {i k : Nat} (h : PrevKept m m' i k)
    (hbelow : ∀ j, (m.chunks k).prev = some j → j < k) :
    ∀ j, (m'.chunks k).prev = some j → j < k := by
  intro j hj
  rcases h with hsame | ⟨hi, hlt⟩
  · exact hbelow j (hsame ▸ hj)
  · rw [hi] at hj
    obtain rfl := Option.some.inj hj
    exact hlt

section Tiles

variable {m m' : Mman} {pre post : List Block} {b : Block} {n : Nat}

theorem Tiles.at (h : Tiles minalloc m (pre ++ b :: post)) :
    minalloc ∣ extent pre ∧
      Seg minalloc m.chunks 0 m.chunkList pre (some (extent pre / minalloc)) ∧
      Seg minalloc m.chunks (extent pre) (some (extent pre / minalloc)) (b :: post) none := by
  obtain ⟨mid, hpre, hrest⟩ := seg_append.mp h.seg
  rw [Nat.zero_add] at hrest
  obtain rfl : mid = some (extent pre / minalloc) := hrest.1
  exact ⟨(sized_append.mp h.sized).1.dvd_extent, hpre, hrest⟩

theorem Taken.tiles (ht : Tiles minalloc m (pre ++ b :: post))
    (hn : 0 < n) (hdvd : minalloc ∣ n) (hfit : n ≤ b.size)
    (h : Taken minalloc m m' (extent pre) n b) :
    Tiles minalloc m' (pre ++ (carve n b ++ post)) := by
  obtain ⟨hdvd', hpre, hrest⟩ := ht.at
  have hsized := ht.sized
  have hext := ht.covers
  rw [sized_append, sized_cons] at hsized
  rw [extent_append, extent_cons] at hext
  obtain ⟨-, -, hpost⟩ := hrest
  refine ⟨?_, ?_, ?_⟩
  · rw [seg_append]
    refine ⟨some (extent pre / minalloc), ?_, ?_⟩
    · rw [h.chunkList]
      apply hpre.congr
      intro k hk
      have := (slots_bounds (Nat.dvd_zero _) hsized.1 hk).2
      exact h.same k (Or.inl (by simpa using this))
    · rw [Nat.zero_add, seg_append]
      refine ⟨_, h.seg, ?_⟩
      rw [extent_carve hfit]
      apply hpost.congr
      intro k hk
      have := (slots_bounds (Nat.dvd_add hdvd' hsized.2.1.2) hsized.2.2 hk).1
      exact h.same k (Or.inr this)
  · rw [extent_append, extent_append, extent_carve hfit]
    exact hext
  · rw [sized_append, sized_append]
    exact ⟨hsized.1, sized_carve hn hdvd hsized.2.1.2 hfit, hsized.2.2⟩

theorem Taken.prevBelow (h : Taken minalloc m m' (extent pre) n b) (hfit : n ≤ b.size)
    (hbelow : PrevBelow m (slots minalloc 0 (pre ++ b :: post))) :
    PrevBelow m' (slots minalloc 0 (pre ++ (carve n b ++ post))) := by
  intro k hk
  rw [slots_append, slots_append, extent_carve hfit] at hk
  rw [slots_append, slots] at hbelow
  simp only [List.mem_append, Nat.zero_add] at hk
  rcases hk with hk | hk | hk
  · exact (h.prev k).below (hbelow k (by simp [hk]))
  · rcases h.prevNew k hk with rfl | ⟨hprev, hlt⟩
    · exact (h.prev _).below (hbelow _ (by simp))
    · intro j hj
      rw [hprev] at hj
      obtain rfl := Option.some.inj hj
      exact hlt
  · exact (h.prev k).below (hbelow k (by simp [hk]))

/-- `alloc` on a page where some free chunk fits: the first such chunk is taken. -/
theorem alloc_fit (hpos : 0 < minalloc) (hpage : minalloc ∣ pagesize)
    (ht : Tiles minalloc m (pre ++ b :: post)) (hn : 0 < n) (hdvd : minalloc ∣ n)
    (hb : b.used = false) (hfit : n ≤ b.size)
    (hfirst : ∀ c ∈ pre, c.used = false → c.size < n) :
    ∃ m', alloc minalloc m n = .ok (m', some (m.addr + extent pre)) ∧
      Taken minalloc m m' (extent pre) n b := by
  obtain ⟨hdvd', -, hrest⟩ := ht.at
  have hsized := ht.sized
  have hext := ht.covers
  rw [sized_append, sized_cons] at hsized
  rw [extent_append, extent_cons] at hext
  have hfound := firstFit_eq_some (ht.length_le hpos) ht.seg hb hfit hfirst
  rw [Nat.zero_add] at hfound
  obtain ⟨s, hsplit, htaken⟩ := exists_taken hdvd' hsized.2.1.2 hn hdvd hfit
    (by omega) hpage hrest
  have hmod : (n : Int).tmod minalloc = 0 :=
    Int.tmod_eq_zero_of_dvd (Int.natCast_dvd_natCast.mpr hdvd)
  have hle : ¬((n : Int) < minalloc) := by
    have := Nat.le_of_dvd hn hdvd
    omega
  have hoff : ((assign s (extent pre / minalloc) n).chunks (extent pre / minalloc)).offset =
      extent pre := by
    have hseg := htaken.seg
    unfold carve at hseg
    split at hseg
    · exact hseg.2.1.offset
    · exact hseg.2.1.offset
  refine ⟨assign s (extent pre / minalloc) n, ?_, htaken⟩
  rw [alloc, if_neg (by simpa using hmod), if_neg hle, hfound]
  simp only [bind, Except.bind, hsplit, pure, Except.pure, hoff, htaken.addr]

theorem alloc_noFit {bs : List Block} (hpos : 0 < minalloc) (ht : Tiles minalloc m bs)
    (hn : 0 < n) (hdvd : minalloc ∣ n) (hnofit : ∀ c ∈ bs, c.used = false → c.size < n) :
    alloc minalloc m n = .ok (m, none) := by
  have hfound := firstFit_eq_none (ht.length_le hpos) ht.seg hnofit
  have hmod : (n : Int).tmod minalloc = 0 :=
    Int.tmod_eq_zero_of_dvd (Int.natCast_dvd_natCast.mpr hdvd)
  have hle : ¬((n : Int) < minalloc) := by
    have := Nat.le_of_dvd hn hdvd
    omega
  rw [alloc, if_neg (by simpa using hmod), if_neg hle, hfound]
  rfl

end Tiles

theorem alloc_invalid {m : Mman} {size : Int} (hpos : 0 < minalloc)
    (h : ¬∃ n : Nat, size = n ∧ 0 < n ∧ minalloc ∣ n) :
    alloc minalloc m size = .ok (m, none) := by
  rw [alloc]
  by_cases hmod : size.tmod minalloc = 0
  · rw [if_neg (by simpa using hmod), if_pos]
    · rfl
    · by_contra hle
      refine h ⟨size.toNat, by omega, by omega, ?_⟩
      have hdvd := Int.dvd_of_tmod_eq_zero hmod
      rw [← Int.natCast_dvd_natCast, Int.toNat_of_nonneg (by omega)]
      exact hdvd
  · rw [if_pos hmod]
    rfl

end Os20.Alloc.Page
