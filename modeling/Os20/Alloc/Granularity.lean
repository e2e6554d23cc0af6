import Os20.Alloc.Take
import Os20.Lib.Search
import Os20.Lib.Simulation

/-!
# The page allocator at two granularities

A page with slots of `unit` bytes and one with slots of `ratio * unit` bytes do the same on
requests that are multiples of the coarse unit: slot `k` of the coarse page is slot `ratio * k`
of the fine one.  Nothing is assumed about the list, so the walk may go round a cycle; then it
does so on both pages.
-/

namespace Os20.Alloc.Page

open Os20.Lib.Search Os20.Lib.Simulation

/-! ## The walk of `alloc` -/

def Fits (m : Mman) (size : Int) (i : Nat) : Prop :=
  (m.chunks i).assigned = false ∧ size ≤ (m.chunks i).sz

theorem firstFit_eq_ok_iff {m : Mman} {size : Int} {fuel : Nat} {start result : Option Nat} :
    firstFit m size fuel start = .ok result ↔
      ∃ path, Finds (Fits m size) (fun i => (m.chunks i).next) start path result ∧
        path.length ≤ fuel := by
  induction fuel generalizing start with
  | zero =>
      cases start with
      | none =>
          constructor
          · intro h
            cases h
            exact ⟨[], .nowhere, Nat.le_refl 0⟩
          · rintro ⟨path, hfinds, -⟩
            cases hfinds
            rfl
      | some i =>
          constructor
          · intro h
            cases h
          · rintro ⟨path, hfinds, hlen⟩
            cases hfinds <;> cases hlen
  | succ fuel ih =>
      cases start with
      | none =>
          constructor
          · intro h
            cases h
            exact ⟨[], .nowhere, Nat.zero_le _⟩
          · rintro ⟨path, hfinds, -⟩
            cases hfinds
            rfl
      | some i =>
          by_cases hfits : Fits m size i
          · have hle : ¬size > (m.chunks i).sz := Int.not_lt.mpr hfits.2
            rw [firstFit, if_neg (by simp [hfits.1]), if_neg hle]
            constructor
            · intro h
              cases h
              exact ⟨[i], .here hfits, by simp⟩
            · rintro ⟨path, hfinds, -⟩
              obtain ⟨-, rfl⟩ := hfinds.unique (.here hfits)
              rfl
          · have hpass : firstFit m size (fuel + 1) (some i) =
                firstFit m size fuel (m.chunks i).next := by
              rw [firstFit]
              split
              · rfl
              · next hfree =>
                  rw [if_pos]
                  by_contra hgt
                  exact hfits ⟨Bool.eq_false_iff.mpr hfree, Int.not_lt.mp hgt⟩
            rw [hpass, ih]
            constructor
            · rintro ⟨path, hfinds, hlen⟩
              exact ⟨i :: path, .pass hfits hfinds, Nat.succ_le_succ hlen⟩
            · rintro ⟨path, hfinds, hlen⟩
              cases hfinds with
              | here h => exact absurd h hfits
              | pass _ hrest => exact ⟨_, hrest, Nat.le_of_succ_le_succ hlen⟩

theorem firstFit_eq_error {m : Mman} {size : Int} {fuel : Nat} {start : Option Nat} {e : Fault}
    (h : firstFit m size fuel start = .error e) : e = .diverge := by
  induction fuel generalizing start with
  | zero =>
      cases start with
      | none => cases h
      | some i =>
          cases h
          rfl
  | succ fuel ih =>
      cases start with
      | none => cases h
      | some i =>
          rw [firstFit] at h
          split at h
          · exact ih h
          · split at h
            · exact ih h
            · cases h

/-! ## Corresponding pages -/

/-- The links of `c` as links of a page with `ratio` times as many slots. -/
def Chunk.scale (ratio : Nat) (c : Chunk) : Chunk :=
  { c with next := c.next.map (ratio * ·), prev := c.prev.map (ratio * ·) }

/-- Sizes are in whole units, and `next` is a slot of the page. -/
structure Chunk.Whole (unit : Nat) (c : Chunk) : Prop where
  offset : unit ∣ c.offset
  sz : (unit : Int) ∣ c.sz
  next : ∀ j, c.next = some j → j < chunkBufSize unit

/-- Slot `k` of `coarse`, a page at `b`, is slot `ratio * k` of `fine`, a page at `a`. -/
structure Agree (unit ratio a b : Nat) (fine coarse : Mman) : Prop where
  fineAddr : fine.addr = a
  coarseAddr : coarse.addr = b
  chunkList : fine.chunkList = coarse.chunkList.map (ratio * ·)
  chunk : ∀ k, fine.chunks (ratio * k) = (coarse.chunks k).scale ratio
  head : ∀ j, coarse.chunkList = some j → j < chunkBufSize (ratio * unit)
  whole : ∀ k, (coarse.chunks k).Whole (ratio * unit)

section Agree

variable {unit ratio a b : Nat} {m s : Mman}

theorem Agree.modify (hratio : 0 < ratio) (h : Agree unit ratio a b m s) (i : Nat)
    {f g : Chunk → Chunk} (hfg : f ((s.chunks i).scale ratio) = (g (s.chunks i)).scale ratio)
    (hwhole : (g (s.chunks i)).Whole (ratio * unit)) :
    Agree unit ratio a b (m.modify (ratio * i) f) (s.modify i g) := by
  refine ⟨h.fineAddr, h.coarseAddr, h.chunkList, fun k => ?_, h.head, fun k => ?_⟩
  · by_cases hk : k = i
    · subst hk
      rw [Mman.modify_chunks_self, Mman.modify_chunks_self, h.chunk, hfg]
    · have hne : ratio * k ≠ ratio * i := fun heq => hk (Nat.eq_of_mul_eq_mul_left hratio heq)
      rw [Mman.modify_chunks_of_ne m hne, Mman.modify_chunks_of_ne s hk, h.chunk]
  · by_cases hk : k = i
    · subst hk
      rwa [Mman.modify_chunks_self]
    · rw [Mman.modify_chunks_of_ne s hk]
      exact h.whole k

theorem Agree.setPrev (hratio : 0 < ratio) (h : Agree unit ratio a b m s) (next : Option Nat)
    (p : Nat) :
    Agree unit ratio a b (m.setPrev (next.map (ratio * ·)) (ratio * p)) (s.setPrev next p) := by
  cases next with
  | none => exact h
  | some next =>
      have hwhole := h.whole next
      exact h.modify hratio next (f := fun c => { c with prev := some (ratio * p) })
        (g := fun c => { c with prev := some p }) rfl ⟨hwhole.offset, hwhole.sz, hwhole.next⟩

theorem slot_eq {o : Nat} (hunit : 0 < unit) (ho : ratio * unit ∣ o) :
    o / unit = ratio * (o / (ratio * unit)) := by
  obtain ⟨q, rfl⟩ := ho
  rcases Nat.eq_zero_or_pos ratio with rfl | hratio
  · simp
  · rw [Nat.mul_div_cancel_left _ (Nat.mul_pos hratio hunit), Nat.mul_comm ratio unit,
      Nat.mul_assoc, Nat.mul_div_cancel_left _ hunit]

theorem slot_lt_iff {i : Nat} (hunit : 0 < unit) (hratio : 0 < ratio)
    (hpage : ratio * unit ∣ pagesize) :
    ratio * i < chunkBufSize unit ↔ i < chunkBufSize (ratio * unit) := by
  rw [chunkBufSize, chunkBufSize, slot_eq hunit hpage]
  exact Nat.mul_lt_mul_left hratio

theorem dvd_of_coarse {z : Int} (hz : ((ratio * unit : Nat) : Int) ∣ z) : (unit : Int) ∣ z := by
  rw [Int.natCast_mul] at hz
  exact (Int.dvd_mul_left _ _).trans hz

/-! ## The functions -/

variable (hunit : 0 < unit) (hratio : 0 < ratio) (hpage : ratio * unit ∣ pagesize)
include hunit hratio hpage

theorem Agree.chunkNew (h : Agree unit ratio a b m s) {offset : Nat} {sz : Int}
    (ho : ratio * unit ∣ offset) (hsz : ((ratio * unit : Nat) : Int) ∣ sz) :
    Same (fun x y => Agree unit ratio a b x.1 y.1 ∧ x.2 = ratio * y.2 ∧
        y.2 < chunkBufSize (ratio * unit))
      (chunkNew unit m offset sz) (chunkNew (ratio * unit) s offset sz) := by
  have hfine : sz.tmod unit = 0 := Int.tmod_eq_zero_of_dvd (dvd_of_coarse hsz)
  have hcoarse : sz.tmod (ratio * unit : Nat) = 0 := Int.tmod_eq_zero_of_dvd hsz
  simp only [Page.chunkNew, hfine, hcoarse, ne_eq, not_true_eq_false, if_false,
    slot_eq hunit ho, slot_lt_iff hunit hratio hpage]
  split
  · next hidx =>
      have h' := h.modify hratio (offset / (ratio * unit)) (f := fun _ => { sz := sz })
        (g := fun _ => { sz := sz }) rfl ⟨Nat.dvd_zero _, hsz, by simp⟩
      exact .ok ⟨h', rfl, hidx⟩
  · exact .error _

theorem Agree.firstFit (h : Agree unit ratio a b m s) (size : Int) :
    Same (fun x y => x = y.map (ratio * ·))
      (firstFit m size (chunkBufSize unit) m.chunkList)
      (firstFit s size (chunkBufSize (ratio * unit)) s.chunkList) := by
  have hstop (i : Nat) : Fits m size (ratio * i) ↔ Fits s size i := by
    rw [Fits, Fits, h.chunk]
    exact Iff.rfl
  have hnext (i : Nat) : (m.chunks (ratio * i)).next = (s.chunks i).next.map (ratio * ·) := by
    rw [h.chunk]
    rfl
  have hle : chunkBufSize (ratio * unit) ≤ chunkBufSize unit := by
    rw [chunkBufSize, chunkBufSize, slot_eq hunit hpage]
    exact Nat.le_mul_of_pos_left _ hratio
  -- a walk of the coarse page that ends has passed every slot at most once
  have hshort {path : List Nat} {result : Option Nat}
      (hfinds : Finds (Fits s size) (fun i => (s.chunks i).next) s.chunkList path result) :
      path.length ≤ chunkBufSize (ratio * unit) := by
    have hinside := hfinds.forall_mem h.head fun i => (h.whole i).next
    simpa using hfinds.length_le (List.range (chunkBufSize (ratio * unit)))
      fun i hi => List.mem_range.mpr (hinside i hi)
  cases hs : Page.firstFit s size (chunkBufSize (ratio * unit)) s.chunkList with
  | ok result =>
      obtain ⟨path, hfinds, hlen⟩ := firstFit_eq_ok_iff.mp hs
      have hfinds' : Finds (Fits m size) (fun i => (m.chunks i).next)
          (s.chunkList.map (ratio * ·)) (path.map (ratio * ·)) (result.map (ratio * ·)) :=
        hfinds.map hstop hnext
      rw [← h.chunkList] at hfinds'
      rw [firstFit_eq_ok_iff.mpr ⟨_, hfinds', by simpa using hlen.trans hle⟩]
      exact .ok rfl
  | error e =>
      cases hm : Page.firstFit m size (chunkBufSize unit) m.chunkList with
      | ok result =>
          obtain ⟨path, hfinds, -⟩ := firstFit_eq_ok_iff.mp hm
          rw [h.chunkList] at hfinds
          obtain ⟨path', result', hfinds', -, -⟩ := hfinds.of_map hstop hnext
          rw [firstFit_eq_ok_iff.mpr ⟨path', hfinds', hshort hfinds'⟩] at hs
          cases hs
      | error e' =>
          rw [firstFit_eq_error hs, firstFit_eq_error hm]
          exact .error _

theorem Agree.split (h : Agree unit ratio a b m s) (i : Nat) {size : Int} (hpos : 0 ≤ size)
    (hsize : ((ratio * unit : Nat) : Int) ∣ size) :
    Same (Agree unit ratio a b) (split unit m (ratio * i) size)
      (split (ratio * unit) s i size) := by
  have hwhole := h.whole i
  have hoff : ratio * unit ∣ (s.chunks i).offset + size.toNat := by
    refine Nat.dvd_add hwhole.offset ?_
    rw [← Int.natCast_dvd_natCast, Int.toNat_of_nonneg hpos]
    exact hsize
  simp only [Page.split, h.chunk i, Chunk.scale]
  split
  · refine (h.chunkNew hunit hratio hpage hoff (Int.dvd_sub hwhole.sz hsize)).bind ?_
    rintro ⟨m', i'⟩ ⟨s', j⟩ ⟨h', rfl, hj⟩
    have hlink := h'.modify hratio i (f := fun c => { c with next := some (ratio * j) })
      (g := fun c => { c with next := some j }) rfl
      ⟨(h'.whole i).offset, (h'.whole i).sz, by simpa using hj⟩
    rw [Option.isSome_map]
    split
    · have hnew := hlink.whole j
      exact .ok (hlink.modify hratio j rfl ⟨hnew.offset, hnew.sz, hwhole.next⟩)
    · exact .ok hlink
  · exact .ok h

omit hunit hpage in
theorem Agree.assign (h : Agree unit ratio a b m s) (i : Nat) {size : Int} (hpos : 0 ≤ size)
    (hsize : ((ratio * unit : Nat) : Int) ∣ size) :
    Agree unit ratio a b (assign m (ratio * i) size) (assign s i size) := by
  have hwhole := h.whole i
  have hoff : ratio * unit ∣ (s.chunks i).offset + size.toNat := by
    refine Nat.dvd_add hwhole.offset ?_
    rw [← Int.natCast_dvd_natCast, Int.toNat_of_nonneg hpos]
    exact hsize
  simp only [Page.assign, h.chunk i, Chunk.scale]
  cases hnext : (s.chunks i).next with
  | none => exact h.modify hratio i rfl ⟨hwhole.offset, hsize, hwhole.next⟩
  | some j =>
      have hj := h.whole j
      have h' := h.modify hratio j
        (f := fun c => { c with
          offset := (s.chunks i).offset + size.toNat, prev := some (ratio * i) })
        (g := fun c => { c with offset := (s.chunks i).offset + size.toNat, prev := some i }) rfl
        ⟨hoff, hj.sz, hj.next⟩
      have hi := h'.whole i
      exact h'.modify hratio i rfl ⟨hi.offset, hsize, hi.next⟩

/-- The offset that a request returns is the same on both pages. -/
theorem Agree.alloc (h : Agree unit ratio a b m s) {size : Int}
    (hsize : ((ratio * unit : Nat) : Int) ∣ size) :
    Same (fun x y => Agree unit ratio a b x.1 y.1 ∧ ∃ offset : Option Nat,
        (∀ o ∈ offset, ratio * unit ∣ o) ∧ x.2 = offset.map (a + ·) ∧ y.2 = offset.map (b + ·))
      (alloc unit m size) (alloc (ratio * unit) s size) := by
  have hfine : size.tmod unit = 0 := Int.tmod_eq_zero_of_dvd (dvd_of_coarse hsize)
  have hcoarse : size.tmod (ratio * unit : Nat) = 0 := Int.tmod_eq_zero_of_dvd hsize
  have hsmall : size < unit ↔ size < (ratio * unit : Nat) := by
    have hle : unit ≤ ratio * unit := Nat.le_mul_of_pos_left _ hratio
    obtain ⟨z, rfl⟩ := hsize
    by_cases hz : z ≤ 0
    · have := Int.mul_le_mul_of_nonneg_left hz (Int.natCast_nonneg (ratio * unit))
      omega
    · have hone : 1 ≤ z := by omega
      have := Int.mul_le_mul_of_nonneg_left hone (Int.natCast_nonneg (ratio * unit))
      omega
  simp only [Page.alloc, hfine, hcoarse, ne_eq, not_true_eq_false, if_false, hsmall]
  split
  · exact .ok ⟨h, none, by simp, rfl, rfl⟩
  · next hge =>
      have hpos : 0 ≤ size := by omega
      refine (h.firstFit hunit hratio hpage size).bind ?_
      rintro i j rfl
      cases j with
      | none => exact .ok ⟨h, none, by simp, rfl, rfl⟩
      | some i =>
          refine (h.split hunit hratio hpage i hpos hsize).bind fun m' s' h' => ?_
          have hassign := h'.assign hratio i hpos hsize
          refine .ok ⟨hassign, some ((Page.assign s' i size).chunks i).offset, ?_, ?_, ?_⟩
          · simpa using (hassign.whole i).offset
          · rw [hassign.fineAddr, hassign.chunk]
            rfl
          · rw [hassign.coarseAddr]
            rfl

omit hunit hpage in
theorem Agree.mergeRight (h : Agree unit ratio a b m s) (i : Nat) :
    Agree unit ratio a b (mergeRight m (ratio * i)) (mergeRight s i) := by
  -- both branches end with `piv->assigned = false`
  have hrelease {m s : Mman} (h : Agree unit ratio a b m s) :
      Agree unit ratio a b (m.modify (ratio * i) fun c => { c with assigned := false })
        (s.modify i fun c => { c with assigned := false }) := by
    have hi := h.whole i
    exact h.modify hratio i rfl ⟨hi.offset, hi.sz, hi.next⟩
  simp only [Page.mergeRight, h.chunk i, Chunk.scale]
  cases hnext : (s.chunks i).next with
  | none => exact hrelease h
  | some j =>
      simp only [Option.map_some, h.chunk j, Chunk.scale]
      split
      · have h' := h.setPrev hratio (s.chunks j).next i
        have hi := h'.whole i
        have hj := h'.whole j
        refine hrelease (h'.modify hratio i ?_ ⟨hi.offset, Int.dvd_add hi.sz hj.sz, hj.next⟩)
        rw [h'.chunk j]
        rfl
      · exact hrelease h

omit hunit hpage in
theorem Agree.mergeLeft (h : Agree unit ratio a b m s) (i : Nat) (l : Option Nat) :
    Agree unit ratio a b (mergeLeft m (ratio * i) (l.map (ratio * ·))) (mergeLeft s i l) := by
  cases l with
  | none => exact h
  | some l =>
      simp only [Option.map_some, Page.mergeLeft, h.chunk l, h.chunk i, Chunk.scale]
      split
      · exact h
      · have h' := h.setPrev hratio (s.chunks i).next l
        have hl := h'.whole l
        have hi := h'.whole i
        refine h'.modify hratio l ?_ ⟨hl.offset, Int.dvd_add hl.sz hi.sz, hi.next⟩
        rw [h'.chunk i]
        rfl

theorem Agree.dealloc (h : Agree unit ratio a b m s) {offset : Nat}
    (ho : ratio * unit ∣ offset) :
    Same (Agree unit ratio a b) (dealloc unit m (a + offset))
      (dealloc (ratio * unit) s (b + offset)) := by
  have hfine : victim unit m (a + offset) = ratio * (offset / (ratio * unit)) := by
    rw [victim, h.fineAddr, Nat.add_sub_cancel_left, slot_eq hunit ho]
  have hcoarse : victim (ratio * unit) s (b + offset) = offset / (ratio * unit) := by
    rw [victim, h.coarseAddr, Nat.add_sub_cancel_left]
  simp only [Page.dealloc, hfine, hcoarse, h.fineAddr, h.coarseAddr, Nat.le_add_right, true_and,
    slot_lt_iff hunit hratio hpage, h.chunk, Chunk.scale]
  split
  · exact .ok ((h.mergeRight hratio _).mergeLeft hratio _ _)
  · exact .error _

theorem Agree.initAlloc (h : Agree unit ratio a b m s) (a' b' : Nat) :
    Same (fun x y => Agree unit ratio a' b' x.1 y.1) (initAlloc unit m (some a'))
      (initAlloc (ratio * unit) s (some b')) := by
  have hmoved : Agree unit ratio a' b' { m with addr := a' } { s with addr := b' } :=
    ⟨rfl, rfl, h.chunkList, h.chunk, h.head, h.whole⟩
  refine (hmoved.chunkNew hunit hratio hpage (Nat.dvd_zero _)
    (Int.natCast_dvd_natCast.mpr hpage)).bind ?_
  rintro ⟨m', i⟩ ⟨s', j⟩ ⟨h', rfl, hj⟩
  have hwhole := h'.whole j
  have hoffset := h'.modify hratio j (f := fun c => { c with offset := 0 })
    (g := fun c => { c with offset := 0 }) rfl ⟨Nat.dvd_zero _, hwhole.sz, hwhole.next⟩
  exact .ok ⟨hoffset.fineAddr, hoffset.coarseAddr, rfl, hoffset.chunk, by simpa using hj,
    hoffset.whole⟩

end Agree

end Os20.Alloc.Page
