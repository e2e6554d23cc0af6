import Os20.Lib.Segments
import Os20.Alloc.Page
import Mathlib.Algebra.Order.Group.Nat
import Mathlib.Algebra.Ring.Int.Defs

/-!
# The chunk list as a tiling of the page

`Tiles m bs` says that the `next` links of `m` lead through chunks that lie end
to end from offset 0 to the end of the page, each in the slot of its offset, and
that `bs` are their sizes and statuses.  Nothing is said about `prev`.

This module has the list segments a tiling is made of and the walks over them;
the effects of `alloc` and `dealloc` on the tiling are in the modules after it.
-/

namespace Os20.Alloc.Page

open Os20.Lib.Segments

def Chunk.forward (c : Chunk) : Chunk := { c with prev := none }

structure Chunk.Is (c : Chunk) (o : Nat) (b : Block) : Prop where
  offset : c.offset = o
  sz : c.sz = b.size
  assigned : c.assigned = b.used

theorem Chunk.Is.congr {c c' : Chunk} {o : Nat} {b : Block} (h : c.Is o b)
    (hc : c'.forward = c.forward) : c'.Is o b := by
  cases c
  cases c'
  simp only [Chunk.forward, Chunk.mk.injEq] at hc
  obtain ⟨-, -, rfl, rfl, rfl⟩ := hc
  exact ⟨h.offset, h.sz, h.assigned⟩

theorem Chunk.next_congr {c c' : Chunk} (hc : c'.forward = c.forward) : c'.next = c.next := by
  simpa [Chunk.forward] using congrArg Chunk.next hc

variable {minalloc : Nat}

/-- From `start` the links lead, through chunks that stand for `bs` one after the other from
offset `o`, to `stop`. -/
def Seg (minalloc : Nat) (chunks : Nat → Chunk) :
    Nat → Option Nat → List Block → Option Nat → Prop
  | _, start, [], stop => start = stop
  | o, start, b :: bs, stop =>
      start = some (o / minalloc) ∧ (chunks (o / minalloc)).Is o b ∧
        Seg minalloc chunks (o + b.size) (chunks (o / minalloc)).next bs stop

def slots (minalloc : Nat) : Nat → List Block → List Nat
  | _, [] => []
  | o, b :: bs => o / minalloc :: slots minalloc (o + b.size) bs

structure Tiles (minalloc : Nat) (m : Mman) (bs : List Block) : Prop where
  seg : Seg minalloc m.chunks 0 m.chunkList bs none
  covers : extent bs = pagesize
  sized : Sized minalloc bs

/-! ## List segments -/

theorem seg_append {chunks : Nat → Chunk} {o : Nat} {start stop : Option Nat}
    {bs cs : List Block} :
    Seg minalloc chunks o start (bs ++ cs) stop ↔
      ∃ mid, Seg minalloc chunks o start bs mid ∧
        Seg minalloc chunks (o + extent bs) mid cs stop := by
  induction bs generalizing o start with
  | nil => simp [Seg]
  | cons b bs ih =>
      simp only [List.cons_append, Seg, extent_cons, ih, ← Nat.add_assoc]
      constructor
      · rintro ⟨hstart, hb, mid, hbs, hcs⟩
        exact ⟨mid, ⟨hstart, hb, hbs⟩, hcs⟩
      · rintro ⟨mid, ⟨hstart, hb, hbs⟩, hcs⟩
        exact ⟨hstart, hb, mid, hbs, hcs⟩

theorem Seg.congr {chunks chunks' : Nat → Chunk} {o : Nat} {start stop : Option Nat}
    {bs : List Block}
    (hsame : ∀ i ∈ slots minalloc o bs, (chunks' i).forward = (chunks i).forward)
    (h : Seg minalloc chunks o start bs stop) : Seg minalloc chunks' o start bs stop := by
  induction bs generalizing o start with
  | nil => exact h
  | cons b bs ih =>
      obtain ⟨hstart, hb, hbs⟩ := h
      have hhead := hsame (o / minalloc) (by simp [slots])
      refine ⟨hstart, hb.congr hhead, ?_⟩
      rw [Chunk.next_congr hhead]
      exact ih (fun i hi => hsame i (by simp [slots, hi])) hbs

theorem Seg.eq_of_start {chunks : Nat → Chunk} {o k : Nat} {bs : List Block}
    (h : Seg minalloc chunks o (some k) bs none) : k = o / minalloc := by
  cases bs with
  | nil => simp [Seg] at h
  | cons b bs => exact Option.some.inj h.1

theorem slots_append (o : Nat) (bs cs : List Block) :
    slots minalloc o (bs ++ cs) = slots minalloc o bs ++ slots minalloc (o + extent bs) cs := by
  induction bs generalizing o with
  | nil => simp [slots]
  | cons b bs ih => simp [slots, ih, Nat.add_assoc]

theorem slots_bounds {o i : Nat} {bs : List Block} (ho : minalloc ∣ o)
    (hsized : Sized minalloc bs) (hi : i ∈ slots minalloc o bs) :
    o / minalloc ≤ i ∧ i < (o + extent bs) / minalloc := by
  induction bs generalizing o with
  | nil => simp [slots] at hi
  | cons b bs ih =>
      rw [sized_cons] at hsized
      have ho' : minalloc ∣ o + b.size := Nat.dvd_add ho hsized.1.2
      have hlt : o / minalloc < (o + b.size) / minalloc :=
        Nat.div_lt_div_of_lt_of_dvd ho' (by omega)
      have hle : (o + b.size) / minalloc ≤ (o + b.size + extent bs) / minalloc :=
        Nat.div_le_div_right (by omega)
      rw [extent_cons, ← Nat.add_assoc]
      rw [slots, List.mem_cons] at hi
      rcases hi with rfl | hi
      · omega
      · have := ih ho' hsized.2 hi
        omega

theorem exists_of_mem_slots {o i : Nat} {bs : List Block} (hi : i ∈ slots minalloc o bs) :
    ∃ pre b post, bs = pre ++ b :: post ∧ i = (o + extent pre) / minalloc := by
  induction bs generalizing o with
  | nil => simp [slots] at hi
  | cons b bs ih =>
      rw [slots, List.mem_cons] at hi
      rcases hi with rfl | hi
      · exact ⟨[], b, bs, rfl, by simp⟩
      · obtain ⟨pre, c, post, rfl, rfl⟩ := ih hi
        exact ⟨b :: pre, c, post, rfl, by simp [Nat.add_assoc]⟩

theorem Tiles.length_le {m : Mman} {bs : List Block} (hpos : 0 < minalloc)
    (h : Tiles minalloc m bs) : bs.length ≤ chunkBufSize minalloc := by
  have := h.sized.length_le hpos
  rwa [h.covers] at this

/-! ## The list of a state -/

def walk (m : Mman) : Nat → Option Nat → List Nat
  | _, none => []
  | 0, some _ => []
  | fuel + 1, some i => i :: walk m fuel (m.chunks i).next

def chunkSlots (minalloc : Nat) (m : Mman) : List Nat :=
  walk m (chunkBufSize minalloc) m.chunkList

theorem walk_eq_slots {m : Mman} {o fuel : Nat} {start : Option Nat} {bs : List Block}
    (hfuel : bs.length ≤ fuel) (h : Seg minalloc m.chunks o start bs none) :
    walk m fuel start = slots minalloc o bs := by
  induction bs generalizing o start fuel with
  | nil =>
      obtain rfl : start = none := h
      cases fuel <;> rfl
  | cons b bs ih =>
      obtain ⟨rfl, -, hbs⟩ := h
      cases fuel with
      | zero => simp at hfuel
      | succ fuel =>
          rw [walk, slots, ih (by simpa using hfuel) hbs]

theorem Tiles.chunkSlots_eq {m : Mman} {bs : List Block} (hpos : 0 < minalloc)
    (h : Tiles minalloc m bs) : chunkSlots minalloc m = slots minalloc 0 bs :=
  walk_eq_slots (h.length_le hpos) h.seg

/-! ## First fit -/

theorem firstFit_eq_none {m : Mman} {n o fuel : Nat} {start : Option Nat} {bs : List Block}
    (hfuel : bs.length ≤ fuel) (h : Seg minalloc m.chunks o start bs none)
    (hnofit : ∀ c ∈ bs, c.used = false → c.size < n) :
    firstFit m n fuel start = .ok none := by
  induction bs generalizing o start fuel with
  | nil =>
      obtain rfl : start = none := h
      cases fuel <;> rfl
  | cons b bs ih =>
      obtain ⟨rfl, hb, hbs⟩ := h
      cases fuel with
      | zero => simp at hfuel
      | succ fuel =>
          have hrest := ih (by simpa using hfuel) hbs fun c hc => hnofit c (by simp [hc])
          rw [firstFit, hb.assigned, hb.sz]
          cases hused : b.used with
          | true => simpa using hrest
          | false =>
              have hlt : (b.size : Int) < n := by
                exact_mod_cast hnofit b (by simp) hused
              simpa [hlt] using hrest

theorem firstFit_eq_some {m : Mman} {n o fuel : Nat} {start : Option Nat}
    {pre post : List Block} {b : Block}
    (hfuel : (pre ++ b :: post).length ≤ fuel)
    (h : Seg minalloc m.chunks o start (pre ++ b :: post) none)
    (hb : b.used = false) (hfit : n ≤ b.size)
    (hfirst : ∀ c ∈ pre, c.used = false → c.size < n) :
    firstFit m n fuel start = .ok (some ((o + extent pre) / minalloc)) := by
  induction pre generalizing o start fuel with
  | nil =>
      obtain ⟨rfl, hc, -⟩ := h
      cases fuel with
      | zero => simp at hfuel
      | succ fuel =>
          have hle : ¬((b.size : Int) < n) := by
            rw [not_lt]
            exact_mod_cast hfit
          rw [firstFit, hc.assigned, hc.sz]
          simp [hb, hle]
  | cons c pre ih =>
      obtain ⟨rfl, hc, hrest⟩ := h
      cases fuel with
      | zero => simp at hfuel
      | succ fuel =>
          have hnext := ih (by simpa using hfuel) hrest fun d hd => hfirst d (by simp [hd])
          rw [extent_cons, ← Nat.add_assoc]
          rw [firstFit, hc.assigned, hc.sz]
          cases hused : c.used with
          | true => simpa using hnext
          | false =>
              have hlt : (c.size : Int) < n := by
                exact_mod_cast hfirst c (by simp) hused
              simpa [hlt] using hnext

end Os20.Alloc.Page
