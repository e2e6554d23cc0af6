import Os20.Alloc.Heap
import Os20.Alloc.Granularity

/-!
# `alloc.c`: the walk over the chunk list

`next` leads from `mman.chunk_list` through every chunk once and then to `NULL`, as long
as the left merges are sound.  A merge with a chunk that is no neighbour can leave a chunk
linked to itself; `exists_cycle` is such a run, and `alloc` does not return from it.
-/

namespace Os20.Alloc

open Os20.Lib.Transition Os20.Lib.Segments Os20.Lib.Search
open Page (Mman Fault pagesize)

namespace Page

variable {minalloc : Nat} {m : Mman} {bs : List Block}

/-- Following `next` from `mman.chunk_list` visits `path` and ends at `NULL`. -/
def Follows (m : Mman) (path : List Nat) : Prop :=
  Finds (fun _ => False) (fun i => (m.chunks i).next) m.chunkList path none

theorem Seg.finds {o : Nat} {start : Option Nat} (h : Seg minalloc m.chunks o start bs none) :
    Finds (fun _ => False) (fun i => (m.chunks i).next) start (slots minalloc o bs) none := by
  induction bs generalizing o start with
  | nil =>
      obtain rfl : start = none := h
      exact .nowhere
  | cons b bs ih =>
      obtain ⟨rfl, -, hbs⟩ := h
      exact .pass id (ih hbs)

theorem Tiles.follows (h : Tiles minalloc m bs) : Follows m (slots minalloc 0 bs) :=
  h.seg.finds

theorem Tiles.slot_lt {i : Nat} (h : Tiles minalloc m bs) (hi : i ∈ slots minalloc 0 bs) :
    i < chunkBufSize minalloc := by
  have hbound := (slots_bounds (Nat.dvd_zero _) h.sized hi).2
  rwa [Nat.zero_add, h.covers] at hbound

theorem Tiles.alloc_returns (hpos : 0 < minalloc) (hpage : minalloc ∣ pagesize)
    (h : Tiles minalloc m bs) (size : Int) : ∃ m' p, alloc minalloc m size = .ok (m', p) := by
  by_cases hvalid : ∃ n : Nat, size = n ∧ 0 < n ∧ minalloc ∣ n
  · obtain ⟨n, rfl, hn, hdvd⟩ := hvalid
    rcases exists_firstFit n bs with hnofit | ⟨pre, b, post, rfl, hb, hfit, hfirst⟩
    · exact ⟨_, _, alloc_noFit hpos h hn hdvd hnofit⟩
    · obtain ⟨m', hres, -⟩ := alloc_fit hpos hpage h hn hdvd hb hfit hfirst
      exact ⟨_, _, hres⟩
  · exact ⟨_, _, alloc_invalid hpos hvalid⟩

end Page

/-- Under `leftMergeSound` the walk of every state visits no slot twice and ends at
`NULL`, and `alloc` returns. -/
theorem walk_ends {h : Heap} (hreach : heap.ReachableWhere leftMergeSound h) :
    (∃ path, Page.Follows h.mman path ∧ path.Nodup ∧
      ∀ i ∈ path, i < Page.chunkBufSize minalloc) ∧
    ∀ size, ∃ m p, alloc h.mman size = .ok (m, p) := by
  obtain ⟨bs, hinv⟩ := exists_inv hreach
  have hwalk := hinv.tiles.follows
  refine ⟨⟨_, hwalk, hwalk.nodup, fun i hi => hinv.tiles.slot_lt hi⟩, ?_⟩
  intro size
  exact hinv.tiles.alloc_returns minalloc_pos minalloc_dvd_pagesize size

/-- A page of three blocks, the middle one given back. -/
theorem walk_ends_gap :
    ∃ h, heap.ReachableWhere leftMergeSound h ∧ h.live = [(65584, 4048), (65536, 16)] ∧
      ∃ path, Page.Follows h.mman path ∧ path.Nodup := by
  obtain ⟨h, hreach, hlive⟩ := System.exists_reachableWhere_of_run leftMergeSound
    [.alloc 16, .alloc 32, .alloc 4048, .dealloc 65552]
    (fun h => h.live == [(65584, 4048), (65536, 16)]) (start_init 65536) (by decide +kernel)
  obtain ⟨path, hwalk, hnodup, -⟩ := (walk_ends hreach).1
  exact ⟨h, hreach, by simpa using hlive, path, hwalk, hnodup⟩

/-! ## A cycle -/

/-- Stale `prev` links make two left merges join chunks that are apart; the chunk at
offset 24 is then split from a chunk that is linked to it already. -/
def cycleRun : List Call :=
  [.alloc 24, .alloc 8, .alloc 4064, .dealloc 65536, .alloc 8, .alloc 8, .dealloc 65536,
    .dealloc 65560, .dealloc 65544, .alloc 24]

/-- The list leads to slot 3 and stays there, and slot 3 is too small for 16 bytes. -/
def loops (h : Heap) : Bool :=
  h.mman.chunkList == some 0 && (h.mman.chunks 0).next == some 3 &&
    (h.mman.chunks 3).next == some 3 && (h.mman.chunks 0).assigned &&
    decide ((h.mman.chunks 3).sz < 16)

theorem not_finds_of_loops {h : Heap} (hloop : loops h = true) {stop : Nat → Prop}
    (h0 : ¬stop 0) (h3 : ¬stop 3) (path : List Nat) (result : Option Nat) :
    ¬Finds stop (fun i => (h.mman.chunks i).next) h.mman.chunkList path result := by
  simp only [loops, Bool.and_eq_true, beq_iff_eq] at hloop
  obtain ⟨⟨⟨⟨hlist, hnext0⟩, hnext3⟩, -⟩, -⟩ := hloop
  have hcycle : ∀ path, ¬Finds stop (fun i => (h.mman.chunks i).next) (some 3) path result :=
    fun path => not_finds_of_self_link hnext3 h3
  intro hfinds
  rw [hlist] at hfinds
  cases hfinds with
  | here hstop => exact h0 hstop
  | pass _ hrest =>
      rw [hnext0] at hrest
      exact hcycle _ hrest

def diverges {α : Type} : Except Fault α → Bool
  | .error .diverge => true
  | _ => false

/-- A state whose walk never comes to `NULL`, and from which `alloc(16)` never returns:
no search of any length comes to an end. -/
theorem exists_cycle :
    ∃ h, heap.Reachable h ∧ (∀ path, ¬Page.Follows h.mman path) ∧
      (∀ path result, ¬Finds (Page.Fits h.mman 16) (fun i => (h.mman.chunks i).next)
        h.mman.chunkList path result) ∧
      alloc h.mman 16 = .error .diverge := by
  obtain ⟨h, hreach, hbad⟩ := System.exists_reachable_of_run cycleRun
    (fun h => loops h && diverges (alloc h.mman 16)) (start_init 65536) (by decide +kernel)
  rw [Bool.and_eq_true] at hbad
  obtain ⟨hloop, hdiverge⟩ := hbad
  have hparts := hloop
  simp only [loops, Bool.and_eq_true, beq_iff_eq, decide_eq_true_eq] at hparts
  obtain ⟨⟨-, hassigned⟩, hsmall⟩ := hparts
  refine ⟨h, hreach, fun path => ?_, fun path result => ?_, ?_⟩
  · exact not_finds_of_loops hloop id id path none
  · apply not_finds_of_loops hloop
    · intro hfits
      exact absurd hfits.1 (by simp [hassigned])
    · intro hfits
      exact absurd hfits.2 (by omega)
  · cases hres : alloc h.mman 16 with
    | ok r => simp [hres, diverges] at hdiverge
    | error e => cases e <;> simp_all [diverges]

end Os20.Alloc
