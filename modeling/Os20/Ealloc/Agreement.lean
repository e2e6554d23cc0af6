import Os20.Alloc.Granularity
import Os20.Alloc.Heap
import Os20.Ealloc.Mman

/-!
# `alloc.c` and one page of `ealloc.c`

A client of an allocator asks for blocks and gives back blocks it has got, which it names by
the request that returned them.  Clients of `alloc.c` and of page 0 of `ealloc.c` that only ask
for multiples of 256 bytes see the same.
-/

namespace Os20.Ealloc

open Os20.Lib.Transition Os20.Lib.Simulation
open Os20.Alloc.Page (Fault Agree)
open Os20.Alloc (Page.Mman Page.chunkBufSize)

inductive Request where
  | alloc (size : Int)
  /-- Give back what request number `j` has returned. -/
  | dealloc (j : Nat)
  deriving DecidableEq, Repr

/-- An allocator with state `σ`, what it has returned to the requests so far, and the requests
whose blocks have not been given back. -/
structure Client (σ : Type) where
  state : σ
  returned : List (Option Nat)
  live : List Nat

/-- Runs of a client.  A fault ends the run, and so does giving back a block twice. -/
def client {σ : Type} (init : σ → Prop) (alloc : σ → Int → Except Fault (σ × Option Nat))
    (dealloc : σ → Nat → Except Fault σ) : System (Client σ) Request where
  init c := init c.state ∧ c.returned = [] ∧ c.live = []
  next c
    | .alloc size =>
        match alloc c.state size with
        | .ok (s, res) => some {
            state := s
            returned := c.returned ++ [res]
            live := if res.isSome then c.returned.length :: c.live else c.live }
        | .error _ => none
    | .dealloc j =>
        if j ∈ c.live then
          match c.returned[j]? with
          | some (some p) =>
              match dealloc c.state p with
              | .ok s => some { c with state := s, live := c.live.filter (· ≠ j) }
              | .error _ => none
          | _ => none
        else none

def allocClient : System (Client Page.Mman) Request :=
  client (fun m => ∃ addr, Alloc.initAlloc Alloc.Mman.zero (some addr) = .ok (m, 0))
    Alloc.alloc Alloc.dealloc

def smallClient : System (Client Mman) Request :=
  client (fun m => ∃ addr, smallInitAlloc Mman.zero 0 (some addr) = .ok m)
    (smallAlloc · 0) (smallDealloc · 0)

/-- The same offsets were returned, and slot `k` of the page of `ealloc.c` is slot `32 * k` of
that of `alloc.c`. -/
structure SameView (c : Client Page.Mman) (d : Client Mman) : Prop where
  returned : ∃ offsets : List (Option Nat),
    c.returned = offsets.map (Option.map (c.state.addr + ·)) ∧
      d.returned = offsets.map (Option.map ((d.state.cmans 0).addr + ·))
  live : c.live = d.live
  chunk : ∀ k < Page.chunkBufSize minalloc,
    c.state.chunks (32 * k) = ((d.state.cmans 0).chunks k).scale 32

structure InStep (a b : Nat) (c : Client Page.Mman) (d : Client Mman) : Prop where
  agree : Agree Alloc.minalloc 32 a b c.state (d.state.cmans 0)
  returned : ∃ offsets : List (Option Nat), (∀ o, some o ∈ offsets → minalloc ∣ o) ∧
    c.returned = offsets.map (Option.map (a + ·)) ∧ d.returned = offsets.map (Option.map (b + ·))
  live : c.live = d.live

theorem InStep.views {a b : Nat} {c : Client Page.Mman} {d : Client Mman}
    (h : InStep a b c d) : SameView c d := by
  obtain ⟨offsets, -, hc, hd⟩ := h.returned
  refine ⟨⟨offsets, ?_, ?_⟩, h.live, fun k _ => h.agree.chunk k⟩
  · rw [h.agree.fineAddr]
    exact hc
  · rw [h.agree.coarseAddr]
    exact hd

theorem inStep_init {c : Client Page.Mman} {d : Client Mman} (hc : allocClient.init c)
    (hd : smallClient.init d) : ∃ a b, InStep a b c d := by
  obtain ⟨⟨a, hinit⟩, hcret, hclive⟩ := hc
  obtain ⟨⟨b, hinit'⟩, hdret, hdlive⟩ := hd
  refine ⟨a, b, ?_, ⟨[], by simp, hcret, hdret⟩, by rw [hclive, hdlive]⟩
  have hzero : Agree Alloc.minalloc 32 0 0 Alloc.Mman.zero (Mman.zero.cmans 0) :=
    ⟨rfl, rfl, rfl, fun _ => rfl, nofun, fun _ => ⟨Nat.dvd_zero _, Int.dvd_zero _, nofun⟩⟩
  have hsame := hzero.initAlloc (by decide) (by decide) (by decide) a b
  rw [show Alloc.Page.initAlloc Alloc.minalloc Alloc.Mman.zero (some a) = .ok (c.state, 0) from
    hinit] at hsame
  generalize hpage : Alloc.Page.initAlloc (32 * Alloc.minalloc) (Mman.zero.cmans 0) (some b) =
    page at hsame
  cases hsame with
  | @ok _ y hagree =>
      obtain ⟨page', res⟩ := y
      rw [smallInitAlloc_of_ok (by decide) hpage] at hinit'
      rw [← Except.ok.inj hinit', Mman.setPage_self]
      exact hagree

theorem inStep_next {a b : Nat} {c : Client Page.Mman} {d : Client Mman} {r : Request}
    (h : InStep a b c d) (hsize : ∀ size, r = .alloc size → (minalloc : Int) ∣ size) :
    Option.Rel (InStep a b) (allocClient.next c r) (smallClient.next d r) := by
  obtain ⟨offsets, hdvd, hc, hd⟩ := h.returned
  cases r with
  | alloc size =>
      have hsame := h.agree.alloc (by decide) (by decide) (by decide) (hsize size rfl)
      generalize hfine : Alloc.Page.alloc Alloc.minalloc c.state size = x at hsame
      generalize hcoarse : Alloc.Page.alloc (32 * Alloc.minalloc) (d.state.cmans 0) size = y
        at hsame
      cases hsame with
      | error e =>
          have hsmall := smallAlloc_of_error (by decide : 0 < maxPages) hcoarse
          simp only [allocClient, smallClient, client, Alloc.alloc, hfine, hsmall]
          exact .none
      | @ok x y hxy =>
          obtain ⟨hagree, offset, hoffset, hx, hy⟩ := hxy
          have hsmall := smallAlloc_of_ok (by decide : 0 < maxPages) hcoarse
          simp only [allocClient, smallClient, client, Alloc.alloc, hfine, hsmall, hx, hy, hc, hd,
            h.live]
          refine .some ⟨by simpa using hagree, ⟨offsets ++ [offset], ?_, by simp, by simp⟩, by simp⟩
          intro o ho
          rcases List.mem_append.mp ho with ho | ho
          · exact hdvd o ho
          · exact hoffset o (List.mem_singleton.mp ho).symm
  | dealloc j =>
      simp only [allocClient, smallClient, client, h.live, hc, hd, List.getElem?_map]
      split
      · cases hj : offsets[j]? with
        | none => exact .none
        | some offset =>
            cases offset with
            | none => exact .none
            | some o =>
                have ho := hdvd o (List.mem_of_getElem? hj)
                have hsame := h.agree.dealloc (by decide) (by decide) (by decide) ho
                generalize hfine : Alloc.Page.dealloc Alloc.minalloc c.state (a + o) = x at hsame
                generalize hcoarse : Alloc.Page.dealloc (32 * Alloc.minalloc) (d.state.cmans 0)
                  (b + o) = y at hsame
                simp only [Option.map_some, Alloc.dealloc, hfine]
                cases hsame with
                | error e =>
                    rw [smallDealloc_of_error (by decide : 0 < maxPages) hcoarse]
                    exact .none
                | ok hagree =>
                    rw [smallDealloc_of_ok (by decide : 0 < maxPages) hcoarse]
                    exact .some ⟨by simpa using hagree, ⟨offsets, hdvd, rfl, rfl⟩, rfl⟩
      · exact .none

/-- Whatever multiples of 256 bytes are asked for and whatever is given back, `alloc.c` and page
0 of `ealloc.c` return the same offsets and stop at the same request, if they stop. -/
theorem sameView {c : Client Page.Mman} {d : Client Mman} (hc : allocClient.init c)
    (hd : smallClient.init d) {rs : List Request}
    (hrs : ∀ size, .alloc size ∈ rs → (minalloc : Int) ∣ size) :
    Option.Rel SameView (allocClient.run c rs) (smallClient.run d rs) := by
  obtain ⟨a, b, h⟩ := inStep_init hc hd
  have hrel := run_rel (M := allocClient) (N := smallClient) (R := InStep a b)
    (fun c d r h hr => inStep_next h hr) h fun r hr size hsize => hrs size (hsize ▸ hr)
  generalize allocClient.run c rs = x at hrel ⊢
  generalize smallClient.run d rs = y at hrel ⊢
  cases hrel with
  | some h' => exact .some h'.views
  | none => exact .none

def smallStart (addr : Nat) : Mman :=
  match smallInitAlloc Mman.zero 0 (some addr) with
  | .ok m => m
  | .error _ => Mman.zero

/-- A request is refused, and a block is given back and taken again. -/
def reuseRequests : List Request :=
  [.alloc 512, .alloc (-256), .alloc 3584, .dealloc 0, .alloc 256]

theorem sameView_reuse :
    Option.Rel SameView
        (allocClient.run ⟨(Alloc.Heap.start 65536).mman, [], []⟩ reuseRequests)
        (smallClient.run ⟨smallStart 131072, [], []⟩ reuseRequests) ∧
      (smallClient.run ⟨smallStart 131072, [], []⟩ reuseRequests).map Client.returned =
        some [some 131072, none, some 131584, some 131072] := by
  refine ⟨sameView ⟨⟨65536, rfl⟩, rfl, rfl⟩ ⟨⟨131072, rfl⟩, rfl, rfl⟩ ?_, by decide +kernel⟩
  intro size hsize
  simp only [reuseRequests, List.mem_cons, Request.alloc.injEq, reduceCtorEq, List.not_mem_nil,
    or_false, false_or] at hsize
  rcases hsize with rfl | rfl | rfl | rfl <;> decide

end Os20.Ealloc
