import Mathlib.Algebra.Group.Nat.Defs
import Mathlib.Logic.Function.Basic

/-!
# The page allocator

`alloc.c` and `ealloc.c` contain the same allocator for one page, at different
granularities: `chunk_new`, `init_alloc`, `alloc` and `dealloc` of `alloc.c` are
`chunk_new`, `small_init_alloc`, `small_alloc` and `small_dealloc` of `ealloc.c`.
The functions below are that common code, over the granularity `minalloc`.

Pointers to `chunk_t` only ever point into the `chunks` array, so they are slot
numbers here, and `NULL` is `none`.  An access outside the array, the `exit` of
`chunk_new` and a walk that never reaches `NULL` end a call with a `Fault`.
-/

namespace Os20.Alloc.Page

def pagesize : Nat := 4096

structure Chunk where
  next : Option Nat := none
  prev : Option Nat := none
  sz : Int := 0
  offset : Nat := 0
  assigned : Bool := false
  deriving DecidableEq, Repr

/-- `mman_t` of `alloc.c`, `chunkman_t` of `ealloc.c` -/
structure Mman where
  addr : Nat
  chunkList : Option Nat
  chunks : Nat → Chunk

inductive Fault where
  /-- `exit(-1)` in `chunk_new` -/
  | exit
  /-- an index outside `chunks` -/
  | index
  /-- the list walk of `alloc` goes round a cycle -/
  | diverge
  deriving DecidableEq, Repr

def Mman.modify (m : Mman) (i : Nat) (f : Chunk → Chunk) : Mman :=
  { m with chunks := Function.update m.chunks i (f (m.chunks i)) }

@[simp] theorem Mman.modify_addr (m : Mman) (i : Nat) (f : Chunk → Chunk) :
    (m.modify i f).addr = m.addr := rfl

@[simp] theorem Mman.modify_chunkList (m : Mman) (i : Nat) (f : Chunk → Chunk) :
    (m.modify i f).chunkList = m.chunkList := rfl

@[simp] theorem Mman.modify_chunks_self (m : Mman) (i : Nat) (f : Chunk → Chunk) :
    (m.modify i f).chunks i = f (m.chunks i) := by
  simp [Mman.modify]

@[simp] theorem Mman.modify_chunks_of_ne (m : Mman) {i j : Nat} (h : j ≠ i)
    (f : Chunk → Chunk) : (m.modify i f).chunks j = m.chunks j := by
  simp [Mman.modify, h]

/-- `if (next) next->prev = p;` -/
def Mman.setPrev (m : Mman) (next : Option Nat) (p : Nat) : Mman :=
  match next with
  | some next => m.modify next fun c => { c with prev := some p }
  | none => m

variable (minalloc : Nat)

def chunkBufSize : Nat := pagesize / minalloc

def chunkNew (m : Mman) (offset : Nat) (sz : Int) : Except Fault (Mman × Nat) :=
  let chunkIdx := offset / minalloc
  if sz.tmod minalloc ≠ 0 then .error .exit
  else if chunkIdx < chunkBufSize minalloc then
    .ok (m.modify chunkIdx fun _ => { sz := sz }, chunkIdx)
  else .error .index

/-- `MAP_FAILED`, that is `(void *) -1` -/
def mapFailed : Nat := 2 ^ 64 - 1

/-- `mmap` is the address the system call returns, `none` when it fails. -/
def initAlloc (m : Mman) (mmap : Option Nat) : Except Fault (Mman × Int) := do
  match mmap with
  | none => return ({ m with addr := mapFailed }, -1)
  | some addr =>
      let (m, chunk) ← chunkNew minalloc { m with addr := addr } 0 pagesize
      let m := m.modify chunk fun c => { c with offset := 0 }
      return ({ m with chunkList := some chunk }, 0)

/-- The `for` loop of `alloc` up to the chunk it stops at.  The walk changes
nothing, so one that passes more chunks than there are slots repeats itself:
`fuel` is the number of slots. -/
def firstFit (m : Mman) (size : Int) : Nat → Option Nat → Except Fault (Option Nat)
  | _, none => .ok none
  | 0, some _ => .error .diverge
  | fuel + 1, some iter =>
      if (m.chunks iter).assigned then firstFit m size fuel (m.chunks iter).next
      else if size > (m.chunks iter).sz then firstFit m size fuel (m.chunks iter).next
      else .ok (some iter)

/-- `if (iter->sz != __size) { ... }` -/
def split (m : Mman) (iter : Nat) (size : Int) : Except Fault Mman := do
  if (m.chunks iter).sz ≠ size then
    let next := (m.chunks iter).next
    let (m, new) ← chunkNew minalloc m ((m.chunks iter).offset + size.toNat)
      ((m.chunks iter).sz - size)
    let m := m.modify iter fun c => { c with next := some new }
    -- only the forward link is mended: `next->prev` still is `iter`
    return if next.isSome then m.modify new fun c => { c with next := next } else m
  else return m

/-- The rest of the loop body: link back the successor and take the chunk. -/
def assign (m : Mman) (iter : Nat) (size : Int) : Mman :=
  let m := match (m.chunks iter).next with
    | some next => m.modify next fun c =>
        { c with offset := (m.chunks iter).offset + size.toNat, prev := some iter }
    | none => m
  m.modify iter fun c => { c with assigned := true, sz := size }

/-- Returns the new state and the address, `none` for `NULL`. -/
def alloc (m : Mman) (size : Int) : Except Fault (Mman × Option Nat) := do
  if size.tmod minalloc ≠ 0 then return (m, none)
  else if size < minalloc then return (m, none)
  else
    match ← firstFit m size (chunkBufSize minalloc) m.chunkList with
    | none => return (m, none)
    | some iter =>
        let m := assign (← split minalloc m iter size) iter size
        return (m, some (m.addr + (m.chunks iter).offset))

/-- `merge piv and right`, then `piv->assigned = false` -/
def mergeRight (m : Mman) (piv : Nat) : Mman :=
  let m := match (m.chunks piv).next with
    | some rSeeker =>
        if (m.chunks rSeeker).assigned = false then
          let m := m.setPrev (m.chunks rSeeker).next piv
          m.modify piv fun c =>
            { c with next := (m.chunks rSeeker).next, sz := c.sz + (m.chunks rSeeker).sz }
        else m
    | none => m
  m.modify piv fun c => { c with assigned := false }

/-- `merge left and piv` -/
def mergeLeft (m : Mman) (piv : Nat) : Option Nat → Mman
  | none => m
  | some lSeeker =>
      if (m.chunks lSeeker).assigned then m
      else
        let m := m.setPrev (m.chunks piv).next lSeeker
        m.modify lSeeker fun c =>
          { c with next := (m.chunks piv).next, sz := c.sz + (m.chunks piv).sz }

/-- The slot `dealloc` takes for the pointer `ptr`. -/
def victim (m : Mman) (ptr : Nat) : Nat := (ptr - m.addr) / minalloc

/-- A pointer below the page wraps around in `size_t` and indexes past the array. -/
def dealloc (m : Mman) (ptr : Nat) : Except Fault Mman :=
  if m.addr ≤ ptr ∧ victim minalloc m ptr < chunkBufSize minalloc then
    let piv := victim minalloc m ptr
    .ok (mergeLeft (mergeRight m piv) piv (m.chunks piv).prev)
  else .error .index

end Os20.Alloc.Page
