import Mathlib.Data.List.Range
import Os20.Alloc.Page

/-!
# `ealloc.c`

Up to 16 pages, each with the page allocator of `Os20.Alloc.Page` at the granularity of
`ealloc.h`.  Nothing keeps `alloc` from taking a seventeenth page; the access to `cmans` behind
its end is a `Fault`.
-/

namespace Os20.Ealloc

open Os20.Alloc.Page (Fault pagesize)
open Os20.Alloc (Page.Mman Page.initAlloc Page.alloc Page.dealloc)

def minalloc : Nat := 256

/-- The length of `cmans`. -/
def maxPages : Nat := 16

structure Mman where
  cmans : Nat → Page.Mman
  sz : Nat

def Mman.setPage (m : Mman) (cmi : Nat) (page : Page.Mman) : Mman :=
  { m with cmans := Function.update m.cmans cmi page }

@[simp] theorem Mman.setPage_sz (m : Mman) (cmi : Nat) (page : Page.Mman) :
    (m.setPage cmi page).sz = m.sz := rfl

@[simp] theorem Mman.setPage_self (m : Mman) (cmi : Nat) (page : Page.Mman) :
    (m.setPage cmi page).cmans cmi = page := by
  simp [Mman.setPage]

@[simp] theorem Mman.setPage_of_ne (m : Mman) {cmi i : Nat} (h : i ≠ cmi) (page : Page.Mman) :
    (m.setPage cmi page).cmans i = m.cmans i := by
  simp [Mman.setPage, h]

@[simp] theorem Mman.setPage_eq_self (m : Mman) (cmi : Nat) :
    m.setPage cmi (m.cmans cmi) = m := by
  simp [Mman.setPage]

@[simp] theorem Mman.setPage_setPage (m : Mman) (cmi : Nat) (page page' : Page.Mman) :
    (m.setPage cmi page).setPage cmi page' = m.setPage cmi page' := by
  simp [Mman.setPage]

def Mman.addPage (m : Mman) (page : Page.Mman) : Mman :=
  { m.setPage m.sz page with sz := m.sz + 1 }

@[simp] theorem Mman.addPage_sz (m : Mman) (page : Page.Mman) :
    (m.addPage page).sz = m.sz + 1 := rfl

@[simp] theorem Mman.addPage_self (m : Mman) (page : Page.Mman) :
    (m.addPage page).cmans m.sz = page := m.setPage_self m.sz page

@[simp] theorem Mman.addPage_of_ne (m : Mman) {i : Nat} (h : i ≠ m.sz) (page : Page.Mman) :
    (m.addPage page).cmans i = m.cmans i := m.setPage_of_ne h page

@[simp] theorem Mman.addPage_setPage (m : Mman) (page page' : Page.Mman) :
    (m.addPage page).setPage m.sz page' = m.addPage page' := by
  simp [Mman.addPage, Mman.setPage]

/-- `mmap` is the address the system call returns, `none` when it fails. -/
def smallInitAlloc (m : Mman) (cmi : Nat) (mmap : Option Nat) : Except Fault Mman := do
  if cmi < maxPages then
    let (page, _) ← Page.initAlloc minalloc (m.cmans cmi) mmap
    return m.setPage cmi page
  else .error .index

def smallAlloc (m : Mman) (cmi : Nat) (size : Int) : Except Fault (Mman × Option Nat) := do
  if cmi < maxPages then
    let (page, res) ← Page.alloc minalloc (m.cmans cmi) size
    return (m.setPage cmi page, res)
  else .error .index

def smallDealloc (m : Mman) (cmi : Nat) (ptr : Nat) : Except Fault Mman := do
  if cmi < maxPages then
    let page ← Page.dealloc minalloc (m.cmans cmi) ptr
    return m.setPage cmi page
  else .error .index

theorem smallInitAlloc_of_ok {m : Mman} {cmi : Nat} {mmap : Option Nat} {page : Page.Mman}
    {res : Int} (hcmi : cmi < maxPages)
    (h : Page.initAlloc minalloc (m.cmans cmi) mmap = .ok (page, res)) :
    smallInitAlloc m cmi mmap = .ok (m.setPage cmi page) := by
  rw [smallInitAlloc, if_pos hcmi, h]
  rfl

theorem smallAlloc_of_ok {m : Mman} {cmi : Nat} {size : Int} {page : Page.Mman}
    {res : Option Nat} (hcmi : cmi < maxPages)
    (h : Page.alloc minalloc (m.cmans cmi) size = .ok (page, res)) :
    smallAlloc m cmi size = .ok (m.setPage cmi page, res) := by
  rw [smallAlloc, if_pos hcmi, h]
  rfl

theorem smallAlloc_of_error {m : Mman} {cmi : Nat} {size : Int} {e : Fault}
    (hcmi : cmi < maxPages) (h : Page.alloc minalloc (m.cmans cmi) size = .error e) :
    smallAlloc m cmi size = .error e := by
  rw [smallAlloc, if_pos hcmi, h]
  rfl

theorem smallDealloc_of_ok {m : Mman} {cmi ptr : Nat} {page : Page.Mman} (hcmi : cmi < maxPages)
    (h : Page.dealloc minalloc (m.cmans cmi) ptr = .ok page) :
    smallDealloc m cmi ptr = .ok (m.setPage cmi page) := by
  rw [smallDealloc, if_pos hcmi, h]
  rfl

theorem smallDealloc_of_error {m : Mman} {cmi ptr : Nat} {e : Fault} (hcmi : cmi < maxPages)
    (h : Page.dealloc minalloc (m.cmans cmi) ptr = .error e) :
    smallDealloc m cmi ptr = .error e := by
  rw [smallDealloc, if_pos hcmi, h]
  rfl

def initAlloc (m : Mman) : Mman := { m with sz := 0 }

def cleanup (m : Mman) : Mman := { m with sz := 0 }

/-- The loop of `alloc` over the pages in the list. -/
def allocIn (m : Mman) (size : Int) : List Nat → Except Fault (Mman × Option Nat)
  | [] => .ok (m, none)
  | cmi :: cmis => do
      match ← smallAlloc m cmi size with
      | (m, some res) => return (m, some res)
      | (m, none) => allocIn m size cmis

/-- `mmap` is what the system call returns if this call makes it. -/
def alloc (m : Mman) (size : Int) (mmap : Option Nat) : Except Fault (Mman × Option Nat) := do
  match ← allocIn m size (List.range m.sz) with
  | (m, some res) => return (m, some res)
  | (m, none) =>
      let m ← smallInitAlloc m m.sz mmap
      let (m, res) ← smallAlloc m m.sz size
      -- one page more, whether or not there is one
      return ({ m with sz := m.sz + 1 }, res)

def Refuses (page : Page.Mman) (size : Int) : Prop :=
  Page.alloc minalloc page size = .ok (page, none)

/-- The loop of `alloc` stops at the first page that does not refuse. -/
theorem allocIn_cases {m : Mman} {size : Int} (cmis : List Nat) (hlt : ∀ i ∈ cmis, i < maxPages)
    (hpage : ∀ i ∈ cmis, Refuses (m.cmans i) size ∨
      ∃ page p, Page.alloc minalloc (m.cmans i) size = .ok (page, some p)) :
    ((∀ i ∈ cmis, Refuses (m.cmans i) size) ∧ allocIn m size cmis = .ok (m, none)) ∨
      ∃ before i after page p, cmis = before ++ i :: after ∧
        (∀ j ∈ before, Refuses (m.cmans j) size) ∧
        Page.alloc minalloc (m.cmans i) size = .ok (page, some p) ∧
        allocIn m size cmis = .ok (m.setPage i page, some p) := by
  induction cmis with
  | nil => exact .inl ⟨nofun, rfl⟩
  | cons i cmis ih =>
      rw [List.forall_mem_cons] at hlt hpage
      rcases hpage.1 with hrefuses | ⟨page, p, hcall⟩
      · have hstep : allocIn m size (i :: cmis) = allocIn m size cmis := by
          rw [allocIn, smallAlloc_of_ok hlt.1 hrefuses, Mman.setPage_eq_self]
          rfl
        rw [hstep]
        rcases ih hlt.2 hpage.2 with ⟨hall, hres⟩ | ⟨before, j, after, page, p, rfl, hbefore, h⟩
        · exact .inl ⟨List.forall_mem_cons.mpr ⟨hrefuses, hall⟩, hres⟩
        · exact .inr ⟨i :: before, j, after, page, p, rfl,
            List.forall_mem_cons.mpr ⟨hrefuses, hbefore⟩, h⟩
      · refine .inr ⟨[], i, cmis, page, p, rfl, nofun, hcall, ?_⟩
        rw [allocIn, smallAlloc_of_ok hlt.1 hcall]
        rfl

/-- A page that does not refuse is used; the pages before it are left as they are. -/
theorem alloc_of_page {m : Mman} {size : Int} {i p : Nat} {page : Page.Mman} (mmap : Option Nat)
    (h : allocIn m size (List.range m.sz) = .ok (m.setPage i page, some p)) :
    alloc m size mmap = .ok (m.setPage i page, some p) := by
  rw [alloc, h]
  rfl

theorem alloc_of_new {m : Mman} {size : Int} {mmap : Option Nat} {page page' : Page.Mman}
    {r : Int} {res : Option Nat} (hsz : m.sz < maxPages)
    (h : allocIn m size (List.range m.sz) = .ok (m, none))
    (hinit : Page.initAlloc minalloc (m.cmans m.sz) mmap = .ok (page, r))
    (hcall : Page.alloc minalloc page size = .ok (page', res)) :
    alloc m size mmap = .ok (m.addPage page', res) := by
  have hsmall : smallAlloc (m.setPage m.sz page) m.sz size = .ok (m.setPage m.sz page', res) := by
    rw [smallAlloc_of_ok hsz (by rwa [Mman.setPage_self]), Mman.setPage_setPage]
  rw [alloc, h]
  simp only [bind, Except.bind, smallInitAlloc_of_ok hsz hinit, Mman.setPage_sz, hsmall]
  rfl

theorem alloc_of_full {m : Mman} {size : Int} (mmap : Option Nat) (hsz : ¬m.sz < maxPages)
    (h : allocIn m size (List.range m.sz) = .ok (m, none)) :
    alloc m size mmap = .error .index := by
  rw [alloc, h]
  simp only [bind, Except.bind, smallInitAlloc, if_neg hsz]

theorem refuses_of_empty {page : Page.Mman} (h : page.chunkList = none) (size : Int) :
    Refuses page size := by
  have hnone : ∀ fuel, Alloc.Page.firstFit page size fuel none = .ok none := by
    intro fuel
    cases fuel <;> rfl
  unfold Refuses Alloc.Page.alloc
  split
  · rfl
  · split
    · rfl
    · rw [h, hnone]
      rfl

/-- The page in whose range `dealloc` finds `ptr`; `r_addr` wraps around. -/
def pageOf (m : Mman) (ptr : Nat) : Option Nat :=
  (List.range m.sz).find? fun cmi =>
    (m.cmans cmi).addr ≤ ptr ∧ ptr < ((m.cmans cmi).addr + pagesize) % 2 ^ 64

def dealloc (m : Mman) (ptr : Nat) : Except Fault Mman :=
  match pageOf m ptr with
  | some cmi => smallDealloc m cmi ptr
  | none => .ok m

def Mman.zero : Mman :=
  { cmans := fun _ => { addr := 0, chunkList := none, chunks := fun _ => {} }, sz := 0 }

end Os20.Ealloc
