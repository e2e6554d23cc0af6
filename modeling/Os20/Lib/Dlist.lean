import Mathlib.Data.List.Chain
import Mathlib.Data.List.Nodup
import Mathlib.Logic.Function.Basic

/-!
# Doubly linked lists

A ring of nodes through a head, which is `none` here: from each node there are links to the next
and to the previous one.  Unlinking a node and putting it in front are assignments to four links,
and a search follows the links from the head in either direction.
-/

namespace Os20.Lib.Dlist

variable {α : Type*} [DecidableEq α]

structure Links (α : Type*) where
  next : Option α → Option α
  prev : Option α → Option α

namespace Links

def empty : Links α := ⟨fun _ => none, fun _ => none⟩

def setNext (r : Links α) (x y : Option α) : Links α :=
  { r with next := Function.update r.next x y }

def setPrev (r : Links α) (x y : Option α) : Links α :=
  { r with prev := Function.update r.prev x y }

/-- `b->next->prev = b->prev; b->prev->next = b->next` -/
def unlink (r : Links α) (b : α) : Links α :=
  let r := r.setPrev (r.next (some b)) (r.prev (some b))
  r.setNext (r.prev (some b)) (r.next (some b))

/-- `b->next = head.next; b->prev = &head; head.next->prev = b; head.next = b` -/
def pushFront (r : Links α) (b : α) : Links α :=
  let r := r.setNext (some b) (r.next none)
  let r := r.setPrev (some b) none
  let r := r.setPrev (r.next none) (some b)
  r.setNext none (some b)

def flip (r : Links α) : Links α := ⟨r.prev, r.next⟩

end Links

/-- `for(b = start; b != &head; b = step(b)) if(p(b)) return b;` in at most `fuel` rounds -/
def search (step : Option α → Option α) (p : α → Bool) : Nat → Option α → Option α
  | 0, _ => none
  | _ + 1, none => none
  | fuel + 1, some b => if p b then some b else search step p fuel (step (some b))

omit [DecidableEq α] in
theorem search_some {step : Option α → Option α} {p : α → Bool} {fuel : Nat} {start : Option α}
    {b : α} (h : search step p fuel start = some b) : p b = true := by
  induction fuel generalizing start with
  | zero => cases h
  | succ fuel ih =>
      cases start with
      | none => cases h
      | some c =>
          rw [search] at h
          split at h
          · next hc =>
              cases h
              exact hc
          · exact ih h

/-! ## Lists -/

def Links.Link (r : Links α) (x y : Option α) : Prop := r.next x = y ∧ r.prev y = x

def ring (l : List α) : List (Option α) := none :: (l.map some ++ [none])

structure Linked (r : Links α) (l : List α) : Prop where
  nodup : l.Nodup
  chain : (ring l).IsChain r.Link

variable {r : Links α} {l l₁ l₂ : List α} {b : α}

omit [DecidableEq α] in
theorem ring_append_cons (l₁ l₂ : List α) (b : α) :
    ring (l₁ ++ b :: l₂) = (none :: l₁.map some) ++ some b :: (l₂.map some ++ [none]) := by
  simp [ring]

omit [DecidableEq α] in
theorem linked_empty : Linked (Links.empty : Links α) [] :=
  ⟨List.nodup_nil, by simp [ring, Links.Link, Links.empty]⟩

omit [DecidableEq α] in
theorem Linked.flip (h : Linked r l) : Linked r.flip l.reverse := by
  refine ⟨List.nodup_reverse.mpr h.nodup, ?_⟩
  have hring : ring l.reverse = (ring l).reverse := by simp [ring]
  rw [hring, List.isChain_reverse]
  exact h.chain.imp fun x y hxy => ⟨hxy.2, hxy.1⟩

omit [DecidableEq α] in
theorem isChain_congr {r' : Links α} {xs : List (Option α)} (h : xs.IsChain r.Link)
    (hnext : ∀ x ∈ xs.dropLast, r'.next x = r.next x)
    (hprev : ∀ y ∈ xs.tail, r'.prev y = r.prev y) : xs.IsChain r'.Link := by
  induction xs with
  | nil => exact List.isChain_nil
  | cons x xs ih =>
      cases xs with
      | nil => exact List.isChain_singleton x
      | cons y xs =>
          rw [List.isChain_cons_cons] at h ⊢
          obtain ⟨⟨hxy, hyx⟩, hrest⟩ := h
          refine ⟨⟨?_, ?_⟩, ih hrest (fun u hu => hnext u ?_) fun v hv => hprev v ?_⟩
          · rw [hnext x (by simp)]
            exact hxy
          · rw [hprev y (by simp)]
            exact hyx
          · rw [List.dropLast_cons_of_ne_nil (by simp)]
            exact List.mem_cons_of_mem _ hu
          · exact List.mem_of_mem_tail hv

omit [DecidableEq α] in
theorem Linked.next_none (h : Linked r l) : r.next none = l.head? := by
  have hchain := h.chain
  cases l with
  | nil =>
      rw [ring, List.map_nil, List.nil_append, List.isChain_pair] at hchain
      exact hchain.1
  | cons b l =>
      rw [ring, List.map_cons, List.cons_append, List.isChain_cons_cons] at hchain
      exact hchain.1.1

theorem Linked.pushFront (h : Linked r l) (hb : b ∉ l) : Linked (r.pushFront b) (b :: l) := by
  have hfirst := h.next_none
  have hhead : l.head? ≠ some b := fun heq => hb (List.mem_of_head? heq)
  have hchain := h.chain
  refine ⟨List.nodup_cons.mpr ⟨hb, h.nodup⟩, ?_⟩
  rw [ring, List.map_cons, List.cons_append, List.isChain_cons_cons]
  rw [ring, List.isChain_cons] at hchain
  have hnext : (r.pushFront b).next =
      Function.update (Function.update r.next (some b) l.head?) none (some b) := by
    simp [Links.pushFront, Links.setNext, Links.setPrev, hfirst]
  have hprev : (r.pushFront b).prev =
      Function.update (Function.update r.prev (some b) none) l.head? (some b) := by
    simp [Links.pushFront, Links.setNext, Links.setPrev, hfirst]
  refine ⟨⟨by rw [hnext, Function.update_self], ?_⟩, ?_⟩
  · rw [hprev, Function.update_of_ne (Ne.symm hhead), Function.update_self]
  · rw [List.isChain_cons]
    constructor
    · intro y hy
      have hy' : y = l.head? := by
        cases l with
        | nil => simpa using hy.symm
        | cons c l => simpa using hy.symm
      refine ⟨?_, ?_⟩
      · rw [hnext, Function.update_of_ne (by simp), Function.update_self, hy']
      · rw [hprev, hy', Function.update_self]
    · refine isChain_congr hchain.2 (fun x hx => ?_) fun y hy => ?_
      · rw [List.dropLast_concat, List.mem_map] at hx
        obtain ⟨c, hc, rfl⟩ := hx
        have hcb : c ≠ b := fun heq => hb (heq ▸ hc)
        rw [hnext, Function.update_of_ne (by simp), Function.update_of_ne (by simpa using hcb)]
      · have hyb : y ≠ some b := by
          rintro rfl
          have hmem := List.mem_of_mem_tail hy
          rw [List.mem_append, List.mem_map] at hmem
          rcases hmem with ⟨c, hc, heq⟩ | hmem
          · exact hb (Option.some.inj heq ▸ hc)
          · simp at hmem
        have hyhead : y ≠ l.head? := by
          cases l with
          | nil => simp at hy
          | cons c l =>
              rintro rfl
              have hnodup := (List.nodup_cons.mp h.nodup).1
              simp at hy
              exact hnodup hy
        rw [hprev, Function.update_of_ne hyhead, Function.update_of_ne hyb]

omit [DecidableEq α] in
theorem Linked.neighbours (h : Linked r (l₁ ++ b :: l₂)) :
    r.prev (some b) = l₁.getLast? ∧ r.next (some b) = l₂.head? := by
  have hchain := h.chain
  rw [ring_append_cons, List.isChain_append] at hchain
  obtain ⟨-, hback, hseam⟩ := hchain
  constructor
  · have hlast : (none :: l₁.map some).getLast? = some l₁.getLast? := by
      cases l₁ using List.reverseRecOn with
      | nil => rfl
      | append_singleton l c =>
          rw [List.map_append, List.map_singleton, ← List.cons_append, List.getLast?_concat,
            List.getLast?_concat]
    exact (hseam l₁.getLast? hlast (some b) rfl).2
  · rw [List.isChain_cons] at hback
    have hhead : (l₂.map some ++ [none]).head? = some l₂.head? := by
      cases l₂ with
      | nil => rfl
      | cons c l => rfl
    exact (hback.1 l₂.head? hhead).1

theorem Linked.unlink (h : Linked r (l₁ ++ b :: l₂)) : Linked (r.unlink b) (l₁ ++ l₂) := by
  obtain ⟨hbefore, hbehind⟩ := h.neighbours
  have hnodup := h.nodup
  rw [List.nodup_append, List.nodup_cons] at hnodup
  obtain ⟨hnodup₁, ⟨hb₂, hnodup₂⟩, hdisjoint⟩ := hnodup
  have hb₁ : b ∉ l₁ := fun hmem => hdisjoint b hmem b List.mem_cons_self rfl
  have hself : l₂.head? ≠ some b := fun heq => hb₂ (List.mem_of_head? heq)
  have hnext : (r.unlink b).next = Function.update r.next l₁.getLast? l₂.head? := by
    simp [Links.unlink, Links.setNext, Links.setPrev, hbefore, hbehind, Ne.symm hself]
  have hprev : (r.unlink b).prev = Function.update r.prev l₂.head? l₁.getLast? := by
    simp [Links.unlink, Links.setNext, Links.setPrev, hbefore, hbehind]
  have hchain := h.chain
  rw [ring_append_cons, List.isChain_append] at hchain
  obtain ⟨hfront, hrest, -⟩ := hchain
  have hback := (List.isChain_cons.mp hrest).2
  have hring : ring (l₁ ++ l₂) = (none :: l₁.map some) ++ (l₂.map some ++ [none]) := by simp [ring]
  refine ⟨List.nodup_append.mpr ⟨hnodup₁, hnodup₂, fun a ha c hc =>
    hdisjoint a ha c (List.mem_cons_of_mem _ hc)⟩, ?_⟩
  rw [hring, List.isChain_append]
  refine ⟨isChain_congr hfront (fun x hx => ?_) fun y hy => ?_,
    isChain_congr hback (fun x hx => ?_) fun y hy => ?_, fun x hx y hy => ?_⟩
  · rw [hnext]
    refine Function.update_of_ne ?_ ..
    rintro rfl
    cases l₁ using List.reverseRecOn with
    | nil => simp at hx
    | append_singleton l c =>
        rw [List.map_append, List.map_singleton, ← List.cons_append, List.dropLast_concat] at hx
        simp [List.nodup_append] at hx hnodup₁
        exact hnodup₁.2 c hx rfl
  · rw [hprev]
    refine Function.update_of_ne ?_ ..
    rintro rfl
    rw [List.tail_cons, List.mem_map] at hy
    obtain ⟨c, hc, heq⟩ := hy
    exact hdisjoint c hc c (List.mem_cons_of_mem _ (List.mem_of_head? heq.symm)) rfl
  · rw [hnext]
    refine Function.update_of_ne ?_ ..
    rintro rfl
    rw [List.dropLast_concat, List.mem_map] at hx
    obtain ⟨c, hc, heq⟩ := hx
    exact hdisjoint c (List.mem_of_getLast? heq.symm) c (List.mem_cons_of_mem _ hc) rfl
  · rw [hprev]
    refine Function.update_of_ne ?_ ..
    rintro rfl
    cases l₂ with
    | nil => simp at hy
    | cons c l =>
        simp at hy
        exact (List.nodup_cons.mp hnodup₂).1 hy
  · have hx' : x = l₁.getLast? := by
      cases l₁ using List.reverseRecOn with
      | nil => simpa using hx.symm
      | append_singleton l c =>
          rw [List.map_append, List.map_singleton, ← List.cons_append, List.getLast?_concat] at hx
          rw [List.getLast?_concat]
          exact (Option.some.inj hx).symm
    have hy' : y = l₂.head? := by
      cases l₂ with
      | nil => simpa using hy.symm
      | cons c l => simpa using hy.symm
    rw [hx', hy']
    exact ⟨by rw [hnext, Function.update_self], by rw [hprev, Function.update_self]⟩

omit [DecidableEq α] in
/-- A search from the head on is a search in the list. -/
theorem Linked.search_next (h : Linked r l) {fuel : Nat} (hfuel : l.length ≤ fuel)
    (p : α → Bool) : search r.next p fuel (r.next none) = l.find? p := by
  rw [h.next_none]
  have hchain := (List.isChain_cons.mp h.chain).2
  clear h
  induction l generalizing fuel with
  | nil =>
      cases fuel with
      | zero => rfl
      | succ fuel => rfl
  | cons b l ih =>
      rw [List.length_cons] at hfuel
      obtain ⟨fuel, rfl⟩ := Nat.exists_eq_succ_of_ne_zero (by omega : fuel ≠ 0)
      rw [List.map_cons, List.cons_append, List.isChain_cons] at hchain
      have hhead : (l.map some ++ [none]).head? = some l.head? := by
        cases l with
        | nil => rfl
        | cons c l => rfl
      have hnext : r.next (some b) = l.head? := (hchain.1 l.head? hhead).1
      rw [List.head?_cons, search, hnext, ih (by omega) hchain.2, List.find?_cons]
      cases p b with
      | true => rfl
      | false => rfl

omit [DecidableEq α] in
theorem Linked.search_prev (h : Linked r l) {fuel : Nat} (hfuel : l.length ≤ fuel)
    (p : α → Bool) : search r.prev p fuel (r.prev none) = l.reverse.find? p :=
  h.flip.search_next (by rwa [List.length_reverse]) p

end Os20.Lib.Dlist
