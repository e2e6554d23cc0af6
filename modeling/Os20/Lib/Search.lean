import Mathlib.Data.List.Nodup
import Mathlib.Data.List.Perm.Subperm

/-!
# Searches along links

From every place a link leads to the next one, or nowhere.  A search follows the links until
it comes to a place where `stop` holds.  If it comes to an end at all, it has not been anywhere
twice, so it is no longer than there are places.
-/

namespace Os20.Lib.Search

variable {α β : Type*}

/-- The search from `start` ends with `result`, and `path` is where it has been. -/
inductive Finds (stop : α → Prop) (next : α → Option α) : Option α → List α → Option α → Prop
  | nowhere : Finds stop next none [] none
  | here {a : α} (hstop : stop a) : Finds stop next (some a) [a] (some a)
  | pass {a : α} {path : List α} {result : Option α} (hstop : ¬stop a)
      (hrest : Finds stop next (next a) path result) :
      Finds stop next (some a) (a :: path) result

variable {stop : α → Prop} {next : α → Option α} {start result result' : Option α}
  {path path' : List α}

theorem Finds.unique (h : Finds stop next start path result)
    (h' : Finds stop next start path' result') : path = path' ∧ result = result' := by
  induction h generalizing path' with
  | nowhere =>
      cases h'
      exact ⟨rfl, rfl⟩
  | here hstop =>
      cases h' with
      | here => exact ⟨rfl, rfl⟩
      | pass hnot => exact absurd hstop hnot
  | pass hstop _ ih =>
      cases h' with
      | here hstop' => exact absurd hstop' hstop
      | pass _ hrest' =>
          obtain ⟨rfl, rfl⟩ := ih hrest'
          exact ⟨rfl, rfl⟩

theorem Finds.from_mem (h : Finds stop next start path result) {a : α} (ha : a ∈ path) :
    ∃ rest, Finds stop next (some a) rest result ∧ rest.length ≤ path.length := by
  induction h with
  | nowhere => cases ha
  | here hstop =>
      obtain rfl := List.mem_singleton.mp ha
      exact ⟨_, .here hstop, Nat.le_refl _⟩
  | pass hstop hrest ih =>
      rcases List.mem_cons.mp ha with rfl | ha
      · exact ⟨_, .pass hstop hrest, Nat.le_refl _⟩
      · obtain ⟨rest, hfinds, hlen⟩ := ih ha
        exact ⟨rest, hfinds, Nat.le_succ_of_le hlen⟩

theorem Finds.nodup (h : Finds stop next start path result) : path.Nodup := by
  induction h with
  | nowhere => exact List.nodup_nil
  | here => exact List.nodup_singleton _
  | @pass a path result hstop hrest ih =>
      refine List.nodup_cons.mpr ⟨fun ha => ?_, ih⟩
      -- back at `a`, the search would have the whole path before it again
      obtain ⟨rest, hfinds, hlen⟩ := hrest.from_mem ha
      obtain ⟨rfl, -⟩ := hfinds.unique (.pass hstop hrest)
      exact absurd hlen (Nat.not_succ_le_self _)

/-- A search that comes to a place linked to itself goes on for ever. -/
theorem not_finds_of_self_link {a : α} (hself : next a = some a) (hstop : ¬stop a) :
    ¬Finds stop next (some a) path result := by
  intro h
  cases h with
  | here h => exact hstop h
  | pass _ hrest =>
      rw [hself] at hrest
      have hpath := (hrest.unique (.pass hstop (hself ▸ hrest))).1
      exact absurd (congrArg List.length hpath) (by simp)

theorem Finds.length_le (h : Finds stop next start path result) (places : List α)
    (hsub : path ⊆ places) : path.length ≤ places.length :=
  (h.nodup.subperm hsub).length_le

/-- Places from which the links never lead out contain the path. -/
theorem Finds.forall_mem (h : Finds stop next start path result) {inside : α → Prop}
    (hstart : ∀ a, start = some a → inside a) (hnext : ∀ a b, next a = some b → inside b) :
    ∀ a ∈ path, inside a := by
  induction h with
  | nowhere => simp
  | here => simpa using hstart _ rfl
  | pass _ _ ih => exact List.forall_mem_cons.mpr ⟨hstart _ rfl, ih (hnext _)⟩

section Map

variable {f : α → β} {stop' : β → Prop} {next' : β → Option β}

theorem Finds.map (hstop : ∀ a, stop' (f a) ↔ stop a) (hnext : ∀ a, next' (f a) = (next a).map f)
    (h : Finds stop next start path result) :
    Finds stop' next' (start.map f) (path.map f) (result.map f) := by
  induction h with
  | nowhere => exact .nowhere
  | here hhere => exact .here ((hstop _).mpr hhere)
  | pass hpass _ ih =>
      rw [← hnext] at ih
      exact .pass (fun h => hpass ((hstop _).mp h)) ih

theorem Finds.of_map (hstop : ∀ a, stop' (f a) ↔ stop a)
    (hnext : ∀ a, next' (f a) = (next a).map f) {path' : List β} {result' : Option β}
    (h : Finds stop' next' (start.map f) path' result') :
    ∃ path result, Finds stop next start path result ∧ path' = path.map f ∧
      result' = result.map f := by
  generalize hs : start.map f = start' at h
  induction h generalizing start with
  | nowhere =>
      obtain rfl := Option.map_eq_none_iff.mp hs
      exact ⟨[], none, .nowhere, rfl, rfl⟩
  | here hhere =>
      obtain ⟨a, rfl, rfl⟩ := Option.map_eq_some_iff.mp hs
      exact ⟨[a], some a, .here ((hstop a).mp hhere), rfl, rfl⟩
  | pass hpass _ ih =>
      obtain ⟨a, rfl, rfl⟩ := Option.map_eq_some_iff.mp hs
      obtain ⟨path, result, hrest, rfl, rfl⟩ := ih (hnext a).symm
      exact ⟨a :: path, result, .pass (fun h => hpass ((hstop a).mpr h)) hrest, rfl, rfl⟩

end Map

end Os20.Lib.Search
