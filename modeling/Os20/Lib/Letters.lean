import Mathlib.Computability.Language

/-!
# Languages letter by letter

A matcher walks over a word from the left.  These lemmas unfold a product of languages in the
same way: by its first letter, by one more round of a star, or by one more letter to skip.
-/

namespace Os20.Lib.Letters

variable {α : Type*} {p : α → Prop} {L M : Language α} {a : α} {w : List α}

def letters (p : α → Prop) : Language α := {w | ∃ a, p a ∧ w = [a]}

@[simp] theorem nil_mem_letters_mul : [] ∉ letters p * L := by
  rw [Language.mem_mul]
  rintro ⟨_, ⟨a, -, rfl⟩, v, -, h⟩
  cases h

@[simp] theorem cons_mem_letters_mul : a :: w ∈ letters p * L ↔ p a ∧ w ∈ L := by
  rw [Language.mem_mul]
  constructor
  · rintro ⟨_, ⟨b, hb, rfl⟩, v, hv, h⟩
    cases h
    exact ⟨hb, hv⟩
  · intro h
    exact ⟨[a], ⟨a, h.1, rfl⟩, w, h.2, rfl⟩

theorem kstar_letters_mul :
    KStar.kstar (letters p) * L = L + letters p * (KStar.kstar (letters p) * L) := by
  calc KStar.kstar (letters p) * L = (1 + letters p * KStar.kstar (letters p)) * L := by
        rw [Language.one_add_self_mul_kstar_eq_kstar]
    _ = L + letters p * (KStar.kstar (letters p) * L) := by
        rw [add_mul, one_mul, mul_assoc]

theorem nil_mem_kstar_letters_mul : [] ∈ KStar.kstar (letters p) * L ↔ [] ∈ L := by
  rw [kstar_letters_mul, Language.mem_add]
  simp

theorem cons_mem_kstar_letters_mul : a :: w ∈ KStar.kstar (letters p) * L ↔
    a :: w ∈ L ∨ p a ∧ w ∈ KStar.kstar (letters p) * L := by
  rw [kstar_letters_mul, Language.mem_add, cons_mem_letters_mul, ← kstar_letters_mul]

theorem mem_top_mul : w ∈ (⊤ : Language α) * L ↔ ∃ v, v <:+ w ∧ v ∈ L := by
  rw [Language.mem_mul]
  constructor
  · rintro ⟨u, -, v, hv, rfl⟩
    exact ⟨v, List.suffix_append u v, hv⟩
  · rintro ⟨v, ⟨u, rfl⟩, hv⟩
    exact ⟨u, trivial, v, hv, rfl⟩

theorem nil_mem_top_mul : [] ∈ (⊤ : Language α) * L ↔ [] ∈ L := by
  rw [mem_top_mul]
  simp

theorem cons_mem_top_mul :
    a :: w ∈ (⊤ : Language α) * L ↔ a :: w ∈ L ∨ w ∈ (⊤ : Language α) * L := by
  simp only [mem_top_mul, List.suffix_cons_iff]
  constructor
  · rintro ⟨v, rfl | hv, hL⟩
    · exact Or.inl hL
    · exact Or.inr ⟨v, hv, hL⟩
  · rintro (hL | ⟨v, hv, hL⟩)
    · exact ⟨a :: w, Or.inl rfl, hL⟩
    · exact ⟨v, Or.inr hv, hL⟩

end Os20.Lib.Letters
