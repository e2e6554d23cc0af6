import Mathlib.Data.List.GetD
import Mathlib.Tactic.TypeStar

/-!
# Byte files and 32-bit integers

A regular file as an array of bytes with positioned reads and writes.  A write beyond
the end fills the gap with zeros, and a read beyond the end comes back short.  Integers
are stored in four bytes, least significant byte first, in two's complement.
-/

namespace Os20.Lib.Bytes

@[ext] structure ByteFile where
  length : Nat
  byte : Nat → UInt8

namespace ByteFile

def empty : ByteFile := ⟨0, fun _ => 0⟩

def pread (f : ByteFile) (off n : Nat) : List UInt8 :=
  (List.range (min n (f.length - off))).map fun i => f.byte (off + i)

def pwrite (f : ByteFile) (off : Nat) (bs : List UInt8) : ByteFile where
  length := max f.length (off + bs.length)
  byte i :=
    if off ≤ i ∧ i < off + bs.length then bs.getD (i - off) 0
    else if i < f.length then f.byte i
    else 0

variable {f : ByteFile} {off off' n : Nat} {bs : List UInt8}

@[simp] theorem length_pwrite : (f.pwrite off bs).length = max f.length (off + bs.length) := rfl

theorem length_pread : (f.pread off n).length = min n (f.length - off) := by
  simp [pread]

theorem length_pread_of_le (h : off + n ≤ f.length) : (f.pread off n).length = n := by
  rw [length_pread]
  omega

theorem getElem_pread {i : Nat} (h : i < (f.pread off n).length) :
    (f.pread off n)[i] = f.byte (off + i) := by
  simp [pread]

theorem pread_pwrite_self (hn : n = bs.length) : (f.pwrite off bs).pread off n = bs := by
  subst hn
  apply List.ext_getElem
  · rw [length_pread_of_le]
    exact Nat.le_max_right _ _
  · intro i _ hi
    rw [getElem_pread]
    simp [pwrite, hi]

theorem pread_pwrite_of_disjoint (hdisj : off' + n ≤ off ∨ off + bs.length ≤ off')
    (hle : off' + n ≤ f.length) : (f.pwrite off bs).pread off' n = f.pread off' n := by
  have hlen : ((f.pwrite off bs).pread off' n).length = n :=
    length_pread_of_le (Nat.le_trans hle (Nat.le_max_left _ _))
  apply List.ext_getElem
  · rw [hlen, length_pread_of_le hle]
  · intro i hi _
    rw [hlen] at hi
    rw [getElem_pread, getElem_pread]
    have hout : ¬(off ≤ off' + i ∧ off' + i < off + bs.length) := by omega
    have hin : off' + i < f.length := by omega
    simp [pwrite, hout, hin]

theorem getD_pread (k : Nat) :
    (f.pread off n).getD k 0 = if k < n ∧ off + k < f.length then f.byte (off + k) else 0 := by
  split
  · next hk =>
      rw [List.getD_eq_getElem _ _ (by rw [length_pread]; omega), getElem_pread]
  · next hk =>
      rw [List.getD_eq_default]
      rw [length_pread]
      omega

/-- Where the file ends, a write elsewhere adds zeros at most. -/
theorem getD_pread_pwrite_of_disjoint (hdisj : off' + n ≤ off ∨ off + bs.length ≤ off') (k : Nat) :
    ((f.pwrite off bs).pread off' n).getD k 0 = (f.pread off' n).getD k 0 := by
  rw [getD_pread, getD_pread]
  by_cases hk : k < n
  · have hout : ¬(off ≤ off' + k ∧ off' + k < off + bs.length) := by omega
    by_cases hin : off' + k < f.length
    · have hin' : off' + k < max f.length (off + bs.length) :=
        Nat.lt_of_lt_of_le hin (Nat.le_max_left _ _)
      simp only [hk, hin, hin', and_self, if_true, pwrite, hout, if_false]
    · simp only [hk, hin, and_false, if_false, pwrite, hout, ite_self]
  · simp only [hk, false_and, if_false]

theorem pwrite_comm {bs' : List UInt8}
    (hdisj : off' + bs'.length ≤ off ∨ off + bs.length ≤ off') :
    (f.pwrite off bs).pwrite off' bs' = (f.pwrite off' bs').pwrite off bs := by
  ext i
  · simp only [length_pwrite]
    omega
  · by_cases hin : off ≤ i ∧ i < off + bs.length
    · have hout : ¬(off' ≤ i ∧ i < off' + bs'.length) := by omega
      have hend : i < max f.length (off + bs.length) := by omega
      simp only [pwrite, hin, hout, hend, and_self, if_true, if_false]
    · by_cases hin' : off' ≤ i ∧ i < off' + bs'.length
      · have hend : i < max f.length (off' + bs'.length) := by omega
        simp only [pwrite, hin, hin', hend, and_self, if_true, if_false]
      · by_cases hold : i < f.length
        · have hend : i < max f.length (off + bs.length) := by omega
          have hend' : i < max f.length (off' + bs'.length) := by omega
          simp only [pwrite, hin, hin', hold, hend, hend', if_true, if_false]
        · simp only [pwrite, hin, hin', hold, if_false, ite_self]

theorem pwrite_pwrite {bs' : List UInt8} (hlength : bs.length = bs'.length) :
    (f.pwrite off bs).pwrite off bs' = f.pwrite off bs' := by
  ext i
  · simp only [length_pwrite]
    omega
  · by_cases hin : off ≤ i ∧ i < off + bs'.length
    · simp only [pwrite, hin, and_self, if_true]
    · by_cases hold : i < f.length
      · have hend : i < max f.length (off + bs'.length) := by omega
        simp only [pwrite, hin, hold, hend, hlength, if_true, if_false]
      · simp only [pwrite, hin, hold, hlength, if_false, ite_self]

end ByteFile

/-! ## Integers -/

def encodeInt (x : Int) : List UInt8 :=
  let n := (x % 4294967296).toNat
  [UInt8.ofNat n, UInt8.ofNat (n / 256), UInt8.ofNat (n / 65536), UInt8.ofNat (n / 16777216)]

def decodeInt (b₀ b₁ b₂ b₃ : UInt8) : Int :=
  let n := b₀.toNat + 256 * b₁.toNat + 65536 * b₂.toNat + 16777216 * b₃.toNat
  if n < 2147483648 then n else n - 4294967296

def IsInt (x : Int) : Prop := -2147483648 ≤ x ∧ x < 2147483648

instance (x : Int) : Decidable (IsInt x) := inferInstanceAs (Decidable (_ ∧ _))

@[simp] theorem length_encodeInt (x : Int) : (encodeInt x).length = 4 := rfl

theorem isInt_decodeInt (b₀ b₁ b₂ b₃ : UInt8) : IsInt (decodeInt b₀ b₁ b₂ b₃) := by
  have h₀ := b₀.toNat_lt
  have h₁ := b₁.toNat_lt
  have h₂ := b₂.toNat_lt
  have h₃ := b₃.toNat_lt
  unfold IsInt decodeInt
  dsimp only
  split <;> omega

theorem decodeInt_encodeInt {x : Int} (hx : IsInt x) :
    decodeInt ((encodeInt x).getD 0 0) ((encodeInt x).getD 1 0) ((encodeInt x).getD 2 0)
      ((encodeInt x).getD 3 0) = x := by
  unfold IsInt at hx
  simp only [encodeInt, List.getD_cons_zero, List.getD_cons_succ, decodeInt, UInt8.toNat_ofNat']
  split <;> omega

/-- What is stored of an integer is its value modulo `2 ^ 32`. -/
theorem encodeInt_congr {x y : Int} (hmod : x % 4294967296 = y % 4294967296) :
    encodeInt x = encodeInt y := by
  unfold encodeInt
  rw [hmod]

end Os20.Lib.Bytes
