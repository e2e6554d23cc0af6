import Os20.Log.Capacity
import Mathlib.Data.List.GetD

/-!
# Disk, cache and the log on disk

What the disk operations of `log.c` do to the disk and to the contents that `bread` sees, and
what `recover_from_log` would make of a disk.
-/

namespace Os20.Log

/-! ## The header block -/

theorem toInt_toNat_ofNat {n : Nat} (h : n ≤ logSize) :
    (UInt32.ofNat n).toInt32.toInt.toNat = n := by
  change n ≤ 30 at h
  interval_cases n <;> rfl

theorem header_setHeader (b : Block) {lh : List BlockNo} (h : lh.length ≤ logSize) :
    (b.setHeader lh).header = lh := by
  have hsize : lh.length ≤ 30 := h
  have hcount : (b.setHeader lh).word 0 = UInt32.ofNat lh.length := rfl
  have hword (i : Nat) (hi : i < lh.length) : (b.setHeader lh).word (i + 1) = lh[i] := by
    have hi' : i + 1 < 128 := by omega
    rw [Block.word, dif_pos hi']
    exact List.getD_eq_getElem _ _ hi
  apply List.ext_getElem
  · rw [Block.header, List.length_map, List.length_range, hcount, toInt_toNat_ofNat h]
  · intro i hi hi'
    simp only [Block.header, List.getElem_map, List.getElem_range]
    exact hword i hi'

/-! ## Blocks of the log -/

structure Geometry.Holds (g : Geometry) (n : Nat) : Prop where
  header : n ≤ logSize
  blocks : n < g.size

namespace Geometry

variable {g : Geometry} {i j n : Nat} {b : BlockNo}

theorem toNat_logBlock (g : Geometry) (h : i < logSize) :
    (g.logBlock i - g.start).toNat = i + 1 := by
  have hsub : g.logBlock i - g.start = UInt32.ofNat i + 1 := by
    unfold logBlock
    grind
  rw [hsub, UInt32.toNat_add, UInt32.toNat_ofNat']
  simp [logSize, maxOpBlocks] at h ⊢
  omega

theorem logBlock_ne_start (h : i < logSize) : g.logBlock i ≠ g.start := by
  intro heq
  have hnat := g.toNat_logBlock h
  rw [heq] at hnat
  simp at hnat

theorem logBlock_inj (hi : i < logSize) (hj : j < logSize) (heq : g.logBlock i = g.logBlock j) :
    i = j := by
  have hi' := g.toNat_logBlock hi
  have hj' := g.toNat_logBlock hj
  rw [heq, hj'] at hi'
  omega

namespace Holds

theorem pos (h : g.Holds n) : 0 < g.size := Nat.zero_lt_of_lt h.blocks

theorem zero (h : 0 < g.size) : g.Holds 0 := ⟨Nat.zero_le _, h⟩

theorem append {P : Type*} {s : State P} (h : g.Holds s.lh.length) (hlasts : ¬s.LogWritePanics g)
    (b : BlockNo) : g.Holds (if b ∈ s.lh then s.lh else s.lh ++ [b]).length := by
  split
  · exact h
  · rw [List.length_append, List.length_singleton]
    unfold State.LogWritePanics at hlasts
    exact ⟨by omega, by omega⟩

theorem inLog_start (h : g.Holds n) : g.InLog g.start := by
  have hzero : (g.start - g.start).toNat = 0 := by simp
  have hblocks := h.blocks
  unfold InLog
  omega

theorem inLog_logBlock (h : g.Holds n) (hi : i < n) : g.InLog (g.logBlock i) := by
  have hnat := g.toNat_logBlock (Nat.lt_of_lt_of_le hi h.header)
  have hblocks := h.blocks
  unfold InLog
  omega

end Holds

end Geometry

/-! ## Reads and writes -/

variable {P : Type*} {g : Geometry} {s s' s'' : State P} {b x : BlockNo} {data : Block}

namespace State

def Dirty (s : State P) (b : BlockNo) : Prop := ∃ data, s.cache b = some ⟨data, true⟩

def Clean (s : State P) : Prop := ∀ b data, s.cache b = some ⟨data, false⟩ → data = s.disk b

theorem Clean.contents (h : s.Clean) (hb : ¬s.Dirty b) : s.contents b = s.disk b := by
  unfold State.contents
  cases hc : s.cache b with
  | none => rfl
  | some buf =>
      obtain ⟨data, dirty⟩ := buf
      cases dirty with
      | false => exact h b data hc
      | true => exact absurd ⟨data, hc⟩ hb

structure Reads (s s' : State P) : Prop where
  io : s.Io s'
  disk : s'.disk = s.disk
  contents : s'.contents = s.contents
  dirty : ∀ b, s'.Dirty b ↔ s.Dirty b
  clean : s.Clean → s'.Clean

structure Wrote (s s' : State P) (b : BlockNo) (data : Block) : Prop where
  io : s.Io s'
  disk : s'.disk = Function.update s.disk b data
  contents : s'.contents = Function.update s.contents b data
  dirty : ∀ x, s'.Dirty x ↔ x ≠ b ∧ s.Dirty x
  clean : s.Clean → s'.Clean

theorem Reads.refl (s : State P) : s.Reads s :=
  ⟨.refl s, rfl, rfl, fun _ => Iff.rfl, id⟩

theorem Reads.trans (h : s.Reads s') (h' : s'.Reads s'') : s.Reads s'' where
  io := h.io.trans h'.io
  disk := h'.disk.trans h.disk
  contents := h'.contents.trans h.contents
  dirty b := (h'.dirty b).trans (h.dirty b)
  clean hc := h'.clean (h.clean hc)

theorem Reads.wrote (h : s.Reads s') (h' : s'.Wrote s'' b data) : s.Wrote s'' b data where
  io := h.io.trans h'.io
  disk := by rw [h'.disk, h.disk]
  contents := by rw [h'.contents, h.contents]
  dirty x := by rw [h'.dirty, h.dirty]
  clean hc := h'.clean (h.clean hc)

theorem Reads.bread (s : State P) (b : BlockNo) : s.Reads (s.bread b) := by
  have hio := Io.bread s b
  unfold State.bread at hio ⊢
  cases hcache : s.cache b with
  | some buf => exact .refl s
  | none =>
      rw [hcache] at hio
      dsimp only at hio ⊢
      have hself : Function.update s.cache b (some ⟨s.disk b, false⟩) b =
          some ⟨s.disk b, false⟩ := Function.update_self ..
      have hother {x : BlockNo} (hx : x ≠ b) :
          Function.update s.cache b (some ⟨s.disk b, false⟩) x = s.cache x :=
        Function.update_of_ne hx ..
      refine ⟨hio, rfl, funext fun x => ?_, fun x => ?_, fun hc x data hx => ?_⟩
      · simp only [State.contents]
        by_cases hx : x = b
        · rw [hx, hself, hcache]
        · rw [hother hx]
      · simp only [Dirty]
        by_cases hx : x = b
        · rw [hx, hself, hcache]
          simp
        · rw [hother hx]
      · dsimp only at hx ⊢
        by_cases hxb : x = b
        · rw [hxb, hself] at hx
          cases hx
          rw [hxb]
        · rw [hother hxb] at hx
          exact hc x data hx

theorem Reads.evict (hclean : s.Clean) (hb : s.cache b = some ⟨data, false⟩) :
    s.Reads { s with cache := Function.update s.cache b none } := by
  have hself : Function.update s.cache b none b = none := Function.update_self ..
  have hother {x : BlockNo} (hx : x ≠ b) : Function.update s.cache b none x = s.cache x :=
    Function.update_of_ne hx ..
  refine ⟨⟨rfl, rfl, rfl, rfl, rfl⟩, rfl, funext fun x => ?_, fun x => ?_, fun hc x y hx => ?_⟩
  · simp only [State.contents]
    by_cases hx : x = b
    · rw [hx, hself, hb]
      exact (hclean b data hb).symm
    · rw [hother hx]
  · simp only [Dirty]
    by_cases hx : x = b
    · rw [hx, hself, hb]
      simp
    · rw [hother hx]
  · dsimp only at hx ⊢
    by_cases hxb : x = b
    · rw [hxb, hself] at hx
      cases hx
    · rw [hother hxb] at hx
      exact hc x y hx

theorem Wrote.bwrite (s : State P) (b : BlockNo) (data : Block) :
    s.Wrote (s.bwrite b data) b data := by
  have hself : Function.update s.cache b (some ⟨data, false⟩) b = some ⟨data, false⟩ :=
    Function.update_self ..
  have hother {x : BlockNo} (hx : x ≠ b) :
      Function.update s.cache b (some ⟨data, false⟩) x = s.cache x :=
    Function.update_of_ne hx ..
  refine ⟨.bwrite s b data, rfl, funext fun x => ?_, fun x => ?_, fun hc x y hx => ?_⟩
  · simp only [State.contents, State.bwrite]
    by_cases hx : x = b
    · rw [hx, hself]
      exact (Function.update_self b data s.contents).symm
    · rw [hother hx, Function.update_of_ne hx, Function.update_of_ne hx]
      rfl
  · simp only [Dirty, State.bwrite]
    by_cases hx : x = b
    · rw [hx, hself]
      simp
    · rw [hother hx]
      simp [hx]
  · simp only [State.bwrite] at hx ⊢
    by_cases hxb : x = b
    · rw [hxb, hself] at hx
      cases hx
      rw [hxb, Function.update_self]
    · rw [hother hxb] at hx
      rw [Function.update_of_ne hxb]
      exact hc x y hx

theorem Wrote.writeHead (s : State P) (g : Geometry) :
    s.Wrote (s.writeHead g) g.start ((s.contents g.start).setHeader s.lh) := by
  have hreads := Reads.bread s g.start
  rw [← hreads.contents, ← hreads.io.lh]
  exact hreads.wrote (.bwrite ..)

theorem Wrote.writeLog (s : State P) (g : Geometry) (tail : Nat) (b : BlockNo) :
    s.Wrote (s.writeLog g tail b) (g.logBlock tail) (s.contents b) := by
  have hreads := (Reads.bread s (g.logBlock tail)).trans (.bread _ b)
  rw [← hreads.contents]
  exact hreads.wrote (.bwrite ..)

theorem Wrote.installTrans (s : State P) (g : Geometry) (tail : Nat) (b : BlockNo) :
    s.Wrote (s.installTrans g tail b) b (s.contents (g.logBlock tail)) := by
  have hreads := (Reads.bread s (g.logBlock tail)).trans (.bread _ b)
  rw [← hreads.contents]
  exact hreads.wrote (.bwrite ..)

def recovered (s : State P) (g : Geometry) (b : BlockNo) : Block :=
  if b ∈ (s.disk g.start).header then s.disk (g.logBlock ((s.disk g.start).header.idxOf b))
  else s.disk b

end State

/-- The log on `disk`, if there is one, and the blocks that are not in it make up `stable`. -/
structure Recoverable (g : Geometry) (disk stable : BlockNo → Block) : Prop where
  home : ∀ b ∈ (disk g.start).header, ¬g.InLog b
  holds : g.Holds (disk g.start).header.length
  logged : ∀ i b, (disk g.start).header[i]? = some b → disk (g.logBlock i) = stable b
  rest : ∀ b, ¬g.InLog b → b ∉ (disk g.start).header → disk b = stable b

namespace Recoverable

variable {disk disk' stable : BlockNo → Block} {lh : List BlockNo} {tail i : Nat}

theorem recovered (h : Recoverable g s.disk stable) (hb : ¬g.InLog b) :
    s.recovered g b = stable b := by
  unfold State.recovered
  split
  · next hmem =>
      apply h.logged
      rw [List.getElem?_eq_getElem (List.idxOf_lt_length_of_mem hmem), List.getElem_idxOf]
  · next hmem => exact h.rest b hb hmem

theorem lt_length (hi : lh[i]? = some b) : i < lh.length :=
  (List.getElem?_eq_some_iff.mp hi).1

theorem writeLog (h : Recoverable g disk stable) (hheader : (disk g.start).header = []) {n : Nat}
    (hn : g.Holds n) (htail : tail < n) :
    Recoverable g (Function.update disk (g.logBlock tail) data) stable := by
  have hsize := Nat.lt_of_lt_of_le htail hn.header
  have hstart : Function.update disk (g.logBlock tail) data g.start = disk g.start :=
    Function.update_of_ne (Geometry.logBlock_ne_start hsize).symm ..
  refine ⟨?_, ?_, ?_, fun b hb _ => ?_⟩
  · rw [hstart]
    exact h.home
  · rw [hstart]
    exact h.holds
  · rw [hstart, hheader]
    simp
  · have hne : b ≠ g.logBlock tail := by
      rintro rfl
      exact hb (hn.inLog_logBlock htail)
    rw [Function.update_of_ne hne]
    exact h.rest b hb (by simp [hheader])

theorem install (h : Recoverable g disk stable) (hb : b ∈ (disk g.start).header) :
    Recoverable g (Function.update disk b (stable b)) stable := by
  have hhome := h.home b hb
  have hne : g.start ≠ b := by
    rintro rfl
    exact hhome h.holds.inLog_start
  have hstart : Function.update disk b (stable b) g.start = disk g.start :=
    Function.update_of_ne hne ..
  refine ⟨?_, ?_, fun i y hy => ?_, fun y hy hnot => ?_⟩
  · rw [hstart]
    exact h.home
  · rw [hstart]
    exact h.holds
  · rw [hstart] at hy
    have hne : g.logBlock i ≠ b := by
      rintro rfl
      exact hhome (h.holds.inLog_logBlock (lt_length hy))
    rw [Function.update_of_ne hne]
    exact h.logged i y hy
  · rw [hstart] at hnot
    have hne : y ≠ b := by
      rintro rfl
      exact hnot hb
    rw [Function.update_of_ne hne]
    exact h.rest y hy hnot

/-- The header is written, for a log with what the blocks in it are to be. -/
theorem setHeader (hholds : g.Holds lh.length) (hhome : ∀ b ∈ lh, ¬g.InLog b)
    (hlogged : ∀ i b, lh[i]? = some b → disk (g.logBlock i) = stable b)
    (hrest : ∀ b, ¬g.InLog b → b ∉ lh → disk b = stable b) (block : Block) :
    Recoverable g (Function.update disk g.start (block.setHeader lh)) stable := by
  have hheader : (Function.update disk g.start (block.setHeader lh) g.start).header = lh := by
    rw [Function.update_self, header_setHeader block hholds.header]
  refine ⟨?_, ?_, fun i b hb => ?_, fun b hb hnot => ?_⟩
  · rw [hheader]
    exact hhome
  · rw [hheader]
    exact hholds
  · rw [hheader] at hb
    have hsize := Nat.lt_of_lt_of_le (lt_length hb) hholds.header
    rw [Function.update_of_ne (Geometry.logBlock_ne_start hsize)]
    exact hlogged i b hb
  · rw [hheader] at hnot
    have hne : b ≠ g.start := by
      rintro rfl
      exact hb hholds.inLog_start
    rw [Function.update_of_ne hne]
    exact hrest b hb hnot

end Recoverable

end Os20.Log
