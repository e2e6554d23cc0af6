import Os20.Ssufs.Rounds

/-!
# `ssufs_write`

The loop keeps its inode in memory.  The blocks it allocates are marked on the disk at
once, and belong to the inode on the disk only when the loop has come to its end.  A call
that runs out of blocks returns in between.
-/

namespace Os20.Ssufs

structure Tidy (fs : Fs) (i : Fin numInodes) : Prop where
  entry : ∀ k, (fs.inode i).directBlocks k = -1 ∨
    ∃ b : Fin numDataBlocks, (fs.inode i).directBlocks k = b.val
  referenced : ∀ j k (b : Fin numDataBlocks), (fs.inode j).directBlocks k = b.val → fs.Used b
  single : ∀ k j k' (b : Fin numDataBlocks), (fs.inode i).directBlocks k = b.val →
    (fs.inode j).directBlocks k' = b.val → i = j ∧ k = k'
  size : (fs.inode i).fileSize = blocksize * blocksInUse (fs.inode i)
  has : ∀ k (b : Fin numDataBlocks), (fs.inode i).directBlocks k = b.val → fs.Has b

theorem Sound.tidy {fs : Fs} (hs : Sound fs) (i : Fin numInodes) : Tidy fs i where
  entry := hs.entry i
  referenced := hs.referenced
  single k j k' b hb hb' := hs.single i k j k' b hb hb'
  size := hs.size i
  has k b hb := hs.has b (hs.referenced i k b hb)

/-- A write through `h` on inode `i` that started in `fs₀` has come to position `o` with
the local inode `ino`. -/
structure Writing (fs₀ : Fs) (h : Handle) (i : Fin numInodes) (o : Int) (ino : Inode) (fs : Fs) :
    Prop where
  inode : fs.inode = fs₀.inode
  inodeFreelist : fs.super.inodeFreelist = fs₀.super.inodeFreelist
  others : ∀ h', h' ≠ h → fs.handles h' = fs₀.handles h'
  number : (fs.handles h).inodeNumber = i.val
  status : ino.status = (fs₀.inode i).status
  name : ino.name = (fs₀.inode i).name
  kept : ∀ k, (fs₀.inode i).directBlocks k ≠ -1 →
    ino.directBlocks k = (fs₀.inode i).directBlocks k
  fresh : ∀ k, (fs₀.inode i).directBlocks k = -1 → ino.directBlocks k ≠ -1 →
    Touches (fs₀.handles h).offset o k ∧
      ∃ b : Fin numDataBlocks, ino.directBlocks k = b.val ∧ fs₀.Free b
  filled : ∀ k, Touches (fs₀.handles h).offset o k → ino.directBlocks k ≠ -1
  distinct : ∀ k k', ino.directBlocks k ≠ -1 → ino.directBlocks k = ino.directBlocks k' → k = k'
  marks : ∀ b : Fin numDataBlocks, fs.super.datablockFreelist b =
    if ∃ k, (fs₀.inode i).directBlocks k = -1 ∧ ino.directBlocks k = b.val then used
    else fs₀.super.datablockFreelist b
  size : ino.fileSize = blocksize * blocksInUse ino
  has : ∀ b, fs₀.Has b → fs.Has b
  hasEntry : ∀ k (b : Fin numDataBlocks), ino.directBlocks k = b.val → fs.Has b
  block : ∀ b : Fin numDataBlocks, fs₀.Has b → (∀ k, ino.directBlocks k ≠ b.val) →
    fs.block b = fs₀.block b
  accesses : ∀ a ∈ fs.accesses, a ∈ fs₀.accesses ∨ ∃ k, ∃ b : Fin numDataBlocks,
    ino.directBlocks k = b.val ∧ (a = .read b.val ∨ a = .write b.val)

/-- What byte `q` of entry `k`, block `b`, is when the write has come to position `o`: a byte of
the buffer, or what it was, or zero in a new block. -/
def storedByte (fs₀ : Fs) (h : Handle) (i : Fin numInodes) (buf : List UInt8) (o : Int)
    (k : Fin maxFileSize) (b : Fin numDataBlocks) (q : Fin blocksize) : UInt8 :=
  if (fs₀.handles h).offset ≤ blocksize * k.val + q.val ∧
      (blocksize * k.val + q.val : Int) < o then
    buf.getD (blocksize * k.val + q.val - (fs₀.handles h).offset).toNat 0
  else if (fs₀.inode i).directBlocks k = -1 then 0
  else fs₀.block b q

def Stores (fs₀ : Fs) (h : Handle) (i : Fin numInodes) (buf : List UInt8) (o : Int)
    (ino : Inode) (fs : Fs) : Prop :=
  ∀ k (b : Fin numDataBlocks), ino.directBlocks k = b.val → ∀ q,
    fs.block b q = storedByte fs₀ h i buf o k b q

namespace Writing

variable {fs₀ fs : Fs} {h : Handle} {i : Fin numInodes} {o o' : Int} {ino : Inode}
  {k : Fin maxFileSize} {b : Fin numDataBlocks}

theorem start (ht : Tidy fs₀ i) (hnum : (fs₀.handles h).inodeNumber = i.val) :
    Writing fs₀ h i (fs₀.handles h).offset (fs₀.inode i) fs₀ where
  inode := rfl
  inodeFreelist := rfl
  others _ _ := rfl
  number := hnum
  status := rfl
  name := rfl
  kept _ _ := rfl
  fresh _ hnone hsome := absurd hnone hsome
  filled _ htouched := absurd htouched.1 (lt_irrefl _)
  distinct k k' hne heq := by
    obtain ⟨b, hb⟩ := (ht.entry k).resolve_left hne
    exact (ht.single k i k' b hb (heq ▸ hb)).2
  marks b := by
    rw [if_neg]
    rintro ⟨k, hnone, hb⟩
    omega
  size := ht.size
  has _ hb := hb
  hasEntry := ht.has
  block _ _ _ := rfl
  accesses _ ha := Or.inl ha

theorem entry (ht : Tidy fs₀ i) (hw : Writing fs₀ h i o ino fs) (k : Fin maxFileSize) :
    ino.directBlocks k = -1 ∨ ∃ b : Fin numDataBlocks, ino.directBlocks k = b.val := by
  by_cases hnone : (fs₀.inode i).directBlocks k = -1
  · by_cases hk : ino.directBlocks k = -1
    · exact Or.inl hk
    · obtain ⟨-, b, hb, -⟩ := hw.fresh k hnone hk
      exact Or.inr ⟨b, hb⟩
  · rw [hw.kept k hnone]
    exact ht.entry k

theorem used_of_used (hw : Writing fs₀ h i o ino fs) (hb : fs₀.Used b) : fs.Used b := by
  rw [Fs.Used, hw.marks]
  split
  · rfl
  · exact hb

theorem used_entry (ht : Tidy fs₀ i) (hw : Writing fs₀ h i o ino fs)
    (hb : ino.directBlocks k = b.val) : fs.Used b := by
  by_cases hnone : (fs₀.inode i).directBlocks k = -1
  · rw [Fs.Used, hw.marks, if_pos ⟨k, hnone, hb⟩]
  · apply hw.used_of_used
    rw [hw.kept k hnone] at hb
    exact ht.referenced i k b hb

theorem free_of_free (hw : Writing fs₀ h i o ino fs) (hb : fs.Free b) : fs₀.Free b := by
  rw [Fs.Free, hw.marks] at hb
  split at hb
  · exact absurd hb.symm free_ne_used
  · exact hb

theorem entry_ne_other (ht : Tidy fs₀ i) (hw : Writing fs₀ h i o ino fs)
    (hb : ino.directBlocks k = b.val) {j : Fin numInodes} (hj : j ≠ i) (k' : Fin maxFileSize) :
    (fs₀.inode j).directBlocks k' ≠ b.val := by
  intro hb'
  by_cases hnone : (fs₀.inode i).directBlocks k = -1
  · obtain ⟨-, c, hc, hfree⟩ := hw.fresh k hnone (by omega)
    obtain rfl : b = c := Fin.ext (by omega)
    exact hfree.not_used (ht.referenced j k' b hb')
  · rw [hw.kept k hnone] at hb
    exact hj (ht.single k j k' b hb hb').1.symm

theorem fits (ht : Tidy fs₀ i) (hw : Writing fs₀ h i o ino fs) : ino.Fits := by
  have hle := blocksInUse_le ino
  constructor
  · rw [hw.status]
    exact (fs₀.fits_inode i).status
  · rw [hw.size]
    unfold Lib.Bytes.IsInt blocksize
    omega
  · intro k
    unfold Lib.Bytes.IsInt
    rcases hw.entry ht k with hk | ⟨b, hk⟩
    · omega
    · have hlt : b.val < 30 := b.isLt
      omega

/-! ## One round of the loop -/

theorem stay (hw : Writing fs₀ h i o ino fs) (hstart : (fs₀.handles h).offset ≤ o)
    (hk : o / blocksize = k.val) (ho : o < o') (hend : o' ≤ blocksize * (k.val + 1))
    (hentry : ino.directBlocks k ≠ -1) : Writing fs₀ h i o' ino fs :=
  have htouches := touches_advance hstart hk ho hend
  { hw with
    fresh := by
      intro k' hnone hsome
      obtain ⟨htouched, hb⟩ := hw.fresh k' hnone hsome
      exact ⟨(htouches k').mpr (Or.inl htouched), hb⟩
    filled := by
      intro k' htouched
      rcases (htouches k').mp htouched with htouched | rfl
      · exact hw.filled k' htouched
      · exact hentry }

theorem none_of_none (hw : Writing fs₀ h i o ino fs) (hentry : ino.directBlocks k = -1) :
    (fs₀.inode i).directBlocks k = -1 := by
  by_contra hsome
  exact hsome ((hw.kept k hsome).symm.trans hentry)

theorem entry_ne_free (ht : Tidy fs₀ i) (hw : Writing fs₀ h i o ino fs) (hfree : fs.Free b)
    (k' : Fin maxFileSize) : ino.directBlocks k' ≠ b.val :=
  fun hb => hfree.not_used (hw.used_entry ht hb)

theorem distinct_grow (ht : Tidy fs₀ i) (hw : Writing fs₀ h i o ino fs) (hfree : fs.Free b)
    (k₁ k₂ : Fin maxFileSize) (hne : (ino.grow k b.val).directBlocks k₁ ≠ -1)
    (heq : (ino.grow k b.val).directBlocks k₁ = (ino.grow k b.val).directBlocks k₂) :
    k₁ = k₂ := by
  have hnew := hw.entry_ne_free ht hfree
  by_cases h₁ : k₁ = k <;> by_cases h₂ : k₂ = k
  · rw [h₁, h₂]
  · rw [h₁, directBlocks_grow_self, directBlocks_grow_of_ne _ _ h₂] at heq
    exact absurd heq.symm (hnew k₂)
  · rw [h₂, directBlocks_grow_self, directBlocks_grow_of_ne _ _ h₁] at heq
    exact absurd heq (hnew k₁)
  · rw [directBlocks_grow_of_ne _ _ h₁, directBlocks_grow_of_ne _ _ h₂] at heq
    rw [directBlocks_grow_of_ne _ _ h₁] at hne
    exact hw.distinct k₁ k₂ hne heq

theorem marks_grow (hw : Writing fs₀ h i o ino fs) (hentry : ino.directBlocks k = -1)
    (c : Fin numDataBlocks) :
    Function.update fs.super.datablockFreelist b used c =
      if ∃ k', (fs₀.inode i).directBlocks k' = -1 ∧ (ino.grow k b.val).directBlocks k' = c.val
      then used else fs₀.super.datablockFreelist c := by
  have hnone := hw.none_of_none hentry
  by_cases hc : c = b
  · rw [hc, Function.update_self, if_pos ⟨k, hnone, directBlocks_grow_self _ _ _⟩]
  · rw [Function.update_of_ne hc, hw.marks c]
    congr 1
    apply propext
    apply exists_congr
    intro k'
    by_cases hk' : k' = k
    · have hne : ((b.val : Nat) : Int) ≠ c.val := fun heq => hc (Fin.ext (by omega))
      have hne' : ino.directBlocks k ≠ c.val := by omega
      rw [hk', directBlocks_grow_self]
      simp [hne, hne']
    · rw [directBlocks_grow_of_ne _ _ hk']

theorem entry_grow (hentry : ino.directBlocks k = -1) {k' : Fin maxFileSize}
    {c : Fin numDataBlocks} (hc : ino.directBlocks k' = c.val) :
    (ino.grow k b.val).directBlocks k' = c.val := by
  rw [directBlocks_grow_of_ne, hc]
  rintro rfl
  omega

theorem grow (ht : Tidy fs₀ i) (hw : Writing fs₀ h i o ino fs)
    (hstart : (fs₀.handles h).offset ≤ o) (hk : o / blocksize = k.val) (ho : o < o')
    (hend : o' ≤ blocksize * (k.val + 1)) (hentry : ino.directBlocks k = -1) (hfree : fs.Free b)
    (buf : Block) :
    Writing fs₀ h i o' (ino.grow k b.val)
      (((fs.markBlock b used).logged (.write b.val)).putBlock b buf) := by
  have htouches := touches_advance hstart hk ho hend
  have hnone := hw.none_of_none hentry
  have hself := directBlocks_grow_self ino k b.val
  have hhas : ∀ c, fs.Has c → ((fs.markBlock b used).logged (.write b.val)).Has c := by
    intro c hc
    simpa [Fs.markBlock] using hc
  constructor
  · simp [Fs.markBlock, hw.inode]
  · simp [Fs.markBlock, Superblock.setBlock, hw.inodeFreelist]
  · exact hw.others
  · exact hw.number
  · exact hw.status
  · exact hw.name
  · intro k' hk'
    have hne : k' ≠ k := by
      rintro rfl
      exact hk' hnone
    rw [directBlocks_grow_of_ne _ _ hne]
    exact hw.kept k' hk'
  · intro k' hnone' hsome
    by_cases hk' : k' = k
    · subst hk'
      exact ⟨(htouches k').mpr (Or.inr rfl), b, hself, hw.free_of_free hfree⟩
    · rw [directBlocks_grow_of_ne _ _ hk'] at hsome ⊢
      obtain ⟨htouched, hb⟩ := hw.fresh k' hnone' hsome
      exact ⟨(htouches k').mpr (Or.inl htouched), hb⟩
  · intro k' htouched
    by_cases hk' : k' = k
    · rw [hk', hself]
      omega
    · rw [directBlocks_grow_of_ne _ _ hk']
      exact hw.filled k' (((htouches k').mp htouched).resolve_right hk')
  · exact hw.distinct_grow ht hfree
  · intro c
    simp only [Fs.markBlock, Fs.super_putBlock, Fs.super_logged, Fs.super_putSuper,
      Superblock.setBlock]
    exact hw.marks_grow hentry c
  · have hsize := hw.size
    rw [blocksInUse_grow hentry (by omega)]
    unfold Inode.grow
    unfold blocksize at hsize ⊢
    dsimp only
    omega
  · exact fun c hc => Fs.Has.putBlock buf (hhas c (hw.has c hc))
  · intro k' c hc
    by_cases hk' : k' = k
    · rw [hk', hself] at hc
      obtain rfl : b = c := Fin.ext (by omega)
      exact Fs.has_putBlock_self buf
    · rw [directBlocks_grow_of_ne _ _ hk'] at hc
      exact Fs.Has.putBlock buf (hhas c (hw.hasEntry k' c hc))
  · intro c hc hnot
    have hcb : c ≠ b := by
      rintro rfl
      exact hnot k hself
    rw [Fs.block_putBlock_of_ne buf hcb, Fs.block_logged, Fs.markBlock, Fs.block_putSuper]
    exact hw.block c hc fun k' hk' => hnot k' (entry_grow hentry hk')
  · intro a ha
    rcases List.mem_cons.mp ha with rfl | ha
    · exact Or.inr ⟨k, b, hself, Or.inr rfl⟩
    · apply (hw.accesses a ha).imp_right
      rintro ⟨k', c, hc, ha⟩
      exact ⟨k', c, entry_grow hentry hc, ha⟩

theorem fill (hw : Writing fs₀ h i o ino fs) (hb : ino.directBlocks k = b.val) (buf : Block) :
    Writing fs₀ h i o ino
      (((fs.logged (.read b.val)).logged (.write b.val)).putBlock b buf) :=
  { hw with
    inode := by simp [hw.inode]
    inodeFreelist := by simp [hw.inodeFreelist]
    marks := by
      intro c
      rw [Fs.super_putBlock]
      exact hw.marks c
    has := fun c hc => Fs.Has.putBlock buf (hw.has c hc)
    hasEntry := fun k' c hc => Fs.Has.putBlock buf (hw.hasEntry k' c hc)
    block := by
      intro c hc hnot
      have hcb : c ≠ b := by
        rintro rfl
        exact hnot k hb
      rw [Fs.block_putBlock_of_ne buf hcb]
      exact hw.block c hc hnot
    accesses := by
      intro a ha
      simp only [Fs.accesses_putBlock, Fs.accesses_logged, List.mem_cons] at ha
      rcases ha with rfl | rfl | ha
      · exact Or.inr ⟨k, b, hb, Or.inr rfl⟩
      · exact Or.inr ⟨k, b, hb, Or.inl rfl⟩
      · exact hw.accesses a ha }

/-! ### What the blocks hold -/

theorem stores_start (fs₀ : Fs) (h : Handle) (i : Fin numInodes) (buf : List UInt8) :
    Stores fs₀ h i buf (fs₀.handles h).offset (fs₀.inode i) fs₀ := by
  intro k b hb q
  rw [storedByte, if_neg (by omega), if_neg (by omega)]

/-- A new block is empty, and nothing has been stored in it yet. -/
theorem stores_grow (ht : Tidy fs₀ i) (hw : Writing fs₀ h i o ino fs)
    (hentry : ino.directBlocks k = -1) (hfree : fs.Free b) {buf : List UInt8}
    (hst : Stores fs₀ h i buf o ino fs) :
    Stores fs₀ h i buf o (ino.grow k b.val)
      (((fs.markBlock b used).logged (.write b.val)).putBlock b fun _ => 0) := by
  intro k' c hc q
  by_cases hk' : k' = k
  · subst hk'
    rw [directBlocks_grow_self] at hc
    obtain rfl : b = c := Fin.ext (by omega)
    have hout : ¬((fs₀.handles h).offset ≤ blocksize * k'.val + q.val ∧
        (blocksize * k'.val + q.val : Int) < o) := by
      rintro ⟨hle, hlt⟩
      refine hw.filled k' ?_ hentry
      have hq := q.isLt
      unfold Touches blocksize at *
      omega
    rw [Fs.block_putBlock_self, storedByte, if_neg hout, if_pos (hw.none_of_none hentry)]
  · rw [directBlocks_grow_of_ne _ _ hk'] at hc
    have hcb : c ≠ b := by
      rintro rfl
      exact hw.entry_ne_free ht hfree k' hc
    rw [Fs.block_putBlock_of_ne _ hcb, Fs.block_logged, Fs.markBlock, Fs.block_putSuper]
    exact hst k' c hc q

theorem stores_fill (hw : Writing fs₀ h i o' ino fs) (hb : ino.directBlocks k = b.val)
    {buf : List UInt8} (hst : Stores fs₀ h i buf o ino fs) {write jump : Nat}
    (hstart : (fs₀.handles h).offset + write = o) (hk : o / blocksize = k.val)
    (hend : o + jump ≤ blocksize * (k.val + 1)) :
    Stores fs₀ h i buf (o + jump) ino
      (((fs.logged (.read b.val)).logged (.write b.val)).putBlock b
        (splice (fs.block b) (o % blocksize).toNat jump buf write)) := by
  intro k' c hc q
  have hq := q.isLt
  unfold blocksize at hk hend hq
  by_cases hk' : k' = k
  · subst hk'
    obtain rfl : b = c := Fin.ext (by omega)
    rw [Fs.block_putBlock_self, splice, storedByte]
    unfold blocksize
    split
    · rw [if_pos (by omega)]
      congr 1
      omega
    · have hsame := hst k' b hc q
      rw [storedByte] at hsame
      unfold blocksize at hsame
      rw [hsame]
      congr 1
      apply propext
      omega
  · have hcb : c ≠ b := by
      rintro rfl
      exact hk' (hw.distinct k' k (by omega) (hc.trans hb.symm))
    have hne : k'.val ≠ k.val := fun heq => hk' (Fin.ext heq)
    have hsame := hst k' c hc q
    rw [storedByte] at hsame
    unfold blocksize at hsame
    rw [Fs.block_putBlock_of_ne _ hcb, Fs.block_logged, Fs.block_logged, hsame, storedByte]
    unfold blocksize
    congr 1
    apply propext
    omega

theorem seek (hw : Writing fs₀ h i o ino fs) (p : Int) : Writing fs₀ h i o ino (fs.seek h p) :=
  { hw with
    others := by
      intro h' hne
      rw [Fs.seek, Fs.handles_putHandle, Function.update_of_ne hne]
      exact hw.others h' hne
    number := by
      rw [Fs.seek, Fs.handles_putHandle, Function.update_self]
      exact hw.number }

/-- The block for position `o` is found or allocated, unless none is left. -/
theorem blocknum (ht : Tidy fs₀ i) (hw : Writing fs₀ h i o ino fs)
    (hstart : (fs₀.handles h).offset ≤ o) (hk : o / blocksize = k.val) (ho : o < o')
    (hend : o' ≤ blocksize * (k.val + 1)) :
    (ino.directBlocks k = -1 ∧ ∀ b, ¬fs.Free b) ∨
      ∃ b ino' fs', Placed ino k b fs ino' fs' ∧ Writing fs₀ h i o' ino' fs' ∧
        ∀ buf, Stores fs₀ h i buf o ino fs → Stores fs₀ h i buf o ino' fs' := by
  rcases hw.entry ht k with hnone | ⟨b, hb⟩
  · rcases allocDataBlock_run fs with ⟨b, hfree, hfirst, -⟩ | ⟨hfull, -, -⟩
    · exact Or.inr ⟨b, _, _, .allocated hnone hfirst,
        hw.grow ht hstart hk ho hend hnone hfree _,
        fun buf hst => hw.stores_grow ht hnone hfree hst⟩
    · exact Or.inl ⟨hnone, hfull⟩
  · exact Or.inr ⟨b, ino, fs, .found hb, hw.stay hstart hk ho hend (by omega),
      fun _ hst => hst⟩

end Writing

/-! ## The loop -/

structure Written (fs₀ : Fs) (h : Handle) (i : Fin numInodes) (stop : Int) (ino : Inode)
    (fs : Fs) : Prop extends Writing fs₀ h i stop ino fs where
  offset : (fs.handles h).offset = stop

/-- The loop has come to a position `o` before its end, in a block that is missing, and no
block is free. -/
structure Exhausted (fs₀ : Fs) (h : Handle) (i : Fin numInodes) (stop o : Int) (ino : Inode)
    (fs : Fs) : Prop extends Writing fs₀ h i o ino fs where
  offset : (fs.handles h).offset = o
  start : (fs₀.handles h).offset ≤ o
  before : o < stop
  missing : ∃ k : Fin maxFileSize, o / blocksize = k.val ∧ ino.directBlocks k = -1
  full : ∀ b, ¬fs.Free b

variable {fs₀ fs : Fs} {h : Handle} {i : Fin numInodes}

theorem writeLoop_run (ht : Tidy fs₀ i) (buf : List UInt8) (nbytes : Int) (fuel : Nat) (o : Int)
    (ino : Inode) (write : Nat) (hnonneg : 0 ≤ (fs₀.handles h).offset)
    (hstart : (fs₀.handles h).offset + write = o)
    (hspace : o + (nbytes - write) ≤ blocksize * maxFileSize)
    (hwrite : write ≤ nbytes) (hfuel : nbytes - write ≤ fuel) (hoff : (fs.handles h).offset = o)
    (hw : Writing fs₀ h i o ino fs) (hst : Stores fs₀ h i buf o ino fs) :
    (∃ ino' fs', writeLoop h buf nbytes fuel ino write fs = .ok (some ino') fs' ∧
        Written fs₀ h i (o + (nbytes - write)) ino' fs' ∧
        Stores fs₀ h i buf (o + (nbytes - write)) ino' fs') ∨
      ∃ o' ino' fs', writeLoop h buf nbytes fuel ino write fs = .ok none fs' ∧
        Exhausted fs₀ h i (o + (nbytes - write)) o' ino' fs' := by
  induction fuel generalizing fs o ino write with
  | zero =>
      refine Or.inl ⟨ino, fs, writeLoop_done (by omega) 0, ?_⟩
      rw [show o + (nbytes - write) = o by omega]
      exact ⟨⟨hw, hoff⟩, hst⟩
  | succ fuel ih =>
      by_cases hlt : (write : Int) < nbytes
      · have hstart' : (fs₀.handles h).offset ≤ o := by omega
        obtain ⟨k, hk⟩ := exists_block (hnonneg.trans hstart') (by omega)
        generalize hjump : min (blocksize - (o % blocksize).toNat) (nbytes - write).toNat = jump
        have hpos : 0 < jump ∧ o + jump ≤ blocksize * (k.val + 1) ∧ jump ≤ nbytes - write := by
          unfold blocksize at hjump hk ⊢
          omega
        obtain ⟨hjump0, hend, hle⟩ := hpos
        have hk' : (fs.handles h).offset / blocksize = k.val := by rw [hoff, hk]
        rcases hw.blocknum ht hstart' hk (by omega) hend with
          ⟨hnone, hfull⟩ | ⟨b, ino', fs', hp, hw', hst'⟩
        · right
          exact ⟨o, ino, fs, writeLoop_full hlt hk' hnone hfull fuel, hw, hoff, hstart', by omega,
            ⟨k, hk, hnone⟩, hfull⟩
        · have hoff' : (fs'.handles h).offset = o := by rw [hp.handles, hoff]
          rw [writeLoop_next hlt hk' hp (hw'.hasEntry k b hp.self) (hoff ▸ hjump), Fs.store, hoff']
          have hfill := hw'.fill hp.self
            (splice (fs'.block b) (o % blocksize).toNat jump buf write)
          have hnext := ih (o + jump) ino' (write + jump) (by omega) (by omega) (by omega)
            (by omega) (Fs.offset_seek _ _ _) (hfill.seek (o + jump))
            (hw'.stores_fill hp.self (hst' buf hst) hstart hk hend)
          rwa [show o + jump + (nbytes - (write + jump : Nat)) = o + (nbytes - write) by omega]
            at hnext
      · refine Or.inl ⟨ino, fs, writeLoop_done (by omega) _, ?_⟩
        rw [show o + (nbytes - write) = o by omega]
        exact ⟨⟨hw, hoff⟩, hst⟩

def Fs.stop (fs : Fs) (h : Handle) (nbytes : Int) : Int := (fs.handles h).offset + max nbytes 0

def Fs.Admits (fs : Fs) (h : Handle) (i : Fin numInodes) (nbytes : Int) : Prop :=
  (fs.handles h).inodeNumber = i.val ∧ nbytes ≤ blocksize * 4 - (fs.handles h).offset

instance (fs : Fs) (h : Handle) (i : Fin numInodes) (nbytes : Int) :
    Decidable (fs.Admits h i nbytes) := inferInstanceAs (Decidable (_ ∧ _))

/-! ## The call -/

theorem write_run_refused {nbytes : Int} (hnum : (fs.handles h).inodeNumber = i.val)
    (hspace : blocksize * 4 - (fs.handles h).offset < nbytes) (buf : List UInt8) :
    write h buf nbytes fs = .ok (-1) fs := by
  unfold write
  rw [bind_ok (getHandle_run h), if_neg (by omega), bind_ok (readInode_run hnum), if_pos hspace]
  rfl

section Admitted

variable {nbytes : Int} {buf : List UInt8} {fs' : Fs} (hadmits : fs.Admits h i nbytes)

include hadmits

theorem write_run_ok {ino : Inode}
    (hloop : writeLoop h buf nbytes nbytes.toNat (fs.inode i) 0 fs = .ok (some ino) fs') :
    write h buf nbytes fs = .ok 0 (fs'.putInode i ino) := by
  obtain ⟨hnum, hspace⟩ := hadmits
  unfold write
  rw [bind_ok (getHandle_run h), if_neg (by omega), bind_ok (readInode_run hnum),
    if_neg (by omega), bind_ok hloop]
  dsimp only
  rw [bind_ok (writeInode_run _ hnum)]
  rfl

theorem write_run_full
    (hloop : writeLoop h buf nbytes nbytes.toNat (fs.inode i) 0 fs = .ok none fs') :
    write h buf nbytes fs = .ok (-1) fs' := by
  obtain ⟨hnum, hspace⟩ := hadmits
  unfold write
  rw [bind_ok (getHandle_run h), if_neg (by omega), bind_ok (readInode_run hnum),
    if_neg (by omega), bind_ok hloop]
  rfl

theorem write_run_error {e : Abort}
    (hloop : writeLoop h buf nbytes nbytes.toNat (fs.inode i) 0 fs = .error e fs') :
    write h buf nbytes fs = .error e fs' := by
  obtain ⟨hnum, hspace⟩ := hadmits
  unfold write
  rw [bind_ok (getHandle_run h), if_neg (by omega), bind_ok (readInode_run hnum),
    if_neg (by omega), bind_error hloop]

end Admitted

theorem write_run_admitted {nbytes : Int} (ht : Tidy fs i) (hnonneg : 0 ≤ (fs.handles h).offset)
    (hadmits : fs.Admits h i nbytes) (buf : List UInt8) :
    (∃ ino fs', Written fs h i (fs.stop h nbytes) ino fs' ∧
        Stores fs h i buf (fs.stop h nbytes) ino fs' ∧
        write h buf nbytes fs = .ok 0 (fs'.putInode i ino)) ∨
      ∃ o ino fs', Exhausted fs h i (fs.stop h nbytes) o ino fs' ∧
        write h buf nbytes fs = .ok (-1) fs' := by
  have hnum := hadmits.1
  have hspace := hadmits.2
  by_cases hneg : nbytes < 0
  · -- nothing to do, and the inode is stored as it was read
    have hstop : fs.stop h nbytes = (fs.handles h).offset := by
      rw [Fs.stop, max_eq_right (by omega), Int.add_zero]
    left
    rw [hstop]
    exact ⟨fs.inode i, fs, ⟨.start ht hnum, rfl⟩, Writing.stores_start fs h i buf,
      write_run_ok hadmits (writeLoop_done (by omega) _)⟩
  · have hstop : fs.stop h nbytes = (fs.handles h).offset + (nbytes - (0 : Nat)) := by
      rw [Fs.stop, max_eq_left (by omega)]
      simp
    rw [hstop]
    rcases writeLoop_run ht buf nbytes nbytes.toNat (fs.handles h).offset (fs.inode i) 0
        hnonneg (by omega) (by unfold blocksize maxFileSize at *; omega) (by omega)
        (by omega) rfl (.start ht hnum) (Writing.stores_start fs h i buf) with
      ⟨ino, fs', hloop, hwritten, hst⟩ | ⟨o, ino, fs', hloop, hexhausted⟩
    · exact Or.inl ⟨ino, fs', hwritten, hst, write_run_ok hadmits hloop⟩
    · exact Or.inr ⟨o, ino, fs', hexhausted, write_run_full hadmits hloop⟩

/-- A write is refused, is stopped by its first `assert`, reaches its end and stores the
inode, or gives up for want of a block. -/
theorem write_run (hs : Sound fs) (h : Handle) (buf : List UInt8) (nbytes : Int) :
    (∀ i, ¬fs.Admits h i nbytes) ∧ write h buf nbytes fs = .ok (-1) fs ∨
      (numInodes : Int) ≤ (fs.handles h).inodeNumber ∧
        write h buf nbytes fs = .error .inodenum fs ∨
      ∃ i, fs.Admits h i nbytes ∧
        ((∃ ino fs', Written fs h i (fs.stop h nbytes) ino fs' ∧
            write h buf nbytes fs = .ok 0 (fs'.putInode i ino)) ∨
          ∃ o ino fs', Exhausted fs h i (fs.stop h nbytes) o ino fs' ∧
            write h buf nbytes fs = .ok (-1) fs') := by
  rcases hs.number_cases h with hnum | ⟨i, hnum⟩ | hnum
  · left
    refine ⟨?_, ?_⟩
    · rintro i ⟨hi, -⟩
      omega
    · unfold write
      rw [bind_ok (getHandle_run h), if_pos hnum]
      rfl
  · by_cases hspace : blocksize * 4 - (fs.handles h).offset < nbytes
    · refine Or.inl ⟨?_, write_run_refused hnum hspace buf⟩
      rintro j ⟨-, hadmits⟩
      omega
    · have hadmits : fs.Admits h i nbytes := ⟨hnum, by omega⟩
      refine Or.inr (Or.inr ⟨i, hadmits, ?_⟩)
      rcases write_run_admitted (hs.tidy i) (hs.offset h (by omega)).1 hadmits buf with
        ⟨ino, fs', hwritten, -, hrun⟩ | hexhausted
      · exact Or.inl ⟨ino, fs', hwritten, hrun⟩
      · exact Or.inr hexhausted
  · refine Or.inr (Or.inl ⟨hnum, ?_⟩)
    unfold write
    rw [bind_ok (getHandle_run h), if_neg (by omega), bind_error (readInode_run_abort hnum)]

end Os20.Ssufs
