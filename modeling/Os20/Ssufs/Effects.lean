import Os20.Ssufs.Cells

/-!
# `ssufs-disk.c`: what the functions do to the cells

Allocation marks the first free entry of a free list.  `ssufs_freeInode` writes the
superblock once for every block it frees; since it reads it back each time, its local
copy and the disk agree at the end.
-/

namespace Os20.Ssufs

namespace Fs

def InUse (fs : Fs) (i : Fin numInodes) : Prop := fs.super.inodeFreelist i = used

def Used (fs : Fs) (b : Fin numDataBlocks) : Prop := fs.super.datablockFreelist b = used

def Free (fs : Fs) (b : Fin numDataBlocks) : Prop := fs.super.datablockFreelist b = free

instance (fs : Fs) (i : Fin numInodes) : Decidable (fs.InUse i) :=
  inferInstanceAs (Decidable (_ = _))
instance (fs : Fs) (b : Fin numDataBlocks) : Decidable (fs.Used b) :=
  inferInstanceAs (Decidable (_ = _))
instance (fs : Fs) (b : Fin numDataBlocks) : Decidable (fs.Free b) :=
  inferInstanceAs (Decidable (_ = _))

theorem Free.not_used {fs : Fs} {b : Fin numDataBlocks} (hfree : fs.Free b) : ¬fs.Used b := by
  intro hused
  exact free_ne_used (hfree.symm.trans hused)

theorem InUse.ne_of_free {fs : Fs} {i j : Fin numInodes} (huse : fs.InUse j)
    (hfree : fs.super.inodeFreelist i = free) : j ≠ i := by
  rintro rfl
  exact free_ne_used (hfree.symm.trans huse)

def markBlock (fs : Fs) (b : Fin numDataBlocks) (mark : UInt8) : Fs :=
  fs.putSuper (fs.super.setBlock b mark)

def markInode (fs : Fs) (i : Fin numInodes) (mark : UInt8) : Fs :=
  fs.putSuper (fs.super.setInode i mark)

end Fs

structure OnlySuper (fs fs' : Fs) : Prop where
  inode : fs'.inode = fs.inode
  handles : fs'.handles = fs.handles
  accesses : fs'.accesses = fs.accesses
  has : ∀ b, fs'.Has b ↔ fs.Has b
  block : ∀ b, fs.Has b → fs'.block b = fs.block b

namespace OnlySuper

theorem refl (fs : Fs) : OnlySuper fs fs := ⟨rfl, rfl, rfl, fun _ => Iff.rfl, fun _ _ => rfl⟩

theorem trans {fs fs' fs'' : Fs} (h : OnlySuper fs fs') (h' : OnlySuper fs' fs'') :
    OnlySuper fs fs'' where
  inode := h'.inode.trans h.inode
  handles := h'.handles.trans h.handles
  accesses := h'.accesses.trans h.accesses
  has b := (h'.has b).trans (h.has b)
  block b hb := (h'.block b ((h.has b).mpr hb)).trans (h.block b hb)

theorem putSuper (fs : Fs) (superblock : Superblock) : OnlySuper fs (fs.putSuper superblock) where
  inode := Fs.inode_putSuper fs superblock
  handles := rfl
  accesses := rfl
  has _ := Fs.has_putSuper superblock
  block _ _ := by rw [Fs.block_putSuper]

end OnlySuper

variable {fs : Fs}

/-! ## Allocation -/

theorem find_free {n : Nat} (freelist : Fin n → UInt8) :
    (∃ k, freelist k = free ∧
        (List.finRange n).find? (fun k => freelist k = free) = some k) ∨
      ((∀ k, freelist k ≠ free) ∧
        (List.finRange n).find? (fun k => freelist k = free) = none) := by
  cases hfind : (List.finRange n).find? fun k => decide (freelist k = free) with
  | some k =>
      have hfree := List.find?_some hfind
      exact Or.inl ⟨k, of_decide_eq_true hfree, rfl⟩
  | none =>
      refine Or.inr ⟨?_, rfl⟩
      intro k hk
      have hnone := List.find?_eq_none.mp hfind k (List.mem_finRange k)
      exact hnone (decide_eq_true hk)

def Fs.firstFreeBlock (fs : Fs) : Option (Fin numDataBlocks) :=
  (List.finRange numDataBlocks).find? fun b => fs.super.datablockFreelist b = free

theorem allocDataBlock_run (fs : Fs) :
    (∃ b, fs.Free b ∧ fs.firstFreeBlock = some b ∧
        allocDataBlock fs = .ok b.val (fs.markBlock b used)) ∨
      ((∀ b, ¬fs.Free b) ∧ fs.firstFreeBlock = none ∧ allocDataBlock fs = .ok (-1) fs) := by
  unfold allocDataBlock Fs.firstFreeBlock
  rw [bind_ok readSuperBlock_run]
  rcases find_free fs.super.datablockFreelist with ⟨b, hfree, hfind⟩ | ⟨hnone, hfind⟩
  · rw [hfind]
    exact Or.inl ⟨b, hfree, rfl, bind_ok (writeSuperBlock_run _)⟩
  · rw [hfind]
    exact Or.inr ⟨hnone, rfl, rfl⟩

theorem allocInode_run (fs : Fs) :
    (∃ i, fs.super.inodeFreelist i = free ∧
        allocInode fs = .ok i.val (fs.markInode i used)) ∨
      ((∀ i, fs.super.inodeFreelist i ≠ free) ∧ allocInode fs = .ok (-1) fs) := by
  unfold allocInode
  rw [bind_ok readSuperBlock_run]
  rcases find_free fs.super.inodeFreelist with ⟨i, hfree, hfind⟩ | ⟨hnone, hfind⟩
  · rw [hfind]
    exact Or.inl ⟨i, hfree, bind_ok (writeSuperBlock_run _)⟩
  · rw [hfind]
    exact Or.inr ⟨hnone, rfl⟩

theorem freeDataBlock_run {n : Int} {b : Fin numDataBlocks} (hb : n = b.val)
    (hused : fs.Used b) : freeDataBlock n fs = .ok () (fs.markBlock b free) := by
  unfold Fs.Used at hused
  unfold freeDataBlock
  rw [bind_ok readSuperBlock_run, bind_ok (index_run hb), bind_ok (check_run hused)]
  rfl

/-! ## Freeing an inode -/

def unmark (entries : Fin maxFileSize → Int) (ks : List (Fin maxFileSize))
    (freelist : Fin numDataBlocks → UInt8) : Fin numDataBlocks → UInt8 :=
  fun b => if ∃ k ∈ ks, entries k = b.val then free else freelist b

def unlink (inode : Inode) (ks : List (Fin maxFileSize)) : Inode :=
  { inode with directBlocks := fun k => if k ∈ ks then -1 else inode.directBlocks k }

theorem unlink_cons (inode : Inode) (k : Fin maxFileSize) (ks : List (Fin maxFileSize)) :
    unlink (inode.setBlock k (-1)) ks = unlink inode (k :: ks) := by
  unfold unlink Inode.setBlock
  congr 1
  funext k'
  by_cases hk : k' = k <;> simp [hk]

section Entries

variable {entries : Fin maxFileSize → Int} {k : Fin maxFileSize} {ks : List (Fin maxFileSize)}

/-- Clearing an entry that is not among `ks` does not change what `ks` refer to. -/
theorem unmark_update (hk : k ∉ ks) (freelist : Fin numDataBlocks → UInt8) :
    unmark (Function.update entries k (-1)) ks freelist = unmark entries ks freelist := by
  funext b
  unfold unmark
  congr 1
  apply propext
  apply exists_congr
  intro k'
  apply and_congr_right
  intro hk'
  rw [Function.update_of_ne (ne_of_mem_of_not_mem hk' hk)]

theorem unmark_cons_of_none (hk : entries k = -1) (freelist : Fin numDataBlocks → UInt8) :
    unmark entries (k :: ks) freelist = unmark entries ks freelist := by
  funext b
  have hne : entries k ≠ b.val := by omega
  simp [unmark, hne]

theorem unmark_cons_of_some {b : Fin numDataBlocks} (hk : entries k = b.val)
    (freelist : Fin numDataBlocks → UInt8) :
    unmark entries (k :: ks) freelist = unmark entries ks (Function.update freelist b free) := by
  funext c
  unfold unmark
  by_cases hc : c = b
  · subst hc
    simp [hk]
  · have hne : entries k ≠ c.val := by
      rw [hk]
      exact fun heq => hc (Fin.ext (by omega))
    simp [hne, Function.update_of_ne hc]

/-- The entries at `ks` are blocks that are marked in `freelist`, each of them once. -/
structure Freeable (entries : Fin maxFileSize → Int) (ks : List (Fin maxFileSize))
    (freelist : Fin numDataBlocks → UInt8) : Prop where
  marked : ∀ k ∈ ks, entries k = -1 ∨
    ∃ b : Fin numDataBlocks, entries k = b.val ∧ freelist b = used
  single : ∀ k ∈ ks, ∀ k' ∈ ks, entries k ≠ -1 → entries k = entries k' → k = k'

theorem Freeable.cleared {freelist freelist' : Fin numDataBlocks → UInt8}
    (h : Freeable entries (k :: ks) freelist) (hk : k ∉ ks)
    (hmarks : ∀ b : Fin numDataBlocks, entries k ≠ b.val → freelist' b = freelist b) :
    Freeable (Function.update entries k (-1)) ks freelist' := by
  have hrest : ∀ k' ∈ ks, Function.update entries k (-1) k' = entries k' := by
    intro k' hk'
    exact Function.update_of_ne (ne_of_mem_of_not_mem hk' hk) _ _
  constructor
  · intro k' hk'
    rw [hrest k' hk']
    apply (h.marked k' (List.mem_cons_of_mem _ hk')).imp_right
    rintro ⟨b, hb, hused⟩
    refine ⟨b, hb, ?_⟩
    rw [hmarks b, hused]
    intro hkb
    have heq := h.single k List.mem_cons_self k' (List.mem_cons_of_mem _ hk') (by omega)
      (hkb.trans hb.symm)
    exact hk (heq ▸ hk')
  · intro k' hk' k'' hk''
    rw [hrest k' hk', hrest k'' hk'']
    exact h.single k' (List.mem_cons_of_mem _ hk') k'' (List.mem_cons_of_mem _ hk'')

end Entries

theorem freeDirectBlocks_run (ks : List (Fin maxFileSize)) (superblock : Superblock)
    (inode : Inode) (fs : Fs) (hnodup : ks.Nodup)
    (hfreeable : Freeable inode.directBlocks ks superblock.datablockFreelist) :
    ∃ fs' superblock', OnlySuper fs fs' ∧
      superblock'.inodeFreelist = superblock.inodeFreelist ∧
      superblock'.datablockFreelist =
        unmark inode.directBlocks ks superblock.datablockFreelist ∧
      freeDirectBlocks ks superblock inode fs = .ok (superblock', unlink inode ks) fs' := by
  induction ks generalizing fs superblock inode with
  | nil =>
      refine ⟨fs, superblock, .refl fs, rfl, ?_, ?_⟩
      · funext b
        simp [unmark]
      · simp [freeDirectBlocks, unlink]
  | cons k ks ih =>
      obtain ⟨hnot, hnodup⟩ := List.nodup_cons.mp hnodup
      unfold freeDirectBlocks
      rcases hfreeable.marked k List.mem_cons_self with hnone | ⟨b, hb, hused⟩
      · rw [if_neg (by simp [hnone])]
        obtain ⟨fs', superblock', honly, hinodes, hblocks, hrun⟩ := ih superblock
          (inode.setBlock k (-1)) fs hnodup (hfreeable.cleared hnot fun _ _ => rfl)
        refine ⟨fs', superblock', honly, hinodes, ?_, ?_⟩
        · rw [hblocks, Inode.setBlock, unmark_update hnot, unmark_cons_of_none hnone]
        · rw [hrun, unlink_cons]
      · rw [if_pos (by omega), bind_ok (writeSuperBlock_run superblock),
          bind_ok (freeDataBlock_run hb (by simpa [Fs.Used] using hused)),
          bind_ok readSuperBlock_run]
        simp only [Fs.markBlock, Fs.super_putSuper]
        obtain ⟨fs', superblock', honly, hinodes, hblocks, hrun⟩ := ih (superblock.setBlock b free)
          (inode.setBlock k (-1)) ((fs.putSuper superblock).putSuper _) hnodup
          (hfreeable.cleared hnot fun c hc =>
            Function.update_of_ne (fun heq => hc (by rw [heq, hb])) _ _)
        refine ⟨fs', superblock',
          ((OnlySuper.putSuper _ _).trans (OnlySuper.putSuper _ _)).trans honly, hinodes, ?_, ?_⟩
        · rw [hblocks, Inode.setBlock, unmark_update hnot, unmark_cons_of_some hb]
          rfl
        · rw [hrun, unlink_cons]

/-- An inode after `ssufs_freeInode`; the name stays. -/
def Inode.freed (inode : Inode) : Inode :=
  { status := free.toNat, name := inode.name, fileSize := 0, directBlocks := fun _ => -1 }

theorem Inode.fits_freed (inode : Inode) : inode.freed.Fits :=
  ⟨show Lib.Bytes.IsInt free.toNat by decide, show Lib.Bytes.IsInt 0 by decide,
    fun _ => show Lib.Bytes.IsInt (-1) by decide⟩

theorem freeDirectBlocks_run_all (superblock : Superblock) (inode : Inode) (fs : Fs)
    (hfreeable : Freeable inode.directBlocks (List.finRange maxFileSize)
      superblock.datablockFreelist) :
    ∃ fs' superblock', OnlySuper fs fs' ∧
      superblock'.inodeFreelist = superblock.inodeFreelist ∧
      (∀ b : Fin numDataBlocks, superblock'.datablockFreelist b =
        if ∃ k, inode.directBlocks k = b.val then free else superblock.datablockFreelist b) ∧
      freeDirectBlocks (List.finRange maxFileSize) superblock
        { inode with status := free.toNat, fileSize := 0 } fs =
          .ok (superblock', inode.freed) fs' := by
  obtain ⟨fs', superblock', honly, hinodes, hblocks, hrun⟩ := freeDirectBlocks_run
    (List.finRange maxFileSize) superblock { inode with status := free.toNat, fileSize := 0 } fs
    (List.nodup_finRange _) hfreeable
  refine ⟨fs', superblock', honly, hinodes, ?_, ?_⟩
  · intro b
    rw [hblocks]
    simp [unmark]
  · rw [hrun]
    simp [unlink, Inode.freed]

structure Freed (fs : Fs) (i : Fin numInodes) (fs' : Fs) : Prop where
  inode : fs'.inode = Function.update fs.inode i (fs.inode i).freed
  inodeFreelist : fs'.super.inodeFreelist = Function.update fs.super.inodeFreelist i free
  datablockFreelist : ∀ b : Fin numDataBlocks, fs'.super.datablockFreelist b =
    if ∃ k, (fs.inode i).directBlocks k = b.val then free else fs.super.datablockFreelist b
  handles : fs'.handles = fs.handles
  accesses : fs'.accesses = fs.accesses
  has : ∀ b, fs'.Has b ↔ fs.Has b

theorem Freed.inode_self {i : Fin numInodes} {fs' : Fs} (hfreed : Freed fs i fs') :
    fs'.inode i = (fs.inode i).freed := by
  rw [hfreed.inode, Function.update_self]

theorem Freed.inode_of_ne {i j : Fin numInodes} {fs' : Fs} (hfreed : Freed fs i fs')
    (hj : j ≠ i) : fs'.inode j = fs.inode j := by
  rw [hfreed.inode, Function.update_of_ne hj]

theorem Freed.inUse_iff {i j : Fin numInodes} {fs' : Fs} (hfreed : Freed fs i fs') :
    fs'.InUse j ↔ j ≠ i ∧ fs.InUse j := by
  unfold Fs.InUse
  rw [hfreed.inodeFreelist]
  by_cases hj : j = i
  · simp [hj, free_ne_used]
  · simp [hj]

theorem freeInode_run {i : Fin numInodes} (huse : fs.InUse i)
    (hfreeable : Freeable (fs.inode i).directBlocks (List.finRange maxFileSize)
      fs.super.datablockFreelist) :
    ∃ fs', freeInode i.val fs = .ok () fs' ∧ Freed fs i fs' := by
  unfold Fs.InUse at huse
  have hlt : i.val < 8 := i.isLt
  obtain ⟨fs', superblock', honly, hinodes, hblocks, hrun⟩ :=
    freeDirectBlocks_run_all (fs.super.setInode i free) (fs.inode i) fs hfreeable
  have hfree : freeInode i.val fs =
      .ok () ((fs'.putSuper superblock').putInode i (fs.inode i).freed) := by
    unfold freeInode
    rw [bind_ok (check_run (by omega)), bind_ok readSuperBlock_run, bind_ok (readInode_run rfl),
      bind_ok (index_run rfl), bind_ok (check_run huse), bind_ok hrun]
    dsimp only
    rw [bind_ok (writeSuperBlock_run _), writeInode_run _ rfl]
  refine ⟨_, hfree, ?_⟩
  constructor
  · rw [Fs.inode_putInode (Inode.fits_freed _), Fs.inode_putSuper, honly.inode]
  · rw [Fs.super_putInode, Fs.super_putSuper, hinodes]
    rfl
  · intro b
    rw [Fs.super_putInode, Fs.super_putSuper, hblocks]
    rfl
  · simp [honly.handles]
  · simp [honly.accesses]
  · intro b
    simp [honly.has b]

/-! ## Names -/

/-- The inode that `open_namei` finds. -/
def Fs.namei (fs : Fs) (filename : List UInt8) : Option (Fin numInodes) :=
  if filename.length > maxNameStrlen then none
  else (List.finRange numInodes).find? fun i => fs.InUse i ∧ strcmpName (fs.inode i) filename

def number {n : Nat} : Option (Fin n) → Int
  | some i => i.val
  | none => -1

theorem openNameiFrom_run (filename : List UInt8) (is : List (Fin numInodes)) :
    openNameiFrom fs.super filename is fs =
      .ok (number (is.find? fun i => fs.InUse i ∧ strcmpName (fs.inode i) filename)) fs := by
  induction is with
  | nil => rfl
  | cons i is ih =>
      unfold openNameiFrom
      by_cases huse : fs.super.inodeFreelist i = used
      · rw [if_pos huse, bind_ok (readInode_run rfl)]
        by_cases hname : strcmpName (fs.inode i) filename
        · simp [hname, Fs.InUse, huse, number]
        · rw [if_neg hname, ih]
          simp [hname]
      · rw [if_neg huse, ih]
        simp [Fs.InUse, huse]

theorem openNamei_run (filename : List UInt8) :
    openNamei filename fs = .ok (number (fs.namei filename)) fs := by
  unfold openNamei Fs.namei
  split
  · rfl
  · rw [bind_ok readSuperBlock_run, openNameiFrom_run]

theorem namei_inUse {filename : List UInt8} {i : Fin numInodes}
    (hfound : fs.namei filename = some i) :
    filename.length ≤ maxNameStrlen ∧ fs.InUse i ∧ strcmpName (fs.inode i) filename := by
  unfold Fs.namei at hfound
  split at hfound
  · cases hfound
  · next hlen =>
      have hfind := List.find?_some hfound
      exact ⟨by omega, by simpa using hfind⟩

end Os20.Ssufs
