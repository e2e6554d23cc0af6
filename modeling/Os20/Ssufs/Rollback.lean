import Os20.Ssufs.Lookup

/-!
# Writes that fail

A write that fails before it has filled a block leaves everything as it was.  One that runs
out of blocks later has marked blocks, overwritten data and moved the offset, and takes none
of it back.
-/

namespace Os20.Ssufs

variable {fs fs' : Fs} {h : Handle} {i : Fin numInodes} {nbytes : Int}

/-- Both free lists, all inodes, the blocks in use and all handles are the same. -/
structure Unchanged (fs fs' : Fs) : Prop where
  inodeFreelist : fs'.super.inodeFreelist = fs.super.inodeFreelist
  datablockFreelist : fs'.super.datablockFreelist = fs.super.datablockFreelist
  inode : fs'.inode = fs.inode
  block : ∀ b, fs.Used b → fs'.block b = fs.block b
  handles : fs'.handles = fs.handles

theorem Unchanged.refl (fs : Fs) : Unchanged fs fs := ⟨rfl, rfl, rfl, fun _ _ => rfl, rfl⟩

/-- The block at the offset is missing, and no block is left for it. -/
structure Fs.Stuck (fs : Fs) (h : Handle) (i : Fin numInodes) : Prop where
  full : fs.freeBlocks = ∅
  missing : ∃ k : Fin maxFileSize, (fs.handles h).offset / blocksize = k.val ∧
    (fs.inode i).directBlocks k = -1

theorem write_stuck (hadmits : fs.Admits h i nbytes) (hstuck : fs.Stuck h i) (buf : List UInt8)
    (hpos : 0 < nbytes) : write h buf nbytes fs = .ok (-1) fs := by
  obtain ⟨k, hk, hnone⟩ := hstuck.missing
  obtain ⟨fuel, hfuel⟩ : ∃ fuel, nbytes.toNat = fuel + 1 := ⟨nbytes.toNat - 1, by omega⟩
  have hfull (b : Fin numDataBlocks) : ¬fs.Free b := by
    rw [← Fs.mem_freeBlocks, hstuck.full]
    exact Finset.notMem_empty b
  refine write_run_full hadmits ?_
  rw [hfuel]
  exact writeLoop_full hpos hk hnone hfull fuel

/-- A call that gives up and changes nothing has not got past its first round. -/
theorem Exhausted.stuck {o : Int} {ino : Inode}
    (hex : Exhausted fs h i (fs.stop h nbytes) o ino fs') (hsame : Unchanged fs fs') :
    fs.Stuck h i where
  full := by
    refine Finset.eq_empty_iff_forall_notMem.mpr fun b hb => hex.full b ?_
    rw [Fs.Free, hsame.datablockFreelist]
    exact Fs.mem_freeBlocks.mp hb
  missing := by
    obtain ⟨k, hk, hnone⟩ := hex.missing
    refine ⟨k, ?_, hex.none_of_none hnone⟩
    rw [← hsame.handles, hex.offset]
    exact hk

/-- A write that returns -1 changes nothing, if and only if it has no block to fill before it
gives up: there are enough free blocks for all of it, or the first one is missing already. -/
theorem write_rollback_iff (hreach : system.Reachable fs) (h : Handle) (buf : List UInt8)
    (nbytes : Int) :
    (∀ fs', write h buf nbytes fs = .ok (-1) fs' → Unchanged fs fs') ↔
      ∀ i, fs.Admits h i nbytes →
        (fs.missing h i nbytes).card ≤ fs.freeBlocks.card ∨ fs.Stuck h i := by
  constructor
  · intro hsame i hadmits
    rcases write_run (sound hreach) h buf nbytes with
      ⟨hrefused, -⟩ | ⟨hbeyond, -⟩ | ⟨j, hj, hrun⟩
    · exact absurd hadmits (hrefused i)
    · have hlt := i.isLt
      have hnum := hadmits.1
      omega
    · obtain rfl : i = j := Fin.ext (Int.ofNat.inj (hadmits.1.symm.trans hj.1))
      rcases hrun with ⟨ino, fs', hwritten, -⟩ | ⟨o, ino, fs', hex, hfails⟩
      · exact .inl hwritten.card_missing_le
      · exact .inr (hex.stuck (hsame fs' hfails))
  · intro hcond fs' hfails
    rcases write_run (sound hreach) h buf nbytes with
      ⟨-, hrun⟩ | ⟨-, hrun⟩ | ⟨i, hadmits, ⟨ino, fs'', -, hrun⟩ | ⟨o, ino, fs'', hex, hrun⟩⟩
    · rw [hrun] at hfails
      cases hfails
      exact .refl fs
    · rw [hrun] at hfails
      cases hfails
    · rw [hrun] at hfails
      cases hfails
    · rcases hcond i hadmits with hle | hstuck
      · have hlt := hex.card_lt
        omega
      · have hpos : 0 < nbytes := by
          have hstart := hex.start
          have hbefore := hex.before
          unfold Fs.stop at hbefore
          omega
        rw [write_stuck hadmits hstuck buf hpos] at hfails
        cases hfails
        exact .refl fs

def letter (k : Fin 8) : Filename := ⟨[97 + UInt8.ofNat k], by revert k; decide⟩

def eightFiles : List Call :=
  (List.finRange 8).map (fun k => .create (letter k)) ++
    (List.finRange 8).map fun k => .open (letter k)

/-- Seven of the files get four blocks each, and two blocks are left. -/
def almostFull : List Call :=
  eightFiles ++ (List.finRange 7).map fun k =>
    .write (k.castLE (by decide)) fourBlocks 256 le_length_fourBlocks

/-- The eighth file gets two of the four blocks that it asks for. -/
theorem exists_almostFull :
    ∃ fs fs' fs₁, system.Reachable fs ∧ system.Reachable fs₁ ∧
      ((fs.handles 7).inodeNumber = 7 ∧ (fs.handles 7).offset = 0 ∧ fs.freeBlocks.card = 2) ∧
      write 7 fourBlocks 256 fs = .ok (-1) fs' ∧
      ((fs'.handles 7).offset = 128 ∧ fs'.freeBlocks = ∅) ∧
      (fs₁.handles 7).inodeNumber = 7 ∧ fs₁.freeBlocks = ∅ ∧ (fs₁.handles 7).offset = 128 ∧
      (fs₁.inode 7).directBlocks 2 = -1 := by
  obtain ⟨fs, hreach, htest⟩ := system.exists_reachable_of_run almostFull
    (fun fs => (decide ((fs.handles 7).inodeNumber = 7 ∧ (fs.handles 7).offset = 0 ∧
        fs.freeBlocks.card = 2) &&
      returns (write 7 fourBlocks 256) (fun n fs' => decide (n = -1 ∧
        (fs'.handles 7).offset = 128 ∧ fs'.freeBlocks = ∅)) fs) &&
      (system.next fs (.write 7 fourBlocks 256 le_length_fourBlocks)).any fun fs₁ : Fs =>
        decide ((fs₁.handles 7).inodeNumber = 7 ∧ fs₁.freeBlocks = ∅ ∧
          (fs₁.handles 7).offset = 128 ∧ (fs₁.inode 7).directBlocks 2 = -1))
    ⟨fun _ => 0, rfl⟩ (by decide +kernel)
  rw [Bool.and_eq_true, Bool.and_eq_true, decide_eq_true_eq, Option.any_eq_true] at htest
  obtain ⟨⟨hbefore, hreturns⟩, fs₁, hnext, hstuck⟩ := htest
  obtain ⟨n, fs', hrun, htest⟩ := exists_of_returns hreturns
  obtain ⟨rfl, hafter⟩ := of_decide_eq_true htest
  exact ⟨fs, fs', fs₁, hreach, .step _ hreach trivial hnext, hbefore, hrun, hafter,
    of_decide_eq_true hstuck⟩

/-- A second write after one that has run out of blocks: it fails at once. -/
theorem write_rollback_stuck :
    ∃ fs, system.Reachable fs ∧ (fs.handles 7).inodeNumber = 7 ∧
      ∀ fs', write 7 fourBlocks 64 fs = .ok (-1) fs' → Unchanged fs fs' := by
  obtain ⟨-, -, fs, -, hreach, -, -, -, hnum, hfull, hoffset, hnone⟩ := exists_almostFull
  refine ⟨fs, hreach, hnum, (write_rollback_iff hreach 7 fourBlocks 64).mpr fun i hadmits => ?_⟩
  obtain rfl : i = 7 := Fin.ext (Int.ofNat.inj (hadmits.1.symm.trans hnum))
  exact .inr ⟨hfull, 2, by rw [hoffset]; rfl, hnone⟩

/-- A write of four blocks when two are left: it returns -1, and has taken both of them. -/
theorem exists_half_written :
    ∃ fs fs', system.Reachable fs ∧ (fs.handles 7).inodeNumber = 7 ∧
      write 7 fourBlocks 256 fs = .ok (-1) fs' ∧ (fs.handles 7).offset = 0 ∧
      (fs'.handles 7).offset = 128 ∧ fs.freeBlocks.card = 2 ∧ fs'.freeBlocks = ∅ ∧
      ¬Unchanged fs fs' := by
  obtain ⟨fs, fs', -, hreach, -, ⟨hnum, hoffset, hcard⟩, hrun, ⟨hoffset', hfull⟩, -⟩ :=
    exists_almostFull
  refine ⟨fs, fs', hreach, hnum, hrun, hoffset, hoffset', hcard, hfull, fun hsame => ?_⟩
  rw [hsame.handles, hoffset] at hoffset'
  exact absurd hoffset' (by decide)

end Os20.Ssufs
