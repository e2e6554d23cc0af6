import Os20.Ssufs.CrossLinks

/-!
# Handles and the files they were opened for

`ssufs_open` finds the inode of the name and forgets it: the handle gets its own index as
inode number.  Runs are followed here with a table of what each open handle was opened
for, which is no part of the program.
-/

namespace Os20.Ssufs

open Os20.Lib.Transition

/-- A state, and for each handle the name it was opened with and the number that
`open_namei` returned then. -/
structure Bound where
  fs : Fs
  binding : Handle → Option (Filename × Int)

/-- A binding begins with an `ssufs_open` that returns the handle. -/
def Bound.opened (s : Bound) (filename : Filename) : Handle → Option (Filename × Int) :=
  match openNamei filename.bytes s.fs, «open» filename s.fs with
  | .ok n _, .ok r _ => fun h => if r = h.val then some (filename, n) else s.binding h
  | _, _ => s.binding

/-- It ends with `ssufs_close` of the handle and with `ssufs_delete` of the name. -/
def Bound.bindingAfter (s : Bound) : Call → Handle → Option (Filename × Int)
  | .open filename => s.opened filename
  | .close fileHandle => Function.update s.binding fileHandle none
  | .delete filename => fun h =>
      if (s.binding h).any (fun p => p.1 = filename) then none else s.binding h
  | _ => s.binding

def boundSystem : System Bound Call where
  init s := system.init s.fs ∧ s.binding = fun _ => none
  next s c := (system.next s.fs c).map fun fs' => ⟨fs', s.bindingAfter c⟩

/-- `filename` is stored in the inode, with a NUL behind it if there is room. -/
def Named (inode : Inode) (filename : Filename) : Prop :=
  ∀ k : Fin maxNameStrlen, k.val ≤ filename.bytes.length →
    inode.name k = filename.bytes.getD k 0

/-- The handle is bound to the inode, which is in use under the name. -/
structure Refers (fs : Fs) (h : Handle) (filename : Filename) (i : Fin numInodes) : Prop where
  number : (fs.handles h).inodeNumber = i.val
  inUse : fs.InUse i
  length : filename.bytes.length ≤ maxNameStrlen
  named : Named (fs.inode i) filename

/-- A read that passes its tests meets no entry -1. -/
def readsBlocks (fs : Fs) (h : Handle) (nbytes : Int) : Prop :=
  ∀ i : Fin numInodes, (fs.handles h).inodeNumber = i.val →
    (fs.handles h).offset + nbytes ≤ (fs.inode i).fileSize →
    ∀ k, Touches (fs.handles h).offset ((fs.handles h).offset + nbytes) k →
      (fs.inode i).directBlocks k ≠ -1

structure ActsOn (fs : Fs) (h : Handle) (i : Fin numInodes) : Prop where
  write : ∀ (buf : List UInt8) (nbytes : Int) (hbuf : nbytes ≤ buf.length),
    ∃ fs', outcome fs (.write h buf nbytes hbuf) = .ok () fs' ∧
      ∀ j, j ≠ i → fs'.inode j = fs.inode j ∧
        ∀ k (b : Fin numDataBlocks), (fs.inode j).directBlocks k = b.val →
          fs'.block b = fs.block b ∧
            .read (b.val : Int) ∉ fs'.accesses ∧ .write (b.val : Int) ∉ fs'.accesses
  read : ∀ nbytes : Int, readsBlocks fs h nbytes →
    ∃ fs', outcome fs (.read h nbytes) = .ok () fs' ∧ fs'.disk = fs.disk ∧
      ∀ a ∈ fs'.accesses, ∃ k, ∃ b : Fin numDataBlocks,
        (fs.inode i).directBlocks k = b.val ∧ a = .read b.val

/-- An `ssufs_open` that finds its file takes the slot with the number of the inode, and a
read through a bound handle meets no hole. -/
def opensInPlace (s : Bound) : Call → Prop
  | .open filename => ∀ i h, s.fs.namei filename.bytes = some i →
      firstClosed s.fs.handles = some h → h.val = i.val
  | .read h nbytes => (s.binding h).isSome → readsBlocks s.fs h nbytes
  | _ => True

instance (fs : Fs) (h : Handle) (nbytes : Int) : Decidable (readsBlocks fs h nbytes) :=
  inferInstanceAs (Decidable (∀ _ : Fin numInodes, _))

instance (s : Bound) : ∀ c, Decidable (opensInPlace s c)
  | .open filename => inferInstanceAs (Decidable (∀ i h, s.fs.namei filename.bytes = some i →
      firstClosed s.fs.handles = some h → h.val = i.val))
  | .read h nbytes => inferInstanceAs (Decidable ((s.binding h).isSome → readsBlocks s.fs h nbytes))
  | .create _ | .delete _ | .close _ | .write _ _ _ _ | .lseek _ _ =>
      inferInstanceAs (Decidable True)

variable {s : Bound} {fs fs' : Fs} {h : Handle} {i : Fin numInodes} {inode : Inode}
  {filename filename' : Filename}

/-! ## Names -/

theorem named_of_strcmpName (hcmp : strcmpName inode filename.bytes = true) :
    Named inode filename := by
  intro k hk
  obtain ⟨rest, hrest⟩ := List.isPrefixOf_iff_prefix.mp hcmp
  have hdrop : inode.encode.drop 4 = List.ofFn inode.name ++ (inode.encode.drop 4).drop 8 := by
    rw [Inode.encode, List.drop_left' (by simp), List.drop_left' (by simp)]
  calc
    inode.name k = (inode.encode.drop 4).getD k 0 := by rw [hdrop, getD_ofFn_append]
    _ = (filename.bytes ++ ([0] ++ rest)).getD k 0 := by rw [← hrest, List.append_assoc]
    _ = filename.bytes.getD k 0 := by
      rcases Nat.lt_or_eq_of_le hk with hlt | heq
      · rw [List.getD_append _ _ _ _ hlt]
      · rw [heq, List.getD_append_right _ _ _ _ (le_refl _), Nat.sub_self,
          List.getD_eq_default _ _ (le_refl _)]
        rfl

theorem Filename.length_le {k : Nat} (hzero : filename.bytes.getD k 0 = 0) :
    filename.bytes.length ≤ k := by
  by_contra hlt
  rw [List.getD_eq_getElem _ _ (by omega)] at hzero
  exact filename.noNul (hzero ▸ List.getElem_mem _)

theorem Named.length_le (hn : Named inode filename) (hn' : Named inode filename')
    (hlen' : filename'.bytes.length ≤ maxNameStrlen) :
    filename'.bytes.length ≤ filename.bytes.length := by
  by_contra hlt
  have hk : filename.bytes.length < maxNameStrlen := by omega
  apply hlt
  apply Filename.length_le
  rw [← hn' ⟨filename.bytes.length, hk⟩ (by dsimp only; omega), hn ⟨_, hk⟩ (le_refl _),
    List.getD_eq_default _ _ (le_refl _)]

theorem Named.unique (hn : Named inode filename) (hn' : Named inode filename')
    (hlen : filename.bytes.length ≤ maxNameStrlen)
    (hlen' : filename'.bytes.length ≤ maxNameStrlen) : filename = filename' := by
  have heq : filename.bytes.length = filename'.bytes.length :=
    le_antisymm (hn'.length_le hn hlen) (hn.length_le hn' hlen')
  have hbytes : filename.bytes = filename'.bytes := by
    apply List.ext_getElem heq
    intro k hk hk'
    rw [← List.getD_eq_getElem _ 0 hk, ← List.getD_eq_getElem _ 0 hk',
      ← hn ⟨k, by omega⟩ hk.le, ← hn' ⟨k, by omega⟩ hk'.le]
  obtain ⟨bytes, noNul⟩ := filename
  obtain ⟨bytes', noNul'⟩ := filename'
  simpa using hbytes

/-! ## Calls through a handle -/

theorem Writing.block_other {fs₀ : Fs} {o : Int} {j : Fin numInodes} {k : Fin maxFileSize}
    {b : Fin numDataBlocks} (hs : Sound fs₀) (hw : Writing fs₀ h i o inode fs)
    (hnone : fs₀.accesses = []) (hj : j ≠ i) (hb : (fs₀.inode j).directBlocks k = b.val) :
    fs.block b = fs₀.block b ∧
      .read (b.val : Int) ∉ fs.accesses ∧ .write (b.val : Int) ∉ fs.accesses := by
  have hother : ∀ k' (c : Fin numDataBlocks), inode.directBlocks k' = c.val → b ≠ c := by
    rintro k' c hc rfl
    exact hw.entry_ne_other (hs.tidy _) hc hj k hb
  have hnot : ∀ a ∈ fs.accesses, a ≠ .read (b.val : Int) ∧ a ≠ .write (b.val : Int) := by
    intro a ha
    obtain ⟨k', c, hc, hac⟩ := (hw.accesses a ha).resolve_left (by simp [hnone])
    have hne : (b.val : Int) ≠ c.val := fun heq => hother k' c hc (Fin.ext (Int.ofNat.inj heq))
    rcases hac with rfl | rfl
    · exact ⟨fun heq => hne (Access.read.inj heq).symm, Access.noConfusion⟩
    · exact ⟨Access.noConfusion, fun heq => hne (Access.write.inj heq).symm⟩
  refine ⟨?_, fun hmem => (hnot _ hmem).1 rfl, fun hmem => (hnot _ hmem).2 rfl⟩
  apply hw.block b (hs.has b (hs.referenced j k b hb))
  intro k' hk'
  exact hother k' b hk' rfl

theorem actsOn (hs : Sound fs) (hnum : (fs.handles h).inodeNumber = i.val) : ActsOn fs h i where
  write buf nbytes hbuf := by
    have hlt := i.isLt
    have hs' := hs.cleared
    have hnum' : (fs.cleared.handles h).inodeNumber = i.val := hnum
    rcases write_run hs' h buf nbytes with ⟨-, hrun⟩ | ⟨hbeyond, -⟩ |
      ⟨i', hadmits, ⟨ino, fs', hwritten, hrun⟩ | ⟨o, ino, fs', hexhausted, hrun⟩⟩
    · refine ⟨fs.cleared, discard_ok hrun, ?_⟩
      intro j _
      exact ⟨rfl, fun k b _ => ⟨rfl, List.not_mem_nil, List.not_mem_nil⟩⟩
    · omega
    · obtain rfl : i = i' := Fin.ext (Int.ofNat.inj (hnum'.symm.trans hadmits.1))
      have hw := hwritten.toWriting
      refine ⟨_, discard_ok hrun, ?_⟩
      intro j hj
      refine ⟨?_, ?_⟩
      · rw [Fs.inode_putInode_of_ne (hw.fits (hs'.tidy _)) hj, hw.inode]
        rfl
      · intro k b hb
        obtain ⟨hblock, hread, hwrite⟩ := hw.block_other hs' rfl hj hb
        refine ⟨?_, hread, hwrite⟩
        rw [Fs.block_putInode, hblock]
        rfl
    · obtain rfl : i = i' := Fin.ext (Int.ofNat.inj (hnum'.symm.trans hadmits.1))
      have hw := hexhausted.toWriting
      refine ⟨_, discard_ok hrun, ?_⟩
      intro j hj
      refine ⟨?_, ?_⟩
      · rw [hw.inode]
        rfl
      · intro k b hb
        have hother := hw.block_other hs' rfl hj hb
        exact hother
  read nbytes hblocks := by
    have hlt := i.isLt
    have hnum' : (fs.cleared.handles h).inodeNumber = i.val := hnum
    rcases read_run hs.cleared h nbytes with ⟨r, hrun⟩ | ⟨hbeyond, -⟩ |
      ⟨i', buf, fs', hnum'', hpos, hend, hrun, hread⟩
    · exact ⟨fs.cleared, discard_ok hrun, rfl, fun a ha => absurd ha List.not_mem_nil⟩
    · omega
    · obtain rfl : i = i' := Fin.ext (Int.ofNat.inj (hnum'.symm.trans hnum''))
      refine ⟨fs', discard_ok hrun, hread.disk, ?_⟩
      intro a ha
      obtain ⟨k, hk, htouched⟩ := (hread.accesses a ha).resolve_left List.not_mem_nil
      obtain ⟨b, hb⟩ := (hs.entry i k).resolve_left (hblocks i hnum hend k htouched)
      refine ⟨k, b, hb, ?_⟩
      rw [hk, ← hb]
      rfl

/-! ## The table -/

theorem opened_of_failed
    (hfailed : s.fs.namei filename.bytes = none ∨ firstClosed s.fs.handles = none) :
    s.opened filename = s.binding := by
  rcases open_run s.fs filename with ⟨hrun, -⟩ | ⟨i, h, hfound, hclosed, -⟩
  · unfold Bound.opened
    rw [openNamei_run, hrun]
    funext h
    dsimp only
    rw [if_neg (by omega)]
  · rcases hfailed with hnone | hnone
    · rw [hnone] at hfound
      cases hfound
    · rw [hnone] at hclosed
      cases hclosed

theorem opened_of_found (hfound : s.fs.namei filename.bytes = some i)
    (hclosed : firstClosed s.fs.handles = some h) :
    s.opened filename = Function.update s.binding h (some (filename, i.val)) := by
  rcases open_run s.fs filename with ⟨-, hnone | hnone⟩ | ⟨i', h', hfound', hclosed', hrun⟩
  · rw [hnone] at hfound
    cases hfound
  · rw [hnone] at hclosed
    cases hclosed
  · obtain rfl : h = h' := Option.some.inj (hclosed.symm.trans hclosed')
    unfold Bound.opened
    rw [openNamei_run, hrun, hfound]
    funext h'
    by_cases hh : h' = h
    · rw [hh, Function.update_self]
      exact if_pos rfl
    · rw [Function.update_of_ne hh]
      exact if_neg (fun heq => hh (Fin.ext (Int.ofNat.inj heq)).symm)

theorem bindingAfter_delete {n : Int}
    (hbound : s.bindingAfter (.delete filename') h = some (filename, n)) :
    s.binding h = some (filename, n) ∧ filename ≠ filename' := by
  rw [Bound.bindingAfter] at hbound
  dsimp only at hbound
  split at hbound
  · cases hbound
  · next hany =>
      refine ⟨hbound, ?_⟩
      rintro rfl
      exact hany (by simp [hbound])

/-- The handle keeps its number, and the inode its mark and its name. -/
theorem Refers.kept (hr : Refers fs h filename i)
    (hnum : (fs'.handles h).inodeNumber = (fs.handles h).inodeNumber)
    (huse : fs'.super.inodeFreelist i = fs.super.inodeFreelist i)
    (hname : (fs'.inode i).name = (fs.inode i).name) : Refers fs' h filename i where
  number := hnum.trans hr.number
  inUse := huse.trans hr.inUse
  length := hr.length
  named k hk := by
    rw [hname]
    exact hr.named k hk

theorem Refers.seek (hr : Refers fs h filename i) (h' : Handle) (o : Int) :
    Refers (fs.seek h' o) h filename i := by
  refine hr.kept ?_ rfl rfl
  rw [Fs.seek, Fs.handles_putHandle, Function.update_apply]
  split
  · next heq => rw [heq]
  · rfl

theorem Refers.writing {h' : Handle} {i' : Fin numInodes} {o : Int}
    (hr : Refers fs h filename i) (hw : Writing fs h' i' o inode fs')
    (hnum : (fs.handles h').inodeNumber = i'.val) : Refers fs' h filename i := by
  apply hr.kept
  · by_cases hh : h = h'
    · rw [hh, hw.number, hnum]
    · rw [hw.others h hh]
  · rw [hw.inodeFreelist]
  · rw [hw.inode]

theorem Refers.putInode (hr : Refers fs h filename i) {i' : Fin numInodes} (hfits : inode.Fits)
    (hname : inode.name = (fs.inode i').name) : Refers (fs.putInode i' inode) h filename i := by
  refine hr.kept rfl ?_ ?_
  · rw [Fs.super_putInode]
  · rw [Fs.inode_putInode hfits, Function.update_apply]
    split
    · next heq => rw [hname, heq]
    · rfl

theorem Refers.created {i' : Fin numInodes} (hr : Refers fs h filename i)
    (hfree : fs.super.inodeFreelist i' = free) (name : Fin maxNameStrlen → UInt8) :
    Refers (fs.created i' name) h filename i := by
  have hne : i ≠ i' := hr.inUse.ne_of_free hfree
  refine hr.kept rfl ?_ ?_
  · rw [Fs.super_created]
    exact Function.update_of_ne hne _ _
  · rw [Fs.inode_created_of_ne name hne]

theorem Refers.freed {i' : Fin numInodes} (hr : Refers fs h filename i)
    (hfound : fs.namei filename'.bytes = some i') (hne : filename ≠ filename')
    (hfreed : Freed fs i' fs') : Refers fs' h filename i := by
  obtain ⟨hlen, -, hcmp⟩ := namei_inUse hfound
  have hi : i ≠ i' := by
    rintro rfl
    exact hne (hr.named.unique (named_of_strcmpName hcmp) hr.length hlen)
  apply hr.kept
  · rw [hfreed.handles]
  · rw [hfreed.inodeFreelist, Function.update_of_ne hi]
  · rw [hfreed.inode_of_ne hi]

def Faithful (s : Bound) : Prop :=
  ∀ h filename n, s.binding h = some (filename, n) →
    ∃ i : Fin numInodes, n = i.val ∧ Refers s.fs h filename i

theorem Faithful.effect {c : Call} (hs : Sound s.fs) (hf : Faithful s) (hok : opensInPlace s c)
    (heffect : Effect s.fs.cleared c fs') : Faithful ⟨fs', s.bindingAfter c⟩ := by
  intro h filename n hbound
  dsimp only at hbound ⊢
  have hcleared : ∀ {h filename n}, s.binding h = some (filename, n) →
      ∃ i : Fin numInodes, n = i.val ∧ Refers s.fs.cleared h filename i := by
    intro h filename n hbound
    obtain ⟨i, hn, hr⟩ := hf h filename n hbound
    exact ⟨i, hn, hr.kept rfl rfl rfl⟩
  cases heffect with
  | createFull | readFailed | writeRefused | lseekFailed => exact hcleared hbound
  | create filename' i' hfree =>
      obtain ⟨i, hn, hr⟩ := hcleared hbound
      exact ⟨i, hn, hr.created hfree _⟩
  | deleteMissing filename' => exact hcleared (bindingAfter_delete hbound).1
  | delete filename' i' fs' hfound hfreed =>
      obtain ⟨hbound, hne⟩ := bindingAfter_delete hbound
      obtain ⟨i, hn, hr⟩ := hcleared hbound
      exact ⟨i, hn, hr.freed hfound hne hfreed⟩
  | openFailed filename' hfailed =>
      rw [Bound.bindingAfter, opened_of_failed hfailed] at hbound
      exact hcleared hbound
  | «open» filename' i' h' hfound hclosed =>
      rw [Bound.bindingAfter, opened_of_found hfound hclosed] at hbound
      by_cases hh : h = h'
      · rw [hh, Function.update_self] at hbound
        cases hbound
        obtain ⟨hlen, huse, hcmp⟩ := namei_inUse hfound
        refine ⟨i', rfl, ?_⟩
        constructor
        · rw [hh, Fs.handles_putHandle, Function.update_self, hok i' h' hfound hclosed]
        · exact huse
        · exact hlen
        · exact named_of_strcmpName hcmp
      · rw [Function.update_of_ne hh] at hbound
        obtain ⟨i, hn, hr⟩ := hcleared hbound
        refine ⟨i, hn, hr.kept ?_ rfl rfl⟩
        rw [Fs.handles_putHandle, Function.update_of_ne hh]
  | close h' =>
      by_cases hh : h = h'
      · rw [Bound.bindingAfter, hh, Function.update_self] at hbound
        cases hbound
      · rw [Bound.bindingAfter, Function.update_of_ne hh] at hbound
        obtain ⟨i, hn, hr⟩ := hcleared hbound
        refine ⟨i, hn, hr.kept ?_ rfl rfl⟩
        rw [Fs.handles_putHandle, Function.update_of_ne hh]
  | read h' nbytes i' fs' hnum hpos hend hread =>
      obtain ⟨i, hn, hr⟩ := hcleared hbound
      have hsought := hr.seek h' ((s.fs.handles h').offset + nbytes)
      refine ⟨i, hn, hsought.kept ?_ ?_ ?_⟩
      · rw [hread.handles]
        rfl
      · rw [hread.super_eq]
        rfl
      · rw [hread.inode_eq]
        rfl
  | write h' buf nbytes hbuf i' ino fs' hadmits hwritten =>
      obtain ⟨i, hn, hr⟩ := hcleared hbound
      have hw := hwritten.toWriting
      refine ⟨i, hn, (hr.writing hw hadmits.1).putInode (hw.fits (hs.cleared.tidy _)) ?_⟩
      rw [hw.name, hw.inode]
  | writeExhausted h' buf nbytes hbuf i' o ino fs' hadmits hexhausted =>
      obtain ⟨i, hn, hr⟩ := hcleared hbound
      exact ⟨i, hn, hr.writing hexhausted.toWriting hadmits.1⟩
  | lseekClosed h' nseek o hnum =>
      obtain ⟨i, hn, hr⟩ := hcleared hbound
      exact ⟨i, hn, hr.seek h' o⟩
  | lseek h' nseek o i' hnum hnonneg hle =>
      obtain ⟨i, hn, hr⟩ := hcleared hbound
      exact ⟨i, hn, hr.seek h' o⟩

theorem boundSystem_next {c : Call} {s' : Bound} (hnext : boundSystem.next s c = some s') :
    system.next s.fs c = some s'.fs ∧ s'.binding = s.bindingAfter c := by
  obtain ⟨fs', hfs, rfl⟩ := Option.map_eq_some_iff.mp hnext
  exact ⟨hfs, rfl⟩

theorem reachable_fs {ok : Bound → Call → Prop} (hreach : boundSystem.ReachableWhere ok s) :
    system.Reachable s.fs := by
  induction hreach with
  | init hinit => exact .init hinit.1
  | step c _ _ hnext ih => exact .step c ih trivial (boundSystem_next hnext).1

/-- In every run in which each open takes the slot with the number of the inode it found, a
handle refers to the inode found when it was opened, and acts on it only. -/
theorem boundToFile {n : Int} (hreach : boundSystem.ReachableWhere opensInPlace s)
    (hbound : s.binding h = some (filename, n)) :
    ∃ i : Fin numInodes, n = i.val ∧ Refers s.fs h filename i ∧ ActsOn s.fs h i := by
  have hf : Faithful s := by
    apply hreach.invariant
    · rintro s ⟨-, hnone⟩ h filename n hbound
      rw [hnone] at hbound
      cases hbound
    · intro s c s' hreach hf hok hnext
      have hs := sound (reachable_fs hreach)
      obtain ⟨hfs, hbinding⟩ := boundSystem_next hnext
      obtain ⟨fs', binding'⟩ := s'
      dsimp only at hfs hbinding
      rw [hbinding]
      exact hf.effect hs hok (next_effect hs hfs)
  obtain ⟨i, hn, hr⟩ := hf h filename n hbound
  exact ⟨i, hn, hr, actsOn (sound (reachable_fs hreach)) hr.number⟩

/-- The second file opened second. -/
theorem boundToFile_second :
    ∃ s, boundSystem.ReachableWhere opensInPlace s ∧ s.binding 1 = some (fileB, 1) ∧
      ∃ i : Fin numInodes, (1 : Int) = i.val ∧ Refers s.fs 1 fileB i ∧ ActsOn s.fs 1 i := by
  obtain ⟨s, hreach, hs⟩ := boundSystem.exists_reachableWhere_of_run opensInPlace
    [.create fileA, .create fileB, .open fileA, .open fileB,
      .write 1 (List.replicate 64 7) 64 (by simp), .lseek 1 (-64), .read 1 64]
    (fun s => decide (s.binding 1 = some (fileB, 1)))
    (s := ⟨formatDisk fun _ => 0, fun _ => none⟩) ⟨⟨fun _ => 0, rfl⟩, rfl⟩ (by decide +kernel)
  rw [decide_eq_true_eq] at hs
  exact ⟨s, hreach, hs, boundToFile hreach hs⟩

/-- The second file opened first: the handle is bound to the inode of the first file, and
what is written through it is found there. -/
theorem exists_misbound :
    ∃ s, boundSystem.Reachable s ∧ s.binding 0 = some (fileB, 1) ∧
      (s.fs.handles 0).inodeNumber ≠ 1 ∧ (s.fs.inode 0).fileSize = 64 ∧
      s.fs.namei fileA.bytes = some 0 := by
  obtain ⟨s, hreach, hs⟩ := boundSystem.exists_reachable_of_run
    [.create fileA, .create fileB, .open fileB, .write 0 (List.replicate 64 7) 64 (by simp)]
    (fun s => decide (s.binding 0 = some (fileB, 1) ∧ (s.fs.handles 0).inodeNumber ≠ 1 ∧
      (s.fs.inode 0).fileSize = 64 ∧ s.fs.namei fileA.bytes = some 0))
    (s := ⟨formatDisk fun _ => 0, fun _ => none⟩) ⟨⟨fun _ => 0, rfl⟩, rfl⟩ (by decide +kernel)
  exact ⟨s, hreach, of_decide_eq_true hs⟩

end Os20.Ssufs
