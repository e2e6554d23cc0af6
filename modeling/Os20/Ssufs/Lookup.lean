import Os20.Ssufs.Leaks
import Os20.Ssufs.Names

/-!
# Finding a file by its name

`open_namei` returns the first inode whose name `strcmp` takes for the name asked for.  A
name of eight bytes has no NUL of its own in the inode, so that the comparison goes on into
`file_size` and succeeds only while the low byte of the size is zero.
-/

namespace Os20.Ssufs

open Os20.Lib.Bytes Os20.Lib.Transition

/-- The name leaves no room for a NUL. -/
def Filename.Fills (filename : Filename) : Prop := filename.bytes.length = maxNameStrlen

instance (filename : Filename) : Decidable filename.Fills := inferInstanceAs (Decidable (_ = _))

/-- A NUL follows the name, in the array or as the low byte of `file_size`. -/
def Terminated (filename : Filename) (inode : Inode) : Prop :=
  filename.Fills → inode.fileSize % 256 = 0

/-- A call that does not hide the file `filename` in inode `i`: it does not delete it, it
does not create the stored name again while an inode before `i` is free, and no write that
gets its blocks leaves a name of eight bytes with a size of one, two or three blocks. -/
def keepsFound (filename : Filename) (i : Fin numInodes) (fs : Fs) : Call → Prop
  | .create filename' => strncpyName filename'.bytes = strncpyName filename.bytes →
      ∀ j, j < i → fs.super.inodeFreelist j ≠ free
  | .delete filename' => filename' ≠ filename
  | .write h _ nbytes _ => filename.Fills → fs.Admits h i nbytes →
      (fs.missing h i nbytes).card ≤ fs.freeBlocks.card →
      (blocksInUse (fs.inode i) + (fs.missing h i nbytes).card) % 4 = 0
  | _ => True

instance (filename : Filename) (i : Fin numInodes) (fs : Fs) :
    ∀ c, Decidable (keepsFound filename i fs c)
  | .create filename' =>
      inferInstanceAs (Decidable (strncpyName filename'.bytes = strncpyName filename.bytes →
        ∀ j, j < i → fs.super.inodeFreelist j ≠ free))
  | .delete filename' => inferInstanceAs (Decidable (filename' ≠ filename))
  | .write h _ nbytes _ => inferInstanceAs (Decidable (filename.Fills → fs.Admits h i nbytes →
      (fs.missing h i nbytes).card ≤ fs.freeBlocks.card →
      (blocksInUse (fs.inode i) + (fs.missing h i nbytes).card) % 4 = 0))
  | .open _ | .close _ | .read _ _ | .lseek _ _ => inferInstanceAs (Decidable True)

variable {fs₀ fs fs' : Fs} {h : Handle} {i j : Fin numInodes} {nbytes : Int} {inode : Inode}
  {filename filename' : Filename}

/-! ## Comparing names -/

theorem ofFn_strncpyName {bytes : List UInt8} (hlen : bytes.length ≤ maxNameStrlen) :
    List.ofFn (strncpyName bytes) =
      bytes ++ List.replicate (maxNameStrlen - bytes.length) 0 := by
  apply List.ext_getElem
  · simp only [List.length_ofFn, List.length_append, List.length_replicate]
    omega
  · intro k hk hk'
    rw [List.getElem_ofFn]
    unfold strncpyName
    dsimp only
    by_cases hlt : k < bytes.length
    · rw [List.getElem_append_left hlt, List.getD_eq_getElem _ _ hlt]
    · rw [List.getElem_append_right (by omega), List.getElem_replicate,
        List.getD_eq_default _ _ (by omega)]

theorem ofNat_eq_zero_iff (n : Nat) : UInt8.ofNat n = 0 ↔ n % 256 = 0 := by
  rw [← UInt8.toNat_inj, UInt8.toNat_ofNat']
  rfl

/-- The first byte of `file_size` ends the comparison. -/
theorem zero_prefix_encodeInt_iff (x : Int) (rest : List UInt8) :
    [0] <+: encodeInt x ++ rest ↔ x % 256 = 0 := by
  unfold encodeInt
  dsimp only
  rw [List.cons_append, List.cons_prefix_cons, eq_comm, ofNat_eq_zero_iff]
  simp only [List.nil_prefix, and_true]
  omega

theorem strcmpName_iff (hlen : filename.bytes.length ≤ maxNameStrlen)
    (hname : inode.name = strncpyName filename.bytes) :
    strcmpName inode filename.bytes = true ↔ Terminated filename inode := by
  have hdrop : ∃ rest, inode.encode.drop 4 =
      List.ofFn inode.name ++ (encodeInt inode.fileSize ++ rest) :=
    ⟨_, List.drop_left' (length_encodeInt inode.status)⟩
  obtain ⟨rest, hrest⟩ := hdrop
  rw [strcmpName, List.isPrefixOf_iff_prefix, hrest, hname, ofFn_strncpyName hlen,
    List.append_assoc, List.prefix_append_right_inj]
  unfold Terminated Filename.Fills
  rcases Nat.lt_or_eq_of_le hlen with hlt | heq
  · obtain ⟨m, hm⟩ : ∃ m, maxNameStrlen - filename.bytes.length = m + 1 :=
      ⟨maxNameStrlen - filename.bytes.length - 1, by omega⟩
    rw [hm, List.replicate_succ, List.cons_append, List.cons_prefix_cons]
    simp [hlt.ne]
  · rw [heq, Nat.sub_self, List.replicate_zero, List.nil_append, zero_prefix_encodeInt_iff]
    simp

theorem eq_of_strcmpName (hlen : filename.bytes.length ≤ maxNameStrlen)
    (hname : inode.name = strncpyName filename'.bytes)
    (hcmp : strcmpName inode filename.bytes = true) :
    strncpyName filename'.bytes = strncpyName filename.bytes := by
  have hnamed : ∀ k : Fin maxNameStrlen, k.val ≤ filename.bytes.length →
      filename'.bytes.getD k 0 = filename.bytes.getD k 0 := by
    intro k hk
    rw [← named_of_strcmpName hcmp k hk, hname]
    rfl
  funext k
  by_cases hk : k.val ≤ filename.bytes.length
  · exact hnamed k hk
  · -- the shorter name has ended in both
    have hend : filename'.bytes.getD filename.bytes.length 0 = 0 := by
      rw [hnamed ⟨filename.bytes.length, by omega⟩ (le_refl _),
        List.getD_eq_default _ _ (le_refl _)]
    have hlen' := Filename.length_le hend
    unfold strncpyName
    rw [List.getD_eq_default _ _ (by omega), List.getD_eq_default _ _ (by omega)]

/-! ## Finding the first inode -/

theorem number_eq_iff {n : Nat} {o : Option (Fin n)} {k : Fin n} :
    number o = k.val ↔ o = some k := by
  cases o with
  | none => simp [number]
  | some k' =>
      simp only [number, Option.some.injEq, Fin.ext_iff]
      omega

theorem namei_eq_some_iff : fs.namei filename.bytes = some i ↔
    filename.bytes.length ≤ maxNameStrlen ∧
      (fs.InUse i ∧ strcmpName (fs.inode i) filename.bytes = true) ∧
      ∀ j, j < i → ¬(fs.InUse j ∧ strcmpName (fs.inode j) filename.bytes = true) := by
  unfold Fs.namei
  split
  · next hlen => simp [hlen]
  · next hlen =>
      rw [← Fin.find?_eq_find?_finRange, Fin.find?_eq_some_iff]
      simp only [decide_eq_true_eq, decide_eq_false_iff_not]
      exact ⟨fun hfound => ⟨by omega, hfound⟩, fun hfound => hfound.2⟩

theorem Stored.carries_of_strcmpName (hst : Stored fs)
    (hlen : filename.bytes.length ≤ maxNameStrlen) (huse : fs.InUse i)
    (hcmp : strcmpName (fs.inode i) filename.bytes = true) : fs.Carries i filename := by
  obtain ⟨filename', hcarries⟩ := hst i huse
  refine ⟨huse, ?_⟩
  rw [hcarries.2, eq_of_strcmpName hlen hcarries.2 hcmp]

/-- The first inode that carries the name is found if and only if a NUL follows the name. -/
theorem namei_iff (hst : Stored fs) (hlen : filename.bytes.length ≤ maxNameStrlen)
    (hcarries : fs.Carries i filename) (hfirst : ∀ j, j < i → ¬fs.Carries j filename) :
    fs.namei filename.bytes = some i ↔ Terminated filename (fs.inode i) := by
  rw [namei_eq_some_iff, strcmpName_iff hlen hcarries.2]
  constructor
  · rintro ⟨-, ⟨-, hend⟩, -⟩
    exact hend
  · intro hend
    refine ⟨hlen, ⟨hcarries.1, hend⟩, ?_⟩
    rintro j hj ⟨huse, hcmp⟩
    exact hfirst j hj (hst.carries_of_strcmpName hlen huse hcmp)

theorem eq_of_namei (hlen : filename.bytes.length ≤ maxNameStrlen)
    (hcarries : fs.Carries i filename) (hfound : fs.namei filename'.bytes = some i) :
    filename' = filename := by
  obtain ⟨hlen', -, hcmp⟩ := namei_inUse hfound
  have hnamed : Named (fs.inode i) filename := by
    intro k _
    rw [hcarries.2]
    rfl
  exact (named_of_strcmpName hcmp).unique hnamed hlen' hlen

/-! ## The size after a write -/

theorem Writing.blocksInUse_eq {ino : Inode} (hw : Writing fs₀ h i (fs₀.stop h nbytes) ino fs) :
    blocksInUse ino = blocksInUse (fs₀.inode i) + (fs₀.missing h i nbytes).card := by
  have hunion : (Finset.univ.filter fun k => ino.directBlocks k ≠ -1) =
      (Finset.univ.filter fun k => (fs₀.inode i).directBlocks k ≠ -1) ∪
        fs₀.missing h i nbytes := by
    ext k
    simp only [Finset.mem_filter, Finset.mem_univ, true_and, Finset.mem_union, Fs.mem_missing]
    constructor
    · intro hsome
      by_cases hold : (fs₀.inode i).directBlocks k = -1
      · exact Or.inr ⟨(hw.fresh k hold hsome).1, hold⟩
      · exact Or.inl hold
    · rintro (hold | ⟨htouched, -⟩)
      · rwa [hw.kept k hold]
      · exact hw.filled k htouched
  have hdisjoint : Disjoint (Finset.univ.filter fun k => (fs₀.inode i).directBlocks k ≠ -1)
      (fs₀.missing h i nbytes) := by
    rw [Finset.disjoint_left]
    intro k hk hmissing
    exact (Finset.mem_filter.mp hk).2 (Fs.mem_missing.mp hmissing).2
  unfold blocksInUse
  rw [hunion, Finset.card_union_of_disjoint hdisjoint]

theorem Writing.card_missing_le {ino : Inode} (hw : Writing fs₀ h i (fs₀.stop h nbytes) ino fs) :
    (fs₀.missing h i nbytes).card ≤ fs₀.freeBlocks.card := by
  have hblock : ∀ k, k ∈ fs₀.missing h i nbytes →
      ∃ b : Fin numDataBlocks, ino.directBlocks k = b.val ∧ fs₀.Free b := by
    intro k hk
    obtain ⟨htouched, hnone⟩ := Fs.mem_missing.mp hk
    exact (hw.fresh k hnone (hw.filled k htouched)).2
  choose! block hentry hfree using hblock
  apply Finset.card_le_card_of_injOn block
  · intro k hk
    exact Fs.mem_freeBlocks.mpr (hfree k hk)
  · intro k hk k' hk' heq
    have hk₁ := hentry k hk
    have hk₂ := hentry k' hk'
    rw [← heq] at hk₂
    exact hw.distinct k k' (by omega) (hk₁.trans hk₂.symm)

/-- The size of a file changes when it is deleted and when a write gets its blocks. -/
theorem Effect.fileSize {c : Call} (hs : Sound fs) (heffect : Effect fs c fs')
    (i : Fin numInodes) :
    (fs'.inode i).fileSize = (fs.inode i).fileSize ∨
      (∃ filename, c = .delete filename ∧ fs.namei filename.bytes = some i) ∨
      ∃ h buf nbytes hbuf, c = .write h buf nbytes hbuf ∧ fs.Admits h i nbytes ∧
        (fs.missing h i nbytes).card ≤ fs.freeBlocks.card ∧
        (fs'.inode i).fileSize =
          blocksize * (blocksInUse (fs.inode i) + (fs.missing h i nbytes).card : Nat) := by
  cases heffect with
  | createFull | deleteMissing | openFailed | readFailed | writeRefused | lseekFailed =>
      exact Or.inl rfl
  | create filename j hfree => exact Or.inl (fs.content_created j i _).2
  | delete filename j fs' hfound hfreed =>
      by_cases hi : i = j
      · rw [hi]
        exact Or.inr (Or.inl ⟨filename, rfl, hfound⟩)
      · left
        rw [hfreed.inode_of_ne hi]
  | «open» | close | lseekClosed | lseek => exact Or.inl rfl
  | read h nbytes j fs' hnum hpos hend hread =>
      left
      rw [hread.inode_eq]
  | write h buf nbytes hbuf j ino fs' hadmits hwritten =>
      have hw := hwritten.toWriting
      by_cases hi : i = j
      · rw [hi]
        refine Or.inr (Or.inr ⟨h, buf, nbytes, hbuf, rfl, hadmits, hw.card_missing_le, ?_⟩)
        rw [Fs.inode_putInode_self (hw.fits (hs.tidy _)), hw.size, hw.blocksInUse_eq]
      · left
        rw [Fs.inode_putInode_of_ne (hw.fits (hs.tidy _)) hi, hw.inode]
  | writeExhausted h buf nbytes hbuf j o ino fs' hadmits hexhausted =>
      left
      rw [hexhausted.toWriting.inode]

/-! ## A file that stays findable -/

/-- Inode `i` is the first to carry the name, and a NUL follows it. -/
structure Found (filename : Filename) (i : Fin numInodes) (fs : Fs) : Prop where
  carries : fs.Carries i filename
  first : ∀ j, j < i → ¬fs.Carries j filename
  terminated : Terminated filename (fs.inode i)

theorem Found.effect {c : Call} (hs : Sound fs) (hlen : filename.bytes.length ≤ maxNameStrlen)
    (hf : Found filename i fs) (hok : keepsFound filename i fs c) (heffect : Effect fs c fs') :
    Found filename i fs' := by
  -- the file is not the one that a call deletes
  have hkept : ∀ filename', c = .delete filename' → fs.namei filename'.bytes ≠ some i := by
    rintro filename' rfl hfound
    exact hok (eq_of_namei hlen hf.carries hfound)
  have hnames : fs'.Carries i filename ∧ ∀ j, j < i → ¬fs'.Carries j filename := by
    rcases heffect.names hs with hsame | ⟨filename', k, rfl, hfree, rfl⟩ |
      ⟨filename', k, hc, hfound, hfreed⟩
    · refine ⟨(hsame.carries_iff i filename).mpr hf.carries, ?_⟩
      intro j hj hcarries
      exact hf.first j hj ((hsame.carries_iff j filename).mp hcarries)
    · refine ⟨(carries_created_iff hfree _).mpr (Or.inr hf.carries), ?_⟩
      intro j hj hcarries
      rcases (carries_created_iff hfree _).mp hcarries with ⟨rfl, hname⟩ | hcarries
      · exact hok hname j hj hfree
      · exact hf.first j hj hcarries
    · have hi : i ≠ k := by
        rintro rfl
        exact hkept filename' hc hfound
      refine ⟨hfreed.carries_iff.mpr ⟨hi, hf.carries⟩, ?_⟩
      intro j hj hcarries
      exact hf.first j hj (hfreed.carries_iff.mp hcarries).2
  refine ⟨hnames.1, hnames.2, ?_⟩
  intro hfills
  rcases heffect.fileSize hs i with hsize | ⟨filename', hc, hfound⟩ |
    ⟨h, buf, nbytes, hbuf, rfl, hadmits, hle, hsize⟩
  · rw [hsize]
    exact hf.terminated hfills
  · exact absurd hfound (hkept filename' hc)
  · have hwhole := hok hfills hadmits hle
    rw [hsize]
    unfold blocksize
    omega

theorem Found.openNamei (hst : Stored fs) (hlen : filename.bytes.length ≤ maxNameStrlen)
    (hf : Found filename i fs) : Ssufs.openNamei filename.bytes fs = .ok i.val fs := by
  rw [openNamei_run, (namei_iff hst hlen hf.carries hf.first).mpr hf.terminated]
  rfl

theorem create_new {fs₁ : Fs} {n : Int} (hcreate : create filename fs = .ok n fs₁) (hn : 0 ≤ n) :
    ∃ i : Fin numInodes, n = i.val ∧ fs.super.inodeFreelist i = free ∧
      fs₁ = fs.created i (strncpyName filename.bytes) := by
  rcases create_run fs filename with ⟨-, hrun⟩ | ⟨i, hfree, hrun⟩
  · rw [hrun] at hcreate
    obtain ⟨rfl, -⟩ := EStateM.Result.ok.inj hcreate
    omega
  · rw [hrun] at hcreate
    obtain ⟨rfl, rfl⟩ := EStateM.Result.ok.inj hcreate
    exact ⟨i, rfl, hfree, rfl⟩

/-- A new file is found at once if and only if a NUL follows its name in the inode it gets.
It is then found in every later state of a run whose calls meet the condition. -/
theorem staysFound {fs₁ : Fs} {n : Int} (hreach : system.Reachable fs)
    (hlen : filename.bytes.length ≤ maxNameStrlen) (hnew : ∀ j, ¬fs.Carries j filename)
    (hcreate : create filename fs = .ok n fs₁) (hn : 0 ≤ n) :
    ∃ i : Fin numInodes, n = i.val ∧
      (openNamei filename.bytes fs₁ = .ok n fs₁ ↔ Terminated filename (fs.inode i)) ∧
      (Terminated filename (fs.inode i) → ∀ calls fs',
        system.runWhere (keepsFound filename i) fs₁ calls = some fs' →
          openNamei filename.bytes fs' = .ok n fs') := by
  obtain ⟨i, rfl, hfree, rfl⟩ := create_new hcreate hn
  have hs := sound hreach
  have heffect : Effect fs (.create filename) (fs.created i (strncpyName filename.bytes)) :=
    .create filename i hfree
  have hst := Stored.effect hs (stored hreach) heffect
  have hcarries : (fs.created i (strncpyName filename.bytes)).Carries i filename :=
    (carries_created_iff hfree _).mpr (Or.inl ⟨rfl, rfl⟩)
  have hfirst : ∀ j, j < i → ¬(fs.created i (strncpyName filename.bytes)).Carries j filename := by
    intro j hj hcarries
    rcases (carries_created_iff hfree _).mp hcarries with ⟨heq, -⟩ | hcarries
    · exact absurd heq hj.ne
    · exact hnew j hcarries
  have hsize : Terminated filename ((fs.created i (strncpyName filename.bytes)).inode i) ↔
      Terminated filename (fs.inode i) := by
    unfold Terminated
    rw [(fs.content_created i i _).2]
  refine ⟨i, rfl, ?_, ?_⟩
  · rw [openNamei_run, ← hsize, ← namei_iff hst hlen hcarries hfirst, ← number_eq_iff]
    simp
  · intro hend calls fs' hrun
    have hinv : Sound fs' ∧ Stored fs' ∧ Found filename i fs' := by
      apply System.runWhere_invariant _ _ hrun
      · exact ⟨hs.effect heffect, hst, hcarries, hfirst, hsize.mpr hend⟩
      · rintro u c u' ⟨hs, hst, hf⟩ hok hnext
        have heffect := next_effect hs hnext
        have hf' : Found filename i u.cleared := ⟨hf.carries, hf.first, hf.terminated⟩
        have hok' : keepsFound filename i u.cleared c := by
          cases c <;> exact hok
        exact ⟨hs.cleared.effect heffect, Stored.effect hs.cleared hst heffect,
          hf'.effect hs.cleared hlen hok' heffect⟩
    exact hinv.2.2.openNamei hinv.2.1 hlen

def fileFull : Filename := ⟨[97, 98, 99, 100, 101, 102, 103, 104], by decide⟩

def fourBlocks : List UInt8 := List.replicate 256 7

theorem le_length_fourBlocks : (256 : Int) ≤ fourBlocks.length := by
  rw [fourBlocks, List.length_replicate]
  decide

def returns {α : Type} (x : M α) (p : α → Fs → Bool) (fs : Fs) : Bool :=
  match x fs with
  | .ok r fs' => p r fs'
  | .error _ _ => false

theorem exists_of_returns {α : Type} {x : M α} {p : α → Fs → Bool}
    (htest : returns x p fs = true) : ∃ r fs', x fs = .ok r fs' ∧ p r fs' = true := by
  unfold returns at htest
  cases hx : x fs with
  | ok r fs' =>
      rw [hx] at htest
      exact ⟨r, fs', rfl, htest⟩
  | error e fs' =>
      rw [hx] at htest
      cases htest

theorem not_carries_formatDisk (junk : Nat → UInt8) (filename : Filename) (i : Fin numInodes) :
    ¬(formatDisk junk).Carries i filename :=
  fun hcarries => not_inUse_formatDisk junk i hcarries.1

/-- A file with a name of eight bytes, all four blocks of it written in one call, and a second
file of the same name behind it. -/
theorem staysFound_wholeFile :
    ∃ fs fs₁ fs', system.Reachable fs ∧ (∀ j, ¬fs.Carries j fileFull) ∧
      create fileFull fs = .ok 0 fs₁ ∧
      system.runWhere (keepsFound fileFull 0) fs₁
        [.open fileFull, .write 0 fourBlocks 256 le_length_fourBlocks,
          .create fileFull] = some fs' ∧
      (fs'.inode 0).fileSize = 256 ∧ fs'.Carries 1 fileFull ∧
      openNamei fileFull.bytes fs' = .ok 0 fs' := by
  have hreach : system.Reachable (formatDisk fun _ => 0) := .init ⟨_, rfl⟩
  have hnew := not_carries_formatDisk (fun _ => 0) fileFull
  have htest : returns (create fileFull) (fun n fs₁ => decide (n = 0) &&
      (system.runWhere (keepsFound fileFull 0) fs₁ [.open fileFull,
        .write 0 fourBlocks 256 le_length_fourBlocks, .create fileFull]).any fun fs' =>
          decide ((fs'.inode 0).fileSize = 256 ∧ fs'.Carries 1 fileFull))
      (formatDisk fun _ => 0) = true := by
    decide +kernel
  obtain ⟨n, fs₁, hcreate, htest⟩ := exists_of_returns htest
  rw [Bool.and_eq_true, decide_eq_true_eq, Option.any_eq_true] at htest
  obtain ⟨rfl, fs', hrun, hfs'⟩ := htest
  rw [decide_eq_true_eq] at hfs'
  obtain ⟨i, hi, -, hfound⟩ := staysFound hreach (by decide) hnew hcreate (le_refl 0)
  obtain rfl : i = 0 := Fin.ext (Int.ofNat.inj hi.symm)
  refine ⟨_, fs₁, fs', hreach, hnew, hcreate, hrun, hfs'.1, hfs'.2, ?_⟩
  apply hfound _ _ _ hrun
  rw [inode_formatDisk]
  exact fun _ => rfl

/-- One byte written to a file with a name of eight bytes: its size becomes 64, which is the
byte `strcmp` meets behind the name, and the file is not found any more. -/
theorem exists_lost :
    ∃ fs fs₁ fs', system.Reachable fs ∧ (∀ j, ¬fs.Carries j fileFull) ∧
      create fileFull fs = .ok 0 fs₁ ∧ openNamei fileFull.bytes fs₁ = .ok 0 fs₁ ∧
      system.run fs₁ [.open fileFull, .write 0 [7] 1 (by decide)] = some fs' ∧
      fs'.Carries 0 fileFull ∧ openNamei fileFull.bytes fs' = .ok (-1) fs' := by
  have htest : returns (create fileFull) (fun n fs₁ =>
      decide (n = 0 ∧ fs₁.namei fileFull.bytes = some 0) &&
        (system.run fs₁ [.open fileFull, .write 0 [7] 1 (by decide)]).any fun fs' =>
          decide (fs'.Carries 0 fileFull ∧ fs'.namei fileFull.bytes = none))
      (formatDisk fun _ => 0) = true := by
    decide +kernel
  obtain ⟨n, fs₁, hcreate, htest⟩ := exists_of_returns htest
  rw [Bool.and_eq_true, decide_eq_true_eq, Option.any_eq_true] at htest
  obtain ⟨⟨rfl, hfound⟩, fs', hrun, hfs'⟩ := htest
  rw [decide_eq_true_eq] at hfs'
  refine ⟨_, fs₁, fs', .init ⟨_, rfl⟩, not_carries_formatDisk _ _, hcreate, ?_, hrun, hfs'.1, ?_⟩
  · rw [openNamei_run, hfound]
    rfl
  · rw [openNamei_run, hfs'.2]
    rfl

/-- The second of two files, whose name is created again after the first one is deleted: the
name leads to the new file. -/
theorem exists_hidden :
    ∃ fs fs₁ fs', system.Reachable fs ∧ (∀ j, ¬fs.Carries j fileB) ∧
      create fileB fs = .ok 1 fs₁ ∧
      system.run fs₁ [.delete fileA, .create fileB] = some fs' ∧
      fs'.Carries 1 fileB ∧ openNamei fileB.bytes fs' = .ok 0 fs' := by
  obtain ⟨fs, hreach, htest⟩ := system.exists_reachable_of_run [.create fileA]
    (fun fs => decide (∀ j, ¬fs.Carries j fileB) &&
      returns (create fileB) (fun n fs₁ => decide (n = 1) &&
        (system.run fs₁ [.delete fileA, .create fileB]).any fun fs' : Fs =>
          decide (fs'.Carries 1 fileB ∧ fs'.namei fileB.bytes = some 0)) fs)
    ⟨fun _ => 0, rfl⟩ (by decide +kernel)
  rw [Bool.and_eq_true, decide_eq_true_eq] at htest
  obtain ⟨hnew, htest⟩ := htest
  obtain ⟨n, fs₁, hcreate, htest⟩ := exists_of_returns htest
  rw [Bool.and_eq_true, decide_eq_true_eq, Option.any_eq_true] at htest
  obtain ⟨rfl, fs', hrun, hfs'⟩ := htest
  rw [decide_eq_true_eq] at hfs'
  refine ⟨fs, fs₁, fs', hreach, hnew, hcreate, hrun, hfs'.1, ?_⟩
  rw [openNamei_run, hfs'.2]
  rfl

end Os20.Ssufs
