import Os20.Ssufs.Binding

/-!
# File names

`ssufs_create` cuts a name to eight bytes and stores it without a look at the other
inodes.  What an inode carries is therefore the stored form of some name, and two files
share one as soon as a name is created twice.
-/

namespace Os20.Ssufs

open Os20.Lib.Transition

/-- Inode `i` is in use, with `filename` as it is stored. -/
def Fs.Carries (fs : Fs) (i : Fin numInodes) (filename : Filename) : Prop :=
  fs.InUse i ∧ (fs.inode i).name = strncpyName filename.bytes

instance (fs : Fs) (i : Fin numInodes) (filename : Filename) :
    Decidable (fs.Carries i filename) := inferInstanceAs (Decidable (_ ∧ _))

def Fs.Full (fs : Fs) : Prop := ∀ i, fs.super.inodeFreelist i ≠ free

instance (fs : Fs) : Decidable fs.Full := inferInstanceAs (Decidable (∀ _ : Fin numInodes, _))

def UniqueNames (fs : Fs) : Prop :=
  ∀ i j, fs.InUse i → fs.InUse j → (fs.inode i).name = (fs.inode j).name → i = j

/-- Every file has the stored form of a string for its name. -/
def Stored (fs : Fs) : Prop := ∀ i, fs.InUse i → ∃ filename, fs.Carries i filename

/-- `ssufs_create` returns -1 and leaves the disk alone. -/
def Refuses (fs : Fs) (filename : Filename) : Prop :=
  ∃ fs', create filename fs = .ok (-1) fs' ∧ fs'.disk = fs.disk

/-- A name that some file has is not created while an inode is free. -/
def createsNew (fs : Fs) : Call → Prop
  | .create filename => (∃ i, fs.Carries i filename) → fs.Full
  | _ => True

instance (fs : Fs) : ∀ c, Decidable (createsNew fs c)
  | .create filename => inferInstanceAs (Decidable ((∃ i, fs.Carries i filename) → fs.Full))
  | .delete _ | .open _ | .close _ | .read _ _ | .write _ _ _ _ | .lseek _ _ =>
      inferInstanceAs (Decidable True)

variable {fs fs' : Fs} {i j : Fin numInodes} {filename filename' : Filename}

/-! ## What a call does to the names -/

structure SameNames (fs fs' : Fs) : Prop where
  inodeFreelist : fs'.super.inodeFreelist = fs.super.inodeFreelist
  name : ∀ i, (fs'.inode i).name = (fs.inode i).name

theorem SameNames.of_eq (hsuper : fs'.super = fs.super) (hinode : fs'.inode = fs.inode) :
    SameNames fs fs' := by
  constructor
  · rw [hsuper]
  · intro i
    rw [hinode]

theorem SameNames.inUse_iff (hsame : SameNames fs fs') (i : Fin numInodes) :
    fs'.InUse i ↔ fs.InUse i := by
  unfold Fs.InUse
  rw [hsame.inodeFreelist]

theorem SameNames.carries_iff (hsame : SameNames fs fs') (i : Fin numInodes)
    (filename : Filename) : fs'.Carries i filename ↔ fs.Carries i filename := by
  unfold Fs.Carries
  rw [hsame.inUse_iff, hsame.name]

theorem Writing.sameNames {fs₀ : Fs} {h : Handle} {o : Int} {ino : Inode}
    (hw : Writing fs₀ h i o ino fs) : SameNames fs₀ fs where
  inodeFreelist := hw.inodeFreelist
  name i := by rw [hw.inode]

theorem Writing.sameNames_putInode {fs₀ : Fs} {h : Handle} {o : Int} {ino : Inode}
    (hs : Sound fs₀) (hw : Writing fs₀ h i o ino fs) : SameNames fs₀ (fs.putInode i ino) where
  inodeFreelist := by rw [Fs.super_putInode, hw.inodeFreelist]
  name j := by
    by_cases hj : j = i
    · rw [hj, Fs.inode_putInode_self (hw.fits (hs.tidy _)), hw.name]
    · rw [Fs.inode_putInode_of_ne (hw.fits (hs.tidy _)) hj, hw.inode]

/-- Only `ssufs_create` and `ssufs_delete` change them. -/
theorem Effect.names {c : Call} (hs : Sound fs) (heffect : Effect fs c fs') :
    SameNames fs fs' ∨
      (∃ filename i, c = .create filename ∧ fs.super.inodeFreelist i = free ∧
        fs' = fs.created i (strncpyName filename.bytes)) ∨
      ∃ filename i, c = .delete filename ∧ fs.namei filename.bytes = some i ∧ Freed fs i fs' := by
  cases heffect with
  | createFull | deleteMissing | openFailed | readFailed | writeRefused | lseekFailed =>
      exact Or.inl (.of_eq rfl rfl)
  | create filename i hfree => exact Or.inr (Or.inl ⟨filename, i, rfl, hfree, rfl⟩)
  | delete filename i fs' hfound hfreed =>
      exact Or.inr (Or.inr ⟨filename, i, rfl, hfound, hfreed⟩)
  | «open» | close | lseekClosed | lseek => exact Or.inl (.of_eq rfl rfl)
  | read h nbytes i fs' hnum hpos hend hread =>
      exact Or.inl (.of_eq hread.super_eq hread.inode_eq)
  | write h buf nbytes hbuf i ino fs' hadmits hwritten =>
      exact Or.inl (hwritten.toWriting.sameNames_putInode hs)
  | writeExhausted h buf nbytes hbuf i o ino fs' hadmits hexhausted =>
      exact Or.inl hexhausted.toWriting.sameNames

theorem carries_created_iff (hfree : fs.super.inodeFreelist i = free)
    (name : Fin maxNameStrlen → UInt8) : (fs.created i name).Carries j filename ↔
      j = i ∧ name = strncpyName filename.bytes ∨ fs.Carries j filename := by
  unfold Fs.Carries
  rw [Fs.inUse_created_iff]
  by_cases hj : j = i
  · have hnot : ¬fs.InUse i := fun huse => huse.ne_of_free hfree rfl
    rw [hj, Fs.name_created_self]
    simp [hnot]
  · rw [Fs.inode_created_of_ne name hj]
    simp [hj]

theorem Freed.carries_iff (hfreed : Freed fs i fs') :
    fs'.Carries j filename ↔ j ≠ i ∧ fs.Carries j filename := by
  unfold Fs.Carries
  rw [hfreed.inUse_iff, and_assoc]
  apply and_congr_right
  intro hj
  rw [hfreed.inode_of_ne hj]

/-! ## Stored names -/

theorem Stored.effect {c : Call} (hs : Sound fs) (hst : Stored fs) (heffect : Effect fs c fs') :
    Stored fs' := by
  intro j huse
  rcases heffect.names hs with hsame | ⟨filename, i, -, hfree, rfl⟩ | ⟨filename, i, -, -, hfreed⟩
  · obtain ⟨filename, hcarries⟩ := hst j ((hsame.inUse_iff j).mp huse)
    exact ⟨filename, (hsame.carries_iff j filename).mpr hcarries⟩
  · rcases (Fs.inUse_created_iff _).mp huse with rfl | huse
    · exact ⟨filename, (carries_created_iff hfree _).mpr (Or.inl ⟨rfl, rfl⟩)⟩
    · obtain ⟨filename', hcarries⟩ := hst j huse
      exact ⟨filename', (carries_created_iff hfree _).mpr (Or.inr hcarries)⟩
  · obtain ⟨hne, huse⟩ := hfreed.inUse_iff.mp huse
    obtain ⟨filename', hcarries⟩ := hst j huse
    exact ⟨filename', hfreed.carries_iff.mpr ⟨hne, hcarries⟩⟩

theorem not_inUse_formatDisk (junk : Nat → UInt8) (i : Fin numInodes) :
    ¬(formatDisk junk).InUse i := by
  unfold Fs.InUse
  rw [super_formatDisk]
  exact free_ne_used

theorem stored {ok : Fs → Call → Prop} (hreach : system.ReachableWhere ok fs) : Stored fs := by
  apply hreach.invariant
  · rintro fs ⟨junk, rfl⟩ i huse
    exact absurd huse (not_inUse_formatDisk junk i)
  · intro fs c fs' hreach hst _ hnext
    have hs := sound hreach
    exact Stored.effect hs.cleared hst (next_effect hs hnext)

/-! ## Names that are created twice -/

theorem refuses_iff : Refuses fs filename ↔ fs.Full := by
  unfold Refuses
  rcases create_run fs filename with ⟨hfull, hrun⟩ | ⟨i, hfree, hrun⟩
  · rw [hrun]
    exact ⟨fun _ => hfull, fun _ => ⟨fs, rfl, rfl⟩⟩
  · rw [hrun]
    constructor
    · rintro ⟨fs', heq, -⟩
      have hnum := (EStateM.Result.ok.inj heq).1
      omega
    · intro hfull
      exact absurd hfree (hfull i)

theorem UniqueNames.same (hu : UniqueNames fs) (hsame : SameNames fs fs') : UniqueNames fs' := by
  intro i j hi hj heq
  rw [hsame.name, hsame.name] at heq
  exact hu i j ((hsame.inUse_iff i).mp hi) ((hsame.inUse_iff j).mp hj) heq

/-- A new file takes a name that was not there, and only then the names stay unique. -/
theorem uniqueNames_created_iff (hu : UniqueNames fs) (hfree : fs.super.inodeFreelist i = free) :
    UniqueNames (fs.created i (strncpyName filename.bytes)) ↔ ∀ j, ¬fs.Carries j filename := by
  constructor
  · rintro hu' j hcarries
    apply hcarries.1.ne_of_free hfree
    apply hu' j i
    · exact (Fs.inUse_created_iff _).mpr (Or.inr hcarries.1)
    · exact (Fs.inUse_created_iff _).mpr (Or.inl rfl)
    · rw [Fs.inode_created_of_ne _ (hcarries.1.ne_of_free hfree), Fs.name_created_self, hcarries.2]
  · intro hnew j k hj hk heq
    have hcarries : ∀ l, (fs.created i (strncpyName filename.bytes)).InUse l →
        ((fs.created i (strncpyName filename.bytes)).inode l).name = strncpyName filename.bytes →
        l = i := by
      intro l huse hname
      rcases (carries_created_iff hfree _).mp ⟨huse, hname⟩ with ⟨hl, -⟩ | hl
      · exact hl
      · exact absurd hl (hnew l)
    by_cases hji : j = i
    · rw [hji, Fs.name_created_self] at heq
      rw [hji, hcarries k hk heq.symm]
    · by_cases hki : k = i
      · rw [hki, Fs.name_created_self] at heq
        rw [hki, hcarries j hj heq]
      · rw [Fs.inode_created_of_ne _ hji, Fs.inode_created_of_ne _ hki] at heq
        exact hu j k (((Fs.inUse_created_iff _).mp hj).resolve_left hji)
          (((Fs.inUse_created_iff _).mp hk).resolve_left hki) heq

theorem UniqueNames.freed (hu : UniqueNames fs) (hfreed : Freed fs i fs') : UniqueNames fs' := by
  intro j k hj hk heq
  obtain ⟨hji, hj⟩ := hfreed.inUse_iff.mp hj
  obtain ⟨hki, hk⟩ := hfreed.inUse_iff.mp hk
  rw [hfreed.inode_of_ne hji, hfreed.inode_of_ne hki] at heq
  exact hu j k hj hk heq

theorem next_create (hnext : system.next fs (.create filename) = some fs') :
    fs.Full ∧ fs' = fs.cleared ∨
      ∃ i, fs.super.inodeFreelist i = free ∧
        fs' = fs.cleared.created i (strncpyName filename.bytes) := by
  simp only [system, outcome, Call.exec] at hnext
  rcases create_run fs.cleared filename with ⟨hfull, hrun⟩ | ⟨i, hfree, hrun⟩
  · rw [discard_ok hrun] at hnext
    exact Or.inl ⟨hfull, (Option.some.inj hnext).symm⟩
  · rw [discard_ok hrun] at hnext
    exact Or.inr ⟨i, hfree, (Option.some.inj hnext).symm⟩

/-- One call: the names stay unique if and only if it meets the condition. -/
theorem UniqueNames.next_iff {c : Call} (hs : Sound fs) (hu : UniqueNames fs)
    (hnext : system.next fs c = some fs') : UniqueNames fs' ↔ createsNew fs c := by
  have hu' : UniqueNames fs.cleared := hu
  by_cases hcreate : ∃ filename, c = .create filename
  · obtain ⟨filename, rfl⟩ := hcreate
    rcases next_create hnext with ⟨hfull, rfl⟩ | ⟨i, hfree, rfl⟩
    · exact ⟨fun _ _ => hfull, fun _ => hu⟩
    · rw [uniqueNames_created_iff hu' hfree]
      constructor
      · rintro hnew ⟨j, hcarries⟩
        exact absurd hcarries (hnew j)
      · intro hok j hcarries
        exact hok ⟨j, hcarries⟩ i hfree
  · have hok : createsNew fs c := by
      cases c with
      | create filename => exact absurd ⟨filename, rfl⟩ hcreate
      | delete | «open» | close | read | write | lseek => trivial
    refine ⟨fun _ => hok, fun _ => ?_⟩
    rcases (next_effect hs hnext).names hs.cleared with
      hsame | ⟨filename, -, hc, -⟩ | ⟨filename, i, -, -, hfreed⟩
    · exact hu'.same hsame
    · exact absurd ⟨filename, hc⟩ hcreate
    · exact hu'.freed hfreed

/-- In every run in which no name is created again while an inode is free, the stored names
are unique, and they stay so in the calls that meet this condition and in no others.  A name
that is there is refused if and only if its call meets the condition. -/
theorem uniqueNames (hreach : system.ReachableWhere createsNew fs) :
    UniqueNames fs ∧
      (∀ c fs', system.next fs c = some fs' → (UniqueNames fs' ↔ createsNew fs c)) ∧
      ∀ filename, (∃ i, fs.Carries i filename) →
        (Refuses fs filename ↔ createsNew fs (.create filename)) := by
  have hu : UniqueNames fs := by
    apply hreach.invariant
    · rintro fs ⟨junk, rfl⟩ i j huse
      exact absurd huse (not_inUse_formatDisk junk i)
    · intro fs c fs' hreach hu hok hnext
      exact (hu.next_iff (sound hreach) hnext).mpr hok
  refine ⟨hu, fun c fs' hnext => hu.next_iff (sound hreach) hnext, ?_⟩
  intro filename hcarried
  rw [refuses_iff]
  exact ⟨fun hfull _ => hfull, fun hok => hok hcarried⟩

/-- A name deleted and created again. -/
theorem uniqueNames_recreated :
    ∃ fs, system.ReachableWhere createsNew fs ∧ fs.Carries 0 fileA ∧ fs.Carries 1 fileB ∧
      UniqueNames fs ∧ ¬Refuses fs fileA := by
  obtain ⟨fs, hreach, hfs⟩ := system.exists_reachableWhere_of_run createsNew
    [.create fileA, .create fileB, .delete fileA, .create fileA]
    (fun fs => decide (fs.Carries 0 fileA ∧ fs.Carries 1 fileB ∧
      fs.super.inodeFreelist 2 = free))
    ⟨fun _ => 0, rfl⟩ (by decide +kernel)
  obtain ⟨hA, hB, hfree⟩ := of_decide_eq_true hfs
  obtain ⟨hu, -, hrefuses⟩ := uniqueNames hreach
  refine ⟨fs, hreach, hA, hB, hu, ?_⟩
  rw [hrefuses fileA ⟨0, hA⟩]
  intro hok
  exact hok ⟨0, hA⟩ 2 hfree

/-- `ssufs_create` of the same name twice makes two files of that name. -/
theorem exists_sameName :
    ∃ fs, system.Reachable fs ∧ fs.Carries 0 fileA ∧ fs.Carries 1 fileA ∧ ¬UniqueNames fs := by
  obtain ⟨fs, hreach, hfs⟩ := system.exists_reachable_of_run
    [.create fileA, .create fileA]
    (fun fs => decide (fs.Carries 0 fileA ∧ fs.Carries 1 fileA))
    ⟨fun _ => 0, rfl⟩ (by decide +kernel)
  obtain ⟨h₀, h₁⟩ := of_decide_eq_true hfs
  refine ⟨fs, hreach, h₀, h₁, ?_⟩
  intro hu
  exact absurd (hu 0 1 h₀.1 h₁.1 (h₀.2.trans h₁.2.symm)) (by decide)

end Os20.Ssufs
