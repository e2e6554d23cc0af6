import Os20.Ssufs.Flat

/-!
# `ssufs` is a flat file system

On orderly calls `ssufs` returns, with the replies of the flat file system, however many calls
there are.
-/

namespace Os20.Ssufs

open scoped BigOperators

variable {fs fs' : Fs} {a : FlatFs} {h : Handle} {i j : Fin numInodes} {o : Nat} {nbytes : Int}
  {filename : Filename} {c : Call}

/-! ## The free blocks -/

/-- Every block is free or in one place of one file. -/
theorem NoLeaks.card (hs : Sound fs) (hn : NoLeaks fs) :
    fs.freeBlocks.card + ∑ i, blocksInUse (fs.inode i) = numDataBlocks := by
  have hused : (Finset.univ.filter fun b => ¬fs.Free b).card = ∑ i, blocksInUse (fs.inode i) := by
    unfold blocksInUse
    rw [← Finset.card_sigma]
    symm
    have hblock (i : Fin numInodes) (k : Fin maxFileSize) (hk : (fs.inode i).directBlocks k ≠ -1) :
        ∃ b : Fin numDataBlocks, (fs.inode i).directBlocks k = b.val :=
      (hs.entry i k).resolve_left hk
    refine Finset.card_bij (fun p _ => ⟨((fs.inode p.1).directBlocks p.2).toNat % numDataBlocks,
      Nat.mod_lt _ (by decide)⟩) ?_ ?_ ?_
    · rintro ⟨i, k⟩ hp
      simp only [Finset.mem_sigma, Finset.mem_univ, Finset.mem_filter, true_and] at hp ⊢
      obtain ⟨b, hb⟩ := hblock i k hp
      have hb' : (⟨((fs.inode i).directBlocks k).toNat % numDataBlocks,
          Nat.mod_lt _ (by decide)⟩ : Fin numDataBlocks) = b := by
        ext
        dsimp only
        rw [hb, Int.toNat_natCast, Nat.mod_eq_of_lt b.isLt]
      rw [hb']
      exact fun hfree => hfree.not_used (hs.referenced i k b hb)
    · rintro ⟨i, k⟩ hp ⟨i', k'⟩ hp' heq
      simp only [Finset.mem_sigma, Finset.mem_univ, Finset.mem_filter, true_and] at hp hp'
      obtain ⟨b, hb⟩ := hblock i k hp
      obtain ⟨b', hb'⟩ := hblock i' k' hp'
      have hval := congrArg Fin.val heq
      dsimp only at hval
      rw [hb, hb', Int.toNat_natCast, Int.toNat_natCast, Nat.mod_eq_of_lt b.isLt,
        Nat.mod_eq_of_lt b'.isLt] at hval
      obtain rfl : b = b' := Fin.ext hval
      obtain ⟨rfl, rfl⟩ := hs.single i k i' k' b hb hb'
      rfl
    · intro b hb
      simp only [Finset.mem_filter, Finset.mem_univ, true_and] at hb
      obtain ⟨i, k, -, -, hik⟩ := hn.referenced b ((hs.mark b).resolve_left hb)
      refine ⟨⟨i, k⟩, ?_, ?_⟩
      · simp only [Finset.mem_sigma, Finset.mem_univ, Finset.mem_filter, true_and]
        omega
      · ext
        dsimp only
        rw [hik, Int.toNat_natCast, Nat.mod_eq_of_lt b.isLt]
  have htotal := Finset.card_filter_add_card_filter_not (s := Finset.univ) (fun b => fs.Free b)
  rw [hused, Finset.card_univ, Fintype.card_fin] at htotal
  exact htotal

/-! ## The relation -/

structure Shows (fs : Fs) (a : FlatFs) : Prop where
  sound : Sound fs
  holes : NoHoles fs
  leaks : NoLeaks fs
  file : ∀ i f, a.file i = some f → fs.Carries i f.name ∧
    f.name.bytes.length < maxNameStrlen ∧ fs.content (fs.inode i) = f.content
  vacant : ∀ i, a.file i = none → fs.super.inodeFreelist i = free
  unique : ∀ i j f f', a.file i = some f → a.file j = some f' → f.name = f'.name → i = j
  opened : ∀ h i o, a.handle h = some (i, o) →
    fs.handles h = ⟨o, i.val⟩ ∧ (a.file i).isSome = true
  closed : ∀ h, a.handle h = none → (fs.handles h).inodeNumber = -1

theorem content_vacant {inode : Inode} (hnone : ∀ k, inode.directBlocks k = -1) :
    fs.content inode = [] := by
  have hpieces : (fun k => fs.entryBytes (inode.directBlocks k)) = fun _ => [] := by
    funext k
    rw [hnone, entryBytes_none]
  rw [Fs.content, hpieces]
  simp [Lib.Pieces.joined]

namespace Shows

theorem start (junk : Nat → UInt8) : Shows (formatDisk junk) .empty where
  sound := sound_formatDisk junk
  holes := .formatDisk junk
  leaks := .formatDisk junk
  file i f hf := by cases hf
  vacant i _ := by rw [super_formatDisk]; rfl
  unique i j f f' hf := by cases hf
  opened h i o hh := by cases hh
  closed h _ := rfl

theorem cleared (hshows : Shows fs a) : Shows fs.cleared a where
  sound := hshows.sound.cleared
  holes := hshows.holes.congr (fun _ => rfl) (fun _ => rfl) rfl
  leaks := hshows.leaks.congr rfl rfl rfl
  file := hshows.file
  vacant := hshows.vacant
  unique := hshows.unique
  opened := hshows.opened
  closed := hshows.closed

theorem flat (hshows : Shows fs a) : FlatDisk fs := hshows.holes.flatDisk hshows.sound

theorem content (hshows : Shows fs a) (i : Fin numInodes) :
    a.content i = fs.content (fs.inode i) := by
  unfold FlatFs.content
  split
  · next f hf => exact (hshows.file i f hf).2.2.symm
  · next hnone => rw [content_vacant (hshows.leaks.vacant i (hshows.vacant i hnone)).2]

theorem length_content (hshows : Shows fs a) (i : Fin numInodes) :
    ((a.content i).length : Int) = (fs.inode i).fileSize := by
  have hsize := (hshows.sound.size_le i).1
  rw [hshows.content, (hshows.flat.dense i).length_content]
  omega

theorem blocks (hshows : Shows fs a) : fs.freeBlocks.card + a.blocks = numDataBlocks := by
  have hcard := hshows.leaks.card hshows.sound
  have hsum : a.blocks = ∑ i, blocksInUse (fs.inode i) := by
    refine Finset.sum_congr rfl fun i _ => ?_
    have hlength := hshows.length_content i
    have hsize := hshows.sound.size i
    unfold blocksize at *
    omega
  rw [hsum]
  exact hcard

theorem handle (hshows : Shows fs a) (hh : a.handle h = some (i, o)) :
    (fs.handles h).inodeNumber = i.val ∧ (fs.handles h).offset = o ∧
      (o : Int) ≤ (fs.inode i).fileSize := by
  have hopen := (hshows.opened h i o hh).1
  have hinside := hshows.holes.inside h (by rw [hopen]; dsimp only; omega)
  rw [hopen] at hinside ⊢
  exact ⟨rfl, rfl, hinside.2 i rfl⟩

theorem card_missing (hshows : Shows fs a) (hh : a.handle h = some (i, o)) (hbytes : 0 ≤ nbytes)
    (hspace : o + nbytes ≤ 256) : (fs.missing h i nbytes).card = a.growth i o nbytes := by
  obtain ⟨-, hoffset, hinside⟩ := hshows.handle hh
  have hcard := Ssufs.card_missing (hshows.flat.dense i) (by omega) hbytes (by omega)
    (by omega : (fs.handles h).offset + nbytes ≤ 256)
  have hlength := hshows.length_content i
  rw [hoffset] at hcard
  unfold FlatFs.growth blocksFor blocksize at *
  omega

theorem number_cases (hshows : Shows fs a) (hnum : (fs.handles h).inodeNumber = i.val) :
    ∃ o, a.handle h = some (i, o) := by
  cases hh : a.handle h with
  | none =>
      have hclosed := hshows.closed h hh
      omega
  | some position =>
      obtain ⟨j, o⟩ := position
      have hj := (hshows.handle hh).1
      obtain rfl : i = j := Fin.ext (by omega)
      exact ⟨o, rfl⟩

/-! ## Names -/

theorem inUse_iff (hshows : Shows fs a) (i : Fin numInodes) :
    fs.InUse i ↔ (a.file i).isSome = true := by
  cases hf : a.file i with
  | none =>
      have hfree := hshows.vacant i hf
      simp only [Option.isSome_none, Bool.false_eq_true, iff_false]
      intro huse
      exact huse.ne_of_free hfree rfl
  | some f => simpa using (hshows.file i f hf).1.1

theorem namei (hshows : Shows fs a) (filename : Filename) :
    fs.namei filename.bytes = a.lookup filename := by
  have hfound (i : Fin numInodes) (hlen : filename.bytes.length ≤ maxNameStrlen) :
      (fs.InUse i ∧ strcmpName (fs.inode i) filename.bytes = true) ↔
        (a.file i).map File.name = some filename := by
    cases hf : a.file i with
    | none =>
        have hunused : ¬fs.InUse i := by
          rw [hshows.inUse_iff, hf]
          simp
        simp [hunused]
    | some f =>
        obtain ⟨hcarries, hshort, -⟩ := hshows.file i f hf
        have hnamed : Named (fs.inode i) f.name := by
          intro k _
          rw [hcarries.2]
          rfl
        simp only [Option.map_some, Option.some.injEq]
        constructor
        · rintro ⟨-, hcmp⟩
          exact hnamed.unique (named_of_strcmpName hcmp) hshort.le hlen
        · rintro rfl
          refine ⟨hcarries.1, (strcmpName_iff hlen hcarries.2).mpr fun hfills => ?_⟩
          exact absurd hfills hshort.ne
  unfold Fs.namei FlatFs.lookup
  split
  · next hlong =>
      symm
      rw [List.find?_eq_none]
      intro i _ hname
      simp only [decide_eq_true_eq] at hname
      obtain ⟨f, hf, rfl⟩ := Option.map_eq_some_iff.mp hname
      have hshort := (hshows.file i f hf).2.1
      omega
  · next hlen =>
      congr 1
      funext i
      exact decide_eq_decide.mpr (hfound i (by omega))

theorem firstFree (hshows : Shows fs a) : fs.firstFree = a.firstFree := by
  unfold Fs.firstFree FlatFs.firstFree
  congr 1
  funext i
  cases hf : a.file i with
  | none => simp [hshows.vacant i hf]
  | some f =>
      have huse := (hshows.inUse_iff i).mpr (by simp [hf])
      have hne : fs.super.inodeFreelist i ≠ free := fun hfree => huse.ne_of_free hfree rfl
      simp [hne]

theorem firstClosed (hshows : Shows fs a) : Ssufs.firstClosed fs.handles = a.firstClosed := by
  unfold Ssufs.firstClosed FlatFs.firstClosed
  congr 1
  funext h
  cases hh : a.handle h with
  | none => simp [hshows.closed h hh]
  | some position =>
      have hnum := (hshows.handle hh).1
      have hne : (fs.handles h).inodeNumber ≠ -1 := by omega
      simp [hne]

/-! ## Orderly calls keep the invariants -/

theorem keepsOffsets (hshows : Shows fs a) (hok : a.Orderly c) : keepsOffsets fs c := by
  have hblocks := hshows.blocks
  cases c with
  | create | «open» | close | read | lseek => trivial
  | delete filename =>
      intro i hfound h hnum
      obtain ⟨o, hh⟩ := hshows.number_cases hnum
      rw [hshows.namei] at hfound
      exact absurd (by rw [hh]; rfl) (hok i hfound h)
  | write h buf nbytes hbuf =>
      rintro i ⟨hnum, hspace⟩
      obtain ⟨o, hh⟩ := hshows.number_cases hnum
      obtain ⟨-, hoffset, -⟩ := hshows.handle hh
      have hspace' : o + nbytes ≤ 256 := by
        unfold blocksize at hspace
        omega
      obtain ⟨hbytes, hroom⟩ := hok
      rw [hh] at hroom
      rw [hshows.card_missing hh hbytes hspace']
      rcases hroom hspace' with hfits | ⟨hfull, -⟩
      · right
        omega
      · left
        rw [← Finset.card_eq_zero]
        omega

theorem allocatesWhole (hshows : Shows fs a) (hok : a.Orderly c) : allocatesWhole fs c := by
  have hkeeps := hshows.keepsOffsets hok
  cases c with
  | create | «open» | close | read | lseek | delete => trivial
  | write h buf nbytes hbuf =>
      intro i hadmits
      obtain ⟨o, hh⟩ := hshows.number_cases hadmits.1
      have huse := (hshows.inUse_iff i).mpr (hshows.opened h i o hh).2
      exact .inr ((hkeeps i hadmits).imp_right fun hle => ⟨hle, huse⟩)

theorem effect (hshows : Shows fs a) (hok : a.Orderly c) (heffect : Effect fs c fs') :
    Sound fs' ∧ NoHoles fs' ∧ NoLeaks fs' :=
  ⟨hshows.sound.effect heffect,
    hshows.holes.effect hshows.sound (hshows.keepsOffsets hok) heffect,
    hshows.leaks.effect hshows.sound (hshows.allocatesWhole hok) heffect⟩

/-! ## Creating and deleting -/

theorem lookup_some (hfound : a.lookup filename = some i) :
    ∃ f, a.file i = some f ∧ f.name = filename := by
  have hname := List.find?_some hfound
  simp only [decide_eq_true_eq] at hname
  exact Option.map_eq_some_iff.mp hname

theorem lookup_none (hnone : a.lookup filename = none) (i : Fin numInodes) {f : File}
    (hf : a.file i = some f) : f.name ≠ filename := by
  have hname := List.find?_eq_none.mp hnone i (List.mem_finRange i)
  simpa [hf] using hname

theorem content_congr {inode inode' : Inode} (hblock : fs'.block = fs.block)
    (hentry : inode'.directBlocks = inode.directBlocks) :
    fs'.content inode' = fs.content inode := by
  unfold Fs.content Fs.entryBytes
  rw [hblock, hentry]

theorem created (hshows : Shows fs a) (hfree : fs.super.inodeFreelist i = free)
    (hshort : filename.bytes.length < maxNameStrlen) (hnew : a.lookup filename = none)
    (hinv : Sound (fs.created i (strncpyName filename.bytes)) ∧
      NoHoles (fs.created i (strncpyName filename.bytes)) ∧
      NoLeaks (fs.created i (strncpyName filename.bytes))) :
    Shows (fs.created i (strncpyName filename.bytes)) (a.setFile i (some ⟨filename, []⟩)) := by
  set name := strncpyName filename.bytes with hname
  have hself : (a.setFile i (some ⟨filename, []⟩)).file i = some ⟨filename, []⟩ :=
    Function.update_self ..
  have hother {j : Fin numInodes} (hj : j ≠ i) :
      (a.setFile i (some ⟨filename, []⟩)).file j = a.file j := Function.update_of_ne hj ..
  have hblock : (fs.created i name).block = fs.block := by
    rw [Fs.created, Fs.block_putInode, Fs.markInode, Fs.block_putSuper]
  have hcontent (j : Fin numInodes) :
      (fs.created i name).content ((fs.created i name).inode j) = fs.content (fs.inode j) :=
    content_congr hblock (Fs.content_created fs i j name).1
  refine ⟨hinv.1, hinv.2.1, hinv.2.2, fun j f hf => ?_, fun j hj => ?_,
    fun j j' f f' hf hf' heq => ?_, fun h j o hh => ?_, hshows.closed⟩
  · rw [hcontent]
    by_cases hj : j = i
    · rw [hj, hself] at hf
      cases hf
      refine ⟨(carries_created_iff hfree _).mpr (.inl ⟨hj, rfl⟩), hshort, ?_⟩
      rw [hj]
      exact content_vacant (hshows.leaks.vacant i hfree).2
    · rw [hother hj] at hf
      obtain ⟨hcarries, hold⟩ := hshows.file j f hf
      exact ⟨(carries_created_iff hfree _).mpr (.inr hcarries), hold⟩
  · have hji : j ≠ i := by
      rintro rfl
      rw [hself] at hj
      cases hj
    rw [hother hji] at hj
    rw [Fs.super_created]
    simp only [Superblock.setInode]
    rw [Function.update_of_ne hji]
    exact hshows.vacant j hj
  · by_cases hj : j = i
    · by_cases hj' : j' = i
      · exact hj.trans hj'.symm
      · rw [hj, hself] at hf
        rw [hother hj'] at hf'
        cases hf
        exact absurd heq.symm (lookup_none hnew j' hf')
    · rw [hother hj] at hf
      by_cases hj' : j' = i
      · rw [hj', hself] at hf'
        cases hf'
        exact absurd heq (lookup_none hnew j hf)
      · rw [hother hj'] at hf'
        exact hshows.unique j j' f f' hf hf' heq
  · obtain ⟨hopen, hsome⟩ := hshows.opened h j o hh
    refine ⟨hopen, ?_⟩
    by_cases hj : j = i
    · rw [hj, hself]
      rfl
    · rwa [hother hj]

theorem create (hshows : Shows fs a) (hok : a.Orderly (.create filename)) :
    ∃ fs', Ssufs.create filename fs = .ok (a.create filename).1.1 fs' ∧
      Shows fs' (a.create filename).2 := by
  obtain ⟨fs₁, hnumber⟩ := create_firstFree fs filename
  rw [hshows.firstFree] at hnumber
  rcases create_run fs filename with ⟨-, hrun⟩ | ⟨i, hfree, hrun⟩
  · rw [hrun] at hnumber
    have hnone : a.firstFree = none := by
      cases hfirst : a.firstFree with
      | none => rfl
      | some i =>
          rw [hfirst, number] at hnumber
          cases hnumber
    refine ⟨fs, ?_, ?_⟩
    · simp only [FlatFs.create, hnone]
      exact hrun
    · simpa only [FlatFs.create, hnone] using hshows
  · rw [hrun] at hnumber
    have hfirst : a.firstFree = some i := by
      injection hnumber with hnumber
      exact number_eq_iff.mp hnumber.symm
    have hinv := hshows.effect hok (.create filename i hfree)
    refine ⟨fs.created i (strncpyName filename.bytes), ?_, ?_⟩
    · simp only [FlatFs.create, hfirst]
      exact hrun
    · simp only [FlatFs.create, hfirst]
      exact hshows.created hfree hok.1 hok.2 hinv

theorem deleted (hshows : Shows fs a) (hfreed : Freed fs i fs') (hblock : fs'.block = fs.block)
    (hunused : ∀ h, (a.handle h).map Prod.fst ≠ some i)
    (hinv : Sound fs' ∧ NoHoles fs' ∧ NoLeaks fs') : Shows fs' (a.setFile i none) := by
  have hself : (a.setFile i none).file i = none := Function.update_self ..
  have hother {j : Fin numInodes} (hj : j ≠ i) : (a.setFile i none).file j = a.file j :=
    Function.update_of_ne hj ..
  have hne {j : Fin numInodes} {f : File} (hf : (a.setFile i none).file j = some f) : j ≠ i := by
    rintro rfl
    rw [hself] at hf
    cases hf
  refine ⟨hinv.1, hinv.2.1, hinv.2.2, fun j f hf => ?_, fun j hj => ?_,
    fun j j' f f' hf hf' heq => ?_, fun h j o hh => ?_, fun h hh => ?_⟩
  · have hj := hne hf
    rw [hother hj] at hf
    obtain ⟨hcarries, hshort, hcontent⟩ := hshows.file j f hf
    refine ⟨hfreed.carries_iff.mpr ⟨hj, hcarries⟩, hshort, ?_⟩
    rw [← hcontent]
    exact content_congr hblock (by rw [hfreed.inode_of_ne hj])
  · rw [hfreed.inodeFreelist]
    by_cases hji : j = i
    · rw [hji, Function.update_self]
    · rw [hother hji] at hj
      rw [Function.update_of_ne hji]
      exact hshows.vacant j hj
  · have hj := hne hf
    have hj' := hne hf'
    rw [hother hj] at hf
    rw [hother hj'] at hf'
    exact hshows.unique j j' f f' hf hf' heq
  · obtain ⟨hopen, hsome⟩ := hshows.opened h j o hh
    have hj : j ≠ i := by
      rintro rfl
      have hhandle : a.handle h = some (j, o) := hh
      exact hunused h (by rw [hhandle]; rfl)
    rw [hfreed.handles, hother hj]
    exact ⟨hopen, hsome⟩
  · rw [hfreed.handles]
    exact hshows.closed h hh

theorem delete (hshows : Shows fs a) (hok : a.Orderly (.delete filename)) :
    ∃ fs', Ssufs.delete filename fs = .ok () fs' ∧ (a.delete filename).1 = (0, []) ∧
      Shows fs' (a.delete filename).2 := by
  have hnamei := hshows.namei filename
  unfold Ssufs.delete
  rw [bind_ok (openNamei_run filename.bytes), hnamei]
  cases hlookup : a.lookup filename with
  | none =>
      rw [number, if_pos rfl]
      refine ⟨fs, rfl, ?_⟩
      simp only [FlatFs.delete, hlookup]
      exact ⟨trivial, hshows⟩
  | some i =>
      rw [hlookup] at hnamei
      obtain ⟨fs', hrun, hfreed⟩ :=
        freeInode_run (namei_inUse hnamei).2.1 (hshows.sound.freeable i)
      have hblock := keeps_block_freeInode i fs () fs' hrun
      have hinv := hshows.effect hok (.delete filename i fs' hnamei hfreed)
      rw [number, if_neg (by omega)]
      refine ⟨fs', hrun, ?_⟩
      simp only [FlatFs.delete, hlookup]
      exact ⟨trivial, hshows.deleted hfreed hblock (hok i hlookup) hinv⟩

/-! ## Handles -/

theorem same (hshows : Shows fs a) (hdisk : fs'.disk = fs.disk)
    (hhandles : fs'.handles = fs.handles) : Sound fs' ∧ NoHoles fs' ∧ NoLeaks fs' := by
  have hsuper : fs'.super = fs.super := by
    unfold Fs.super
    rw [hdisk]
  have hinode : fs'.inode = fs.inode := by
    unfold Fs.inode
    rw [hdisk]
  refine ⟨hshows.sound.congr (fun i => by rw [hinode]) (fun i => by rw [hinode])
      (by rw [hsuper]) (fun b hb => ?_) ?_ ?_,
    hshows.holes.congr (fun i => by rw [hinode]) (fun i => by rw [hinode]) hhandles,
    hshows.leaks.congr hinode (by rw [hsuper]) (by rw [hsuper])⟩
  · unfold Fs.Has
    rw [hdisk]
    exact hb
  · rw [hhandles]
    exact hshows.sound.offset
  · rw [hhandles]
    exact hshows.sound.number

theorem moved (hshows : Shows fs a) (hinv : Sound fs' ∧ NoHoles fs' ∧ NoLeaks fs')
    (hdisk : fs'.disk = fs.disk) {fh : FileHandle} {position : Option (Fin numInodes × Nat)}
    (hhandles : fs'.handles = Function.update fs.handles h fh)
    (hopen : ∀ i o, position = some (i, o) → fh = ⟨o, i.val⟩ ∧ (a.file i).isSome = true)
    (hclosed : position = none → fh.inodeNumber = -1) : Shows fs' (a.setHandle h position) := by
  have hsuper : fs'.super = fs.super := by
    unfold Fs.super
    rw [hdisk]
  have hinode : fs'.inode = fs.inode := by
    unfold Fs.inode
    rw [hdisk]
  have hblock : fs'.block = fs.block := by
    unfold Fs.block
    rw [hdisk]
  have hself : (a.setHandle h position).handle h = position := Function.update_self ..
  have hother {h' : Handle} (hh : h' ≠ h) : (a.setHandle h position).handle h' = a.handle h' :=
    Function.update_of_ne hh ..
  refine ⟨hinv.1, hinv.2.1, hinv.2.2, fun j f hf => ?_, ?_, hshows.unique, fun h' j o hh => ?_,
    fun h' hh => ?_⟩
  · obtain ⟨hcarries, hshort, hcontent⟩ := hshows.file j f hf
    refine ⟨?_, hshort, ?_⟩
    · unfold Fs.Carries Fs.InUse
      rw [hsuper, hinode]
      exact hcarries
    · rw [← hcontent]
      exact content_congr hblock (by rw [hinode])
  · rw [hsuper]
    exact hshows.vacant
  · rw [hhandles]
    by_cases heq : h' = h
    · rw [heq, hself] at hh
      rw [heq, Function.update_self]
      exact hopen j o hh
    · rw [hother heq] at hh
      rw [Function.update_of_ne heq]
      exact hshows.opened h' j o hh
  · rw [hhandles]
    by_cases heq : h' = h
    · rw [heq, hself] at hh
      rw [heq, Function.update_self]
      exact hclosed hh
    · rw [hother heq] at hh
      rw [Function.update_of_ne heq]
      exact hshows.closed h' hh

theorem «open» (hshows : Shows fs a) (hok : a.Orderly (.open filename)) :
    ∃ fs', Ssufs.open filename fs = .ok (a.open filename).1.1 fs' ∧
      (a.open filename).1.2 = [] ∧ Shows fs' (a.open filename).2 := by
  have hnamei := hshows.namei filename
  have hclosed := hshows.firstClosed
  unfold Ssufs.open
  rw [bind_ok (openNamei_run filename.bytes), hnamei]
  cases hlookup : a.lookup filename with
  | none =>
      rw [number, if_pos rfl]
      refine ⟨fs, ?_⟩
      simp only [FlatFs.open, hlookup]
      exact ⟨rfl, trivial, hshows⟩
  | some i =>
      have hget : (get : M Fs) fs = .ok fs fs := rfl
      rw [number, if_neg (by omega), allocFileHandle, bind_ok hget, hclosed]
      cases hfirst : a.firstClosed with
      | none =>
          refine ⟨fs, ?_⟩
          simp only [FlatFs.open, hlookup, hfirst]
          exact ⟨rfl, trivial, hshows⟩
      | some h =>
          refine ⟨fs.putHandle h ⟨0, h.val⟩, ?_⟩
          simp only [FlatFs.open, hlookup, hfirst]
          refine ⟨bind_ok (setHandle_run _ _), trivial, ?_⟩
          rw [hlookup] at hnamei
          rw [hfirst] at hclosed
          have hinv := hshows.effect hok (.open filename i h hnamei hclosed)
          refine hshows.moved hinv rfl rfl (fun j o hh => ?_) fun hh => by cases hh
          cases hh
          obtain ⟨f, hf, -⟩ := lookup_some hlookup
          rw [hok i hlookup h hfirst, hf]
          exact ⟨rfl, rfl⟩

theorem close (hshows : Shows fs a) (h : Handle) :
    Shows (fs.putHandle h ⟨0, -1⟩) (a.setHandle h none) :=
  hshows.moved (hshows.effect (c := .close h) trivial (.close h)) rfl rfl
    (fun i o hh => by cases hh) fun _ => rfl

theorem lseek (hshows : Shows fs a) {nseek : Int} (hok : a.Orderly (.lseek h nseek)) :
    ∃ fs', Ssufs.lseek h nseek fs = .ok (a.lseek h nseek).1.1 fs' ∧
      (a.lseek h nseek).1.2 = [] ∧ Shows fs' (a.lseek h nseek).2 := by
  cases hh : a.handle h with
  | none =>
      have hsome : (a.handle h).isSome = true := hok
      rw [hh] at hsome
      cases hsome
  | some position =>
      obtain ⟨i, o⟩ := position
      obtain ⟨hnum, hoffset, -⟩ := hshows.handle hh
      have hlength := hshows.length_content i
      have hrun := lseek_run nseek hnum
      rw [hoffset, ← hlength] at hrun
      simp only [FlatFs.lseek, hh]
      by_cases hinside : 0 ≤ o + nseek ∧ o + nseek ≤ (a.content i).length
      · rw [if_pos hinside] at hrun ⊢
        refine ⟨_, hrun, rfl, ?_⟩
        have hinv := hshows.effect hok
          (.lseek h nseek (o + nseek) i hnum hinside.1 (hlength ▸ hinside.2))
        refine hshows.moved hinv rfl rfl (fun j p hp => ?_) fun hp => by cases hp
        cases hp
        rw [hnum, Int.toNat_of_nonneg hinside.1]
        exact ⟨rfl, (hshows.opened h i o hh).2⟩
      · rw [if_neg hinside] at hrun ⊢
        exact ⟨fs, hrun, rfl, hshows⟩

theorem read (hshows : Shows fs a) (hok : a.Orderly (.read h nbytes)) :
    ∃ fs', Ssufs.read h nbytes fs = .ok (a.read h nbytes).1 fs' ∧
      Shows fs' (a.read h nbytes).2 := by
  have hbytes : 0 ≤ nbytes := hok
  cases hh : a.handle h with
  | none =>
      simp only [FlatFs.read, hh]
      exact ⟨fs, read_run_closed nbytes (hshows.closed h hh), hshows⟩
  | some position =>
      obtain ⟨i, o⟩ := position
      obtain ⟨hnum, hoffset, hinside⟩ := hshows.handle hh
      have hlength := hshows.length_content i
      have hd := hshows.flat.dense i
      simp only [FlatFs.read, hh]
      rw [← readElse_return]
      by_cases hend : o + nbytes ≤ (a.content i).length
      · rw [if_pos hend]
        obtain ⟨fs', bytes, hrun, -, hcontent, hread⟩ := readElse_inside hd
          (hshows.flat.written i) hnum (by omega) hbytes (by omega)
        have hposition : (fs.handles h).offset + nbytes = ((o + nbytes.toNat : Nat) : Int) := by
          omega
        rw [hshows.content, ← Int.toNat_natCast o, ← hoffset, ← hcontent]
        refine ⟨fs', hrun _, ?_⟩
        have hinv : Sound fs' ∧ NoHoles fs' ∧ NoLeaks fs' := by
          by_cases hpos : 0 < nbytes
          · exact hshows.effect hok (.read h nbytes i fs' hnum hpos (by omega) hread)
          · have hzero : nbytes = 0 := by omega
            have hsame : fs'.handles = fs.handles := by
              rw [hread.handles, hzero, Int.add_zero]
              exact Function.update_eq_self h fs.handles
            exact hshows.same hread.disk hsame
        refine hshows.moved hinv hread.disk hread.handles (fun j p hp => ?_) fun hp => by cases hp
        cases hp
        rw [hnum, hposition, hoffset, Int.toNat_natCast]
        exact ⟨rfl, (hshows.opened h i o hh).2⟩
      · rw [if_neg hend]
        exact ⟨fs, readElse_beyond hd hnum (by omega) (by omega) (by omega) _, hshows⟩

/-! ## Writing -/

theorem file_setContent_of_ne {bytes : List UInt8} {j : Fin numInodes} (hj : j ≠ i) :
    (a.setContent i bytes).file j = a.file j := Function.update_of_ne hj ..

theorem file_setContent_self (bytes : List UInt8) :
    (a.setContent i bytes).file i = (a.file i).map fun f => { f with content := bytes } :=
  Function.update_self ..

theorem isSome_setContent (bytes : List UInt8) (j : Fin numInodes) :
    ((a.setContent i bytes).file j).isSome = (a.file j).isSome := by
  by_cases hj : j = i
  · rw [hj, file_setContent_self, Option.isSome_map]
  · rw [file_setContent_of_ne hj]

theorem name_setContent {bytes : List UInt8} {j : Fin numInodes} {f : File}
    (hf : (a.setContent i bytes).file j = some f) :
    ∃ f', a.file j = some f' ∧ f.name = f'.name := by
  by_cases hj : j = i
  · rw [hj, file_setContent_self] at hf
    obtain ⟨f', hf', rfl⟩ := Option.map_eq_some_iff.mp hf
    exact ⟨f', hj ▸ hf', rfl⟩
  · rw [file_setContent_of_ne hj] at hf
    exact ⟨f, hf, rfl⟩

/-- The bytes of the file are those that the flat file system has. -/
theorem content_wrote (hshows : Shows fs a) (hh : a.handle h = some (i, o)) (hbytes : 0 ≤ nbytes)
    (hspace : o + nbytes ≤ 256) {buf : List UInt8} (hbuf : nbytes ≤ buf.length) {ino : Inode}
    (hw : Writing fs h i (fs.stop h nbytes) ino fs')
    (hst : Stores fs h i buf (fs.stop h nbytes) ino fs') :
    (fs'.putInode i ino).content ino = a.written i o (buf.take nbytes.toNat) := by
  obtain ⟨hnum, hoffset, hinside⟩ := hshows.handle hh
  have hd := hshows.flat
  have hnonneg : 0 ≤ (fs.handles h).offset := by omega
  have hinside' : (fs.handles h).offset ≤ (fs.inode i).fileSize := by omega
  have hspace' : (fs.handles h).offset + nbytes ≤ 256 := by omega
  have hdense := dense_written hd hw hnonneg hinside' hbytes hspace'
  have hsize := fileSize_written hd hw hnonneg hinside' hbytes hspace'
  have hlength := hshows.length_content i
  have htake : (buf.take nbytes.toNat).length = nbytes.toNat := by
    rw [List.length_take]
    omega
  rw [content_putInode, content_written (hd.dense i) hdense hw hst hnonneg hbytes hbuf
    (hsize ▸ le_max_left _ _) (by unfold blocksFor blocksize at hsize; omega)]
  unfold FlatFs.written
  have hmax : ino.fileSize.toNat = max (a.content i).length
      (blocksize * (blocksFor (o + (buf.take nbytes.toNat).length)).toNat) := by
    rw [htake, hsize, hoffset, Int.toNat_of_nonneg hbytes]
    unfold blocksFor blocksize
    omega
  rw [hshows.content] at hmax ⊢
  rw [hmax, hoffset, Int.toNat_natCast]

/-- A write that reaches its end. -/
theorem wrote (hshows : Shows fs a) (hh : a.handle h = some (i, o)) (hbytes : 0 ≤ nbytes)
    (hspace : o + nbytes ≤ 256) {buf : List UInt8} (hbuf : nbytes ≤ buf.length) {ino : Inode}
    (hwritten : Written fs h i (fs.stop h nbytes) ino fs')
    (hst : Stores fs h i buf (fs.stop h nbytes) ino fs')
    (hinv : Sound (fs'.putInode i ino) ∧ NoHoles (fs'.putInode i ino) ∧
      NoLeaks (fs'.putInode i ino)) :
    Shows (fs'.putInode i ino) ((a.setContent i (a.written i o (buf.take nbytes.toNat))).setHandle h
      (some (i, o + nbytes.toNat))) := by
  obtain ⟨hnum, hoffset, hinside⟩ := hshows.handle hh
  have hd := hshows.flat
  have hw := hwritten.toWriting
  have ht := hd.tidy (i := i) (by omega)
  have hself : (fs'.putInode i ino).inode i = ino := Fs.inode_putInode_self (hw.fits ht)
  have hother {j : Fin numInodes} (hj : j ≠ i) : (fs'.putInode i ino).inode j = fs.inode j := by
    rw [Fs.inode_putInode_of_ne (hw.fits ht) hj, hw.inode]
  have hnames := hw.sameNames_putInode hshows.sound
  have hcontent := hshows.content_wrote hh hbytes hspace hbuf hw hst
  set b := (a.setContent i (a.written i o (buf.take nbytes.toNat))).setHandle h
    (some (i, o + nbytes.toNat)) with hb
  refine ⟨hinv.1, hinv.2.1, hinv.2.2, fun j f hf => ?_, fun j hj => ?_,
    fun j j' f f' hf hf' heq => ?_, fun h' j p hp => ?_, fun h' hp => ?_⟩
  · obtain ⟨f', hf', hname⟩ := name_setContent hf
    obtain ⟨hcarries, hshort, hold⟩ := hshows.file j f' hf'
    rw [hname]
    refine ⟨(hnames.carries_iff j f'.name).mpr hcarries, hshort, ?_⟩
    by_cases hj : j = i
    · rw [hj, hself, hcontent]
      rw [hj] at hf
      have hfile := (file_setContent_self _).symm.trans hf
      obtain ⟨f'', -, rfl⟩ := Option.map_eq_some_iff.mp hfile
      rfl
    · rw [hother hj, content_putInode, content_other hd (by omega) hw hj, hold]
      have hfile := (file_setContent_of_ne hj).symm.trans hf
      rw [hf'] at hfile
      cases hfile
      rfl
  · have hnone : a.file j = none := by
      have hold := (isSome_setContent _ j).symm.trans (congrArg Option.isSome hj)
      simpa using hold
    rw [hnames.inodeFreelist]
    exact hshows.vacant j hnone
  · obtain ⟨g, hg, hname⟩ := name_setContent hf
    obtain ⟨g', hg', hname'⟩ := name_setContent hf'
    exact hshows.unique j j' g g' hg hg' (hname.symm.trans (heq.trans hname'))
  · have hsome : (b.file j).isSome = (a.file j).isSome := isSome_setContent _ j
    rw [Fs.handles_putInode, hsome]
    by_cases hh' : h' = h
    · have hposition : b.handle h' = some (i, o + nbytes.toNat) := by
        rw [hh']
        exact Function.update_self ..
      rw [hposition] at hp
      cases hp
      have hstop := hwritten.offset
      rw [Fs.stop, max_eq_left hbytes, hoffset] at hstop
      refine ⟨?_, (hshows.opened h i o hh).2⟩
      calc fs'.handles h' = ⟨(fs'.handles h).offset, (fs'.handles h).inodeNumber⟩ := by rw [hh']
        _ = ⟨((o + nbytes.toNat : Nat) : Int), i.val⟩ := by
            rw [hstop, hw.number, Nat.cast_add, Int.toNat_of_nonneg hbytes]
    · have hposition : b.handle h' = a.handle h' := Function.update_of_ne hh' ..
      rw [hposition] at hp
      rw [hw.others h' hh']
      exact hshows.opened h' j p hp
  · have hh' : h' ≠ h := by
      rintro rfl
      have hposition : b.handle h' = some (i, o + nbytes.toNat) := Function.update_self ..
      rw [hposition] at hp
      cases hp
    have hposition : b.handle h' = a.handle h' := Function.update_of_ne hh' ..
    rw [hposition] at hp
    rw [Fs.handles_putInode, hw.others h' hh']
    exact hshows.closed h' hp

theorem write (hshows : Shows fs a) {buf : List UInt8} {hbuf : nbytes ≤ buf.length}
    (hok : a.Orderly (.write h buf nbytes hbuf)) :
    ∃ fs', Ssufs.write h buf nbytes fs = .ok (a.write h buf nbytes).1.1 fs' ∧
      (a.write h buf nbytes).1.2 = [] ∧ Shows fs' (a.write h buf nbytes).2 := by
  have ⟨hbytes, hroom⟩ := hok
  cases hh : a.handle h with
  | none =>
      simp only [FlatFs.write, hh]
      exact ⟨fs, write_run_closed buf nbytes (hshows.closed h hh), trivial, hshows⟩
  | some position =>
      obtain ⟨i, o⟩ := position
      obtain ⟨hnum, hoffset, hinside⟩ := hshows.handle hh
      rw [hh] at hroom
      have hlength := hshows.length_content i
      have hblocks := hshows.blocks
      simp only [FlatFs.write, hh]
      by_cases hspace : o + nbytes ≤ 256
      · have hadmits : fs.Admits h i nbytes := ⟨hnum, by unfold blocksize; omega⟩
        have hmissing := hshows.card_missing hh hbytes hspace
        rcases write_run_admitted (hshows.flat.tidy (by omega)) (by omega) hadmits buf with
          ⟨ino, fs', hwritten, hst, hrun⟩ | ⟨p, ino, fs', hex, hrun⟩
        · have hle := hwritten.toWriting.card_missing_le
          rw [if_pos ⟨hspace, by omega⟩]
          have hinv := hshows.effect hok (.write h buf nbytes hbuf i ino fs' hadmits hwritten)
          exact ⟨_, hrun, rfl, hshows.wrote hh hbytes hspace hbuf hwritten hst hinv⟩
        · -- the disk is full, and the write starts with a block that is missing
          have hlt := hex.card_lt
          rw [if_neg (by omega)]
          rcases hroom hspace with hfits | ⟨hfull, hend⟩
          · omega
          · have hpos : 0 < nbytes := by
              have hbefore := hex.before
              have hstart := hex.start
              unfold Fs.stop at hbefore
              omega
            have hstuck : fs.Stuck h i := by
              refine ⟨Finset.card_eq_zero.mp (by omega), ?_⟩
              obtain ⟨k, hk⟩ := exists_block (o := o) (by omega)
                (by unfold blocksize maxFileSize; omega)
              refine ⟨k, by rw [hoffset, hk], ?_⟩
              by_contra hpresent
              have hbefore := ((hshows.flat.dense i).present k).mp hpresent
              rw [← hlength, ← hend, hk] at hbefore
              omega
            exact ⟨fs, write_stuck hadmits hstuck buf hpos, rfl, hshows⟩
      · rw [if_neg fun hfits => hspace hfits.1]
        exact ⟨fs, write_run_refused hnum (by unfold blocksize; omega) buf, rfl, hshows⟩

/-! ## Runs -/

/-- One call. -/
theorem step (hshows : Shows fs a) (hok : a.Orderly c) :
    ∃ fs', c.reply fs = .ok (a.exec c).1 fs' ∧ Shows fs' (a.exec c).2 := by
  have hreply {r : Int} {rs : List UInt8} {reply : Reply} (hr : reply.1 = r) (hrs : reply.2 = rs) :
      (r, rs) = reply := by rw [← hr, ← hrs]
  cases c with
  | create filename =>
      obtain ⟨fs', hrun, hshows'⟩ := hshows.create hok
      refine ⟨fs', (bind_ok hrun).trans ?_, hshows'⟩
      have hbytes : (a.create filename).1.2 = [] := by
        unfold FlatFs.create
        split
        · rfl
        · rfl
      exact congrArg (EStateM.Result.ok · fs') (hreply rfl hbytes)
  | delete filename =>
      obtain ⟨fs', hrun, hreply, hshows'⟩ := hshows.delete hok
      refine ⟨fs', (bind_ok hrun).trans ?_, hshows'⟩
      exact congrArg (EStateM.Result.ok · fs') hreply.symm
  | «open» filename =>
      obtain ⟨fs', hrun, hbytes, hshows'⟩ := hshows.open hok
      exact ⟨fs', (bind_ok hrun).trans (congrArg (EStateM.Result.ok · fs') (hreply rfl hbytes)),
        hshows'⟩
  | close h => exact ⟨_, rfl, hshows.close h⟩
  | read h nbytes => exact hshows.read hok
  | write h buf nbytes hbuf =>
      obtain ⟨fs', hrun, hbytes, hshows'⟩ := hshows.write hok
      exact ⟨fs', (bind_ok hrun).trans (congrArg (EStateM.Result.ok · fs') (hreply rfl hbytes)),
        hshows'⟩
  | lseek h nseek =>
      obtain ⟨fs', hrun, hbytes, hshows'⟩ := hshows.lseek hok
      exact ⟨fs', (bind_ok hrun).trans (congrArg (EStateM.Result.ok · fs') (hreply rfl hbytes)),
        hshows'⟩

theorem run (hshows : Shows fs a) {calls : List Call} (hok : a.OrderlyRun calls) :
    ∃ fs', replies fs calls = some (a.replies calls, fs') := by
  induction calls generalizing fs a with
  | nil => exact ⟨fs, rfl⟩
  | cons c calls ih =>
      obtain ⟨fs₁, hrun, hshows₁⟩ := hshows.cleared.step hok.1
      obtain ⟨fs', hrest⟩ := ih hshows₁ hok.2
      refine ⟨fs', ?_⟩
      rw [replies, hrun]
      simp only [hrest, Option.map_some, FlatFs.replies]

end Shows

/-- From a formatted disk on, whatever uninitialised memory holds, every sequence of orderly
calls returns, and with the replies of the flat file system. -/
theorem ssufs_flat (junk : Nat → UInt8) (calls : List Call)
    (hok : FlatFs.empty.OrderlyRun calls) :
    ∃ fs, replies (formatDisk junk) calls = some (FlatFs.empty.replies calls, fs) :=
  (Shows.start junk).run hok

/-- Two files, one of them deleted; what is read back is what was written, and zeros behind it. -/
def twoFiles : List Call :=
  [.create fileA, .create fileB, .open fileA, .open fileB,
    .write 1 (List.replicate 70 7) 70 (by simp), .lseek 1 (-10), .read 1 20, .close 0,
    .delete fileA, .open fileA, .read 0 1]

theorem ssufs_flat_twoFiles :
    ∃ fs, replies (formatDisk fun _ => 0) twoFiles = some
      ([(0, []), (1, []), (0, []), (1, []), (0, []), (0, []),
        (0, List.replicate 10 7 ++ List.replicate 10 0), (0, []), (0, []), (-1, []), (-1, [])],
        fs) := by
  have hreplies : FlatFs.empty.replies twoFiles =
      [(0, []), (1, []), (0, []), (1, []), (0, []), (0, []),
        (0, List.replicate 10 7 ++ List.replicate 10 0), (0, []), (0, []), (-1, []), (-1, [])] := by
    decide +kernel
  rw [← hreplies]
  exact ssufs_flat (fun _ => 0) twoFiles (by decide +kernel)

end Os20.Ssufs
