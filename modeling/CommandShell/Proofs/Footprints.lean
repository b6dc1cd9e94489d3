import CommandShell.Proofs.Actions
import CommandShell.Proofs.LexicalWalks

/-!
# What requests leave alone

Every request changes little: it writes the file that its path leads to, removes one entry, or adds
directories. No request makes a symbolic link, also when it is refused halfway.

## Main definitions

* `Disk.Spares`: nothing is lost of a disk but some files and some directories, and no link is new.
* `Disk.Opens`: where the file lies that is opened by a path.
* `Disk.touched` and `Disk.dropped`: the files and the directories that a request may cost.

## Main results

* `Disk.copyEntries_induction`: what making directories and copying single files keep, copying a
  tree keeps;
* `Disk.spares_answer`: what is lost by a request;
* `Disk.Plain.spares_copyTree`: without links a copied tree costs only files in its target.
-/

namespace CommandShell

namespace Disk

variable {d : Disk} {host : Host} {format : Archive.Format}

/-! ## Sparing -/

/-- Files, devices and links are lost or changed at most at some locations and directories lost at
most at others, and no link is new. -/
structure Spares (touched dropped : Location → Prop) (d changed : Disk) : Prop where
  /-- A link was there before. -/
  link : ∀ {location target},
    changed.get? location = some (.link target) → d.get? location = some (.link target)
  /-- What is no directory stays as it is. -/
  entry : ∀ {location entry}, d.get? location = some entry → entry ≠ .directory →
    touched location ∨ changed.get? location = some entry
  /-- A directory stays. -/
  directory : ∀ {location}, d.get? location = some .directory →
    dropped location ∨ changed.get? location = some .directory

/-- Nowhere at all. -/
def nowhere (_ : Location) : Prop := False

/-- Wherever it may be. -/
def anywhere (_ : Location) : Prop := True

namespace Spares

variable {touched dropped : Location → Prop} {changed : Disk}

/-- A disk spares itself. -/
theorem refl (d : Disk) : Spares touched dropped d d :=
  ⟨id, fun hget _ => .inr hget, .inr⟩

/-- Sparing twice is sparing. -/
theorem trans {middle : Disk} (h : Spares touched dropped d middle)
    (hmore : Spares touched dropped middle changed) : Spares touched dropped d changed where
  link hget := h.link (hmore.link hget)
  entry hget hne := (h.entry hget hne).elim .inl fun hkept => hmore.entry hkept hne
  directory hget := (h.directory hget).elim .inl hmore.directory

/-- What is lost only here is lost only there. -/
theorem mono {touched' dropped' : Location → Prop} (h : Spares touched dropped d changed)
    (htouched : ∀ location, touched location → touched' location)
    (hdropped : ∀ location, dropped location → dropped' location) :
    Spares touched' dropped' d changed where
  link := h.link
  entry hget hne := (h.entry hget hne).imp_left (htouched _)
  directory hget := (h.directory hget).imp_left (hdropped _)

/-- Without links before there are none after. -/
theorem plain (h : Spares touched dropped d changed) (hplain : d.Plain) : changed.Plain :=
  fun location target hget => hplain location target (h.link hget)

end Spares

/-- A disk that grows loses nothing. -/
theorem Grows.spares {grown : Disk} (h : d.Grows grown) : Spares nowhere nowhere d grown where
  link hget := (h.eq_or_directory hget).elim id fun hnew => by cases hnew.2
  entry hget _ := .inr (h.get? hget)
  directory hget := .inr (h.get? hget)

/-- Putting a file costs at most what lies there, unless that is a directory. -/
theorem spares_put (location : Location) (bytes : Bytes) :
    Spares (· = location) nowhere d (d.put location (.file bytes)) := by
  by_cases haccepts : d.Accepts location (.file bytes)
  · -- No directory is replaced, and away from the location nothing changes.
    have hget := get?_put haccepts
    constructor
    · intro other target hlink
      rw [hget] at hlink
      split at hlink
      · cases hlink
      · exact hlink
    · intro other entry hold _
      rw [hget]
      split
      · next he => exact .inl he
      · exact .inr hold
    · intro other hdir
      rw [hget]
      split
      · next he =>
        rcases haccepts.2.2 with hnone | ⟨hnot, -⟩
        · exact absurd (he ▸ hdir) (by simp [hnone])
        · exact absurd (he ▸ hdir) hnot
      · exact .inr hdir
  · rw [put, dif_neg haccepts]
    exact .refl d

/-- Removing costs at most what lies there. -/
theorem spares_remove (location : Location) :
    Spares (fun other => other = location ∧ d.get? location ≠ some .directory)
      (fun other => other = location ∧ d.get? location = some .directory)
      d (d.remove location) := by
  by_cases hremovable : d.Removable location
  · have hget := get?_remove hremovable
    constructor
    · intro other target hlink
      rw [hget] at hlink
      split at hlink
      · cases hlink
      · exact hlink
    · intro other entry hold hne
      rw [hget]
      split
      · next he => exact .inl ⟨he, by rw [← he, hold]; simpa using hne⟩
      · exact .inr hold
    · intro other hdir
      rw [hget]
      split
      · next he => exact .inl ⟨he, he ▸ hdir⟩
      · exact .inr hdir
  · rw [remove, dif_neg hremovable]
    exact .refl d

/-! ## Files -/

/-- Where the file lies, or will lie, that is opened by a path. -/
def Opens (d : Disk) (p : Path) (location : Location) : Prop :=
  ∃ spot, d.walk .makeFile p = .ok spot ∧ spot.location = location

/-- Opening a file makes it at most, at the location that its path leads to. -/
theorem spares_openFile {p : Path} {location : Location} {opened : Disk}
    (h : d.openFile p = .ok (location, opened)) :
    d.Opens p location ∧ Spares nowhere nowhere d opened := by
  unfold openFile at h
  cases hwalk : d.walk .makeFile p with
  | error refusal => simp [hwalk, bind, Except.bind] at h
  | ok spot =>
    cases spot with
    | vacant above name =>
      simp only [hwalk, bind, Except.bind, Except.ok.injEq, Prod.mk.injEq] at h
      obtain ⟨rfl, rfl⟩ := h
      obtain ⟨-, hnone⟩ := (ends_of_walkLinks (walk_eq_ok hwalk).2).of_vacant
      refine ⟨⟨_, hwalk, rfl⟩, ?_⟩
      have hput := spares_put (d := d) (name :: above) []
      -- Nothing lies where the file is made.
      exact {
        link := hput.link
        entry := fun hget hne => (hput.entry hget hne).imp_left fun he => by
          simp [he, hnone] at hget
        directory := hput.directory }
    | found found =>
      simp only [hwalk, bind, Except.bind] at h
      split at h
      · cases h
      · simp only [Except.ok.injEq, Prod.mk.injEq] at h
        obtain ⟨rfl, rfl⟩ := h
        exact ⟨⟨_, hwalk, rfl⟩, .refl d⟩

/-- Writing at a location costs at most the file there. -/
theorem spares_writeAt (d : Disk) (location : Location) (bytes : Bytes) (mode : WriteMode)
    (host : Host) : Spares (· = location) nowhere d (d.writeAt location bytes mode host).2 := by
  rcases d.writeAt_cases location bytes mode host with ⟨old, part, -, -, hput, -⟩ | ⟨-, hsame⟩
  · rw [hput]
    exact spares_put location _
  · rw [hsame]
    exact .refl d

/-- Opening a file and then doing what costs at most that file. -/
theorem Spares.of_openFile {p : Path} {location : Location} {opened changed : Disk}
    (hopen : d.openFile p = .ok (location, opened))
    (h : Spares (· = location) nowhere opened changed) :
    Spares (d.Opens p) nowhere d changed := by
  obtain ⟨hopens, hopened⟩ := spares_openFile hopen
  refine .trans (hopened.mono (fun _ => False.elim) fun _ => id) (h.mono ?_ fun _ => id)
  rintro _ rfl
  exact hopens

/-- Writing a file costs at most that file, also when the write fails. -/
theorem spares_write (p : Path) (bytes : Bytes) (mode : WriteMode) :
    Spares (d.Opens p) nowhere d (d.write p bytes mode host).2 := by
  unfold write
  split
  · exact .refl d
  · next location opened hopen =>
    rw [finishing_snd]
    exact .of_openFile hopen (opened.spares_writeAt location bytes mode host)

/-- Writing a file costs at most that file. -/
theorem spares_writeFile (p : Path) (bytes : Bytes) (mode : WriteMode) :
    Spares (d.Opens p) nowhere d (d.writeFile p bytes mode host).2 := by
  unfold writeFile
  split
  · exact .refl d
  · next location opened hopen =>
    exact .of_openFile hopen (opened.spares_writeAt location bytes mode host)

/-- Copying to an opened file costs at most that file. -/
theorem spares_transfer (d : Disk) (origin location : Location) (host : Host) :
    Spares (· = location) nowhere d (d.transfer origin location host).2 := by
  unfold transfer
  split
  · exact .refl d
  · next bytes _ =>
    have hspares := d.spares_writeAt location bytes .truncate host
    split
    · next copied hwrite => rwa [hwrite] at hspares
    · next refusal left hwrite => rwa [hwrite] at hspares

/-- Copying a file costs at most the file that is its target, also when the copying fails. -/
theorem spares_copyFile (source target : Path) :
    Spares (d.Opens target) nowhere d (d.copyFile source target host).2 := by
  unfold copyFile
  split
  · exact .refl d
  · split
    · split
      · exact .refl d
      · next origin _ _ _ location opened hopen =>
        -- The target is emptied and then written.
        exact .of_openFile hopen ((opened.spares_writeAt location [] .truncate _).trans
          (spares_transfer _ origin location host))
    · exact .refl d

/-! ## Trees -/

/-- Making the target of a tree is making directories, or nothing. -/
theorem makeTarget_eq (d : Disk) (target : Path) :
    (d.makeTarget target).2 = d ∨ (d.makeTarget target).2 = (d.makeDirectories target).2 := by
  unfold makeTarget
  split
  · exact .inl rfl
  · split
    · next hmade => exact .inr (by rw [hmade])
    · next hmade => exact .inr (by rw [hmade])

/-- Copying the entries of a directory makes directories and copies files, one after the other, with
targets below that of the directory. What holds of each of these changes, and of changes put
together, holds of the whole. -/
theorem copyEntries_induction (R : Disk → Disk → Prop) (hrefl : ∀ a, R a a)
    (htrans : ∀ {a b c}, R a b → R b c → R a c) (below : Path → Prop)
    (hchild : ∀ {target} name, below target → below (target.child name))
    (hmake : ∀ {now target}, below target → R now (now.makeDirectories target).2)
    (hcopy : ∀ {now source target}, below target → R now (now.copyFile source target host).2)
    {source target : Path} (htarget : below target) (names : List FileName) :
    R d (d.copyEntries source target names host).2 := by
  have hready : ∀ now {target}, below target → R now (now.makeTarget target).2 := by
    intro now target htarget
    rcases now.makeTarget_eq target with he | he
    · rw [he]
      exact hrefl now
    · rw [he]
      exact hmake htarget
  fun_induction copyEntries d source target names host with
  | case1 => exact hrefl _
  | case2 now _ target name _ _ _ made hmade =>
    have hfirst := hready now (hchild name htarget)
    rwa [hmade] at hfirst
  | case3 now _ target name _ _ made hmade =>
    have hfirst := hready now (hchild name htarget)
    rwa [hmade] at hfirst
  | case4 now _ target name _ _ made hmade _ _ _ copied hcopied ih =>
    have hfirst := hready now (hchild name htarget)
    have hinner := ih (hchild name htarget)
    rw [hmade] at hfirst
    rw [hcopied] at hinner
    exact htrans hfirst hinner
  | case5 now _ target name _ _ made hmade _ _ copied hcopied ihinner ihrest =>
    -- First the directory, then what it holds, and then the entries behind it.
    have hfirst := hready now (hchild name htarget)
    have hinner := ihinner (hchild name htarget)
    rw [hmade] at hfirst
    rw [hcopied] at hinner
    exact htrans (htrans hfirst hinner) (ihrest htarget)
  | case6 now source target name _ _ _ left hfile =>
    have hfirst : R now (now.copyFile (source.child name) (target.child name) host).2 :=
      hcopy (hchild name htarget)
    rwa [hfile] at hfirst
  | case7 now source target name _ _ _ copied hfile ih =>
    have hfirst : R now (now.copyFile (source.child name) (target.child name) host).2 :=
      hcopy (hchild name htarget)
    rw [hfile] at hfirst
    exact htrans hfirst (ih htarget)

/-- Copying a tree changes nothing, or makes the target at most, or copies entries after that. -/
theorem held_copyTree (d : Disk) (source target : Path) :
    (d.copyTree source target host).2 = d ∨
      (d.copyTree source target host).2 = (d.makeTarget target).2 ∨
        ∃ made names, d.makeTarget target = (.ok (), made) ∧
          (d.copyTree source target host).2 = (made.copyEntries source target names host).2 := by
  unfold copyTree
  split
  · exact .inl rfl
  · split
    · exact .inl rfl
    · split
      · exact .inl rfl
      · split
        · exact .inl rfl
        · split
          · next hmade => exact .inr (.inl (by rw [hmade]))
          · next made hmade =>
            split
            · exact .inr (.inl (by rw [hmade]))
            · exact .inr (.inr ⟨made, _, hmade, rfl⟩)

/-- The same of a whole tree. -/
theorem copyTree_induction (R : Disk → Disk → Prop) (hrefl : ∀ a, R a a)
    (htrans : ∀ {a b c}, R a b → R b c → R a c) (below : Path → Prop)
    (hchild : ∀ {target} name, below target → below (target.child name))
    (hmake : ∀ {now target}, below target → R now (now.makeDirectories target).2)
    (hcopy : ∀ {now source target}, below target → R now (now.copyFile source target host).2)
    (source : Path) {target : Path} (htarget : below target) :
    R d (d.copyTree source target host).2 := by
  have hready : R d (d.makeTarget target).2 := by
    rcases d.makeTarget_eq target with he | he
    · rw [he]
      exact hrefl d
    · rw [he]
      exact hmake htarget
  rcases d.held_copyTree source target with he | he | ⟨made, names, hmade, he⟩
  · rw [he]
    exact hrefl d
  · rwa [he]
  · rw [he]
    rw [hmade] at hready
    exact htrans hready
      (copyEntries_induction R hrefl htrans below hchild hmake hcopy htarget names)

/-- A tree is copied when its target can be made and what it holds by then can be copied. -/
theorem copyTree_eq_ok {source target : Path} {copied : Disk}
    (h : d.copyTree source target host = (.ok (), copied)) :
    ∃ made names, d.makeTarget target = (.ok (), made) ∧ made.names source = .ok names ∧
      made.copyEntries source target names host = (.ok (), copied) := by
  unfold copyTree at h
  split at h
  · cases h
  · split at h
    · cases h
    · split at h
      · cases h
      · split at h
        · cases h
        · split at h
          · cases h
          · next made hmade =>
            split at h
            · cases h
            · next names hnames => exact ⟨made, names, hmade, hnames, h⟩

/-- Copying a tree costs files at most. -/
theorem spares_copyTree (source target : Path) :
    Spares anywhere nowhere d (d.copyTree source target host).2 := by
  refine copyTree_induction (Spares anywhere nowhere) .refl .trans (fun _ => True)
    (fun _ => id) (fun _ => ?_) (fun _ => ?_) source trivial
  · exact (grows_makeDirectories _ _).spares.mono (fun _ => False.elim) fun _ => id
  · exact (spares_copyFile _ _).mono (fun _ _ => trivial) fun _ => id

/-- Without links copying a tree costs only files in its target. -/
theorem Plain.spares_copyTree (hplain : d.Plain) (source target : Path) :
    Spares (fun location => location.path.isWithin (Path.root.join target) = true) nowhere d
      (d.copyTree source target host).2 := by
  -- All targets on the way are folded on top of the first one.
  refine copyTree_induction (fun now changed => now.Plain →
      Spares (fun location => location.path.isWithin (Path.root.join target) = true) nowhere
        now changed)
    (fun now _ => .refl now) (fun h hmore hnow => (h hnow).trans (hmore ((h hnow).plain hnow)))
    (fun place => target.folded <:+ place.folded) (fun name hbelow => ?_) (fun _ _ => ?_)
    (fun hbelow hnow => ?_) source (List.suffix_refl _) hplain
  · rw [Path.child, Path.folded_join_name _ (Path.isName_of_legal name.legal)]
    exact hbelow.trans (List.suffix_cons _ _)
  · exact (grows_makeDirectories _ _).spares.mono (fun _ => False.elim) fun _ => id
  · refine (spares_copyFile _ _).mono ?_ fun _ => id
    rintro _ ⟨spot, hwalk, rfl⟩
    refine Path.isWithin_iff.2 ?_
    rw [hnow.map_bytes_of_walkSteps (walk_eq_ok hwalk).2, Step.foldl_fold_steps]
    exact hbelow

/-! ## Requests -/

/-- The files that a request may cost. -/
def touched (d : Disk) : {α : Type} → Request α → Location → Prop
  | _, .write p _ _ => d.Opens p
  | _, .store p _ => d.Opens p
  | _, .copyFile _ p => d.Opens p
  | _, .copyTree _ _ => anywhere
  | _, .removeFile p => fun location => d.find .useLink p = .ok location
  | _, _ => nowhere

/-- The directories that a request may cost. -/
def dropped (d : Disk) : {α : Type} → Request α → Location → Prop
  | _, .removeDirectory p => fun location =>
    d.walkSteps .useLink (Step.dropSlash p.steps) = .ok (.found location) ∧
      d.children location = []
  | _, _ => nowhere

/-- Looking leaves a disk as it is. -/
theorem held_looking {α : Type} (d : Disk) (attempt : Attempt) (p : Path)
    (result : Except Refusal α) : (d.looking attempt p result).2 = d := by
  cases result <;> rfl

/-- What lies at a path is told by looking there. -/
theorem answer_kindOf (d : Disk) (p : Path) :
    (files host format).answer (.kindOf p) d =
      d.looking .stat p ((d.lookAt p).map kindOfEntry) := rfl

/-- What lies in a directory is told by listing it. -/
theorem answer_list (d : Disk) (p : Path) :
    (files host format).answer (.list p) d = d.looking .access p (d.listing p) := rfl

/-- A directory is removed from the disk. -/
theorem answer_removeDirectory (d : Disk) (p : Path) :
    (files host format).answer (.removeDirectory p) d =
      d.changing .removeDirectory p (d.removeDirectory p) := rfl

/-- Directories are made as far as they can be. -/
theorem answer_makeDirectories (d : Disk) (p : Path) :
    (files host format).answer (.makeDirectories p) d =
      match d.makeDirectories p with
      | (.ok (), made) => (.ok (), made)
      | (.error refusal, made) =>
        (.error (.failed (.refused .makeDirectory p refusal)), made) := rfl

/-- A canonical path is told by looking for it. -/
theorem answer_canonical (d : Disk) (p : Path) :
    (files host format).answer (.canonical p) d = d.looking .resolve p (d.canonical p) := rfl

/-- A request that only looks leaves a disk as it is. -/
theorem held_answer_of_looks {α : Type} {r : Request α} (h : r.Looks) (d : Disk)
    (host : Host := .reliable) (format : Archive.Format := Archive.zip) :
    (d.answer r host format).2 = d := by
  cases r with
  | list | kindOf | read | canonical => exact held_looking d _ _ _
  | isPresent => rfl
  | members archive =>
    simp only [answer, unpackArchive]
    split
    · rfl
    · split
      · rfl
      · split <;> rfl
  | _ => cases h

/-- The request to copy a tree leaves what the copying leaves. -/
theorem held_answer_copyTree (d : Disk) (source target : Path) (host : Host := .reliable)
    (format : Archive.Format := Archive.zip) :
    (d.answer (.copyTree source target) host format).2 = (d.copyTree source target host).2 := by
  rw [answer]
  split
  · next h => rw [h]
  · next h => rw [h]

/-- What a changing call spares the request spares, also when the call is refused. -/
theorem Spares.changing {touched dropped : Location → Prop} {attempt : Attempt} {p : Path}
    {result : Except Refusal Disk}
    (h : ∀ changed, result = .ok changed → Spares touched dropped d changed) :
    Spares touched dropped d (d.changing attempt p result).2 := by
  cases result with
  | ok changed => exact h changed rfl
  | error => exact .refl d

/-- A directory is removed where the path leads, links at its end left alone, and where nothing
lies in it. -/
theorem removeDirectory_eq_ok {p : Path} {removed : Disk} (h : d.removeDirectory p = .ok removed) :
    ∃ location, d.walkSteps .useLink (Step.dropSlash p.steps) = .ok (.found location) ∧
      d.get? location = some .directory ∧ d.children location = [] ∧
      removed = d.remove location := by
  unfold removeDirectory at h
  cases hcheck : checkPath p with
  | error refusal => simp [hcheck, bind, Except.bind] at h
  | ok =>
    simp only [hcheck, bind, Except.bind] at h
    split at h
    · cases h
    · cases hwalk : d.walkSteps .useLink (Step.dropSlash p.steps) with
      | error refusal => simp [hwalk] at h
      | ok spot =>
        simp only [hwalk] at h
        split at h
        · cases h
        · next location =>
          split at h
          · cases h
          · split at h
            · cases h
            · next hdir hempty =>
              cases h
              exact ⟨location, rfl, Decidable.not_not.1 hdir, Decidable.not_not.1 hempty, rfl⟩
    · -- Behind `.` and `..` every outcome is a refusal.
      split at h
      · cases h
      · split at h
        · cases h
        · split at h <;> cases h

/-- Removing a file costs what the path leads to, links at its end left alone. -/
theorem spares_removeFile {p : Path} {removed : Disk} (h : d.removeFile p = .ok removed) :
    Spares (fun location => d.find .useLink p = .ok location) nowhere d removed := by
  unfold removeFile at h
  cases hfind : d.find .useLink p with
  | error refusal => simp [hfind, bind, Except.bind] at h
  | ok location =>
    simp only [hfind, bind, Except.bind] at h
    split at h
    · cases h
    · next hnot =>
      cases h
      refine (spares_remove location).mono ?_ fun _ hdir => hnot hdir.2
      rintro _ ⟨rfl, -⟩
      rfl

/-- Removing a directory costs that directory, in which nothing lies. -/
theorem spares_removeDirectory {p : Path} {removed : Disk}
    (h : d.removeDirectory p = .ok removed) :
    Spares nowhere (fun location =>
      d.walkSteps .useLink (Step.dropSlash p.steps) = .ok (.found location) ∧
        d.children location = []) d removed := by
  obtain ⟨location, hwalk, hdir, hempty, rfl⟩ := removeDirectory_eq_ok h
  refine (spares_remove location).mono (fun _ hnot => hnot.2 hdir) ?_
  rintro _ ⟨rfl, -⟩
  exact ⟨hwalk, hempty⟩

/-- A copy costs the file that its target opens, also when the machine breaks it off. -/
theorem spares_copy (d : Disk) (source target : Path) :
    Spares (d.Opens target) nowhere d (d.copy source target host).2 := by
  have hspares : Spares (d.Opens target) nowhere d (d.copyFile source target host).2 :=
    d.spares_copyFile source target
  unfold copy
  split
  · exact .refl d
  · split
    · next h => rwa [h] at hspares
    · next h =>
      rw [h] at hspares
      split <;> exact hspares

/-- An archive costs the file that its path opens, also when the machine breaks its write off. -/
theorem spares_store (d : Disk) (archive : Path) (sources : List Source) :
    Spares (d.Opens archive) nowhere d (d.store archive sources host format).2 := by
  unfold store
  split
  · exact .refl d
  · split
    · exact .refl d
    · next bytes _ =>
      -- Nothing is touched before all members are collected and encoded.
      have hspares :
          Spares (d.Opens archive) nowhere d (d.writeFile archive bytes .truncate host).2 :=
        d.spares_writeFile archive bytes .truncate
      split
      · next h => rwa [h] at hspares
      · next h => rwa [h] at hspares

/-- What is lost by a request. -/
theorem spares_answer {α : Type} (d : Disk) (r : Request α) (host : Host := .reliable)
    (format : Archive.Format := Archive.zip) :
    Spares (d.touched r) (d.dropped r) d (d.answer r host format).2 := by
  by_cases hlooks : r.Looks
  · rw [held_answer_of_looks hlooks d host format]
    exact .refl d
  cases r with
  | list | kindOf | isPresent | read | canonical | members => exact absurd trivial hlooks
  | write p bytes mode => exact spares_write p bytes mode
  | touch p =>
    rw [answer, touch]
    split
    · exact .refl d
    · next hopen => split <;> exact (spares_openFile hopen).2
  | makeDirectory p => exact .changing fun changed h => (grows_makeDirectory h).spares
  | makeDirectories p =>
    have hgrows := (d.grows_makeDirectories p).spares
    rw [answer]
    split
    · next h => rwa [h] at hgrows
    · next h => rwa [h] at hgrows
  | removeFile p => exact .changing fun changed h => spares_removeFile h
  | removeDirectory p => exact .changing fun changed h => spares_removeDirectory h
  | copyFile source target => exact d.spares_copy source target
  | copyTree source target =>
    rw [held_answer_copyTree d source target host format]
    exact spares_copyTree source target
  | store archive sources => exact d.spares_store archive sources

/-- No request makes a link. -/
theorem link_of_answer {α : Type} (d : Disk) (r : Request α) (host : Host := .reliable)
    (format : Archive.Format := Archive.zip) :
    Spares anywhere anywhere d (d.answer r host format).2 :=
  (d.spares_answer r host format).mono (fun _ _ => trivial) fun _ _ => trivial

end Disk

end CommandShell
