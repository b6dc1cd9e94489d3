import CommandShell.Proofs.Walks
import CommandShell.Storage.OnDisk

/-!
# What calls change

Each call that changes a disk changes one location, except making directories with those above them,
which adds directories only.

## Main definitions

* `Spot.location`: the location that a spot is.
* `Disk.ChangesBelow`: two disks differ at most below a location.
* `Disk.KeepsLinks`: a disk has the links of another one, its directories, and something wherever
  that one has something.

## Main results

* `Disk.makeDirectory_eq_ok`: a directory is made where nothing was, in a directory;
* `Disk.grows_makeDirectories`: making directories adds nothing but directories;
* `Disk.get?_write`: writing a file changes the spot that its path leads to;
* `Disk.Leads.keepLinks`: a way stays the way when links and directories stay;
* `Disk.lookAt_writeFile`: a file that was written is read back.
-/

namespace CommandShell

/-- The location that a spot is, whether or not something lies there. -/
def Spot.location : Spot → Location
  | .found location => location
  | .vacant directory name => name :: directory

namespace Disk

variable {d : Disk}

/-! ## Changes below a location -/

/-- Two disks differ at most below a location. -/
def ChangesBelow (base : Location) (d changed : Disk) : Prop :=
  ∀ location, base <:+ location ∨ changed.get? location = d.get? location

namespace ChangesBelow

variable {base : Location}

/-- A disk does not differ from itself. -/
theorem refl (d : Disk) : ChangesBelow base d d := fun _ => .inr rfl

/-- Changes one after the other. -/
theorem trans {middle changed : Disk} (h : ChangesBelow base d middle)
    (hmore : ChangesBelow base middle changed) : ChangesBelow base d changed := by
  intro location
  -- What the second change leaves alone is as the first change left it.
  rcases hmore location with hbelow | hsame
  · exact .inl hbelow
  · exact (h location).imp_right hsame.trans

/-- Putting an entry below the location. -/
theorem put {location : Location} (hbelow : base <:+ location) (entry : Entry) :
    ChangesBelow base d (d.put location entry) := by
  intro other
  by_cases he : other = location
  · exact .inl (he ▸ hbelow)
  · exact .inr (get?_put_of_ne d entry he)

end ChangesBelow

/-! ## Making directories -/

/-- A vacant place accepts every entry. -/
theorem accepts_of_vacant {above : Location} {name : FileName}
    (hdir : d.get? above = some .directory) (hnone : d.get? (name :: above) = none)
    (entry : Entry) : d.Accepts (name :: above) entry :=
  ⟨by simp, hdir, .inl hnone⟩

/-- Putting a directory in a vacant place adds a directory. -/
theorem grows_put {above : Location} {name : FileName} (hdir : d.get? above = some .directory)
    (hnone : d.get? (name :: above) = none) : d.Grows (d.put (name :: above) .directory) := by
  intro location
  rw [get?_put (accepts_of_vacant hdir hnone _)]
  split
  · next he => exact .inr ⟨he ▸ hnone, rfl⟩
  · exact .inl rfl

/-- A directory is made at a vacant place. -/
theorem makeDirectory_eq_ok {p : Path} {made : Disk} (h : d.makeDirectory p = .ok made) :
    checkPath p = .ok () ∧ ∃ above name,
      d.walkSteps .useLink (Step.dropSlash p.steps) = .ok (.vacant above name) ∧
      d.get? above = some .directory ∧ d.get? (name :: above) = none ∧
      made = d.put (name :: above) .directory := by
  unfold makeDirectory at h
  cases hcheck : checkPath p with
  | error refusal => simp [hcheck, bind, Except.bind] at h
  | ok =>
    refine ⟨rfl, ?_⟩
    cases hwalk : d.walkSteps .useLink (Step.dropSlash p.steps) with
    | error refusal => simp [hcheck, hwalk, bind, Except.bind] at h
    | ok spot =>
      cases spot with
      | found location => simp [hcheck, hwalk, bind, Except.bind] at h
      | vacant above name =>
        obtain ⟨hdir, hnone⟩ := (ends_of_walkLinks hwalk).of_vacant
        refine ⟨above, name, rfl, hdir, hnone, ?_⟩
        simpa [hcheck, hwalk, bind, Except.bind, eq_comm] using h

/-- Making one directory adds a directory. -/
theorem grows_makeDirectory {p : Path} {made : Disk} (h : d.makeDirectory p = .ok made) :
    d.Grows made := by
  obtain ⟨-, above, name, -, hdir, hnone, rfl⟩ := makeDirectory_eq_ok h
  exact grows_put hdir hnone

/-- Making directories along a way up makes one directory after the other. What holds of each single
change, and of changes put together, holds of the whole. -/
theorem makeDirectoriesAlong_induction (R : Disk → Disk → Prop) (hrefl : ∀ a, R a a)
    (htrans : ∀ {a b c}, R a b → R b c → R a c) {paths : List Path}
    (hmake : ∀ p ∈ paths, ∀ {now made}, d.Grows now → now.makeDirectory p = .ok made →
      R now made) :
    d.Grows (d.makeDirectoriesAlong paths).2 ∧ R d (d.makeDirectoriesAlong paths).2 := by
  -- The induction is on the paths above the one to be made.
  induction paths with
  | nil => exact ⟨.refl d, hrefl d⟩
  | cons p above ih =>
    obtain ⟨hgrows, hR⟩ := ih fun q hq => hmake q (List.mem_cons_of_mem p hq)
    have hp : ∀ {now made}, d.Grows now → now.makeDirectory p = .ok made → R now made :=
      hmake p List.mem_cons_self
    rw [makeDirectoriesAlong]
    split
    · exact ⟨.refl d, hrefl d⟩
    · split
      · next made hmade => exact ⟨grows_makeDirectory hmade, hp (.refl d) hmade⟩
      · -- The directories above are made first, and then this one.
        split
        · next refusal made hmade =>
          rw [hmade] at hgrows hR
          exact ⟨hgrows, hR⟩
        · next ready hready =>
          rw [hready] at hgrows hR
          split
          · next made hmade =>
            exact ⟨hgrows.trans (grows_makeDirectory hmade), htrans hR (hp hgrows hmade)⟩
          · split <;> exact ⟨hgrows, hR⟩
      · split <;> exact ⟨.refl d, hrefl d⟩

/-- Making directories adds nothing but directories. -/
theorem grows_makeDirectories (d : Disk) (p : Path) : d.Grows (d.makeDirectories p).2 := by
  refine (makeDirectoriesAlong_induction Grows .refl .trans ?_).1
  exact fun _ _ _ _ _ hmade => grows_makeDirectory hmade

/-- Making directories keeps what is there. -/
theorem grows_of_makeDirectories {p : Path} {made : Disk} {result : Except Refusal Unit}
    (h : d.makeDirectories p = (result, made)) : d.Grows made := by
  have hgrows := grows_makeDirectories d p
  rwa [h] at hgrows

/-! ## Writing files -/

/-- Writing to a file leaves a front of what should be written, all of it unless the machine breaks
off; anything but a file stays as it is. -/
theorem writeAt_cases (d : Disk) (location : Location) (bytes : Bytes) (mode : WriteMode)
    (host : Host) :
    (∃ old part, d.get? location = some (.file old) ∧ part <+: bytes ∧
        (d.writeAt location bytes mode host).2 = d.put location (.file (mode.apply old part)) ∧
        ((d.writeAt location bytes mode host).1 = .ok () → part = bytes)) ∨
      ((∀ old, d.get? location ≠ some (.file old)) ∧
        (d.writeAt location bytes mode host).2 = d) := by
  unfold writeAt
  split
  · next old hold =>
    split
    · exact .inl ⟨old, bytes, hold, List.prefix_refl bytes, rfl, fun _ => rfl⟩
    · exact .inl ⟨old, _, hold, List.take_prefix _ bytes, rfl, nofun⟩
  · next kind hkind => exact .inr ⟨by simp [hkind], rfl⟩
  · next hfile _ => exact .inr ⟨hfile, rfl⟩

/-- Writing to the file at a location changes nothing elsewhere. -/
theorem get?_writeAt_of_ne {location other : Location} (bytes : Bytes) (mode : WriteMode)
    (host : Host) (hne : other ≠ location) :
    (d.writeAt location bytes mode host).2.get? other = d.get? other := by
  rcases d.writeAt_cases location bytes mode host with ⟨old, part, -, -, hput, -⟩ | ⟨-, hsame⟩
  · rw [hput, get?_put_of_ne d _ hne]
  · rw [hsame]

/-- Opening a file changes at most the spot that its path leads to. -/
theorem openFile_eq_ok {p : Path} {location : Location} {opened : Disk}
    (h : d.openFile p = .ok (location, opened)) :
    ∃ spot, d.walk .makeFile p = .ok spot ∧ location = spot.location ∧
      ∀ other, other ≠ spot.location → opened.get? other = d.get? other := by
  unfold openFile at h
  cases hwalk : d.walk .makeFile p with
  | error refusal => simp [hwalk, bind, Except.bind] at h
  | ok spot =>
    refine ⟨spot, rfl, ?_⟩
    cases spot with
    | vacant above name =>
      simp only [hwalk, bind, Except.bind, Except.ok.injEq, Prod.mk.injEq] at h
      obtain ⟨rfl, rfl⟩ := h
      exact ⟨rfl, fun other hne => get?_put_of_ne d _ hne⟩
    | found found =>
      simp only [hwalk, bind, Except.bind] at h
      split at h
      · cases h
      · simp only [Except.ok.injEq, Prod.mk.injEq] at h
        obtain ⟨rfl, rfl⟩ := h
        exact ⟨rfl, fun _ _ => rfl⟩

/-- The outcome of a call on an opened file leaves what the call left. -/
@[simp]
theorem finishing_snd {α : Type} (attempt : Attempt) (p : Path)
    (outcome : Except Refusal α × Disk) : (finishing attempt p outcome).2 = outcome.2 := by
  obtain ⟨_ | _, _⟩ := outcome <;> rfl

/-- Writing a file changes at most the spot that its path leads to, also when the write fails. -/
theorem get?_write {p : Path} {bytes : Bytes} {mode : WriteMode} {other : Location} {host : Host}
    (hother : ∀ spot, d.walk .makeFile p = .ok spot → other ≠ spot.location) :
    (d.write p bytes mode host).2.get? other = d.get? other := by
  unfold write
  split
  · rfl
  · next location opened hopen =>
    -- Opening may make the file, writing changes its content, both at the same spot.
    obtain ⟨spot, hwalk, rfl, hopened⟩ := openFile_eq_ok hopen
    have hne := hother spot hwalk
    rw [finishing_snd, get?_writeAt_of_ne bytes mode host hne, hopened other hne]

/-! ## Walks on changed disks -/

/-- A disk has the links of another one and no others, its directories, and something wherever that
one has something. -/
structure KeepsLinks (d kept : Disk) : Prop where
  /-- Links stay, and none is new. -/
  link : ∀ {location target},
    kept.get? location = some (.link target) ↔ d.get? location = some (.link target)
  /-- Directories stay. -/
  directory : ∀ {location},
    d.get? location = some .directory → kept.get? location = some .directory
  /-- Nothing vanishes. -/
  isSome : ∀ {location}, (d.get? location).isSome → (kept.get? location).isSome

namespace KeepsLinks

variable {kept : Disk} {location : Location} {entry : Entry}

/-- A disk keeps its own links. -/
theorem refl (d : Disk) : d.KeepsLinks d := ⟨Iff.rfl, id, id⟩

/-- Keeping links twice is keeping them. -/
theorem trans {middle : Disk} (h : d.KeepsLinks middle) (hmore : middle.KeepsLinks kept) :
    d.KeepsLinks kept where
  link := hmore.link.trans h.link
  directory hdir := hmore.directory (h.directory hdir)
  isSome hsome := hmore.isSome (h.isSome hsome)

/-- Where something lies that is no link, something lies later that is no link. -/
theorem exists_entry (h : d.KeepsLinks kept) (hget : d.get? location = some entry)
    (hlink : ∀ target, entry ≠ .link target) :
    ∃ later, kept.get? location = some later ∧ ∀ target, later ≠ .link target := by
  obtain ⟨later, hlater⟩ := Option.isSome_iff_exists.1 (h.isSome (by rw [hget, Option.isSome_some]))
  refine ⟨later, hlater, ?_⟩
  rintro target rfl
  exact hlink target (Option.some.inj (hget.symm.trans (h.link.1 hlater)))

end KeepsLinks

/-- A disk that grows keeps its links. -/
theorem Grows.keepsLinks {grown : Disk} (h : d.Grows grown) : d.KeepsLinks grown where
  link := by
    refine ⟨fun hget => ?_, fun hget => h.get? hget⟩
    rcases h.eq_or_directory hget with hold | ⟨-, hnew⟩
    · exact hold
    · cases hnew
  directory hdir := h.get? hdir
  isSome hsome := by
    obtain ⟨entry, hentry⟩ := Option.isSome_iff_exists.1 hsome
    rw [h.get? hentry, Option.isSome_some]

/-- Putting a file where no link lies keeps the links. -/
theorem keepsLinks_put {location : Location}
    (hlink : ∀ target, d.get? location ≠ some (.link target)) (bytes : Bytes) :
    d.KeepsLinks (d.put location (.file bytes)) := by
  by_cases haccepts : d.Accepts location (.file bytes)
  · have hget := get?_put haccepts
    refine ⟨fun {other target} => ?_, fun {other} hdir => ?_, fun {other} hsome => ?_⟩
    · rw [hget]
      split
      · next he => simpa [he] using hlink target
      · exact Iff.rfl
    · rw [hget, if_neg, hdir]
      -- No directory is replaced by a file.
      rintro rfl
      rcases haccepts.2.2 with hnone | ⟨hnot, -⟩
      · simp [hdir] at hnone
      · exact hnot hdir
    · rw [hget]
      split
      · rfl
      · exact hsome
  · rw [put, dif_neg haccepts]
    exact .refl d

/-- A way stays the way when links and directories stay. -/
theorem Leads.keepLinks {kept : Disk} {links : Nat} {here there : Location} {steps : List Step}
    (hkeeps : d.KeepsLinks kept) (h : Leads d links here steps there) :
    Leads kept links here steps there := by
  induction h with
  | done => exact .done
  | pass hdir hpast _ ih => exact .pass (hkeeps.directory hdir) hpast ih
  | enter hget hlink _ ih =>
    obtain ⟨later, hlater, hnot⟩ := hkeeps.exists_entry hget hlink
    exact .enter hlater hnot ih
  | follow hget _ ih => exact .follow (hkeeps.link.2 hget) ih

/-- Where a walk ended is still the end of the walk, if something lies there by now that is no
link. -/
theorem Ends.keepLinks {kept : Disk} {purpose : Purpose} {links : Nat} {here : Location}
    {steps : List Step} {spot : Spot} {entry : Entry} (hkeeps : d.KeepsLinks kept)
    (h : Ends d purpose links here steps spot) (hspot : kept.get? spot.location = some entry)
    (hentry : ∀ target, entry ≠ .link target) :
    kept.walkLinks .use links here steps = .ok (.found spot.location) := by
  induction h with
  | done => exact walkLinks_nil
  | pass hdir hpast _ ih => rw [walkLinks_pass (hkeeps.directory hdir) hpast, ih hspot]
  -- By now something lies in the place that was vacant, and it is entered.
  | vacant hdir hnone =>
    rw [Spot.location] at hspot ⊢
    rw [walkLinks_enter hspot hentry (by simp), walkLinks_nil]
  | enter hget hlink _ ih =>
    obtain ⟨later, hlater, hnot⟩ := hkeeps.exists_entry hget hlink
    rw [walkLinks_enter hlater hnot (by simp), ih hspot]
  | atLink hget =>
    rw [Spot.location, hkeeps.link.2 hget] at hspot
    exact absurd (Option.some.inj hspot).symm (hentry _)
  | follow hget _ _ ih => rw [walkLinks_follow (hkeeps.link.2 hget) (.inl rfl), ih hspot]

/-- A walk ends where it ended, whatever it is for, if something lies there by now. -/
theorem KeepsLinks.walkLinks {kept : Disk} {purpose : Purpose} {links : Nat} {here : Location}
    {steps : List Step} {spot : Spot} (hkeeps : d.KeepsLinks kept)
    (h : d.walkLinks purpose links here steps = .ok spot)
    (hspot : (kept.get? spot.location).isSome) :
    kept.walkLinks purpose links here steps = .ok (.found spot.location) := by
  -- The steps of the walk say how it goes on, and that it is not refused there.
  induction ends_of_walkLinks h with
  | done => exact walkLinks_nil
  | pass hdir hpast _ ih =>
    rw [walkLinks_pass hdir hpast] at h
    rw [walkLinks_pass (hkeeps.directory hdir) hpast, ih h hspot]
  | vacant hdir hnone =>
    rw [Spot.location] at hspot ⊢
    obtain ⟨entry, hentry⟩ := Option.isSome_iff_exists.1 hspot
    -- A link in the place that was vacant would be new.
    have hlink : ∀ target, entry ≠ .link target := by
      rintro target rfl
      rw [hkeeps.link.1 hentry] at hnone
      cases hnone
    rw [walkLinks_enter hentry hlink (not_slash_of_walkLinks h), walkLinks_nil]
  | enter hget hlink _ ih =>
    have hslash := not_slash_of_walkLinks h
    rw [walkLinks_enter hget hlink hslash] at h
    obtain ⟨later, hlater, hnot⟩ := hkeeps.exists_entry hget hlink
    rw [walkLinks_enter hlater hnot hslash, ih h hspot]
  | @atLink _ here name _ hget hpurpose =>
    rw [walkLinks_eq, walkFrom]
    simp [directory_of_get? (hkeeps.link.2 hget), hkeeps.link.2 hget, hpurpose, Spot.location]
  | follow hget hmeant _ ih =>
    have hslash := not_slash_of_walkLinks h
    have hend : ¬(purpose = .useLink ∧ _) := fun hend => hmeant hend.1 hend.2
    rw [walkLinks_behind hget hslash hend] at h
    rw [walkLinks_behind (hkeeps.link.2 hget) hslash hend, ih h hspot]

/-- A path leads where it led, whatever it is used for, if something lies there by now. -/
theorem KeepsLinks.walk {kept : Disk} {purpose : Purpose} {p : Path} {spot : Spot}
    (hkeeps : d.KeepsLinks kept) (h : d.walk purpose p = .ok spot)
    (hspot : (kept.get? spot.location).isSome) :
    kept.walk purpose p = .ok (.found spot.location) := by
  obtain ⟨hcheck, hwalk⟩ := walk_eq_ok h
  have hkept : kept.walkSteps purpose p.steps = .ok (.found spot.location) :=
    hkeeps.walkLinks hwalk hspot
  simp only [Disk.walk, hcheck, hkept]

/-- What a path leads to it still leads to when links and directories stay. -/
theorem KeepsLinks.find {kept : Disk} {p : Path} {location : Location} (hkeeps : d.KeepsLinks kept)
    (h : d.find .use p = .ok location) : kept.find .use p = .ok location :=
  find_eq_ok.2 (hkeeps.walk (find_eq_ok.1 h) (hkeeps.isSome (isSome_of_find h)))

/-- A directory stays one at every path that leads to it. -/
theorem KeepsLinks.isDirectory {kept : Disk} {p : Path} (hkeeps : d.KeepsLinks kept)
    (h : d.isDirectory p = true) : kept.isDirectory p = true := by
  obtain ⟨location, hwalk, hdir⟩ := lookAt_eq_ok.1 (isDirectory_eq_true.1 h)
  have hfind := hkeeps.find (find_eq_ok.2 hwalk)
  exact isDirectory_eq_true.2
    (lookAt_eq_ok.2 ⟨location, find_eq_ok.1 hfind, hkeeps.directory hdir⟩)

/-- What lies where a walk ended is found there. -/
theorem Ends.lookAt {kept : Disk} {purpose : Purpose} {p : Path} {spot : Spot} {entry : Entry}
    (hkeeps : d.KeepsLinks kept) (h : Ends d purpose linkLimit [] p.steps spot)
    (hcheck : checkPath p = .ok ()) (hget : kept.get? spot.location = some entry)
    (hentry : ∀ target, entry ≠ .link target) : kept.lookAt p = .ok entry := by
  have hwalk : kept.walkSteps .use p.steps = .ok (.found spot.location) :=
    h.keepLinks hkeeps hget hentry
  simp [Disk.lookAt, find, walk, hcheck, hwalk, hget, bind, Except.bind]

/-- A path leads to the directory that was made at it. -/
theorem isDirectory_of_makeDirectory {p : Path} {made : Disk} (h : d.makeDirectory p = .ok made) :
    made.isDirectory p = true := by
  obtain ⟨hcheck, above, name, hwalk, hdir, hnone, rfl⟩ := makeDirectory_eq_ok h
  have hget : (d.put (name :: above) .directory).get? (name :: above) = some .directory := by
    rw [get?_put (accepts_of_vacant hdir hnone _), if_pos rfl]
  have hsteps : (d.put (name :: above) .directory).walkSteps .use p.steps =
      .ok (.found (name :: above)) :=
    walkLinks_of_dropSlash ((ends_of_walkLinks hwalk).keepLinks
      (grows_put hdir hnone).keepsLinks hget (by simp)) hget
  refine isDirectory_eq_true.2 (lookAt_eq_ok.2 ⟨_, ?_, hget⟩)
  simp only [Disk.walk, hcheck, hsteps]

/-- A path leads to a directory once the directories on the way to it were made. -/
theorem isDirectory_of_makeDirectories {p : Path} {made : Disk} (hbytes : p.bytes ≠ [])
    (h : d.makeDirectories p = (.ok (), made)) : made.isDirectory p = true := by
  obtain ⟨above, habove⟩ := Path.ancestors_eq_cons p
  rw [makeDirectories, habove, makeDirectoriesAlong, if_neg hbytes] at h
  split at h
  · next hmade =>
    cases h
    exact isDirectory_of_makeDirectory hmade
  · -- The directories above were made first.
    split at h
    · cases h
    · split at h
      · next hmade =>
        cases h
        exact isDirectory_of_makeDirectory hmade
      · split at h
        · next hdir =>
          cases h
          exact hdir
        · cases h
  · split at h
    · next hdir =>
      cases h
      exact hdir
    · cases h

/-- Where something is found no directory is made, and that is fine if it is a directory. -/
theorem makeDirectories_of_found {p : Path} {found : Location} (hcheck : checkPath p = .ok ())
    (hfound : d.walkSteps .useLink (Step.dropSlash p.steps) = .ok (.found found)) :
    d.makeDirectories p =
      if d.isDirectory p then (.ok (), d) else (.error .alreadyExists, d) := by
  obtain ⟨above, habove⟩ := Path.ancestors_eq_cons p
  have hmake : d.makeDirectory p = .error .alreadyExists := by
    simp [makeDirectory, hcheck, hfound, bind, Except.bind]
  have hbytes : p.bytes ≠ [] := (checkPath_eq_ok.1 hcheck).2.2
  simp [makeDirectories, habove, makeDirectoriesAlong, hbytes, hmake]

/-- No directory is made where a path leads to one. -/
theorem makeDirectories_of_isDirectory {p : Path} (h : d.isDirectory p = true) :
    d.makeDirectories p = (.ok (), d) := by
  obtain ⟨location, hwalk, -⟩ := lookAt_eq_ok.1 (isDirectory_eq_true.1 h)
  obtain ⟨hcheck, hsteps⟩ := walk_eq_ok hwalk
  obtain ⟨found, hfound⟩ := exists_found_dropSlash hsteps
  rw [makeDirectories_of_found hcheck hfound, if_pos h]

section Vacant

variable {p : Path} {above : Location} {name : FileName} (hcheck : checkPath p = .ok ())
  (hwalk : d.walkSteps .useLink (Step.dropSlash p.steps) = .ok (.vacant above name))
include hcheck hwalk

/-- A directory is made where the way to it ends at a vacant place. -/
theorem makeDirectory_of_vacant :
    d.makeDirectory p = .ok (d.put (name :: above) .directory) := by
  simp [makeDirectory, hcheck, hwalk, bind, Except.bind]

/-- The directories on the way to a vacant place exist, and only the last one is made. -/
theorem makeDirectories_of_vacant :
    d.makeDirectories p = (.ok (), d.put (name :: above) .directory) := by
  obtain ⟨paths, hpaths⟩ := Path.ancestors_eq_cons p
  have hbytes : p.bytes ≠ [] := (checkPath_eq_ok.1 hcheck).2.2
  simp [makeDirectories, hpaths, makeDirectoriesAlong, hbytes, makeDirectory_of_vacant hcheck hwalk]

end Vacant

/-- A file that exists accepts other content. -/
theorem accepts_of_file {location : Location} {old : Bytes}
    (hget : d.get? location = some (.file old)) (bytes : Bytes) :
    d.Accepts location (.file bytes) := by
  cases location with
  | nil => cases hget
  | cons name above => exact ⟨by simp, directory_of_get? hget, .inr ⟨by simp [hget], by simp⟩⟩

/-- Opening a file keeps the links. -/
theorem keepsLinks_openFile {p : Path} {location : Location} {opened : Disk}
    (h : d.openFile p = .ok (location, opened)) : d.KeepsLinks opened := by
  unfold openFile at h
  cases hwalk : d.walk .makeFile p with
  | error refusal => simp [hwalk, bind, Except.bind] at h
  | ok spot =>
    cases spot with
    | vacant above name =>
      obtain ⟨-, hnone⟩ := (ends_of_walkLinks (walk_eq_ok hwalk).2).of_vacant
      simp only [hwalk, bind, Except.bind, Except.ok.injEq, Prod.mk.injEq] at h
      obtain ⟨-, rfl⟩ := h
      exact keepsLinks_put (by simp [hnone]) []
    | found found =>
      simp only [hwalk, bind, Except.bind] at h
      split at h
      · cases h
      · cases h
        exact .refl d

/-- What is opened is a file, which is new or was there before, or a device. -/
theorem get?_openFile {p : Path} {location : Location} {opened : Disk}
    (h : d.openFile p = .ok (location, opened)) :
    (∃ old, opened.get? location = some (.file old) ∧
        ∀ entry, d.get? location = some entry → entry = .file old) ∨
      ∃ kind, d.get? location = some (.device kind) ∧ opened = d := by
  unfold openFile at h
  cases hwalk : d.walk .makeFile p with
  | error refusal => simp [hwalk, bind, Except.bind] at h
  | ok spot =>
    have hends := ends_of_walkLinks (walk_eq_ok hwalk).2
    cases spot with
    | vacant above name =>
      simp only [hwalk, bind, Except.bind, Except.ok.injEq, Prod.mk.injEq] at h
      obtain ⟨rfl, rfl⟩ := h
      obtain ⟨hdir, hnone⟩ := hends.of_vacant
      refine .inl ⟨[], by rw [get?_put (accepts_of_vacant hdir hnone _), if_pos rfl], ?_⟩
      simp [hnone]
    | found found =>
      -- A walk that may make a file follows the links at its end, so it does not end on one.
      obtain ⟨used, -, hleads⟩ := walkLinks_use_iff.1 (hends.walkLinks_use (by simp))
      obtain ⟨entry, hentry⟩ := Option.isSome_iff_exists.1 (hleads.isSome rfl)
      simp only [hwalk, bind, Except.bind] at h
      split at h
      · cases h
      · next hdir =>
        simp only [Except.ok.injEq, Prod.mk.injEq] at h
        obtain ⟨rfl, rfl⟩ := h
        cases entry with
        | directory => exact absurd hentry hdir
        | link next => exact absurd hentry (hleads.ne_link (by simp) next)
        | file old =>
          exact .inl ⟨old, hentry, fun _ hsame => Option.some.inj (hsame.symm.trans hentry)⟩
        | device kind => exact .inr ⟨kind, hentry, rfl⟩



/-- Writing at a location keeps the links. -/
theorem keepsLinks_writeAt (d : Disk) (location : Location) (bytes : Bytes) (mode : WriteMode)
    (host : Host) : d.KeepsLinks (d.writeAt location bytes mode host).2 := by
  rcases d.writeAt_cases location bytes mode host with ⟨old, part, hold, -, hput, -⟩ | ⟨-, hsame⟩
  · rw [hput]
    exact keepsLinks_put (by simp [hold]) _
  · rw [hsame]
    exact .refl d

/-- Writing a file keeps the links. -/
theorem keepsLinks_writeFile (d : Disk) (p : Path) (bytes : Bytes) (mode : WriteMode)
    (host : Host) : d.KeepsLinks (d.writeFile p bytes mode host).2 := by
  unfold writeFile
  split
  · exact .refl d
  · next location opened hopen =>
    exact (keepsLinks_openFile hopen).trans (opened.keepsLinks_writeAt location bytes mode host)

/-- Copying to an opened file keeps the links. -/
theorem keepsLinks_transfer (d : Disk) (origin location : Location) (host : Host) :
    d.KeepsLinks (d.transfer origin location host).2 := by
  unfold transfer
  split
  · exact .refl d
  · next bytes _ =>
    have hkeeps := d.keepsLinks_writeAt location bytes .truncate host
    split
    · next copied hwrite => rwa [hwrite] at hkeeps
    · next refusal left hwrite => rwa [hwrite] at hkeeps

/-- Copying a file keeps the links. -/
theorem keepsLinks_copyFile (d : Disk) (source target : Path) (host : Host) :
    d.KeepsLinks (d.copyFile source target host).2 := by
  unfold copyFile
  split
  · exact .refl d
  · split
    · split
      · exact .refl d
      · next location opened hopen =>
        exact ((keepsLinks_openFile hopen).trans
          (opened.keepsLinks_writeAt location [] .truncate _)).trans (keepsLinks_transfer _ _ _ _)
    · exact .refl d

/-! ## What was written -/

/-- A reliable machine writes to a file. -/
theorem writeAt_file {location : Location} {old : Bytes} (hget : d.get? location = some (.file old))
    (bytes : Bytes) (mode : WriteMode) :
    d.writeAt location bytes mode = (.ok (), d.put location (.file (mode.apply old bytes))) := by
  simp [writeAt, hget]

/-- A file that was written holds what was written, and nothing else changes. -/
theorem get?_writeAt_file {location : Location} {old bytes : Bytes} {written : Disk} {host : Host}
    (hget : d.get? location = some (.file old))
    (h : d.writeAt location bytes .truncate host = (.ok (), written)) (other : Location) :
    written.get? other = if other = location then some (.file bytes) else d.get? other := by
  rcases d.writeAt_cases location bytes .truncate host with ⟨_, part, -, -, hput, hall⟩ | ⟨hnone, -⟩
  · obtain rfl : part = bytes := hall (by rw [h])
    rw [h] at hput
    rw [show written = _ from hput]
    exact get?_put (accepts_of_file hget part) other
  · exact absurd hget (hnone old)

/-- Writing to a device changes nothing. -/
theorem writeAt_device {location : Location} {kind : Device} {bytes : Bytes}
    {mode : WriteMode} {host : Host} (hget : d.get? location = some (.device kind)) :
    d.writeAt location bytes mode host = (kind.take bytes, d) := by
  simp [writeAt, hget]

/-- What counts as a regular file still does when a file was written. -/
theorem any_isRegular_writeAt {location : Location} (bytes : Bytes) (mode : WriteMode) (host : Host)
    (other : Location) :
    ((d.writeAt location bytes mode host).2.get? other).any isRegular =
      (d.get? other).any isRegular := by
  rcases d.writeAt_cases location bytes mode host with ⟨old, part, hold, -, hput, -⟩ | ⟨-, hsame⟩
  · rw [hput, get?_put (accepts_of_file hold _)]
    split
    · next he => simp [he, hold, isRegular]
    · rfl
  · rw [hsame]

/-- What counts as a regular file still does when a file was opened. -/
theorem any_isRegular_openFile {p : Path} {location other : Location} {opened : Disk}
    (h : d.openFile p = .ok (location, opened)) (hother : (d.get? other).any isRegular = true) :
    (opened.get? other).any isRegular = true := by
  obtain ⟨spot, -, rfl, hopened⟩ := openFile_eq_ok h
  by_cases hne : other = spot.location
  · subst hne
    rcases get?_openFile h with ⟨old, hget, -⟩ | ⟨kind, -, rfl⟩
    · simp [hget, isRegular]
    · exact hother
  · rwa [hopened other hne]

/-- Copying a file opens the target, empties it, and then writes what the source holds by then. -/
theorem copyFile_eq_ok {source target : Path} {count : Nat} {copied : Disk} {host : Host}
    (h : d.copyFile source target host = (.ok count, copied)) :
    ∃ origin location opened emptied bytes, d.find .use source = .ok origin ∧
      d.openFile target = .ok (location, opened) ∧
      opened.writeAt location [] .truncate = (.ok (), emptied) ∧
      emptied.get? origin = some (.file bytes) ∧
      emptied.writeAt location bytes .truncate host = (.ok (), copied) ∧
      count = bytes.length := by
  unfold copyFile at h
  split at h
  · cases h
  next origin horigin =>
  split at h
  case isFalse => cases h
  next hregular =>
  split at h
  · cases h
  next location opened hopen =>
  -- Emptying the target is refused by nothing that can be opened.
  obtain ⟨emptied, hempty⟩ : ∃ emptied,
      opened.writeAt location [] .truncate = (.ok (), emptied) := by
    rcases get?_openFile hopen with ⟨old, hget, -⟩ | ⟨kind, hkind, rfl⟩
    · exact ⟨_, writeAt_file hget [] .truncate⟩
    · exact ⟨_, by rw [writeAt_device hkind, Device.take_nil]⟩
  have hemptied : (emptied.get? origin).any isRegular = true := by
    have hsame : ((opened.writeAt location [] .truncate).2.get? origin).any isRegular = _ :=
      any_isRegular_writeAt [] .truncate .reliable origin
    rw [hempty] at hsame
    rw [hsame]
    exact any_isRegular_openFile hopen hregular
  rw [hempty] at h
  -- Of what counts as a regular file, only a file can be read.
  unfold transfer at h
  cases hget : emptied.get? origin with
  | none => simp [hget] at hemptied
  | some entry =>
    simp only [hget, Option.elim_some] at h
    cases entry with
    | directory | link => simp [hget, isRegular] at hemptied
    | device kind => cases kind <;> simp [hget, isRegular, bytesOf, Device.content] at hemptied h
    | file bytes =>
      simp only [bytesOf] at h
      split at h
      · next written hwrite =>
        simp only [Prod.mk.injEq, Except.ok.injEq] at h
        obtain ⟨rfl, rfl⟩ := h
        exact ⟨origin, location, opened, emptied, bytes, horigin, hopen, hempty, hget, hwrite, rfl⟩
      · cases h

/-- Writing opens a file with some content and puts the bytes there; a path that leads to a device
changes nothing. -/
theorem writeFile_eq_ok {p : Path} {bytes : Bytes} {written : Disk} {host : Host}
    (h : d.writeFile p bytes .truncate host = (.ok (), written)) :
    ∃ spot, checkPath p = .ok () ∧ Ends d .makeFile linkLimit [] p.steps spot ∧
      (((∃ kind, d.lookAt p = .ok (.device kind)) ∧ written = d) ∨
        ∃ opened old, d.KeepsLinks opened ∧ opened.get? spot.location = some (.file old) ∧
          written = opened.put spot.location (.file bytes)) := by
  unfold writeFile at h
  split at h
  · cases h
  next location opened hopen =>
  obtain ⟨spot, hwalk, rfl, -⟩ := openFile_eq_ok hopen
  obtain ⟨hcheck, hsteps⟩ := walk_eq_ok hwalk
  have hends := ends_of_walkLinks hsteps
  refine ⟨spot, hcheck, hends, ?_⟩
  rcases get?_openFile hopen with ⟨old, hold, -⟩ | ⟨kind, hkind, rfl⟩
  · -- A file takes all bytes, since the machine did not break off.
    rcases opened.writeAt_cases spot.location bytes .truncate host with
      ⟨_, part, -, -, hput, hall⟩ | ⟨hnone, -⟩
    · obtain rfl : part = bytes := hall (by rw [h])
      rw [h] at hput
      exact .inr ⟨opened, old, keepsLinks_openFile hopen, hold, hput⟩
    · exact absurd hold (hnone old)
  · rw [writeAt_device hkind] at h
    exact .inl ⟨⟨kind, hends.lookAt (.refl opened) hcheck hkind (by simp)⟩,
      (Prod.mk.inj h).2.symm⟩

/-- A file that was written is read back, unless the path leads to a device. -/
theorem lookAt_writeFile {p : Path} {bytes : Bytes} {written : Disk} {host : Host}
    (hdevice : ∀ kind, d.lookAt p ≠ .ok (.device kind))
    (h : d.writeFile p bytes .truncate host = (.ok (), written)) :
    written.lookAt p = .ok (.file bytes) := by
  obtain ⟨spot, hcheck, hends, ⟨⟨kind, hkind⟩, -⟩ | ⟨opened, old, hkeeps, hold, rfl⟩⟩ :=
    writeFile_eq_ok h
  · exact absurd hkind (hdevice kind)
  · have hwritten : opened.KeepsLinks (opened.put spot.location (.file bytes)) :=
      keepsLinks_put (by simp [hold]) bytes
    refine hends.lookAt (hkeeps.trans hwritten) hcheck ?_ (by simp)
    rw [get?_put (accepts_of_file hold bytes), if_pos rfl]

end Disk

end CommandShell
