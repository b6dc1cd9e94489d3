import CommandShell.Proofs.Actions
import CommandShell.Proofs.Changes

/-!
# Extraction stays inside

Extracting an archive changes nothing outside the destination, whatever the archive says and
whatever links lie on the disk. What the checks of a member establish is called anchored here: the
deepest part of its place that exists leads below the destination. That stays true while directories
are made on the way to the place, and it says where a walk to the place ends.

## Main definitions

* `Disk.Anchored`: the deepest part of a place that exists leads below a location.
* `Disk.filesReading`: a disk on which archives hold whatever a function says.

## Main results

* `Disk.Anchored.ends_below`: where a walk to an anchored place ends, also on a disk with more
  directories;
* `Disk.Anchored.makeDirectories` and `Disk.Anchored.write`: what is made or written at an anchored
  place lies below the location;
* `changesBelow_extractAll`: extracting members changes nothing outside the destination;
* `dispatch_unzip_contained`: the same of a whole command line.
-/

namespace CommandShell

open ShellM

/-- The directory that an archive is extracted to: the one that is given, or else the working
directory. -/
def Session.destination (session : Session) (directory : Option String) : Path :=
  match directory with
  | some typed => session.resolve typed
  | none => session.directory

/-! ## Prefixes of a path -/

namespace Path

/-- The paths above the path of some names are those of their outer names. -/
theorem mem_ancestors_ofNames {names : List Bytes} (h : ∀ name ∈ names, IsName name) {p : Path}
    (hp : p ∈ (ofNames names).ancestors) : ∃ outer, outer <:+ names ∧ p = ofNames outer := by
  induction names with
  | nil =>
    rw [ancestors_ofNames_nil, List.mem_singleton] at hp
    exact ⟨[], List.suffix_refl _, hp⟩
  | cons name names ih =>
    rw [ancestors_ofNames_cons h, List.mem_cons] at hp
    rcases hp with rfl | hp
    · exact ⟨name :: names, List.suffix_refl _, rfl⟩
    · obtain ⟨outer, houter, rfl⟩ := ih (fun other hother => h other (by simp [hother])) hp
      exact ⟨outer, houter.trans (List.suffix_cons name names), rfl⟩

end Path

namespace Disk

variable {d : Disk} {base : Location} {names : List Bytes}

/-- A path above one that can be served can be served. -/
theorem checkPath_ofNames_outer {name : Bytes}
    (h : checkPath (.ofNames (name :: names)) = .ok ()) : checkPath (.ofNames names) = .ok () := by
  rw [checkPath_eq_ok, Path.ofNames_cons] at h
  rw [checkPath_eq_ok]
  have hbytes : (Path.ofNames names).bytes ≠ [] := by simp [Path.ofNames]
  split at h
  · next he =>
    subst he
    decide
  · obtain ⟨hnul, hsize, -⟩ := h
    simp only [List.mem_append, not_or] at hnul
    simp only [Path.size, List.length_append] at hsize ⊢
    exact ⟨hnul.1, by omega, hbytes⟩

/-- Where the path of some names leads somewhere, so do those of its outer names. -/
theorem Reaches.outer {outer : List Bytes} {there : Location} (h : d.Reaches names there)
    (houter : outer <:+ names) : ∃ mid, d.Reaches outer mid := by
  -- The way to a place leads through the places of its outer names, one by one.
  induction names generalizing there with
  | nil =>
    rw [List.suffix_nil] at houter
    exact ⟨there, houter ▸ h⟩
  | cons name names ih =>
    rcases List.suffix_cons_iff.1 houter with rfl | houter
    · exact ⟨there, h⟩
    · obtain ⟨above, -, habove, -⟩ := h.above
      exact ih habove houter

/-- Where the path of some names leads somewhere, no directory is made. -/
theorem Reaches.makeDirectory_ne_ok {there : Location} (hnames : ∀ name ∈ names, Path.IsName name)
    (h : d.Reaches names there) (made : Disk) : d.makeDirectory (.ofNames names) ≠ .ok made := by
  intro hmade
  obtain ⟨-, above, name, hwalk, -, hnone, -⟩ := makeDirectory_eq_ok hmade
  rw [Path.steps_ofNames hnames, Step.dropSlash_names] at hwalk
  cases names with
  | nil => simp [walkSteps] at hwalk
  | cons last names =>
    obtain ⟨mid, last', hmid, hlast, hend⟩ := above_of_walkSteps hwalk
    obtain ⟨mid', last'', hmid', hlast', hsome⟩ := h.occupied
    obtain rfl := hmid.unique hmid'
    obtain rfl := FileName.bytes_injective (hlast.trans hlast'.symm)
    rcases hend with ⟨hnone, -⟩ | ⟨-, hfound⟩ | ⟨-, hfound⟩
    · simp [hnone] at hsome
    · cases hfound rfl
    · cases hfound

/-! ## Anchored places -/

/-- The deepest part of a place that exists leads below a location. Paths that no disk can serve
count as leading nowhere. -/
inductive Anchored (d : Disk) (base : Location) : List Bytes → Prop
  /-- The place exists. -/
  | here {names : List Bytes} {there : Location} :
      d.Reaches names there → base <:+ there → Anchored d base names
  /-- Nothing lies at the place, not even a link, and the place above is anchored. -/
  | above {name : Bytes} {names : List Bytes} :
      (checkPath (.ofNames (name :: names)) = .ok () → ¬d.Occupied name names) →
        Anchored d base names → Anchored d base (name :: names)

namespace Anchored

variable {grown : Disk}

/-- A walk to an anchored place ends below the location, also when directories were added since. It
ends where it ended before, or in one of the new directories. -/
theorem ends_below {there : Location} (h : d.Anchored base names) (hgrows : d.Grows grown)
    (hcheck : checkPath (.ofNames names) = .ok ()) (hthere : grown.Reaches names there) :
    base <:+ there ∧ (d.Reaches names there ∨ d.get? there = none) := by
  induction h generalizing there with
  | here hreaches hbelow =>
    obtain rfl := hthere.unique (hreaches.grow hgrows)
    exact ⟨hbelow, .inl hreaches⟩
  | @above name names hvacant _ ih =>
    obtain ⟨above, last, habove, hlast, hend⟩ := hthere.above
    -- The walk comes from the place above, which is anchored.
    obtain ⟨hbelow, hold⟩ := ih (checkPath_ofNames_outer hcheck) habove
    -- Had the disk held something under the last name, the place would have been occupied.
    have hnew : d.get? (last :: above) = none := by
      cases hentry : d.get? (last :: above) with
      | none => rfl
      | some entry =>
        have hdir := directory_of_get? hentry
        have hreaches : d.Reaches names above := hold.resolve_right (by simp [hdir])
        exact absurd ⟨above, last, hreaches, hlast, by simp [hentry]⟩ (hvacant hcheck)
    rcases hend with ⟨target, hlink⟩ | ⟨rfl, -⟩
    · -- Only directories were added, so the link was there before.
      rcases hgrows.eq_or_directory hlink with hlink | ⟨-, hdir⟩
      · simp [hnew] at hlink
      · cases hdir
    · exact ⟨hbelow.trans (List.suffix_cons last above), .inr hnew⟩

variable (hnames : ∀ name ∈ names, Path.IsName name)
include hnames

/-- A directory that is made on the way to an anchored place lies below the location. -/
theorem makeDirectory {outer : List Bytes} {made : Disk} (h : d.Anchored base names)
    (hgrows : d.Grows grown) (houter : outer <:+ names)
    (hmade : grown.makeDirectory (.ofNames outer) = .ok made) : ChangesBelow base grown made := by
  induction h with
  | here hreaches hbelow =>
    obtain ⟨mid, hmid⟩ := hreaches.outer houter
    have hnames' : ∀ name ∈ outer, Path.IsName name := fun name hname =>
      hnames name (houter.subset hname)
    -- The place exists, so all places above it do, and no directory is made there.
    exact absurd hmade ((hmid.grow hgrows).makeDirectory_ne_ok hnames' made)
  | @above name names hvacant habove ih =>
    have hnames' : ∀ other ∈ names, Path.IsName other := fun other hother =>
      hnames other (by simp [hother])
    rcases List.suffix_cons_iff.1 houter with rfl | houter
    · obtain ⟨hcheck, mid, last, hwalk, -, -, rfl⟩ := makeDirectory_eq_ok hmade
      rw [Path.steps_ofNames hnames, Step.dropSlash_names] at hwalk
      obtain ⟨above, last', hreaches, -, hend⟩ := above_of_walkSteps hwalk
      obtain ⟨hbelow, -⟩ := habove.ends_below hgrows (checkPath_ofNames_outer hcheck) hreaches
      rcases hend with ⟨-, hspot⟩ | ⟨-, hfound⟩ | ⟨-, hfound⟩
      · cases hspot
        exact .put (hbelow.trans (List.suffix_cons _ _)) _
      · cases hfound rfl
      · cases hfound
    · exact ih hnames' houter

/-- Making the directories on the way to an anchored place changes nothing but what lies below the
location. -/
theorem makeDirectories {outer : List Bytes} (h : d.Anchored base names)
    (houter : outer <:+ names) :
    ChangesBelow base d (d.makeDirectories (.ofNames outer)).2 := by
  have hnames' : ∀ name ∈ outer, Path.IsName name := fun name hname =>
    hnames name (houter.subset hname)
  -- Each directory that is made lies on the way to the place.
  refine (makeDirectoriesAlong_induction (ChangesBelow base) .refl .trans ?_).2
  intro p hp now made hgrows hmade
  obtain ⟨inner, hinner, rfl⟩ := Path.mem_ancestors_ofNames hnames' hp
  exact h.makeDirectory hnames hgrows (hinner.trans houter) hmade

/-- The spot of a file at an anchored place lies below the location. -/
theorem spot_below {spot : Spot} (h : d.Anchored base names) (hgrows : d.Grows grown)
    (hspot : grown.walk .makeFile (.ofNames names) = .ok spot) : base <:+ spot.location := by
  obtain ⟨hcheck, hwalk⟩ := walk_eq_ok hspot
  rw [Path.steps_ofNames hnames] at hwalk
  have huse := (ends_of_walkLinks hwalk).walkLinks_use (by simp)
  cases h with
  | here hreaches hbelow =>
    obtain rfl := Except.ok.inj ((walkLinks_use_iff.2 (hreaches.grow hgrows)).symm.trans huse)
    exact hbelow
  | @above name names hvacant habove =>
    obtain ⟨above, last, hreaches, hlast, hend⟩ := above_of_walkSteps hwalk
    have hreach := habove.ends_below hgrows (checkPath_ofNames_outer hcheck) hreaches
    cases spot with
    | found there =>
      have hthere : grown.Reaches (name :: names) there := walkLinks_use_iff.1 huse
      exact (Anchored.ends_below (.above hvacant habove) hgrows hcheck hthere).1
    | vacant directory new =>
      rcases hend with ⟨-, hspot⟩ | ⟨⟨target, hlink⟩, -⟩ | ⟨-, hfound⟩
      · cases hspot
        exact hreach.1.trans (List.suffix_cons _ _)
      · -- A link that leads nowhere was there before, so the place was occupied.
        rcases hgrows.eq_or_directory hlink with hlink | ⟨-, hdir⟩
        · have hdir := directory_of_get? hlink
          have hreaches' : d.Reaches names above := hreach.2.resolve_right (by simp [hdir])
          exact absurd ⟨above, last, hreaches', hlast, by simp [hlink]⟩ (hvacant hcheck)
        · cases hdir
      · cases hfound

/-- Writing a file at an anchored place changes nothing but what lies below the location. -/
theorem write {bytes : Bytes} {mode : WriteMode} {host : Host} (h : d.Anchored base names)
    (hgrows : d.Grows grown) :
    ChangesBelow base grown (grown.write (.ofNames names) bytes mode host).2 := by
  intro location
  by_cases hbelow : base <:+ location
  · exact .inl hbelow
  · refine .inr (get?_write fun spot hspot he => hbelow ?_)
    exact he ▸ h.spot_below hnames hgrows hspot

end Anchored

/-! ## What the checks establish -/

/-- A disk on which archives hold whatever a function says. -/
def filesReading (read : Path → Disk → Except Stop (List Member)) (host : Host := .reliable)
    (format : Archive.Format := Archive.zip) : FileSystem Disk where
  answer request d :=
    match request with
    | .members archive => (read archive d, d)
    | other => d.answer other host format

/-- Reading an archive leaves the disk as it is. -/
theorem snd_unpackArchive (d : Disk) (archive : Path) (format : Archive.Format) :
    (d.unpackArchive archive format).2 = d := by
  unfold unpackArchive
  split
  · rfl
  · split
    · rfl
    · split <;> rfl

/-- A disk reads its archives with its own reader. -/
theorem filesReading_unpackArchive (host : Host) (format : Archive.Format) :
    filesReading (fun archive d => (d.unpackArchive archive format).1) host format =
      files host format := by
  unfold filesReading files
  congr
  funext α request d
  cases request with
  | members archive => exact Prod.ext rfl (d.snd_unpackArchive archive format).symm
  | _ => rfl

/-- An archive whose bytes can be read is read. -/
theorem unpackArchive_of_lookAt {d : Disk} {p : Path} {bytes : Bytes} {members : List Member}
    {format : Archive.Format} (hlook : d.lookAt p = .ok (.file bytes))
    (hread : format.read bytes = .ok members) :
    d.unpackArchive p format = (.ok members, d) := by
  rw [unpackArchive, hlook]
  simp only [archiveBytes, hread]

/-- A canonical path is that of a location to which the path leads. -/
theorem canonical_eq_ok {p place : Path} (h : d.canonical p = .ok place) :
    ∃ there, d.walkSteps .use p.steps = .ok (.found there) ∧ place = there.path := by
  unfold canonical at h
  split at h
  · cases h
  · split at h
    · cases h
    · split at h
      · cases h
      · cases h
      · next there hwalk =>
        split at h
        · cases h
        · exact ⟨there, hwalk, (Except.ok.inj h).symm⟩

/-- Paths that lead to one thing have one canonical path, unless that is too long. -/
theorem canonical_of_find {p : Path} {location : Location} (h : d.find .use p = .ok location) :
    d.canonical p =
      if pathLimit ≤ location.path.size then .error .nameTooLong else .ok location.path := by
  obtain ⟨hcheck, hwalk⟩ := walk_eq_ok (find_eq_ok.1 h)
  obtain ⟨hnul, -, hbytes⟩ := checkPath_eq_ok.1 hcheck
  rw [canonical, if_neg hnul, if_neg hbytes, hwalk]

/-- A path with a canonical path leads to what that one names, if it is not too long itself. -/
theorem find_of_canonical {p : Path} {location : Location} (h : d.canonical p = .ok location.path)
    (hsize : p.size < pathLimit) : d.find .use p = .ok location := by
  obtain ⟨found, hwalk, hpath⟩ := canonical_eq_ok h
  obtain rfl := Path.path_injective hpath
  unfold canonical at h
  split at h
  · cases h
  · next hnul =>
    split at h
    · cases h
    · next hbytes =>
      have hcheck := checkPath_eq_ok.2 ⟨hnul, hsize, hbytes⟩
      simp only [find, walk, hcheck, hwalk]

/-- What a path leads to lies at the location of its canonical path. -/
theorem get?_of_canonical {p : Path} {there : Location} {entry : Entry}
    (hlook : d.lookAt p = .ok entry) (hcanonical : d.canonical p = .ok there.path) :
    d.get? there = some entry := by
  -- Both calls walk along the same steps, so they find the same thing.
  obtain ⟨found, hfound, hget⟩ := lookAt_eq_ok.1 hlook
  obtain ⟨last, hwalk, hpath⟩ := canonical_eq_ok hcanonical
  obtain rfl := Path.path_injective hpath
  obtain rfl := Spot.found.inj (Except.ok.inj ((walk_eq_ok hfound).2.symm.trans hwalk))
  exact hget

/-- What lies somewhere under a name is present. -/
theorem isPresent_of_occupied {name : Bytes} (hnames : ∀ other ∈ name :: names, Path.IsName other)
    (hcheck : checkPath (.ofNames (name :: names)) = .ok ()) (h : d.Occupied name names) :
    d.isPresent (.ofNames (name :: names)) = true := by
  obtain ⟨above, last, ⟨used, hused, hleads⟩, rfl, hsome⟩ := h
  have hlast : d.walkLinks .useLink (linkLimit - used) above [.name last.bytes] =
      .ok (.found (last :: above)) := by
    obtain ⟨entry, hentry⟩ := Option.isSome_iff_exists.1 hsome
    rw [walkLinks_eq, walkFrom]
    simp only [directory_of_get? hentry, ne_eq, not_true_eq_false, if_false, reduceCtorEq,
      false_and, FileName.ofBytes?_bytes, hentry]
    -- A link at the end is itself meant, and behind any other entry the walk is at its end.
    cases entry <;> simp [walkFrom]
  have hwalk : d.walkSteps .useLink ((last.bytes :: names).reverse.map .name) =
      .ok (.found (last :: above)) := by
    rw [Step.map_name_reverse_cons, walkSteps, walkLinks_of_leads hleads hused (.inr (by simp)),
      hlast]
  have hfind : d.find .useLink (.ofNames (last.bytes :: names)) = .ok (last :: above) := by
    rw [find, walk, hcheck, Path.steps_ofNames hnames]
    simp only [hwalk]
  rw [isPresent, hfind]

end Disk

namespace Builtin

variable (read : Path → Disk → Except Stop (List Member)) (host : Host) (format : Archive.Format)
  (base : Location) {names : List Bytes}

/-- The first of some paths that something lies at is resolved, and nothing changes. -/
theorem perform_leadsInside_cons (p : Path) (above : List Path) (w : World Disk) :
    (leadsInside (Disk.filesReading read host format) base.path (p :: above)).perform w =
      if w.held.isPresent p then
        ((w.held.looking .resolve p ((w.held.canonical p).map (·.startsWith base.path))).1, w)
      else (leadsInside (Disk.filesReading read host format) base.path above).perform w := by
  have hanswer : (Disk.filesReading read host format).answer (.isPresent p) w.held =
    (.ok (w.held.isPresent p), w.held) := rfl
  have hcanonical : (Disk.filesReading read host format).answer (.canonical p) w.held =
    w.held.looking .resolve p (w.held.canonical p) := rfl
  rw [leadsInside, perform_bind, perform_request, hanswer]
  simp only
  split
  · rw [perform_bind, perform_request, hcanonical]
    cases w.held.canonical p <;> rfl
  · rfl

/-- Looking for the deepest part of a place that exists changes nothing, and it finds that the place
is anchored. -/
theorem perform_leadsInside (hnames : ∀ name ∈ names, Path.IsName name) (w : World Disk) :
    ∃ result, (leadsInside (Disk.filesReading read host format) base.path
        (Path.ofNames names).ancestors).perform w = (result, w) ∧
      (result = .ok true → w.held.Anchored base names) := by
  -- Whatever is resolved is the place of what lies there.
  have hpresent : ∀ names : List Bytes, (∀ name ∈ names, Path.IsName name) →
      (w.held.looking .resolve (.ofNames names)
        ((w.held.canonical (.ofNames names)).map (·.startsWith base.path))).1 = .ok true →
      w.held.Anchored base names := by
    intro names hnames hlooking
    cases hcanonical : w.held.canonical (.ofNames names) with
    | error refusal => simp [hcanonical, Except.map, Disk.looking] at hlooking
    | ok place =>
      obtain ⟨there, hwalk, rfl⟩ := Disk.canonical_eq_ok hcanonical
      rw [Path.steps_ofNames hnames] at hwalk
      have hstarts : there.path.startsWith base.path = true := by
        simpa [hcanonical, Except.map, Disk.looking] using hlooking
      exact .here (Disk.walkLinks_use_iff.1 hwalk) ((Path.startsWith_path there base).1 hstarts)
  -- The paths are tried from the place upwards, until something is present.
  induction names with
  | nil =>
    rw [Path.ancestors_ofNames_nil, perform_leadsInside_cons]
    split
    · exact ⟨_, rfl, hpresent [] hnames⟩
    · exact ⟨.ok false, rfl, by simp⟩
  | cons name names ih =>
    have hnames' : ∀ other ∈ names, Path.IsName other := fun other hother =>
      hnames other (by simp [hother])
    rw [Path.ancestors_ofNames_cons hnames, perform_leadsInside_cons]
    split
    · exact ⟨_, rfl, hpresent (name :: names) hnames⟩
    · next habsent =>
      obtain ⟨result, hperform, hresult⟩ := ih hnames'
      refine ⟨result, hperform, fun htrue => .above (fun hcheck hoccupied => habsent ?_)
        (hresult htrue)⟩
      exact Disk.isPresent_of_occupied hnames hcheck hoccupied

/-- What a disk holds after it was asked for directories. -/
theorem held_request_makeDirectories (p : Path) (w : World Disk) :
    ((request (Disk.filesReading read host format) (.makeDirectories p)).perform w).2.held =
      (w.held.makeDirectories p).2 := by
  have hanswer : (Disk.filesReading read host format).answer (.makeDirectories p) w.held =
      w.held.answer (.makeDirectories p) host format := rfl
  rw [perform_request, hanswer, Disk.answer]
  rcases w.held.makeDirectories p with ⟨_ | _, made⟩
  · rfl
  · rfl

/-- Making a directory of an archive makes the directories on the way to it. -/
theorem held_extractDirectory (m : Member) (place : Path) (w : World Disk) :
    ((extractDirectory (Disk.filesReading read host format) m place).perform w).2.held =
      (w.held.makeDirectories place).2 := by
  rw [extractDirectory, perform_bind, ← held_request_makeDirectories read host format place w]
  rcases (request (Disk.filesReading read host format) (.makeDirectories place)).perform w with
    ⟨_ | _, after⟩
  · rfl
  · rfl

/-- Making a file of an archive writes it. -/
theorem held_extractFile (m : Member) (place : Path) (w : World Disk) :
    ((extractFile (Disk.filesReading read host format) m place).perform w).2.held =
      (w.held.write place m.data .truncate host).2 := by
  have hwrite : ((request (Disk.filesReading read host format)
      (.write place m.data .truncate)).perform w).2.held =
        (w.held.write place m.data .truncate host).2 := rfl
  rw [extractFile, perform_bind, ← hwrite]
  rcases (request (Disk.filesReading read host format)
    (.write place m.data .truncate)).perform w with ⟨_ | _, after⟩
  · rfl
  · rfl

/-- Making the directory of a file makes directories on the way to the file, if anything. -/
theorem held_readyParent (hnames : ∀ name ∈ names, Path.IsName name) (w : World Disk) :
    let ready := readyParent (Disk.filesReading read host format) base.path (.ofNames names)
    (ready.perform w).2.held = w.held ∨
      ∃ outer, outer <:+ names ∧
        (ready.perform w).2.held = (w.held.makeDirectories (.ofNames outer)).2 := by
  cases names with
  | nil =>
    rw [readyParent, Path.parent_ofNames_nil]
    exact .inl rfl
  | cons name names =>
    refine .inr ⟨names, List.suffix_cons name names, ?_⟩
    rw [readyParent, Path.parent_ofNames_cons hnames]
    simp only [perform_bind]
    rw [← held_request_makeDirectories read host format (.ofNames names) w]
    rcases (request (Disk.filesReading read host format)
      (.makeDirectories (.ofNames names))).perform w with ⟨_ | _, after⟩
    · rfl
    · have hcanonical : (Disk.filesReading read host format).answer
          (.canonical (.ofNames names)) after.held =
        after.held.looking .resolve (.ofNames names) (after.held.canonical (.ofNames names)) := rfl
      simp only [perform_request, hcanonical]
      cases after.held.canonical (.ofNames names) <;> rfl

/-- Making the directory of a file at an anchored place and then the file changes nothing outside
the destination. -/
theorem changesBelow_extractPlaced (hnames : ∀ name ∈ names, Path.IsName name) {w : World Disk}
    (h : w.held.Anchored base names) (m : Member) :
    w.held.ChangesBelow base ((do
      if ← readyParent (Disk.filesReading read host format) base.path (.ofNames names) then
        extractFile (Disk.filesReading read host format) m (.ofNames names)
      else escaped m : ShellM Disk Unit).perform w).2.held := by
  have hready : w.held.Grows ((readyParent (Disk.filesReading read host format) base.path
        (.ofNames names)).perform w).2.held ∧
      w.held.ChangesBelow base ((readyParent (Disk.filesReading read host format) base.path
        (.ofNames names)).perform w).2.held := by
    rcases held_readyParent read host format base hnames w with hsame | ⟨outer, houter, hheld⟩
    · rw [hsame]
      exact ⟨.refl _, .refl _⟩
    · rw [hheld]
      exact ⟨Disk.grows_makeDirectories _ _, h.makeDirectories hnames houter⟩
  rw [perform_bind]
  rcases hperform : (readyParent (Disk.filesReading read host format) base.path
    (.ofNames names)).perform w with ⟨_ | _ | _, after⟩ <;> rw [hperform] at hready
  · exact hready.2
  · exact hready.2
  · -- The file is written where the place leads once its directories are made.
    simp only [if_true, held_extractFile]
    exact hready.2.trans (h.write hnames hready.1)

/-- Extracting a member changes nothing outside the destination. -/
theorem changesBelow_extract (m : Member) (w : World Disk) :
    w.held.ChangesBelow base
      ((extract (Disk.filesReading read host format) base.path m).perform w).2.held := by
  obtain ⟨names, hnames, hplace⟩ : ∃ names, (∀ name ∈ names, Path.IsName name) ∧
      memberPlace base.path m = .ofNames names := by
    have habsolute : base.path.isAbsolute = true := by
      rw [← Path.ofNames_location, Path.isAbsolute_ofNames]
    exact Path.exists_normalize_eq (Path.isAbsolute_join habsolute (.ofString m.name))
  -- Only a place that was found to lie inside is anchored there, and the others change nothing.
  obtain ⟨result, hleads, hanchored⟩ := perform_leadsInside read host format base hnames w
  rw [extract, hplace]
  split
  · exact .refl w.held
  · rw [perform_bind, hleads]
    rcases result with _ | _ | _
    · exact .refl w.held
    · exact .refl w.held
    · have hanchored := hanchored rfl
      simp only [Bool.not_true, Bool.false_eq_true, if_false]
      cases m.kind with
      | directory =>
        simp only [held_extractDirectory]
        exact hanchored.makeDirectories hnames (List.suffix_refl names)
      | file =>
        simp only
        split
        · exact .refl w.held
        · exact changesBelow_extractPlaced read host format base hnames hanchored m

/-- Extracting members changes nothing outside the destination, whether or not all of them are
extracted. -/
theorem changesBelow_extractAll (members : List Member) (w : World Disk) :
    w.held.ChangesBelow base
      ((extractAll (Disk.filesReading read host format) base.path members).perform w).2.held := by
  -- The members are extracted in turn, and a fault ends the extraction.
  induction members generalizing w with
  | nil => exact .refl w.held
  | cons m rest ih =>
    have hfirst := changesBelow_extract read host format base m w
    rw [extractAll, perform_bind]
    rcases hperform : (extract (Disk.filesReading read host format) base.path m).perform w with
      ⟨_ | _, after⟩
    · rwa [hperform] at hfirst
    · rw [hperform] at hfirst
      exact hfirst.trans (ih after)

/-- Extracting members to a destination that is made first changes only what lies below it, and
makes directories on the way to it. -/
theorem changes_destination (destination : Path) (members : List Member) (w : World Disk)
    (location : Location) :
    let after := ((do
      request (Disk.filesReading read host format) (.makeDirectories destination)
      let base ← request (Disk.filesReading read host format) (.canonical destination)
      extractAll (Disk.filesReading read host format) base members :
        ShellM Disk Unit).perform w).2.held
    let made := (w.held.makeDirectories destination).2
    (∃ base : Location, made.canonical destination = .ok base.path ∧ base <:+ location) ∨
      after.get? location = made.get? location := by
  have hmade := held_request_makeDirectories read host format destination w
  simp only
  rw [perform_bind, ← hmade]
  rcases (request (Disk.filesReading read host format)
    (.makeDirectories destination)).perform w with ⟨_ | _, after⟩
  · exact .inr rfl
  · have hanswer : (Disk.filesReading read host format).answer (.canonical destination) after.held =
      after.held.looking .resolve destination (after.held.canonical destination) := rfl
    simp only [perform_bind, perform_request, hanswer]
    cases hcanonical : after.held.canonical destination with
    | error refusal => exact .inr rfl
    | ok place =>
      obtain ⟨base, -, rfl⟩ := Disk.canonical_eq_ok hcanonical
      rcases changesBelow_extractAll read host format base members after location with
        hbelow | hsame
      · exact .inl ⟨base, rfl, hbelow⟩
      · exact .inr hsame

/-- With good arguments the archive is read first, and then extracted to the destination. -/
theorem perform_runUnzip {args : List String} {archive : String} {directory : Option String}
    (h : unzipOperands none none args = some (archive, directory)) (w : World Disk) :
    (runUnzip (Disk.filesReading read host format) args).perform w =
      match read (w.session.resolve archive) w.held with
      | .error stop => (.error stop, w)
      | .ok members =>
        (do
          request (Disk.filesReading read host format)
            (.makeDirectories (w.session.destination directory))
          let base ← request (Disk.filesReading read host format)
            (.canonical (w.session.destination directory))
          extractAll (Disk.filesReading read host format) base members :
            ShellM Disk Unit).perform w := by
  have hanswer : ∀ p, (Disk.filesReading read host format).answer (.members p) w.held =
    (read p w.held, w.held) := fun _ => rfl
  simp only [runUnzip, h, perform_bind, perform_resolve, perform_request, hanswer]
  cases read (w.session.resolve archive) w.held with
  | error stop => rfl
  | ok members =>
    cases directory with
    | none => simp only [perform_bind, perform_session, perform_pure, perform_request,
        Session.destination]
    | some typed => simp only [perform_bind, perform_resolve, perform_request, Session.destination]

/-- Extraction changes nothing outside the destination, except that it makes the directories on the
way to the destination first. -/
theorem changes_runUnzip (args : List String) (w : World Disk) (location : Location) :
    let after := ((runUnzip (Disk.filesReading read host format) args).perform w).2.held
    after.get? location = w.held.get? location ∨
      ∃ archive directory, unzipOperands none none args = some (archive, directory) ∧
        let destination := w.session.destination directory
        let made := (w.held.makeDirectories destination).2
        (∃ base : Location, made.canonical destination = .ok base.path ∧ base <:+ location) ∨
          (w.held.get? location = none ∧ made.get? location = some .directory ∧
            after.get? location = some .directory) := by
  intro after
  -- Without good arguments, or when the archive cannot be read, nothing is changed at all.
  cases hoperands : unzipOperands none none args with
  | none =>
    refine .inl ?_
    simp only [after, runUnzip, hoperands]
    rfl
  | some operands =>
    obtain ⟨archive, directory⟩ := operands
    have hperform := perform_runUnzip read host format hoperands w
    cases hread : read (w.session.resolve archive) w.held with
    | error stop =>
      refine .inl ?_
      simp only [after, hperform, hread]
    | ok members =>
      have hafter := changes_destination read host format (w.session.destination directory)
        members w location
      simp only [hread] at hperform
      simp only [← hperform] at hafter
      rcases hafter with hbelow | hsame
      · exact .inr ⟨archive, directory, rfl, .inl hbelow⟩
      · -- Outside the destination only the first step changes anything.
        rcases Disk.grows_makeDirectories w.held (w.session.destination directory) location with
          hold | ⟨hnone, hdir⟩
        · exact .inl (hsame.trans hold)
        · exact .inr ⟨archive, directory, rfl, .inr ⟨hnone, hdir, hsame.trans hdir⟩⟩

end Builtin

/-- Extraction from the command line, without a redirection, changes nothing outside the destination
once symbolic links are followed, except that it makes the directories on the way to the destination
first. This holds for whatever the archive is said to hold, for every disk and every session, and
whether or not the extraction comes to its end. -/
theorem dispatch_unzip_contained (read : Path → Disk → Except Stop (List Member)) (host : Host)
    (format : Archive.Format) (args : List String) (w : World Disk) (location : Location) :
    let after := ((dispatch (Disk.filesReading read host format)
      ⟨"unzip", args, none⟩).perform w).2.held
    after.get? location = w.held.get? location ∨
      ∃ archive directory, Builtin.unzipOperands none none args = some (archive, directory) ∧
        let destination := w.session.destination directory
        let made := (w.held.makeDirectories destination).2
        (∃ base : Location, made.canonical destination = .ok base.path ∧ base <:+ location) ∨
          (w.held.get? location = none ∧ made.get? location = some .directory ∧
            after.get? location = some .directory) := by
  have hheld : ((dispatch (Disk.filesReading read host format)
        ⟨"unzip", args, none⟩).perform w).2.held =
      ((Builtin.runUnzip (Disk.filesReading read host format) args).perform w).2.held := by
    have hplain := perform_dispatch_plain (Disk.filesReading read host format) args
      (Builtin.ofName?_name .unzip) w
    rw [show "unzip" = Builtin.unzip.name from rfl, hplain, held_invoke]
    rfl
  rw [hheld]
  exact Builtin.changes_runUnzip read host format args w location

end CommandShell
