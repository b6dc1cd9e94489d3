import CommandShell.Proofs.Changes

/-!
# Disks without symbolic links

Without symbolic links a path of names leads to the location with these names, and to no other one.
Every call on such a path can then be said in terms of what lies there.

## Main definitions

* `Disk.Plain`: a disk without symbolic links.

## Main results

* `Disk.Plain.reaches_iff`: a path of names leads to the location with these names;
* `Disk.Plain.walk_path`: the spot that the path of a location leads to;
* `Disk.Plain.lookAt_writeFile`: a file that was written is read back.
-/

namespace CommandShell

namespace Disk

/-- A disk without symbolic links. -/
def Plain (d : Disk) : Prop :=
  ∀ location target, d.get? location ≠ some (.link target)

variable {d : Disk}

/-- A disk is plain when none of its entries is a link. -/
theorem plain_of_entries (h : d.entries.all (fun placed => !(placed.2 matches .link _)) = true) :
    d.Plain := by
  intro location target hget
  rw [get?, entryAt] at hget
  split at hget
  · cases hget
  · obtain ⟨before, after, hentries, -⟩ := List.lookup_eq_some_iff.1 hget
    have hlink := List.all_eq_true.1 h (location, .link target) (by simp [hentries])
    cases hlink

/-- What something lies below is a directory. -/
theorem directory_of_append {name : FileName} {inner outer : Location}
    (h : (d.get? (name :: (inner ++ outer))).isSome) : d.get? outer = some .directory := by
  obtain ⟨entry, hentry⟩ := Option.isSome_iff_exists.1 h
  have hdir := directory_of_get? hentry
  induction inner generalizing name entry with
  | nil => exact hdir
  | cons next inner ih =>
    exact ih (by rw [← List.cons_append, hdir]; rfl) _ hdir (directory_of_get? hdir)

/-- What something lies below exists. -/
theorem isSome_of_append {inner outer : Location} (h : (d.get? (inner ++ outer)).isSome) :
    (d.get? outer).isSome := by
  cases inner with
  | nil => exact h
  | cons name inner => rw [directory_of_append h, Option.isSome_some]

/-! ## Paths of locations -/

/-- A separator is no NUL. -/
@[simp]
theorem nul_ne_separator : (0 : UInt8) ≠ separator := by decide

/-- No NUL is in the path of a location. -/
theorem nul_notMem_path (location : Location) : 0 ∉ location.path.bytes := by
  induction location with
  | nil => decide
  | cons name above ih =>
    have hname : 0 ∉ name.bytes := name.legal.2.2.2.2.1

    rw [← Path.ofNames_location] at ih ⊢
    rw [List.map_cons, Path.ofNames_cons]
    split
    · simp [hname]
    · simp [hname, ih]

/-- The path of a location can be served unless it is too long. -/
theorem checkPath_path {location : Location} :
    checkPath location.path = .ok () ↔ location.path.size < pathLimit := by
  rw [checkPath_eq_ok]
  have hbytes : location.path.bytes ≠ [] := by simp [Location.path]
  exact ⟨fun h => h.2.1, fun h => ⟨nul_notMem_path location, h, hbytes⟩⟩

/-- The steps of the path of a location are its names. -/
theorem steps_path (location : Location) :
    location.path.steps = (location.map FileName.bytes).reverse.map .name := by
  rw [← Path.ofNames_location, Path.steps_ofNames fun _ => Path.isName_of_mem_location]

/-- The path of a location has no separator at its end. -/
theorem dropSlash_steps_path (location : Location) :
    Step.dropSlash location.path.steps = location.path.steps := by
  rw [steps_path, Step.dropSlash_names]

/-- The last name of the path of a location. -/
theorem fileName_path_cons (name : FileName) (above : Location) :
    (Location.path (name :: above)).fileName = some name.bytes := by
  have hnames : ∀ bytes ∈ (name :: above).map FileName.bytes, Path.IsName bytes :=
    fun _ => Path.isName_of_mem_location
  rw [← Path.ofNames_location, Path.fileName, Path.components_ofNames hnames, List.map_cons,
    List.reverse_cons, List.map_append, ← List.cons_append, List.getLast?_append]
  rfl

/-- The root has no last name. -/
theorem fileName_path_nil : (Location.path []).fileName = none := by
  decide

/-- Above the path of a location is that of the directory it lies in. -/
theorem parent_path_cons (name : FileName) (above : Location) :
    (Location.path (name :: above)).parent = some (Location.path above) := by
  have hnames : ∀ bytes ∈ (name :: above).map FileName.bytes, Path.IsName bytes :=
    fun _ => Path.isName_of_mem_location
  rw [← Path.ofNames_location, ← Path.ofNames_location]
  exact Path.parent_ofNames_cons hnames

/-- The path of an entry of a directory is that of its location. -/
theorem child_path (here : Location) (name : FileName) :
    here.path.child name = Location.path (name :: here) := by
  rw [Path.child, ← Path.ofNames_location, ← Path.ofNames_location, List.map_cons]
  exact Path.join_ofNames (Path.isName_of_legal name.legal) fun _ => Path.isName_of_mem_location

/-- The paths above the path of a location begin with that path and that of the directory. -/
theorem ancestors_path_cons (name : FileName) (above : Location) :
    (Location.path (name :: above)).ancestors =
      Location.path (name :: above) :: (Location.path above).ancestors := by
  have hnames : ∀ bytes ∈ (name :: above).map FileName.bytes, Path.IsName bytes :=
    fun _ => Path.isName_of_mem_location
  rw [← Path.ofNames_location, ← Path.ofNames_location]
  exact Path.ancestors_ofNames_cons hnames

/-- The path of a location is longer than that of what it lies in. -/
theorem size_path_le (name : FileName) (above : Location) :
    Path.size (Location.path above) ≤ Path.size (Location.path (name :: above)) := by
  rw [← Path.ofNames_location, ← Path.ofNames_location, List.map_cons, Path.ofNames_cons]
  split
  · next he => simp [he, Path.ofNames, Path.size]
  · simp only [Path.size, List.length_append]
    omega

namespace Plain

variable {location : Location} {entry : Entry}

/-- Putting anything but a link keeps a disk plain. -/
theorem put (hplain : d.Plain) (hlink : ∀ target, entry ≠ .link target) (place : Location) :
    (d.put place entry).Plain := by
  intro other target hget
  by_cases haccepts : d.Accepts place entry
  · rw [get?_put haccepts] at hget
    split at hget
    · exact hlink target (Option.some.inj hget)
    · exact hplain other target hget
  · rw [Disk.put, dif_neg haccepts] at hget
    exact hplain other target hget

/-- No entry is a link. -/
theorem ne_link (hplain : d.Plain) (h : d.get? location = some entry) (target : Path) :
    entry ≠ .link target := by
  rintro rfl
  exact hplain location target h

/-- A path of names leads to the location with these names, if something lies there. -/
theorem reaches_iff (hplain : d.Plain) {names : List Bytes} {there : Location} :
    d.Reaches names there ↔ names = there.map FileName.bytes ∧ (d.get? there).isSome := by
  constructor
  · intro h
    -- Each name leads into an entry, as there is no link that could lead elsewhere.
    induction names generalizing there with
    | nil =>
      obtain rfl := reaches_nil.1 h
      exact ⟨rfl, rfl⟩
    | cons name names ih =>
      obtain ⟨above, last, habove, rfl, ⟨target, hlink⟩ | ⟨rfl, entry, hget⟩⟩ := h.above
      · exact absurd hlink (hplain _ _)
      · obtain ⟨rfl, -⟩ := ih habove
        exact ⟨rfl, by simp [hget]⟩
  · rintro ⟨rfl, hsome⟩
    induction there with
    | nil => exact reaches_nil.2 rfl
    | cons name above ih =>
      obtain ⟨entry, hget⟩ := Option.isSome_iff_exists.1 hsome
      exact (ih (by simp [directory_of_get? hget])).enter hget (hplain.ne_link hget)

/-! ## Walks -/

/-- A walk along the path of a location makes its last step from the directory above. -/
theorem walk_path (hplain : d.Plain) (purpose : Purpose) {name : FileName} {above : Location}
    (hdir : d.get? above = some .directory)
    (hsize : Path.size (Location.path (name :: above)) < pathLimit) :
    ∃ links, d.walk purpose (Location.path (name :: above)) =
      d.walkLinks purpose links above [.name name.bytes] := by
  obtain ⟨used, hused, hleads⟩ := hplain.reaches_iff.2 ⟨rfl, by rw [hdir, Option.isSome_some]⟩
  -- All names but the last lead to the directory.
  refine ⟨linkLimit - used, ?_⟩
  rw [walk, checkPath_path.2 hsize, steps_path, List.map_cons, Step.map_name_reverse_cons]
  exact walkLinks_of_leads hleads hused (.inr (by simp))

/-- A walk finds what lies at a location. -/
theorem walk_found (hplain : d.Plain) (purpose : Purpose) (hsome : (d.get? location).isSome)
    (hsize : location.path.size < pathLimit) :
    d.walk purpose location.path = .ok (.found location) := by
  cases location with
  | nil =>
    rw [walk, checkPath_path.2 hsize, steps_path]
    exact walkLinks_nil
  | cons name above =>
    obtain ⟨entry, hget⟩ := Option.isSome_iff_exists.1 hsome
    obtain ⟨links, hwalk⟩ := hplain.walk_path purpose (directory_of_get? hget) hsize
    rw [hwalk, walkLinks_enter hget (hplain.ne_link hget) (by simp), walkLinks_nil]

/-- A walk to a location where nothing lies ends at the vacant place. -/
theorem walk_vacant (hplain : d.Plain) (purpose : Purpose) {name : FileName} {above : Location}
    (hdir : d.get? above = some .directory) (hnone : d.get? (name :: above) = none)
    (hsize : Path.size (Location.path (name :: above)) < pathLimit) :
    d.walk purpose (Location.path (name :: above)) = .ok (.vacant above name) := by
  obtain ⟨links, hwalk⟩ := hplain.walk_path purpose hdir hsize
  rw [hwalk]
  simp [walkLinks_eq, walkFrom, hdir, hnone]

/-! ## Looking -/

/-- What lies at the path of a location is what lies at the location. -/
theorem lookAt_path (hplain : d.Plain) :
    d.lookAt location.path = .ok entry ↔
      location.path.size < pathLimit ∧ d.get? location = some entry := by
  constructor
  · intro h
    have hsize := size_lt_of_lookAt h
    refine ⟨hsize, ?_⟩
    obtain ⟨there, hwalk, hget⟩ := lookAt_eq_ok.1 h
    -- The steps of the path are the names of the location, so the walk ends there.
    have hsteps := (walk_eq_ok hwalk).2
    rw [steps_path] at hsteps
    obtain ⟨hnames, -⟩ := hplain.reaches_iff.1 (walkLinks_use_iff.1 hsteps)
    obtain rfl := (List.map_inj_right fun _ _ he => FileName.bytes_injective he).1 hnames
    exact hget
  · rintro ⟨hsize, hget⟩
    exact lookAt_eq_ok.2 ⟨location, hplain.walk_found .use (by simp [hget]) hsize, hget⟩

/-- Something is present at the path of a location when something lies there. -/
theorem isPresent_path (hplain : d.Plain) (hsome : (d.get? location).isSome)
    (hsize : location.path.size < pathLimit) : d.isPresent location.path = true := by
  rw [isPresent, find, hplain.walk_found .useLink hsome hsize]

/-- Nothing is present where nothing lies. -/
theorem isPresent_vacant (hplain : d.Plain) {name : FileName} {above : Location}
    (hdir : d.get? above = some .directory) (hnone : d.get? (name :: above) = none)
    (hsize : Path.size (Location.path (name :: above)) < pathLimit) :
    d.isPresent (Location.path (name :: above)) = false := by
  rw [isPresent, find, hplain.walk_vacant .useLink hdir hnone hsize]

/-- The path of a location where something lies is canonical. -/
theorem canonical_path (hplain : d.Plain) (hsome : (d.get? location).isSome)
    (hsize : location.path.size < pathLimit) : d.canonical location.path = .ok location.path := by
  obtain ⟨-, hwalk⟩ := walk_eq_ok (hplain.walk_found .use hsome hsize)
  have hbytes : location.path.bytes ≠ [] := by simp [Location.path]
  rw [canonical, if_neg (nul_notMem_path location), if_neg hbytes, hwalk]
  simp [Nat.not_le.2 hsize]

/-! ## Changing -/

/-- No directory is made where one lies. -/
theorem makeDirectories_path (hplain : d.Plain) (hdir : d.get? location = some .directory)
    (hsize : location.path.size < pathLimit) :
    d.makeDirectories location.path = (.ok (), d) :=
  makeDirectories_of_isDirectory (isDirectory_eq_true.2 (hplain.lookAt_path.2 ⟨hsize, hdir⟩))

/-- The directories on the way to a vacant place exist, and only the last one is made. -/
theorem makeDirectories_vacant (hplain : d.Plain) {name : FileName} {above : Location}
    (hdir : d.get? above = some .directory) (hnone : d.get? (name :: above) = none)
    (hsize : Path.size (Location.path (name :: above)) < pathLimit) :
    d.makeDirectories (Location.path (name :: above)) =
      (.ok (), d.put (name :: above) .directory) := by
  obtain ⟨hcheck, hwalk⟩ := walk_eq_ok (hplain.walk_vacant .useLink hdir hnone hsize)
  rw [← dropSlash_steps_path] at hwalk
  exact makeDirectories_of_vacant hcheck hwalk

/-- A file is made at the path of a vacant place. -/
theorem write_vacant (hplain : d.Plain) {name : FileName} {above : Location}
    (hdir : d.get? above = some .directory) (hnone : d.get? (name :: above) = none)
    (hsize : Path.size (Location.path (name :: above)) < pathLimit) (bytes : Bytes) :
    d.write (Location.path (name :: above)) bytes .truncate =
      (.ok (), (d.put (name :: above) (.file [])).put (name :: above) (.file bytes)) := by
  have hopen : d.openFile (Location.path (name :: above)) =
      .ok (name :: above, d.put (name :: above) (.file [])) := by
    simp [openFile, hplain.walk_vacant .makeFile hdir hnone hsize, bind, Except.bind]
  -- Opening makes the file, and the bytes then replace nothing.
  have hget : (d.put (name :: above) (.file [])).get? (name :: above) = some (.file []) := by
    rw [get?_put (accepts_of_vacant hdir hnone _), if_pos rfl]
  simp [write, hopen, writeAt_file hget, finishing, WriteMode.apply]

end Plain

/-- What lies where after a file was made in a vacant place and written. -/
theorem get?_put_put {name : FileName} {above : Location} (hdir : d.get? above = some .directory)
    (hnone : d.get? (name :: above) = none) (bytes : Bytes) (other : Location) :
    ((d.put (name :: above) (.file [])).put (name :: above) (.file bytes)).get? other =
      if other = name :: above then some (.file bytes) else d.get? other := by
  have hempty := get?_put (accepts_of_vacant hdir hnone (.file []))
  rw [get?_put (accepts_of_file (by rw [hempty, if_pos rfl]) bytes), hempty]
  split
  · rfl
  · rfl

/-! ## Plain disks that change -/

/-- A disk that has no other links than a plain one is plain. -/
theorem KeepsLinks.plain {kept : Disk} (h : d.KeepsLinks kept) (hplain : d.Plain) : kept.Plain :=
  fun location target hget => hplain location target (h.link.1 hget)

/-- A file that was written is read back, unless the path leads to a device. -/
theorem Plain.lookAt_writeFile {p : Path} {bytes : Bytes} {written : Disk} {host : Host}
    (hplain : d.Plain)
    (hdevice : ∀ kind, d.lookAt p ≠ .ok (.device kind))
    (h : d.writeFile p bytes .truncate host = (.ok (), written)) :
    written.Plain ∧ written.lookAt p = .ok (.file bytes) := by
  have hkeeps := d.keepsLinks_writeFile p bytes .truncate host
  rw [h] at hkeeps
  exact ⟨hkeeps.plain hplain, Disk.lookAt_writeFile hdevice h⟩

end Disk

end CommandShell
