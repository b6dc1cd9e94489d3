import CommandShell.Disk.Location

/-!
# Entries

What can lie at a location, how a file that lies there is written, and lists of locations with what
lies there.

- `Entry`: a directory, a file, a symbolic link or a device.
- `WriteMode`: whether writing to a file that exists replaces or extends its content.
- `entryAt`: what a list says about a location.
- `placeIn`, `clearIn`: a list with one location changed or left out; `lookup_placeIn` and
  `lookup_clearIn` say what the changed list says.
-/

namespace CommandShell

/-- A file without content of its own. -/
inductive Device
  /-- Takes everything and is always empty. -/
  | null
  /-- Takes nothing, for want of room, and never ends. -/
  | full
  /-- Counts as a regular file, but reading from it and writing to it fail. -/
  | faulty
  deriving DecidableEq, Repr

/-- What lies at a location. -/
inductive Entry
  /-- A directory. -/
  | directory
  /-- A regular file with its content. -/
  | file (content : Bytes)
  /-- A symbolic link with its text. -/
  | link (target : Path)
  /-- A device. -/
  | device (kind : Device)
  deriving DecidableEq

/-- How a file that exists already is written. -/
inductive WriteMode
  /-- The old content is replaced. -/
  | truncate
  /-- The new content goes behind the old. -/
  | append
  deriving DecidableEq, Repr

/-- The content of a file after some bytes were written to it. -/
def WriteMode.apply (mode : WriteMode) (old new : Bytes) : Bytes :=
  match mode with
  | truncate => new
  | append => old ++ new

/-- What a list of placed entries says about a location; the root is a directory. -/
def entryAt (entries : List (Location × Entry)) (location : Location) : Option Entry :=
  if location = [] then some .directory else entries.lookup location

/-! ## Changing a list -/

/-- The list with one location replaced, or added at the end. -/
def placeIn (entries : List (Location × Entry)) (location : Location) (entry : Entry) :
    List (Location × Entry) :=
  match entries with
  | [] => [(location, entry)]
  | placed :: rest =>
    if placed.1 = location then (location, entry) :: rest
    else placed :: placeIn rest location entry

/-- Replacing keeps the locations and adding appends one. -/
theorem map_fst_placeIn (entries : List (Location × Entry)) (location : Location)
    (entry : Entry) :
    (placeIn entries location entry).map Prod.fst =
      if location ∈ entries.map Prod.fst then entries.map Prod.fst
      else entries.map Prod.fst ++ [location] := by
  induction entries with
  | nil => simp [placeIn]
  | cons placed rest ih =>
    by_cases h : placed.1 = location
    · simp [placeIn, h]
    · have h' : ¬location = placed.1 := fun e => h e.symm
      by_cases hm : location ∈ rest.map Prod.fst <;> simp [placeIn, h, h', ih, hm]

/-- The list says the new entry about the location, and nothing new about the others. -/
theorem lookup_placeIn (entries : List (Location × Entry)) (location other : Location)
    (entry : Entry) :
    (placeIn entries location entry).lookup other =
      if other = location then some entry else entries.lookup other := by
  induction entries with
  | nil =>
    by_cases h : other = location
    · simp [placeIn, h]
    · have : (other == location) = false := by simpa using h
      simp [placeIn, List.lookup_cons, this, h]
  | cons placed rest ih =>
    obtain ⟨place, e⟩ := placed
    by_cases h : place = location
    · subst h
      by_cases ho : other = place
      · simp [placeIn, ho]
      · have : (other == place) = false := by simpa using ho
        simp [placeIn, ho, List.lookup_cons, this]
    · by_cases ho : other = place
      · subst ho
        simp [placeIn, h]
      · have : (other == place) = false := by simpa using ho
        simp [placeIn, h, List.lookup_cons, this, ih]

/-- A placed entry is the new one or was there before. -/
theorem mem_placeIn {entries : List (Location × Entry)} {location : Location} {entry : Entry}
    {placed : Location × Entry} (h : placed ∈ placeIn entries location entry) :
    placed = (location, entry) ∨ placed ∈ entries := by
  induction entries with
  | nil => simpa [placeIn] using h
  | cons first rest ih =>
    by_cases hf : first.1 = location
    · simp only [placeIn, hf, if_true, List.mem_cons] at h
      rcases h with h | h
      · exact .inl h
      · exact .inr (List.mem_cons_of_mem _ h)
    · simp only [placeIn, hf, if_false, List.mem_cons] at h
      rcases h with h | h
      · exact .inr (by simp [h])
      · exact (ih h).imp id (List.mem_cons_of_mem _)

/-- A location is listed exactly when the list says something about it. -/
theorem lookup_isSome_iff (entries : List (Location × Entry)) (location : Location) :
    (entries.lookup location).isSome ↔ location ∈ entries.map Prod.fst := by
  induction entries with
  | nil => simp
  | cons placed rest ih =>
    obtain ⟨place, e⟩ := placed
    by_cases h : location = place
    · simp [h]
    · have : (location == place) = false := by simpa using h
      simp only [List.lookup_cons, this, ih, List.map_cons, List.mem_cons, h, false_or]

/-- The list without one location. -/
def clearIn (entries : List (Location × Entry)) (location : Location) :
    List (Location × Entry) :=
  entries.filter (·.1 ≠ location)

/-- The list says nothing about the location any more, and the same about the others. -/
theorem lookup_clearIn (entries : List (Location × Entry)) (location other : Location) :
    (clearIn entries location).lookup other =
      if other = location then none else entries.lookup other := by
  induction entries with
  | nil => simp [clearIn]
  | cons placed rest ih =>
    obtain ⟨place, e⟩ := placed
    simp only [clearIn] at ih ⊢
    by_cases h : place = location
    · subst h
      by_cases ho : other = place
      · simp [ho] at ih ⊢
        exact ih
      · have : (other == place) = false := by simpa using ho
        simp [ho, List.lookup_cons, this] at ih ⊢
        exact ih
    · by_cases ho : other = place
      · subst ho
        simp [h]
      · have : (other == place) = false := by simpa using ho
        simp [h, List.lookup_cons, this] at ih ⊢
        exact ih

end CommandShell
