import CommandShell.Archive.Reading
import CommandShell.Disk.Calls
import CommandShell.Storage.Request

/-!
# Whole trees

Copying a directory with everything in it, and collecting what an archive stores of it. Both follow
symbolic links, so a tree may seem to have no end; the length of paths ends the descent, because
each level makes the path longer and no directory is reached by a path as long as `pathLimit`.

- `Disk.copyTree`: copies a directory, after making sure that it is not copied into itself.
- `Disk.gather`: the members that a file or a directory contributes to an archive, in the order in
  which they are stored: a directory before what it holds, siblings sorted by the bytes of their
  names. They are stored under the text that their names are shown as.
- `size_lt_of_isDirectory`: a path that leads to a directory is shorter than `pathLimit`.
- `size_lt_child`: the path of an entry is longer than that of its directory.
-/

namespace CommandShell

/-! ## Growing paths -/

/-- The path of an entry of a directory. -/
def Path.child (directory : Path) (name : FileName) : Path :=
  directory.join ⟨name.bytes⟩

namespace FileName

/-- A name is not empty. -/
theorem length_pos (name : FileName) : 0 < name.bytes.length :=
  List.length_pos_iff.2 name.legal.1

/-- A name read as a path is not absolute. -/
theorem isAbsolute_eq_false (name : FileName) : Path.isAbsolute ⟨name.bytes⟩ = false := by
  have h : separator ∉ name.bytes := name.legal.2.2.2.1
  cases hl : name.bytes with
  | nil => simp [Path.isAbsolute]
  | cons b rest =>
    have : b ≠ separator := fun e => h (by simp [hl, e])
    simp [Path.isAbsolute, this]

end FileName

/-- The path of an entry is longer than that of its directory. -/
theorem Path.size_lt_child (directory : Path) (name : FileName) :
    directory.size < (directory.child name).size := by
  have := name.length_pos
  simp only [child, join, name.isAbsolute_eq_false, Bool.false_eq_true, if_false]
  split
  · simp only [size, List.length_append]
    omega
  · simp only [size, List.length_append, List.length_cons]
    omega

namespace Disk

/-- A path that leads to something is shorter than the limit. -/
theorem size_lt_of_lookAt {d : Disk} {p : Path} {entry : Entry} (h : d.lookAt p = .ok entry) :
    p.size < pathLimit := by
  apply Nat.lt_of_not_le
  intro hlong
  by_cases hnul : 0 ∈ p.bytes <;>
    simp [lookAt, find, walk, checkPath, hnul, hlong, bind, Except.bind] at h

/-- A path that leads to a directory is shorter than the limit. -/
theorem size_lt_of_isDirectory {d : Disk} {p : Path} (h : d.isDirectory p = true) :
    p.size < pathLimit := by
  unfold isDirectory at h
  split at h
  · next heq => exact size_lt_of_lookAt heq
  · cases h

/-! ## Copying -/

/-- Makes the directory that a tree is copied to, unless it exists. -/
def makeTarget (d : Disk) (target : Path) : Except Fault Unit × Disk :=
  if d.isDirectory target then (.ok (), d)
  else
    match d.makeDirectories target with
    | (.ok (), made) => (.ok (), made)
    | (.error refusal, made) => (.error (.refused .makeDirectory target refusal), made)

/-- Copies the named entries of a directory to another one. What was copied before a fault stays. -/
def copyEntries (d : Disk) (source target : Path) (names : List FileName)
    (host : Host := .reliable) : Except Fault Unit × Disk :=
  match names with
  | [] => (.ok (), d)
  | name :: rest =>
    -- Each descent makes the source longer, and a path that leads to a directory is bounded.
    if _h : d.isDirectory (source.child name) then
      match d.makeTarget (target.child name) with
      | (.error fault, made) => (.error fault, made)
      | (.ok (), made) =>
        match made.names (source.child name) with
        | .error refusal => (.error (.refused .access (source.child name) refusal), made)
        | .ok inner =>
          match made.copyEntries (source.child name) (target.child name) inner host with
          | (.error fault, copied) => (.error fault, copied)
          | (.ok (), copied) => copied.copyEntries source target rest host
    else
      match d.copyFile (source.child name) (target.child name) host with
      | (.error refusal, left) => (.error (.refused .create (target.child name) refusal), left)
      | (.ok _, copied) => copied.copyEntries source target rest host
termination_by (pathLimit - source.size, names.length)
decreasing_by
  · have := size_lt_of_isDirectory ‹_›
    have := source.size_lt_child name
    apply Prod.Lex.left
    omega
  all_goals
    apply Prod.Lex.right
    simp

/-- Whether a directory whose canonical path is `source` would be copied to a place inside it. The
place is compared by the canonical path of the directory it lies in, when that exists. -/
def isInside (d : Disk) (source target : Path) : Bool :=
  match d.canonical (target.parent.getD target) with
  | .error _ => false
  | .ok above =>
    let place := match target.fileName with
      | some name => above.join ⟨name⟩
      | none => above
    place.startsWith source

/-- Copies a directory with everything in it to a directory, which is made when it is missing. -/
def copyTree (d : Disk) (source target : Path) (host : Host := .reliable) :
    Except Fault Unit × Disk :=
  match d.lookAt source with
  | .error refusal => (.error (.refused .stat source refusal), d)
  | .ok entry =>
    if entry ≠ .directory then (.error (.refused .copy source .notDirectory), d)
    else
      match d.canonical source with
      | .error refusal => (.error (.refused .resolve source refusal), d)
      | .ok origin =>
        if d.isInside origin target then (.error (.file (.intoItself source target)), d)
        else
          match d.makeTarget target with
          | (.error fault, made) => (.error fault, made)
          | (.ok (), made) =>
            match made.names source with
            | .error refusal => (.error (.refused .access source refusal), made)
            | .ok names => made.copyEntries source target names host

/-! ## Collecting -/

/-- Names in the order of their bytes. -/
def sortNames (names : List FileName) : List FileName :=
  names.mergeSort fun a b => decide (a.bytes ≤ b.bytes)

/-- The members with a directory behind them. -/
def addDirectory (members : List Member) (name : String) (format : Archive.Format := Archive.zip) :
    Except Fault (List Member) :=
  match format.refusesName members name with
  | some fault => .error (.archive fault)
  | none => .ok (members ++ [⟨name, .directory, []⟩])

/-- The members so far and the file at a path. -/
def gatherFile (d : Disk) (path : Path) (name : String) (members : List Member)
    (format : Archive.Format := Archive.zip) : Except Fault (List Member) :=
  match d.lookAt path with
  | .error refusal => .error (.refused .stat path refusal)
  | .ok entry =>
    match format.refusesName members name with
    | some fault => .error (.archive fault)
    | none =>
      match bytesOf entry with
      | .error refusal => .error (.refused .read path refusal)
      | .ok bytes =>
        match format.refusesData members ⟨name, .file, bytes⟩ with
        | some refusal => .error (.refused .read path refusal)
        | none => .ok (members ++ [⟨name, .file, bytes⟩])

/-- The members so far and those that the named entries of a directory contribute, each with
everything in it. `above` is put before their names. -/
def gatherEntries (d : Disk) (directory : Path) (above : String) (names : List FileName)
    (members : List Member) (format : Archive.Format := Archive.zip) : Except Fault (List Member) :=
  match names with
  | [] => .ok members
  | name :: rest =>
    if _h : d.isDirectory (directory.child name) then
      match addDirectory members (directoryName (above ++ name.shown)) format with
      | .error fault => .error fault
      | .ok members =>
        match d.names (directory.child name) with
        | .error refusal => .error (.refused .access (directory.child name) refusal)
        | .ok inner =>
          match d.gatherEntries (directory.child name) (directoryName (above ++ name.shown))
              (sortNames inner) members format with
          | .error fault => .error fault
          | .ok members => d.gatherEntries directory above rest members format
    else
      match d.gatherFile (directory.child name) (above ++ name.shown) members format with
      | .error fault => .error fault
      | .ok members => d.gatherEntries directory above rest members format
termination_by (pathLimit - directory.size, names.length)
decreasing_by
  · have := size_lt_of_isDirectory ‹_›
    have := directory.size_lt_child name
    apply Prod.Lex.left
    omega
  all_goals
    apply Prod.Lex.right
    simp

/-- The members so far and those that a path contributes under a name. -/
def gather (d : Disk) (source : Source) (members : List Member)
    (format : Archive.Format := Archive.zip) : Except Fault (List Member) :=
  if d.isDirectory source.path then
    match addDirectory members (directoryName source.name) format with
    | .error fault => .error fault
    | .ok members =>
      if source.recursive then
        match d.names source.path with
        | .error refusal => .error (.refused .access source.path refusal)
        | .ok names =>
          d.gatherEntries source.path (directoryName source.name) (sortNames names) members format
      else .ok members
  else d.gatherFile source.path source.name members format

/-- The members that some sources contribute, one after the other. -/
def gatherAll (d : Disk) (sources : List Source) (format : Archive.Format := Archive.zip) :
    Except Fault (List Member) :=
  sources.foldlM (fun members source => d.gather source members format) []

end Disk

end CommandShell
