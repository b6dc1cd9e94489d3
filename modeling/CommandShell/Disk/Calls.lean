import CommandShell.Disk.Walk

/-!
# Calls on a disk

What a disk can be asked to do with paths. A call that is refused leaves the disk as it is, with two
exceptions: `Disk.makeDirectories` keeps the directories it made before the refusal, and what is
done to an opened file may break off, so that a new, an emptied or a partly written file is left.
Whether it breaks off is up to the machine that holds the disk.

- `Host`: how such a machine fails; `Host.reliable` never does.
- `Disk.lookAt`, `Disk.isDirectory`, `Disk.isPresent`: what lies at a path.
- `Disk.content`, `Disk.names`, `Disk.canonical`: a file's bytes, a directory's names, and the
  absolute path without symbolic links.
- `Disk.openFile`, `Disk.writeAt`, `Disk.writeFile`, `Disk.copyFile`: files.
- `Disk.makeDirectory`, `Disk.makeDirectories`, `Disk.removeDirectory`: directories.
- `Disk.removeFile`, `Disk.makeLink`: entries that are not directories.
-/

namespace CommandShell

/-! ## Machines -/

/-- What is left open about the machine that holds a disk: how it fails with a file that it has
opened. It may be out of room, break down, or not let its user do more than open the file. -/
structure Host where
  /-- How a transfer of bytes to the file at a location breaks off: after so many of them, and
  why. -/
  breaksOff : Disk → Location → Bytes → Option (Nat × Refusal)
  /-- Why the time of the file at a location cannot be set. -/
  keepsTime : Disk → Location → Option Refusal

/-- The machine that ends what it begins with an opened file. -/
def Host.reliable : Host where
  breaksOff _ _ _ := none
  keepsTime _ _ := none

/-- Nothing breaks off on a reliable machine. -/
@[simp]
theorem Host.reliable_breaksOff (d : Disk) (location : Location) (bytes : Bytes) :
    Host.reliable.breaksOff d location bytes = none := rfl

/-- Times can be set on a reliable machine. -/
@[simp]
theorem Host.reliable_keepsTime (d : Disk) (location : Location) :
    Host.reliable.keepsTime d location = none := rfl

namespace Device

/-- The bytes that are read from a device. -/
def content : Device → Except Refusal Bytes
  | null => .ok []
  | full => .error .outOfMemory
  | faulty => .error .transferFailed

/-- Whether a device takes some bytes. -/
def take (kind : Device) (bytes : Bytes) : Except Refusal Unit :=
  match kind with
  | null => .ok ()
  | full => if bytes = [] then .ok () else .error .noSpace
  | faulty => if bytes = [] then .ok () else .error .transferFailed

/-- Every device takes no bytes. -/
@[simp]
theorem take_nil (kind : Device) : kind.take [] = .ok () := by
  cases kind <;> rfl

end Device

namespace Disk

/-! ## Looking -/

/-- What lies at a path, through symbolic links. -/
def lookAt (d : Disk) (p : Path) : Except Refusal Entry := do
  let location ← d.find .use p
  match d.get? location with
  | some entry => .ok entry
  | none => .error .notFound

/-- Whether a path leads to a directory, through symbolic links. -/
def isDirectory (d : Disk) (p : Path) : Bool :=
  d.lookAt p matches .ok .directory

/-- Whether anything lies at a path, be it a symbolic link that leads nowhere. -/
def isPresent (d : Disk) (p : Path) : Bool :=
  d.find .useLink p matches .ok _

/-- The bytes of an entry. -/
def bytesOf : Entry → Except Refusal Bytes
  | .file content => .ok content
  | .device kind => kind.content
  | .directory => .error .isDirectory
  | .link _ => .error .tooManyLinks

/-- The bytes of the file at a path. -/
def content (d : Disk) (p : Path) : Except Refusal Bytes := do
  bytesOf (← d.lookAt p)

/-- The names in the directory at a path, oldest first. -/
def names (d : Disk) (p : Path) : Except Refusal (List FileName) := do
  let location ← d.find .use p
  if d.get? location = some .directory then .ok (d.children location)
  else .error .notDirectory

/-- The absolute path without symbolic links, `.` and `..` of what lies at a path. Only the answer
is bound to the length of a path. -/
def canonical (d : Disk) (p : Path) : Except Refusal Path :=
  if 0 ∈ p.bytes then .error .nulByte
  else if p.bytes = [] then .error .notFound
  else
    match d.walkSteps .use p.steps with
    | .error refusal => .error refusal
    | .ok (.vacant ..) => .error .notFound
    | .ok (.found location) =>
      if pathLimit ≤ location.path.size then .error .nameTooLong else .ok location.path

/-! ## Files -/

/-- The location of the file at a path, which is made when nothing lies there. -/
def openFile (d : Disk) (p : Path) : Except Refusal (Location × Disk) := do
  match ← d.walk .makeFile p with
  | .vacant directory name => .ok (name :: directory, d.put (name :: directory) (.file []))
  | .found location =>
    if d.get? location = some .directory then .error .isDirectory else .ok (location, d)

/-- Writes bytes to the file at a location. What is written before the machine breaks off stays. -/
def writeAt (d : Disk) (location : Location) (bytes : Bytes) (mode : WriteMode)
    (host : Host := .reliable) : Except Refusal Unit × Disk :=
  match d.get? location with
  | some (.file old) =>
    match host.breaksOff d location bytes with
    | none => (.ok (), d.put location (.file (mode.apply old bytes)))
    | some (count, refusal) =>
      (.error refusal, d.put location (.file (mode.apply old (bytes.take count))))
  | some (.device kind) => (kind.take bytes, d)
  | _ => (.ok (), d)

/-- Writes the file at a path, which is made when nothing lies there. -/
def writeFile (d : Disk) (p : Path) (bytes : Bytes) (mode : WriteMode)
    (host : Host := .reliable) : Except Refusal Unit × Disk :=
  match d.openFile p with
  | .error refusal => (.error refusal, d)
  | .ok (location, opened) => opened.writeAt location bytes mode host

/-- Whether an entry counts as a regular file. -/
def isRegular : Entry → Bool
  | .file _ | .device .faulty => true
  | _ => false

/-- Copies the bytes of what lies at one location to the opened file at another, which is empty by
then, and counts them. -/
def transfer (d : Disk) (origin location : Location) (host : Host := .reliable) :
    Except Refusal Nat × Disk :=
  match (d.get? origin).elim (.error .notFound) bytesOf with
  | .error refusal => (.error refusal, d)
  | .ok bytes =>
    match d.writeAt location bytes .truncate host with
    | (.ok (), copied) => (.ok bytes.length, copied)
    | (.error refusal, left) => (.error refusal, left)

/-- Copies the bytes of the regular file at one path to the file at another, and counts them. -/
def copyFile (d : Disk) (source target : Path) (host : Host := .reliable) :
    Except Refusal Nat × Disk :=
  match d.find .use source with
  | .error refusal => (.error refusal, d)
  | .ok origin =>
    if (d.get? origin).any isRegular then
      match d.openFile target with
      | .error refusal => (.error refusal, d)
      | .ok (location, opened) =>
        -- Opening empties the target before anything is read, so a file copied onto itself ends
        -- up empty.
        (opened.writeAt location [] .truncate).2.transfer origin location host
    else (.error .notRegular, d)

/-- Removes what lies at a path, a symbolic link and not what it leads to. -/
def removeFile (d : Disk) (p : Path) : Except Refusal Disk := do
  let location ← d.find .useLink p
  if d.get? location = some .directory then .error .isDirectory
  else .ok (d.remove location)

/-- Makes a symbolic link with the given text. -/
def makeLink (d : Disk) (p target : Path) : Except Refusal Disk := do
  match ← d.walk .useLink p with
  | .vacant directory name => .ok (d.put (name :: directory) (.link target))
  | .found _ => .error .alreadyExists

/-! ## Directories -/

/-- Makes the directory at a path. A separator at the end of the path says nothing. -/
def makeDirectory (d : Disk) (p : Path) : Except Refusal Disk := do
  checkPath p
  match ← d.walkSteps .useLink (Step.dropSlash p.steps) with
  | .vacant directory name => .ok (d.put (name :: directory) .directory)
  | .found _ => .error .alreadyExists

/-- Makes the directory at the first of some paths, where each later path is the one above; those
above are made first when they are missing. A directory that exists is fine. -/
def makeDirectoriesAlong (d : Disk) : List Path → Except Refusal Unit × Disk
  | [] => (.error .notFound, d)
  | p :: above =>
    if p.bytes = [] then (.ok (), d)
    else
      match d.makeDirectory p with
      | .ok made => (.ok (), made)
      | .error .notFound =>
        match makeDirectoriesAlong d above with
        | (.error refusal, made) => (.error refusal, made)
        | (.ok (), made) =>
          match made.makeDirectory p with
          | .ok made => (.ok (), made)
          -- Behind a new directory `..` leads to one that exists, and that is fine too.
          | .error refusal =>
            if made.isDirectory p then (.ok (), made) else (.error refusal, made)
      | .error refusal => if d.isDirectory p then (.ok (), d) else (.error refusal, d)

/-- Makes the directory at a path and those above it that are missing. -/
def makeDirectories (d : Disk) (p : Path) : Except Refusal Unit × Disk :=
  d.makeDirectoriesAlong p.ancestors

/-- Removes the empty directory at a path. The last step of the path must be a name, and a symbolic
link is no directory here. -/
def removeDirectory (d : Disk) (p : Path) : Except Refusal Disk := do
  checkPath p
  let steps := Step.dropSlash p.steps
  match steps.getLast? with
  -- Only the root is reached without any step.
  | none => .error .busy
  | some (.name _) =>
    match ← d.walkSteps .useLink steps with
    | .vacant .. => .error .notFound
    | .found location =>
      if d.get? location ≠ some .directory then .error .notDirectory
      else if d.children location ≠ [] then .error .notEmpty
      else .ok (d.remove location)
  | some step =>
    match ← d.walkSteps .use steps.dropLast with
    | .vacant .. => .error .notFound
    | .found location =>
      if d.get? location ≠ some .directory then .error .notDirectory
      -- The directory above a directory holds that one.
      else .error (if step = .up then .notEmpty else .invalidArgument)

end Disk

end CommandShell
