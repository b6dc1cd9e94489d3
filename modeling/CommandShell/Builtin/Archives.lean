import CommandShell.Builtin.Contents

/-!
# Archives

The commands that store in archives and extract them: `zip` and `unzip`.

Extraction stays inside the destination. The name of a member is folded by its text; the place must
lie below the destination, and the deepest part of it that exists must lie there too once symbolic
links are followed. For a file the directory is checked once more after it was made.
-/

namespace CommandShell

namespace Builtin

open ShellM

variable {σ : Type}

/-! ## Storing -/

/-- What the operands contribute to an archive, each under the text that the last name of its
canonical path is shown as. -/
def sourcesOf (files : FileSystem σ) (recursive : Bool) : List String → ShellM σ (List Source)
  | [] => pure []
  | typed :: rest => do
    let path ← request files (.canonical (← resolve typed))
    match path.fileName with
    | none => fail (.command (.cannotStore typed))
    | some name => do
      let sources ← sourcesOf files recursive rest
      pure (⟨path, Utf8.toStringLossy name, recursive⟩ :: sources)

/-- Stores files and directories in an archive. -/
def runZip (files : FileSystem σ) (args : List String) : ShellM σ Unit := do
  let (recursive, operands) := takeRecursive args
  match operands with
  | archive :: first :: rest => do
    let sources ← sourcesOf files recursive (first :: rest)
    let stored ← request files (.store (← resolve archive) sources)
    printEach ("  adding: " ++ ·) stored
  | _ => misused .zip

/-! ## The arguments of extraction -/

/-- The archive and the destination among arguments, given those found before. The destination
follows `-d`; each is given at most once, and no archive is called `-d`. -/
def unzipOperands (archive destination : Option String) :
    List String → Option (String × Option String)
  | [] => archive.map (·, destination)
  | arg :: rest =>
    if arg = "-d" ∧ destination = none then
      match rest with
      | [] => none
      | directory :: rest => unzipOperands archive (some directory) rest
    else if archive = none ∧ arg ≠ "-d" then unzipOperands (some arg) destination rest
    else none

/-! ## Extracting -/

/-- Whether the deepest of some paths that exists lies below the destination, once symbolic links
are followed. The paths lead upwards. -/
def leadsInside (files : FileSystem σ) (base : Path) : List Path → ShellM σ Bool
  | [] => pure false
  | p :: above => do
    if ← request files (.isPresent p) then
      let place ← request files (.canonical p)
      pure (place.startsWith base)
    else leadsInside files base above

/-- Stops because a member would land outside the destination. -/
def escaped (m : Member) : ShellM σ Unit :=
  fail (.command (.escapes m.name))

/-- The place of a member: its name read from the destination and folded. -/
def memberPlace (base : Path) (m : Member) : Path :=
  (base.join (.ofString m.name)).normalize

/-- Makes a directory of an archive. -/
def extractDirectory (files : FileSystem σ) (m : Member) (place : Path) : ShellM σ Unit := do
  request files (.makeDirectories place)
  printLine ("   creating: " ++ m.name)

/-- Writes a file of an archive. -/
def extractFile (files : FileSystem σ) (m : Member) (place : Path) : ShellM σ Unit := do
  request files (.write place m.data .truncate)
  printLine ("  inflating: " ++ m.name)

/-- Makes the directory of a file of an archive, and says whether it lies below the destination. -/
def readyParent (files : FileSystem σ) (base place : Path) : ShellM σ Bool := do
  match place.parent with
  | none => pure true
  | some above => do
    request files (.makeDirectories above)
    let parent ← request files (.canonical above)
    pure (parent.startsWith base)

/-- Extracts a member. -/
def extract (files : FileSystem σ) (base : Path) (m : Member) : ShellM σ Unit := do
  let place := memberPlace base m
  -- First by the text alone, then by what exists on the way.
  if !place.isWithin base then escaped m
  else if !(← leadsInside files base place.ancestors) then escaped m
  else
    match m.kind with
    | .directory => extractDirectory files m place
    | .file =>
      -- The destination itself is a directory and cannot become a file.
      if place.components = base.components then escaped m
      else if ← readyParent files base place then extractFile files m place
      else escaped m

/-- Extracts members in order, up to the first fault. -/
def extractAll (files : FileSystem σ) (base : Path) : List Member → ShellM σ Unit
  | [] => pure ()
  | m :: rest => do
    extract files base m
    extractAll files base rest

/-- Extracts an archive to a directory, which is made when it is missing. The whole archive is read
before anything is extracted. -/
def runUnzip (files : FileSystem σ) (args : List String) : ShellM σ Unit := do
  match unzipOperands none none args with
  | none => misused .unzip
  | some (archive, directory) => do
    let members ← request files (.members (← resolve archive))
    let destination ← match directory with
      | some typed => resolve typed
      | none => do pure (← session).directory
    request files (.makeDirectories destination)
    let base ← request files (.canonical destination)
    extractAll files base members

end Builtin

end CommandShell
