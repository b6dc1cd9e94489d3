import CommandShell.Storage.Tree

/-!
# Requests answered by a disk

- `Disk.files`: the file system that a disk is. A refused request ends with a fault that names what
  was attempted, the path and the cause.

The machine is a reliable one, and archives have the zip format, unless something else is said.
-/

namespace CommandShell

namespace Disk

/-! ## Outcomes -/

/-- The answer of a call that only looks. -/
def looking {α : Type} (d : Disk) (attempt : Attempt) (path : Path) (result : Except Refusal α) :
    Except Stop α × Disk :=
  match result with
  | .ok value => (.ok value, d)
  | .error refusal => (.error (.failed (.refused attempt path refusal)), d)

/-- The answer of a call that changes the disk. -/
def changing (d : Disk) (attempt : Attempt) (path : Path) (result : Except Refusal Disk) :
    Except Stop Unit × Disk :=
  match result with
  | .ok changed => (.ok (), changed)
  | .error refusal => (.error (.failed (.refused attempt path refusal)), d)

/-! ## Looking -/

/-- What an entry counts as. -/
def kindOfEntry : Entry → Kind
  | .directory => .directory
  | _ => .file

/-- What lies at a path counts as a directory when it leads to one, and as a file else. -/
def kindAt (d : Disk) (p : Path) : Kind :=
  if d.isDirectory p then .directory else .file

/-- The names in a directory as they are shown, in the order of what is shown, with what each leads
to. -/
def listing (d : Disk) (directory : Path) : Except Refusal (List (String × Kind)) := do
  let names ← d.names directory
  .ok ((names.map fun name => (name.shown, d.kindAt (directory.child name))).mergeSort
    fun a b => decide (a.1 ≤ b.1))

/-! ## Changing -/

/-- The outcome of a call on an opened file, which may be left changed by a refusal. -/
def finishing {α : Type} (attempt : Attempt) (path : Path) :
    Except Refusal α × Disk → Except Stop α × Disk
  | (.ok value, changed) => (.ok value, changed)
  | (.error refusal, left) => (.error (.failed (.refused attempt path refusal)), left)

/-- Writes a file. Opening it and writing to it are refused in different words. -/
def write (d : Disk) (path : Path) (bytes : Bytes) (mode : WriteMode)
    (host : Host := .reliable) : Except Stop Unit × Disk :=
  match d.openFile path with
  | .error refusal => (.error (.failed (.refused .openFile path refusal)), d)
  | .ok (location, opened) => finishing .write path (opened.writeAt location bytes mode host)

/-- Makes a file unless it exists, and sets its time. -/
def touch (d : Disk) (path : Path) (host : Host := .reliable) : Except Stop Unit × Disk :=
  match d.openFile path with
  | .error refusal => (.error (.failed (.refused .touch path refusal)), d)
  | .ok (location, opened) =>
    match host.keepsTime opened location with
    | some refusal => (.error (.failed (.refused .touch path refusal)), opened)
    | none => (.ok (), opened)

/-- Copies a file. A fault names the source when nothing lies there, and else the target. -/
def copy (d : Disk) (source target : Path) (host : Host := .reliable) : Except Stop Nat × Disk :=
  if d.isDirectory source then (.error (.failed (.refused .copy source .isDirectory)), d)
  else
    match d.copyFile source target host with
    | (.ok count, copied) => (.ok count, copied)
    | (.error refusal, left) =>
      match left.lookAt source with
      | .ok _ => (.error (.failed (.refused .create target refusal)), left)
      | .error _ => (.error (.failed (.refused .stat source refusal)), left)

/-! ## Archives -/

/-- Writes an archive. Everything is collected and encoded before the file is opened. -/
def store (d : Disk) (archive : Path) (sources : List Source) (host : Host := .reliable)
    (format : Archive.Format := Archive.zip) : Except Stop (List String) × Disk :=
  match d.gatherAll sources format with
  | .error fault => (.error (.failed fault), d)
  | .ok members =>
    match format.encode members with
    | .error fault => (.error (.failed (.archive fault)), d)
    | .ok bytes =>
      match d.writeFile archive bytes .truncate host with
      | (.error refusal, left) => (.error (.failed (.refused .create archive refusal)), left)
      | (.ok (), written) => (.ok (members.map Member.name), written)

/-- The bytes of an archive, which are looked up by their offsets. A directory can be opened, but
nothing can be read from it, and a device without an end is taken for an empty one. -/
def archiveBytes : Entry → Option Bytes
  | .file content => some content
  | .device .null | .device .full => some []
  | _ => none

/-- Reads an archive. -/
def unpackArchive (d : Disk) (archive : Path) (format : Archive.Format := Archive.zip) :
    Except Stop (List Member) × Disk :=
  match d.lookAt archive with
  | .error refusal => (.error (.failed (.refused .openFile archive refusal)), d)
  | .ok entry =>
    match archiveBytes entry with
    | none => (.error (.failed (.archive .unreadable)), d)
    | some bytes =>
      match format.read bytes with
      | .error fault => (.error (.failed fault), d)
      | .ok members => (.ok members, d)

/-! ## The file system -/

/-- The answer of a disk to a request. -/
def answer (d : Disk) {α : Type} (r : Request α) (host : Host := .reliable)
    (format : Archive.Format := Archive.zip) : Except Stop α × Disk :=
  match α, r with
  | _, .list p => d.looking .access p (d.listing p)
  | _, .kindOf p => d.looking .stat p ((d.lookAt p).map kindOfEntry)
  | _, .isPresent p => (.ok (d.isPresent p), d)
  | _, .read p => d.looking .read p (d.content p)
  | _, .write p bytes mode => d.write p bytes mode host
  | _, .touch p => d.touch p host
  | _, .makeDirectory p => d.changing .makeDirectory p (d.makeDirectory p)
  | _, .makeDirectories p =>
    match d.makeDirectories p with
    | (.ok (), made) => (.ok (), made)
    | (.error refusal, made) => (.error (.failed (.refused .makeDirectory p refusal)), made)
  | _, .removeFile p => d.changing .remove p (d.removeFile p)
  | _, .removeDirectory p => d.changing .removeDirectory p (d.removeDirectory p)
  | _, .copyFile source target => d.copy source target host
  | _, .copyTree source target =>
    match d.copyTree source target host with
    | (.ok (), copied) => (.ok (), copied)
    | (.error fault, copied) => (.error (.failed fault), copied)
  | _, .canonical p => d.looking .resolve p (d.canonical p)
  | _, .store archive sources => d.store archive sources host format
  | _, .members archive => d.unpackArchive archive format

/-- The file system that a disk is on a machine, with a format of archives. -/
def files (host : Host := .reliable) (format : Archive.Format := Archive.zip) :
    FileSystem Disk where
  answer request d := d.answer request host format

end Disk

end CommandShell
