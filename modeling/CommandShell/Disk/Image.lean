import CommandShell.Disk.Calls

/-!
# Disks as lists

- `Disk.standard`: a disk with a directory for scratch work and the devices.
- `Disk.Item`, `Disk.install`: things put on a disk, with the directories above them.
- `Disk.tree`: everything below a location, sorted by path.
-/

namespace CommandShell

namespace Disk

/-! ## Building -/

/-- The disk after a call, or as it was when the call is refused. -/
def after (d : Disk) (result : Except Refusal Disk) : Disk :=
  match result with
  | .ok changed => changed
  | .error _ => d

/-- The disk with a directory and those above it. -/
def withDirectories (d : Disk) (p : Path) : Disk :=
  (d.makeDirectories p).2

/-- The disk with a device where nothing lies yet. -/
def withDevice (d : Disk) (p : Path) (kind : Device) : Disk :=
  match d.walk .useLink p with
  | .ok (.vacant directory name) => d.put (name :: directory) (.device kind)
  | _ => d

/-- The devices with the directories in which they lie and their names. -/
def standardDevices : List (String × String × Device) :=
  [("/dev", "null", .null), ("/dev", "full", .full), ("/proc/self", "mem", .faulty)]

/-- A disk with the directory `/tmp` and the devices. -/
def standard : Disk :=
  standardDevices.foldl
    (fun d (directory, name, kind) =>
      let above := Path.ofString directory
      (d.withDirectories above).withDevice (above.join (.ofString name)) kind)
    (empty.withDirectories (.ofString "/tmp"))

/-- Something to be put on a disk. -/
inductive Item
  /-- A file with its bytes. -/
  | file (bytes : Bytes)
  /-- A directory. -/
  | directory
  /-- A symbolic link with its text. -/
  | link (target : Path)
  deriving DecidableEq

/-- The disk with an item at a path, and with the directories above it. -/
def install (d : Disk) (p : Path) (item : Item) : Disk :=
  let ready := d.withDirectories (p.parent.getD p)
  match item with
  | .file bytes => (ready.writeFile p bytes .truncate).2
  | .directory => ready.withDirectories p
  | .link target => ready.after (ready.makeLink p target)

/-! ## Listing -/

/-- The path of a location read from another one above it; nothing for a location elsewhere, and for
that location itself. -/
def relativePath? (base location : Location) : Option Path :=
  let names := location.take (location.length - base.length)
  if names ≠ [] ∧ location.drop names.length = base then
    some ⟨[separator].intercalate (names.reverse.map FileName.bytes)⟩
  else none

/-- Everything below a location, by its path from there, sorted by that path. -/
def tree (d : Disk) (base : Location) : List (Path × Entry) :=
  (d.entries.filterMap fun (location, entry) =>
      (relativePath? base location).map (·, entry)).mergeSort
    fun a b => decide (a.1.bytes ≤ b.1.bytes)

/-- Everything below the directory at a path. -/
def treeAt (d : Disk) (p : Path) : List (Path × Entry) :=
  match d.find .use p with
  | .ok location => d.tree location
  | .error _ => []

end Disk

end CommandShell
