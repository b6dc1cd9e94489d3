import CommandShell.Archive.Member
import CommandShell.Disk.Entries
import CommandShell.Fault

/-!
# Requests

Commands reach files through requests. Each request names the type of its answer; who answers it is
left open, so that commands can be run on a disk, and on file systems that fail in any way.

- `Request`: what can be asked for.
- `Stop`: a request, or a command, may fail with a fault or break down.
- `FileSystem`: something that answers every request, with a state of its own.
- `FileSystem.breakingAt`: a file system that breaks down at some requests.
-/

namespace CommandShell

/-- Something to be stored in an archive. -/
structure Source where
  /-- Where it lies. -/
  path : Path
  /-- The name it is stored under. -/
  name : String
  /-- Whether a directory is stored with everything in it. -/
  recursive : Bool
  deriving DecidableEq, Repr

/-- What can be asked of a file system, by the type of the answer. -/
inductive Request : Type → Type
  /-- The names in a directory as they are shown, sorted, with what each one leads to. -/
  | list (directory : Path) : Request (List (String × Kind))
  /-- What lies at a path, through symbolic links. -/
  | kindOf (path : Path) : Request Kind
  /-- Whether anything lies at a path, be it a symbolic link that leads nowhere. -/
  | isPresent (path : Path) : Request Bool
  /-- The bytes of a file. -/
  | read (path : Path) : Request Bytes
  /-- Write bytes to a file, which is made when it is missing. -/
  | write (path : Path) (bytes : Bytes) (mode : WriteMode) : Request Unit
  /-- Make a file unless it exists. -/
  | touch (path : Path) : Request Unit
  /-- Make one directory, which must be missing. -/
  | makeDirectory (path : Path) : Request Unit
  /-- Make a directory and those above it, as far as they are missing. -/
  | makeDirectories (path : Path) : Request Unit
  /-- Remove anything but a directory. -/
  | removeFile (path : Path) : Request Unit
  /-- Remove an empty directory. -/
  | removeDirectory (path : Path) : Request Unit
  /-- Copy a file, and say how many bytes it has. -/
  | copyFile (source target : Path) : Request Nat
  /-- Copy a directory with everything in it. -/
  | copyTree (source target : Path) : Request Unit
  /-- The absolute path without symbolic links, `.` and `..`. -/
  | canonical (path : Path) : Request Path
  /-- Write an archive, and say which names are stored in it. -/
  | store (archive : Path) (sources : List Source) : Request (List String)
  /-- The members of an archive. -/
  | members (archive : Path) : Request (List Member)

/-- The path that a request is about first. -/
def Request.path {α : Type} : Request α → Path
  | list p | kindOf p | isPresent p | read p | write p _ _ | touch p | makeDirectory p
  | makeDirectories p | removeFile p | removeDirectory p | copyFile p _ | copyTree p _
  | canonical p | store p _ | members p => p

/-- How a request or a command ends when it has no result. -/
inductive Stop
  /-- With a fault, which is shown. -/
  | failed (fault : Fault)
  /-- By breaking down. -/
  | broken
  deriving DecidableEq, Repr

/-- Something that answers requests. What it holds may change also when a request stops. -/
structure FileSystem (σ : Type) where
  /-- The answer to a request. -/
  answer : {α : Type} → Request α → σ → Except Stop α × σ

/-- The file system that breaks down at requests about some paths, and else answers as before. -/
def FileSystem.breakingAt {σ : Type} (breaks : Path → Bool) (files : FileSystem σ) :
    FileSystem σ where
  answer request held :=
    if breaks request.path then (.error .broken, held) else files.answer request held

end CommandShell
