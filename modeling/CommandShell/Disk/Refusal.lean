/-!
# Refusals

Why a disk does not do what it is asked for.

- `Refusal`: the causes. A disk has the named ones itself; a machine may have any.
- `Refusal.description`: the text shown for a refused call. Six common causes have short texts, the
  others show the system's text with its number.
- `Refusal.systemText`: the system's text of every cause.
-/

namespace CommandShell

/-- The causes for which a call on a disk fails. -/
inductive Refusal
  /-- Nothing lies at the path. -/
  | notFound
  /-- The machine does not let its user do that. -/
  | permissionDenied
  /-- Something lies at the path already. -/
  | alreadyExists
  /-- A directory is needed where something else lies. -/
  | notDirectory
  /-- Something else is needed where a directory lies. -/
  | isDirectory
  /-- The directory holds entries. -/
  | notEmpty
  /-- The path cannot be meant. -/
  | invalidArgument
  /-- The entry is in use. -/
  | busy
  /-- A name or the whole path is too long. -/
  | nameTooLong
  /-- Too many symbolic links lie on the way. -/
  | tooManyLinks
  /-- There is no room for the content. -/
  | noSpace
  /-- The path holds a NUL. -/
  | nulByte
  /-- What should be copied as a file is none. -/
  | notRegular
  /-- Reading or writing fails. -/
  | transferFailed
  /-- There is no end to what should be read. -/
  | outOfMemory
  /-- A cause that the machine has its own text for. -/
  | other (text : String)
  deriving DecidableEq, Repr

namespace Refusal

/-- The system's text of a cause. -/
def systemText : Refusal → String
  | notFound => "No such file or directory (os error 2)"
  | permissionDenied => "Permission denied (os error 13)"
  | alreadyExists => "File exists (os error 17)"
  | notDirectory => "Not a directory (os error 20)"
  | isDirectory => "Is a directory (os error 21)"
  | notEmpty => "Directory not empty (os error 39)"
  | invalidArgument => "Invalid argument (os error 22)"
  | busy => "Device or resource busy (os error 16)"
  | nameTooLong => "File name too long (os error 36)"
  | tooManyLinks => "Too many levels of symbolic links (os error 40)"
  | noSpace => "No space left on device (os error 28)"
  | nulByte => "file name contained an unexpected NUL byte"
  | notRegular => "the source path is neither a regular file nor a symlink to a regular file"
  | transferFailed => "Input/output error (os error 5)"
  | outOfMemory => "out of memory"
  | other text => text

/-- The text shown for a refused call. -/
def description : Refusal → String
  | notFound => "No such file or directory"
  | permissionDenied => "Permission denied"
  | alreadyExists => "File exists"
  | notDirectory => "Not a directory"
  | isDirectory => "Is a directory"
  | notEmpty => "Directory not empty"
  | refusal => refusal.systemText

end Refusal

end CommandShell
