import CommandShell.Text.Utf8

/-!
# Members of an archive

An archive is a sequence of members. Their names are not trusted: they may be absolute, contain `..`
or be empty.

- `namesDirectory`: a member is a directory exactly when its name ends in a slash or a backslash.
- `directoryName`: the name under which a directory is stored.
-/

namespace CommandShell

/-- What lies at a path or in an archive, as far as commands tell things apart. Everything but a
directory counts as a file. -/
inductive Kind
  /-- A file. -/
  | file
  /-- A directory. -/
  | directory
  deriving DecidableEq, Repr

/-- One thing in an archive. -/
structure Member where
  /-- The name exactly as stored. -/
  name : String
  /-- Whether it is a file or a directory. -/
  kind : Kind
  /-- The bytes of a file; a directory has none. -/
  data : Bytes
  deriving DecidableEq, Repr

/-- Whether a name in an archive is that of a directory. -/
def namesDirectory (name : String) : Bool :=
  name.toList.getLast? == some '/' || name.toList.getLast? == some '\\'

/-- The name under which a directory is stored: one slash at its end. -/
def directoryName (name : String) : String :=
  String.ofList ((name.toList.reverse.dropWhile (· == '/')).reverse ++ ['/'])

end CommandShell
