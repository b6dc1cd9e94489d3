import CommandShell.Disk.Refusal
import CommandShell.Path.Basic

/-!
# Faults

Why something the shell was asked for did not happen.

- `Fault`: the causes, by where they arise.
- `Fault.kind`: the seven kinds that are told apart when a fault is shown, and malformed settings.
- `Fault.message`: the text that is shown. It depends on the kind and on a detail alone.
-/

namespace CommandShell

/-! ## Causes -/

/-- A call on a disk, as it is named when it is refused. -/
inductive Attempt
  /-- Looking into a directory. -/
  | access
  /-- Asking what lies at a path. -/
  | stat
  /-- Reading a file. -/
  | read
  /-- Opening a file. -/
  | openFile
  /-- Writing a file. -/
  | write
  /-- Making a file that may exist already. -/
  | touch
  /-- Making a directory. -/
  | makeDirectory
  /-- Removing a file. -/
  | remove
  /-- Removing a directory. -/
  | removeDirectory
  /-- Copying from a path. -/
  | copy
  /-- Making a file. -/
  | create
  /-- Resolving symbolic links. -/
  | resolve
  deriving DecidableEq, Repr

/-- How an attempt is named when it fails. -/
def Attempt.failure : Attempt → String
  | access => "cannot access"
  | stat => "cannot stat"
  | read => "cannot read"
  | openFile => "cannot open"
  | write => "cannot write"
  | touch => "cannot touch"
  | makeDirectory => "cannot create directory"
  | remove => "cannot remove"
  | removeDirectory => "failed to remove"
  | copy => "cannot copy"
  | create => "cannot create"
  | resolve => "cannot resolve"

/-- Why the data of an archive member cannot be had. -/
inductive InflateFault
  /-- The bytes do not have the recorded checksum. -/
  | checksum
  /-- The compressed data break the rules of the format. -/
  | corrupt
  /-- The compressed data end too early. -/
  | incomplete
  deriving DecidableEq, Repr

/-- The text shown for data that cannot be had. -/
def InflateFault.message : InflateFault → String
  | checksum => "Invalid checksum"
  | corrupt => "corrupt deflate stream"
  | incomplete => "incomplete deflate stream"

/-- What is wrong about files. -/
inductive FileFault
  /-- A call on the disk was refused. -/
  | refused (attempt : Attempt) (path : Path) (refusal : Refusal)
  /-- A directory should be copied to a place inside it. -/
  | intoItself (source target : Path)
  /-- The data of an archive member cannot be had. -/
  | inflate (name : String) (fault : InflateFault)
  deriving DecidableEq, Repr

/-- The text shown for a fault about files. -/
def FileFault.message : FileFault → String
  | refused attempt path refusal =>
    attempt.failure ++ " '" ++ path.shown ++ "': " ++ refusal.description
  | intoItself source target =>
    "cannot copy a directory, '" ++ source.shown ++ "', into itself, '" ++ target.shown ++ "'"
  | inflate name fault => "cannot inflate '" ++ name ++ "': " ++ fault.message

/-- What is wrong about an archive as a whole. -/
inductive ArchiveFault
  /-- A record is cut short or cannot be read. -/
  | unreadable
  /-- No record marks the end of the archive. -/
  | noEndRecord
  /-- The comment at the end is longer than the rest of the file. -/
  | commentTooLong
  /-- The directory lies behind the end record. -/
  | badDirectoryOffset
  /-- The directory does not start with an entry. -/
  | noDirectoryEntry
  /-- An entry's data do not start with a local header. -/
  | badLocalHeader
  /-- Two entries should be stored under one name. -/
  | duplicateName (name : String)
  /-- A name is too long to be stored. -/
  | nameTooLong
  /-- There is more to store than the format can count. -/
  | tooLarge
  /-- An entry is stored in a way that cannot be read. -/
  | badMethod
  /-- An entry is encrypted. -/
  | encrypted
  deriving DecidableEq, Repr

/-- The text shown for a fault of an archive. -/
def ArchiveFault.message : ArchiveFault → String
  | unreadable => "i/o error"
  | noEndRecord => "invalid Zip archive: Could not find EOCD"
  | commentTooLong => "invalid Zip archive: EOCD comment exceeds file boundary"
  | badDirectoryOffset => "invalid Zip archive: Invalid CDFH offset in EOCD"
  | noDirectoryEntry => "invalid Zip archive: No CDFH found"
  | badLocalHeader => "invalid Zip archive: Invalid local file header"
  | duplicateName name => "invalid Zip archive: Duplicate filename: " ++ name
  | nameTooLong => "invalid Zip archive: File name too long"
  | tooLarge => "i/o error"
  | badMethod => "unsupported Zip archive: Compression method not supported"
  | encrypted => "unsupported Zip archive: Password required to decrypt file"

/-- Why a command refuses what it is asked for. -/
inductive CommandFault
  /-- There is no directory above the root. -/
  | atRoot
  /-- The new working directory is something else. -/
  | notDirectory (shown : String)
  /-- The new working directory cannot be found. -/
  | noSuchDirectory (shown : String)
  /-- What should be removed as a directory is none. -/
  | removeNotDirectory (operand : String)
  /-- A directory is copied only on demand. -/
  | omittingDirectory (operand : String)
  /-- A file should be copied onto itself. -/
  | sameFile (source target : String)
  /-- What should be copied into a directory has no name. -/
  | nameless (source : Path)
  /-- What should be stored has no name. -/
  | cannotStore (operand : String)
  /-- An archive member would land outside the destination. -/
  | escapes (member : String)
  deriving DecidableEq, Repr

/-- The text shown for a command's refusal. -/
def CommandFault.message : CommandFault → String
  | atRoot => "Already at root directory."
  | notDirectory shown => "Not a directory: " ++ shown
  | noSuchDirectory shown => "No such directory: " ++ shown
  | removeNotDirectory operand => "failed to remove '" ++ operand ++ "': Not a directory"
  | omittingDirectory operand => "-r not specified; omitting directory '" ++ operand ++ "'"
  | sameFile source target => "'" ++ source ++ "' and '" ++ target ++ "' are the same file"
  | nameless source => "cannot copy '" ++ source.shown ++ "' into a directory"
  | cannotStore operand => "cannot store '" ++ operand ++ "': no file name"
  | escapes member => "entry '" ++ member ++ "' escapes the destination directory"

/-- What is wrong about a stream of the terminal. -/
inductive StreamFault
  /-- The stream takes no more bytes. -/
  | full
  /-- The input breaks off. -/
  | readFailed
  deriving DecidableEq, Repr

/-- The text shown for a fault of a stream. -/
def StreamFault.message : StreamFault → String
  | full => "sink full"
  | readFailed => "read failed"

/-- What is wrong about settings, apart from their form. -/
inductive SettingsFault
  /-- The file cannot be read. -/
  | unreadable (path : Path) (refusal : Refusal)
  /-- The file holds bytes that are no text. -/
  | notText (path : Path)
  /-- The prompt would span lines. -/
  | promptSpansLines
  deriving DecidableEq, Repr

/-- The text shown for a fault of settings. -/
def SettingsFault.message : SettingsFault → String
  | unreadable path refusal => "cannot read " ++ path.shown ++ ": " ++ refusal.systemText
  | notText path => "cannot read " ++ path.shown ++ ": stream did not contain valid UTF-8"
  | promptSpansLines => "prompt_suffix must not contain a newline"

/-- Why something did not happen. -/
inductive Fault
  /-- No command has this name. -/
  | unknownCommand (name : String)
  /-- The arguments do not fit the form of the command. -/
  | usage (form : String)
  /-- The command refuses. -/
  | command (fault : CommandFault)
  /-- Something is wrong about files. -/
  | file (fault : FileFault)
  /-- Something is wrong about an archive. -/
  | archive (fault : ArchiveFault)
  /-- Something is wrong about a stream. -/
  | stream (fault : StreamFault)
  /-- Something is wrong about settings. -/
  | settings (fault : SettingsFault)
  /-- Settings do not have the form of settings. -/
  | malformedSettings
  deriving DecidableEq, Repr

/-! ## Kinds -/

/-- The kinds of faults. -/
inductive FaultKind
  /-- No command has the name that is the detail. -/
  | unknownCommand
  /-- The detail is the form that the arguments should have. -/
  | usage
  /-- The detail says why a command refuses. -/
  | command
  /-- The detail says what is wrong about files. -/
  | file
  /-- The detail says what is wrong about an archive. -/
  | archive
  /-- The detail says what is wrong about a stream. -/
  | stream
  /-- The detail says what is wrong about settings. -/
  | settings
  /-- The detail says where settings break their form. -/
  | malformedSettings
  deriving DecidableEq, Repr

/-- The text shown for a fault of a kind with a detail. -/
def FaultKind.render (kind : FaultKind) (detail : String) : String :=
  match kind with
  | unknownCommand => "Unknown command: " ++ detail
  | usage => "invalid arguments (usage: " ++ detail ++ ")"
  | command => detail
  | file => detail
  | archive => "archive error: " ++ detail
  | stream => "I/O error: " ++ detail
  | settings => "config error: " ++ detail
  | malformedSettings => "TOML parse error: " ++ detail

namespace Fault

/-- The kind of a fault. -/
def kind : Fault → FaultKind
  | unknownCommand _ => .unknownCommand
  | usage _ => .usage
  | command _ => .command
  | file _ => .file
  | archive _ => .archive
  | stream _ => .stream
  | settings _ => .settings
  | malformedSettings => .malformedSettings

/-- What is particular about a fault. -/
def detail : Fault → String
  | unknownCommand name => name
  | usage form => form
  | command fault => fault.message
  | file fault => fault.message
  | archive fault => fault.message
  | stream fault => fault.message
  | settings fault => fault.message
  | malformedSettings => "the settings are malformed"

/-- The text shown for a fault. -/
def message (fault : Fault) : String :=
  fault.kind.render fault.detail

/-- The fault that a refused call on the disk is. -/
def refused (attempt : Attempt) (path : Path) (refusal : Refusal) : Fault :=
  .file (.refused attempt path refusal)

end Fault

end CommandShell
