import CommandShell.Settings.Basic
import CommandShell.Shell.Loop
import CommandShell.Storage.OnDisk

/-!
# The program

The shell as a whole: it reads its settings, starts in the canonical working directory, and runs on
the bytes of its input.

- `runProgram`: what the program leaves behind. Settings that cannot be read end it at once.
-/

namespace CommandShell

/-- What a run of the program leaves behind. -/
structure Outcome where
  /-- The bytes of the output stream. -/
  out : Bytes
  /-- The bytes of the error stream. -/
  err : Bytes
  /-- The exit code. -/
  code : Nat
  /-- The disk. -/
  disk : Disk

/-- The text with which the program ends when something fails outside of any command. -/
def failureText (doing : String) (cause : String) : String :=
  "Error: " ++ doing ++ "\n\nCaused by:\n    " ++ cause ++ "\n"

/-- The run of the program that ends before anything is read. -/
def Outcome.failedStart (d : Disk) (doing cause : String) : Outcome :=
  ⟨[], Utf8.ofString (failureText doing cause), 1, d⟩

/-- Runs the shell on an input with settings and the directory it starts in. A home directory that
is not absolute is read from there. -/
def runSession (d : Disk) (directory : Path) (env : Environment) (settings : Settings)
    (input : Bytes) : Outcome :=
  let home := settings.homeOr env directory
  let session := Session.start directory (if home.bytes = [] then home else directory.join home)
  let prompting : Prompting := ⟨settings.promptSuffix, settings.banner⟩
  let (result, w) := (runShell Disk.files prompting (.ofBytes input false)).perform
    ⟨session, .unlimited, d⟩
  match result with
  | .ok () => ⟨w.streams.bytesOn .out, w.streams.bytesOn .err, 0, w.held⟩
  | .error (.failed fault) =>
    ⟨w.streams.bytesOn .out,
      w.streams.bytesOn .err ++ Utf8.ofString ("Error: " ++ fault.message ++ "\n"), 1, w.held⟩
  | .error .broken => ⟨w.streams.bytesOn .out, w.streams.bytesOn .err, 101, w.held⟩

/-- Runs the program from a working directory on an input. -/
def runProgram (d : Disk) (directory : Path) (env : Environment) (input : Bytes) : Outcome :=
  match Settings.ofEnvironment d directory env with
  | .error fault => .failedStart d "loading configuration" fault.message
  | .ok settings =>
    match d.canonical directory with
    | .error refusal => .failedStart d "resolving the starting directory" refusal.systemText
    | .ok start => runSession d start env settings input

end CommandShell
