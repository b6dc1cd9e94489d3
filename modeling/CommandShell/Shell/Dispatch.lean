import CommandShell.Builtin.Archives
import CommandShell.Line.Basic

/-!
# Running a command line

- `Builtin.run`: the action of a command with arguments.
- `invoke`: a command's action with its fault, or its breaking down, turned into a line on the error
  stream.
- `dispatch`: a command line, with its redirection. A redirected command writes to streams of its
  own, whose bytes are written to the target afterwards.
- `runLine`: a line of input.
-/

namespace CommandShell

open ShellM

variable {σ : Type}

/-- The action of a command with arguments. -/
def Builtin.run (files : FileSystem σ) : Builtin → List String → ShellM σ Unit
  | .pwd, args => runPwd args
  | .cd, args => runCd files args
  | .ls, args => runLs files args
  | .mkdir, args => runMkdir files args
  | .rmdir, args => runRmdir files args
  | .touch, args => runTouch files args
  | .rm, args => runRm files args
  | .exit, _ => runExit
  | .cp, args => runCp files args
  | .cat, args => runCat files args
  | .wc, args => runWc files args
  | .zip, args => runZip files args
  | .unzip, args => runUnzip files args

/-- Writes a line to the error stream; when that fails nobody is left to be told. -/
def report (text : String) (w : World σ) : World σ :=
  { w with streams := (w.streams.write .err (Utf8.ofString (text ++ "\n"))).2 }

/-- The world after a command, whose fault or breaking down is reported. -/
def invoke (files : FileSystem σ) (b : Builtin) (args : List String) (w : World σ) : World σ :=
  match (b.run files args).perform w with
  | (.ok (), w) => w
  | (.error (.failed fault), w) => report (b.name ++ ": " ++ fault.message) w
  | (.error .broken, w) => report (b.name ++ ": internal error") w

/-- Writes the output of a command to the target of a redirection, which is read from the working
directory as it is by now. A fault is reported. -/
def deliver (files : FileSystem σ) (redirection : Redirection) (output : Bytes) :
    ShellM σ Unit := do
  let target ← resolve redirection.target
  match ← tryRequest files (.write target output redirection.mode) with
  | .ok () => pure ()
  | .error fault => ofFunction fun w => (.ok (), report fault.message w)

/-- Runs a command line. It stops only when the file system breaks down under the redirection. -/
def dispatch (files : FileSystem σ) (line : CommandLine) : ShellM σ Unit :=
  ofFunction fun w =>
    match Builtin.ofName? line.name with
    | none => (.ok (), report (Fault.unknownCommand line.name).message w)
    | some b =>
      match line.redirection with
      | none => (.ok (), invoke files b line.args w)
      | some redirection =>
        -- The command runs before the target is opened, so it finds the target as it was.
        let after := invoke files b line.args { w with streams := .unlimited }
        (deliver files redirection after.streams.allBytes).perform
          { after with streams := w.streams }

/-- Runs a line of input. A line that is no command line is reported. -/
def runLine (files : FileSystem σ) (line : List Char) : ShellM σ Unit :=
  match CommandLine.parseChars line with
  | .ok none => pure ()
  | .ok (some command) => dispatch files command
  | .error fault => ofFunction fun w => (.ok (), report fault.message w)

end CommandShell
