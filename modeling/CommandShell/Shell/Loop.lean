import CommandShell.Shell.Dispatch
import CommandShell.Text.Tally

/-!
# The prompt loop

The shell shows a banner, and then shows a prompt, reads a line and runs it, until a command asks it
to end or the input ends.

- `InputLines.ofBytes`: the lines of the input. The bytes behind the last line feed are a line too,
  unless there are none or the input breaks off there.
- `runLoop`: the loop over lines.
- `runShell`: the banner, then the loop.
-/

namespace CommandShell

open ShellM

variable {σ : Type}

/-! ## Input -/

/-- The byte at the end of a line. -/
def lineFeed : UInt8 := 10

/-- Input, as the loop reads it. -/
structure InputLines where
  /-- The lines, without their line feeds. -/
  lines : List Bytes
  /-- Whether reading fails behind the last line. -/
  breaksOff : Bool
  deriving DecidableEq, Repr

/-- The lines of the bytes of an input, which ends or breaks off behind them. -/
def InputLines.ofBytes (bytes : Bytes) (breaksOff : Bool) : InputLines :=
  let pieces := bytes.splitOn lineFeed
  let finished := pieces.dropLast
  match pieces.getLast? with
  | some (b :: rest) => ⟨if breaksOff then finished else finished ++ [b :: rest], breaksOff⟩
  | _ => ⟨finished, breaksOff⟩

/-- The text of a line of input: ill-formed bytes are replaced, and line feeds and carriage returns
at its end are cut off. -/
def lineText (line : Bytes) : List Char :=
  dropEndWhile (fun c => c == '\n' || c == '\r') (Utf8.decodeLossy line)

/-! ## The loop -/

/-- What is shown by the loop besides the output of commands. -/
structure Prompting where
  /-- What follows the working directory in the prompt. -/
  suffix : String
  /-- The first line shown, unless it is empty. -/
  banner : String
  deriving DecidableEq, Repr

/-- The prompt of a session. -/
def promptText (suffix : String) (session : Session) : String :=
  session.directory.shown ++ suffix

/-- Shows the prompt. -/
def showPrompt (suffix : String) : ShellM σ Unit := do
  write .out (Utf8.ofString (promptText suffix (← session)))

/-- Runs lines until one of them asks to end or none is left; then the input ends or breaks off. -/
def runLoop (files : FileSystem σ) (suffix : String) (breaksOff : Bool) :
    List Bytes → ShellM σ Unit
  | [] => do
    showPrompt suffix
    if breaksOff then fail (.stream .readFailed)
  | line :: rest => do
    showPrompt suffix
    runLine files (lineText line)
    if (← session).exitRequested then pure ()
    else runLoop files suffix breaksOff rest

/-- Runs the shell on an input. -/
def runShell (files : FileSystem σ) (prompting : Prompting) (input : InputLines) :
    ShellM σ Unit := do
  if prompting.banner ≠ "" then printLine prompting.banner
  runLoop files prompting.suffix input.breaksOff input.lines

end CommandShell
