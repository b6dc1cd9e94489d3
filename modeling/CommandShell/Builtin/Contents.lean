import CommandShell.Builtin.Places
import CommandShell.Text.Tally

/-!
# What files hold

The commands that read and copy files: `cp`, `cat` and `wc`.
-/

namespace CommandShell

namespace Builtin

open ShellM

variable {σ : Type}

/-- Whether everything in a directory is meant, and the arguments behind that option. -/
def takeRecursive : List String → Bool × List String
  | first :: rest => if first = "-r" then (true, rest) else (false, first :: rest)
  | [] => (false, [])

/-! ## Copying -/

/-- Where a copy goes: what is copied to a directory lands in it, under the last name of the
source's canonical path. -/
def placement (files : FileSystem σ) (source target : Path) : ShellM σ Path := do
  match ← tryRequest files (.kindOf target) with
  | .ok .directory => do
    let origin ← request files (.canonical source)
    match origin.fileName with
    | some name => pure (target.join ⟨name⟩)
    | none => fail (.command (.nameless source))
  | _ => pure target

/-- Whether two paths lead to one thing; the first one may lead nowhere. -/
def sameFile (files : FileSystem σ) (target source : Path) : ShellM σ Bool := do
  if ← request files (.isPresent target) then
    let place ← request files (.canonical target)
    let origin ← request files (.canonical source)
    pure (place.components = origin.components)
  else pure false

/-- Copies a file, or a directory with everything in it. -/
def runCp (files : FileSystem σ) (args : List String) : ShellM σ Unit := do
  let (recursive, operands) := takeRecursive args
  match operands with
  | [source, target] => do
    let origin ← resolve source
    let kind ← request files (.kindOf origin)
    if kind = .directory ∧ recursive = false then fail (.command (.omittingDirectory source))
    else
      let place ← placement files origin (← resolve target)
      match kind with
      | .directory => request files (.copyTree origin place)
      | .file =>
        if ← sameFile files place origin then fail (.command (.sameFile source target))
        else
          let _ ← request files (.copyFile origin place)
  | _ => misused .cp

/-! ## Showing -/

/-- Shows each file in turn; a fault is shown and the next one is tried. -/
def showEach (files : FileSystem σ) : List String → ShellM σ Unit
  | [] => pure ()
  | typed :: rest => do
    match ← tryRequest files (.read (← resolve typed)) with
    | .ok bytes => printEach String.ofList (textLines (Utf8.decodeLossy bytes))
    | .error fault => complainLine (Builtin.cat.name ++ ": " ++ fault.message)
    showEach files rest

/-- Shows the lines of one file or more. -/
def runCat (files : FileSystem σ) : List String → ShellM σ Unit
  | [] => misused .cat
  | args => showEach files args

/-! ## Counting -/

/-- The line that shows the counts of a file. -/
def tallyLine (t : Tally) (typed : String) : String :=
  toString t.lines ++ " " ++ toString t.words ++ " " ++ toString t.chars ++ " " ++ typed

/-- Shows the counts of a file. -/
def runWc (files : FileSystem σ) : List String → ShellM σ Unit
  | [typed] => do
    let bytes ← request files (.read (← resolve typed))
    printLine (tallyLine (Tally.ofText (Utf8.decodeLossy bytes)) typed)
  | _ => misused .wc

end Builtin

end CommandShell
