import CommandShell.Builtin.Basic
import CommandShell.Shell.Monad

/-!
# Directories and files as entries

The commands that look at and change the tree without looking into files: `pwd`, `cd`, `ls`,
`mkdir`, `rmdir`, `touch`, `rm`, and `exit`.
-/

namespace CommandShell

namespace Builtin

open ShellM

variable {σ : Type}

/-- Stops because the arguments do not fit the form of a command. -/
def misused (b : Builtin) : ShellM σ Unit :=
  fail (.usage b.form)

/-- Shows the working directory. -/
def runPwd : List String → ShellM σ Unit
  | [] => do printLine (← session).directory.shown
  | _ => misused .pwd

/-! ## Changing the directory -/

/-- Where a change of directory leads, and how its target is shown. -/
def cdTarget (current : Session) : List String → Except Fault (Path × String)
  | [] => .ok (current.home, "~")
  | [typed] =>
    if typed = ".." then
      match current.directory.parent with
      | some above => .ok (above, "..")
      | none => .error (.command .atRoot)
    else .ok (current.resolve typed, typed)
  | _ => .error (.usage Builtin.cd.form)

/-- Changes the working directory to the canonical path of a directory. -/
def runCd (files : FileSystem σ) (args : List String) : ShellM σ Unit := do
  let current ← session
  match cdTarget current args with
  | .error fault => fail fault
  | .ok (target, shown) =>
    match ← tryRequest files (.kindOf target) with
    | .error _ => fail (.command (.noSuchDirectory shown))
    | .ok .file => fail (.command (.notDirectory shown))
    | .ok .directory =>
      let directory ← request files (.canonical target)
      setSession { current with directory }

/-! ## Listing -/

/-- Lists the names in a directory, or the name of a file. -/
def listPath (files : FileSystem σ) (p : Path) : ShellM σ Unit := do
  match ← request files (.kindOf p) with
  | .file => printLine (p.fileName.elim p.shown Utf8.toStringLossy)
  | .directory => do printEach Prod.fst (← request files (.list p))

/-- Lists the working directory or what lies at a path. -/
def runLs (files : FileSystem σ) : List String → ShellM σ Unit
  | [] => do listPath files (← session).directory
  | [typed] => do listPath files (← resolve typed)
  | _ => misused .ls

/-! ## Making and removing -/

/-- Makes each directory in turn; a fault is shown and the next one is tried. -/
def makeEach (files : FileSystem σ) : List String → ShellM σ Unit
  | [] => pure ()
  | typed :: rest => do
    match ← tryRequest files (.makeDirectory (← resolve typed)) with
    | .ok () => makeEach files rest
    | .error fault =>
      complainLine (Builtin.mkdir.name ++ ": " ++ fault.message)
      makeEach files rest

/-- Makes one directory or more. -/
def runMkdir (files : FileSystem σ) : List String → ShellM σ Unit
  | [] => misused .mkdir
  | args => makeEach files args

/-- Whether a directory can be listed and holds nothing. -/
def holdsNothing (files : FileSystem σ) (directory : Path) : ShellM σ Bool := do
  match ← tryRequest files (.list directory) with
  | .ok names => pure names.isEmpty
  | .error _ => pure false

/-- Removes those entries of a directory that are empty directories, and counts them. -/
def removeEach (files : FileSystem σ) (directory : Path) : List (String × Kind) → ShellM σ Nat
  | [] => pure 0
  | (_, .file) :: rest => removeEach files directory rest
  | (name, .directory) :: rest => do
    let entry := directory.join (.ofString name)
    if ← holdsNothing files entry then
      match ← tryRequest files (.removeDirectory entry) with
      | .ok () => do
        let removed ← removeEach files directory rest
        pure (removed + 1)
      | .error fault =>
        complainLine (Builtin.rmdir.name ++ ": " ++ fault.message)
        removeEach files directory rest
    else removeEach files directory rest

/-- Removes the empty directories in the working directory. -/
def removeEmpty (files : FileSystem σ) : ShellM σ Unit := do
  let directory := (← session).directory
  let removed ← removeEach files directory (← request files (.list directory))
  if removed = 0 then printLine "No empty directories found."

/-- Removes an empty directory, or all that lie in the working directory. -/
def runRmdir (files : FileSystem σ) : List String → ShellM σ Unit
  | [typed] =>
    if typed = "*" then removeEmpty files
    else do
      let target ← resolve typed
      match ← request files (.kindOf target) with
      | .file => fail (.command (.removeNotDirectory typed))
      | .directory => request files (.removeDirectory target)
  | _ => misused .rmdir

/-- Makes a file unless it exists. -/
def runTouch (files : FileSystem σ) : List String → ShellM σ Unit
  | [typed] => do request files (.touch (← resolve typed))
  | _ => misused .touch

/-- Removes a file. -/
def runRm (files : FileSystem σ) : List String → ShellM σ Unit
  | [typed] => do request files (.removeFile (← resolve typed))
  | _ => misused .rm

/-- Asks the shell to end. -/
def runExit : ShellM σ Unit := do
  setSession { ← session with exitRequested := true }
  printLine "Exiting CLI..."

end Builtin

end CommandShell
