/-!
# Built-in commands

- `Builtin`: the thirteen commands.
- `Builtin.ofName?`: the command with a name; `ofName?_name` says that names tell commands apart.
-/

namespace CommandShell

/-- The commands of the shell. -/
inductive Builtin
  /-- Shows the working directory. -/
  | pwd
  /-- Changes the working directory. -/
  | cd
  /-- Lists a directory. -/
  | ls
  /-- Makes directories. -/
  | mkdir
  /-- Removes empty directories. -/
  | rmdir
  /-- Makes a file. -/
  | touch
  /-- Removes a file. -/
  | rm
  /-- Ends the shell. -/
  | exit
  /-- Copies. -/
  | cp
  /-- Shows files. -/
  | cat
  /-- Counts lines, words and characters. -/
  | wc
  /-- Stores in an archive. -/
  | zip
  /-- Extracts an archive. -/
  | unzip
  deriving DecidableEq, Repr

namespace Builtin

/-- All commands. -/
def all : List Builtin :=
  [pwd, cd, ls, mkdir, rmdir, touch, rm, exit, cp, cat, wc, zip, unzip]

/-- The name of a command. -/
def name : Builtin → String
  | pwd => "pwd"
  | cd => "cd"
  | ls => "ls"
  | mkdir => "mkdir"
  | rmdir => "rmdir"
  | touch => "touch"
  | rm => "rm"
  | exit => "exit"
  | cp => "cp"
  | cat => "cat"
  | wc => "wc"
  | zip => "zip"
  | unzip => "unzip"

/-- The form that the arguments of a command should have. -/
def form : Builtin → String
  | pwd => "pwd"
  | cd => "cd [path | ..]"
  | ls => "ls [path]"
  | mkdir => "mkdir <dir...>"
  | rmdir => "rmdir <dir | *>"
  | touch => "touch <file>"
  | rm => "rm <file>"
  | exit => "exit"
  | cp => "cp [-r] <src> <dst>"
  | cat => "cat <file...>"
  | wc => "wc <file>"
  | zip => "zip [-r] <archive> <file...>"
  | unzip => "unzip <archive> [-d <dir>]"

/-- The command with a name. -/
def ofName? (name : String) : Option Builtin :=
  all.find? (·.name = name)

/-- The name of a command leads back to it. -/
@[simp]
theorem ofName?_name (b : Builtin) : ofName? b.name = some b := by
  cases b <;> decide

/-- Only a command's own name leads to it. -/
theorem name_of_ofName? {name : String} {b : Builtin} (h : ofName? name = some b) :
    b.name = name := by
  simpa using List.find?_some h

end Builtin

end CommandShell
