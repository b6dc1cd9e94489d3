import CommandShell.Disk.Entries
import CommandShell.Text.Tally

/-!
# The redirection at the end of a line

A line is redirected by its last `>>`, or, when it has none, by its last `>`. Quotes play no part
here. A run of three or more `>` counts as `>>` at its start, so that the rest of the run belongs to
the target.

- `splitRedirection`: the command part, the raw target and the mode, when there is a redirection.
-/

namespace CommandShell

/-- Where the output of a command goes. -/
structure Redirection where
  /-- The file as typed, never empty, without blanks at either end. -/
  target : String
  /-- How the file is written. -/
  mode : WriteMode
  deriving DecidableEq, Repr

/-- The text before the last run of two or more `>`, and the text after the first two of that run.
The search goes from the right: a `>` directly before a run found there belongs to that run. -/
def splitAppend : List Char → Option (List Char × List Char)
  | [] => none
  | c :: rest =>
    match splitAppend rest with
    | some ([], after) => if c = '>' then some ([], '>' :: after) else some ([c], after)
    | some (b :: before, after) => some (c :: b :: before, after)
    | none =>
      match rest with
      | d :: after => if c = '>' ∧ d = '>' then some ([], after) else none
      | [] => none

/-- The text before and after the last `>`. -/
def splitTruncate : List Char → Option (List Char × List Char)
  | [] => none
  | c :: rest =>
    match splitTruncate rest with
    | some (before, after) => some (c :: before, after)
    | none => if c = '>' then some ([], rest) else none

/-- The command part, the raw target and the mode of a redirected text. -/
def splitRedirection (text : List Char) : Option (List Char × List Char × WriteMode) :=
  match splitAppend text with
  | some (command, target) => some (command, target, .append)
  | none => (splitTruncate text).map fun (command, target) => (command, target, .truncate)

end CommandShell
