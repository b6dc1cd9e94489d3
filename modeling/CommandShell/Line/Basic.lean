import CommandShell.Line.Redirection

/-!
# Command lines

A line is trimmed, its redirection is split off, and the rest is cut into words: the name of the
command and its arguments.

A double quote switches quoting on or off and is not part of any word. A space outside quotes ends
a word; every other character, tabs included, belongs to one. Words without characters are dropped.

- `splitWords`: the words, or nothing when a quote stays open.
- `CommandLine.parse`: nothing for a blank line, a command line, or the reason why there is none.
-/

namespace CommandShell

/-! ## Words -/

/-- A word is kept only when it has characters. -/
def keepWord (word : List Char) : List (List Char) :=
  if word = [] then [] else [word]

/-- The words that the rest of a text adds, when `word` was read so far and quoting is on or off.
There are none when the text ends inside quotes. -/
def wordsFrom (quoted : Bool) (word : List Char) : List Char → Option (List (List Char))
  | [] => if quoted then none else some (keepWord word)
  | c :: rest =>
    if c = '"' then wordsFrom (!quoted) word rest
    else if c = ' ' ∧ quoted = false then (wordsFrom false [] rest).map (keepWord word ++ ·)
    else wordsFrom quoted (word ++ [c]) rest

/-- The words of a text; nothing when a double quote has no partner. -/
def splitWords (text : List Char) : Option (List (List Char)) :=
  wordsFrom false [] text

/-- The empty text has no words. -/
@[simp]
theorem splitWords_nil : splitWords [] = some [] := rfl

/-! ## Lines -/

/-- Why a line is no command line. -/
inductive LineFault
  /-- A redirection without a file. -/
  | missingTarget
  /-- A redirection without a command. -/
  | missingCommand
  /-- A double quote without a partner. -/
  | openQuote
  deriving DecidableEq, Repr

/-- The text shown for a line that is no command line. -/
def LineFault.message : LineFault → String
  | .missingTarget => "Missing redirection file name."
  | .missingCommand => "Invalid command syntax."
  | .openQuote => "Unmatched quotes in command."

/-- A command with its arguments and, possibly, a redirection. -/
structure CommandLine where
  /-- The name of the command. -/
  name : String
  /-- The arguments. -/
  args : List String
  /-- Where the output goes, when not to the terminal. -/
  redirection : Option Redirection
  deriving DecidableEq, Repr

namespace CommandLine

/-- The command part of a trimmed text and its redirection. A missing target is reported before a
missing command. -/
def split (text : List Char) : Except LineFault (List Char × Option Redirection) :=
  match splitRedirection text with
  | none => .ok (text, none)
  | some (command, target, mode) =>
    if trimAscii target = [] then .error .missingTarget
    else if trimAscii command = [] then .error .missingCommand
    else .ok (command, some ⟨String.ofList (trimAscii target), mode⟩)

/-- The command line that words and a redirection make; nothing without words. -/
def ofWords (redirection : Option Redirection) : List (List Char) → Option CommandLine
  | [] => none
  | name :: args => some ⟨String.ofList name, args.map String.ofList, redirection⟩

/-- The command line in a list of characters; `none` for a blank line. -/
def parseChars (line : List Char) : Except LineFault (Option CommandLine) :=
  let text := trimAscii line
  if text = [] then .ok none
  else
    match split text with
    | .error fault => .error fault
    | .ok (command, redirection) =>
      match splitWords command with
      | none => .error .openQuote
      | some words => .ok (ofWords redirection words)

/-- The command line in a line of input; `none` for a blank line. -/
def parse (line : String) : Except LineFault (Option CommandLine) :=
  parseChars line.toList

end CommandLine

end CommandShell
