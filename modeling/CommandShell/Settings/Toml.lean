import CommandShell.Text.Utf8

/-!
# TOML documents of texts

The part of TOML 1.0 in which every line is blank, a comment, or gives a text to a key. Whatever
else a document may hold (tables, dotted keys, values of other types) is of no use for settings, and
is refused like a document that breaks the rules.

- `Toml.texts?`: the keys of a document with their texts, in order; nothing for other documents.

Keys are bare or quoted. Texts are written in one of four ways: between one or three double quotes,
with escapes, or between one or three apostrophes, without. Each reader takes the characters it
understands from the front and gives back the rest.
-/

namespace CommandShell

namespace Toml

/-- What a reader makes of the front of a text, and the rest; nothing when it cannot go on. -/
abbrev Reader (α : Type) := List Char → Option (α × List Char)

/-- An apostrophe. -/
def apostrophe : Char := Char.ofNat 39

/-- A double quote. -/
def quote : Char := Char.ofNat 34

/-! ## Character classes -/

/-- Blanks within a line. -/
def isSpace (c : Char) : Bool := c == ' ' || c == '\t'

/-- Characters of comments and literal texts, without the closing mark of the latter: tabs, and
everything but controls. -/
def isPrintable (c : Char) : Bool := c == '\t' || (0x20 ≤ c.toNat && c.toNat ≠ 0x7F)

/-- Characters of bare keys. -/
def isBare (c : Char) : Bool := c.isAlphanum || c == '-' || c == '_'

/-- The text behind the blanks of its first line. -/
def skipSpaces (text : List Char) : List Char := text.dropWhile isSpace

/-- A line end at the front: a line feed, or a carriage return and a line feed. -/
def newline? : List Char → Option (List Char)
  | '\n' :: rest => some rest
  | '\r' :: '\n' :: rest => some rest
  | _ => none

/-- The text behind one line end, when there is one. -/
def skipNewline (text : List Char) : List Char := (newline? text).getD text

/-! ## Escapes -/

/-- The value of a hexadecimal digit. -/
def hexDigit? (c : Char) : Option Nat :=
  let n := c.toNat
  if 48 ≤ n ∧ n ≤ 57 then some (n - 48)
  else if 65 ≤ n ∧ n ≤ 70 then some (n - 55)
  else if 97 ≤ n ∧ n ≤ 102 then some (n - 87)
  else none

/-- The character whose number is written with so many hexadecimal digits; surrogates and numbers
above U+10FFFF are no characters. -/
def readScalar (digits : Nat) : Reader Char := fun text => do
  let taken := text.take digits
  if taken.length < digits then none
  else
    let values ← taken.mapM hexDigit?
    let n := values.foldl (fun n digit => 16 * n + digit) 0
    if n.isValidChar then some (Char.ofNat n, text.drop digits) else none

/-- The character that an escape stands for, behind its backslash. -/
def readEscape : Reader Char
  | [] => none
  | c :: rest =>
    if c = 'b' then some ('\x08', rest)
    else if c = 't' then some ('\t', rest)
    else if c = 'n' then some ('\n', rest)
    else if c = 'f' then some ('\x0c', rest)
    else if c = 'r' then some ('\r', rest)
    else if c = quote ∨ c = '\\' then some (c, rest)
    else if c = 'u' then readScalar 4 rest
    else if c = 'U' then readScalar 8 rest
    else none

/-! ## Texts -/

/-- A text between double quotes, behind the opening one, in at most the given number of steps. -/
def readBasic : (steps : Nat) → (read : List Char) → Reader String
  | 0, _, _ => none
  | _, _, [] => none
  | steps + 1, read, c :: rest =>
    if c = quote then some (String.ofList read.reverse, rest)
    else if c = '\\' then
      match readEscape rest with
      | some (escaped, rest) => readBasic steps (escaped :: read) rest
      | none => none
    else if isPrintable c then readBasic steps (c :: read) rest
    else none

/-- A text between apostrophes, behind the opening one. -/
def readLiteral (text : List Char) : Option (String × List Char) :=
  let content := text.takeWhile fun c => isPrintable c && c != apostrophe
  match text.drop content.length with
  | c :: rest => if c = apostrophe then some (String.ofList content, rest) else none
  | [] => none

/-- The marks at the front of a text that close it: from three to five are the last three and up to
two more that belong to the text. -/
def closing? (mark : Char) (text : List Char) : Option (Nat × List Char) :=
  let marks := (text.takeWhile (· == mark)).length
  if marks < 3 then none else some (min marks 5 - 3, text.drop (min marks 5))

/-- The text behind blanks and line ends, in at most the given number of lines. -/
def skipBlankLines : (steps : Nat) → List Char → List Char
  | 0, text => text
  | steps + 1, text =>
    match newline? (skipSpaces text) with
    | some rest => skipBlankLines steps rest
    | none => skipSpaces text

/-- The text behind a line end that is left out together with all blanks and line ends that follow;
nothing when something else stands before the line end. -/
def skipFolded (text : List Char) : Option (List Char) :=
  (newline? (skipSpaces text)).map fun rest => skipBlankLines (rest.length + 1) rest

/-- A text between three marks, behind the opening ones, in at most the given number of steps. Line
ends become line feeds. Double quotes allow escapes, and a backslash at the end of a line leaves
that line end and the blanks behind it out. -/
def readLong (mark : Char) : (steps : Nat) → (read : List Char) → Reader String
  | 0, _, _ => none
  | _, _, [] => none
  | steps + 1, read, c :: rest =>
    match closing? mark (c :: rest) with
    | some (extra, rest) =>
      some (String.ofList (read.reverse ++ List.replicate extra mark), rest)
    | none =>
      match newline? (c :: rest) with
      | some rest => readLong mark steps ('\n' :: read) rest
      | none =>
        if c = '\\' ∧ mark = quote then
          match skipFolded rest with
          | some rest => readLong mark steps read rest
          | none =>
            match readEscape rest with
            | some (escaped, rest) => readLong mark steps (escaped :: read) rest
            | none => none
        else if isPrintable c then readLong mark steps (c :: read) rest
        else none

/-- A text in one of its four ways. -/
def readText : Reader String
  | a :: b :: c :: rest =>
    if a = quote ∧ b = quote ∧ c = quote then readLong quote (rest.length + 1) [] (skipNewline rest)
    else if a = apostrophe ∧ b = apostrophe ∧ c = apostrophe then
      readLong apostrophe (rest.length + 1) [] (skipNewline rest)
    else if a = quote then readBasic (rest.length + 3) [] (b :: c :: rest)
    else if a = apostrophe then readLiteral (b :: c :: rest)
    else none
  | [a, b] =>
    if a = quote ∧ b = quote ∨ a = apostrophe ∧ b = apostrophe then some ("", []) else none
  | _ => none

/-! ## Documents -/

/-- A key: bare, or a text on one line. -/
def readKey : Reader String
  | [] => none
  | c :: rest =>
    if c = quote then readBasic (rest.length + 1) [] rest
    else if c = apostrophe then readLiteral rest
    else
      let key := (c :: rest).takeWhile isBare
      if key = [] then none else some (String.ofList key, (c :: rest).drop key.length)

/-- The end of a line: blanks, possibly a comment, and a line end or the end of the document. -/
def lineEnd? (text : List Char) : Option (List Char) :=
  let text := skipSpaces text
  let text := match text with
    | '#' :: rest => rest.dropWhile isPrintable
    | _ => text
  if text = [] then some [] else newline? text

/-- A key, an equals sign and a text. -/
def readPair : Reader (String × String) := fun text => do
  let (key, rest) ← readKey text
  match skipSpaces rest with
  | '=' :: rest => do
    let (value, rest) ← readText (skipSpaces rest)
    some ((key, value), rest)
  | _ => none

/-- The pairs of a document, line by line, in at most the given number of steps. -/
def readLines : (steps : Nat) → List Char → Option (List (String × String))
  | 0, _ => none
  | _, [] => some []
  | steps + 1, text =>
    match lineEnd? text with
    | some rest => readLines steps rest
    | none => do
      let (pair, rest) ← readPair (skipSpaces text)
      let rest ← lineEnd? rest
      let pairs ← readLines steps rest
      some (pair :: pairs)

/-- The keys of a document with their texts, in order. A byte order mark at the front is skipped. -/
def texts? (document : List Char) : Option (List (String × String)) :=
  let document := match document with
    | '\uFEFF' :: rest => rest
    | _ => document
  readLines (document.length + 1) document

end Toml

end CommandShell
