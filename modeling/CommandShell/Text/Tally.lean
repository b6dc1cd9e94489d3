/-!
# Blanks, lines and counts

There are two sets of blanks: the five of ASCII, which are cut off both ends of a command line, and
those of Unicode, which separate the words that are counted.

- `isAsciiBlank`, `isBlank`: the blanks; `isAsciiBlank_isBlank` says that the first are among the
  second.
- `textLines`: the lines of a text. A line ends at a line feed, which is not part of it, and
  neither is one carriage return before that line feed. A last line without a line feed counts
  when it is not empty and is kept as it is.
- `Tally`: the number of lines, of words, and of characters, where the characters are those of the
  words and one gap between adjacent words of a line.
-/

namespace CommandShell

/-! ## Blanks -/

/-- Space, tab, line feed, form feed and carriage return. -/
def isAsciiBlank (c : Char) : Bool :=
  c == ' ' || c == '\t' || c == '\n' || c == '\x0c' || c == '\r'

/-- The characters with the Unicode property White_Space. -/
def isBlank (c : Char) : Bool :=
  let n := c.toNat
  (9 ≤ n && n ≤ 13) || n == 0x20 || n == 0x85 || n == 0xA0 || n == 0x1680 ||
    (0x2000 ≤ n && n ≤ 0x200A) || n == 0x2028 || n == 0x2029 || n == 0x202F || n == 0x205F ||
    n == 0x3000

/-- An ASCII blank is a Unicode blank. -/
theorem isAsciiBlank_isBlank {c : Char} (h : isAsciiBlank c = true) : isBlank c = true := by
  simp only [isAsciiBlank, Bool.or_eq_true, beq_iff_eq] at h
  rcases h with (((rfl | rfl) | rfl) | rfl) | rfl <;> rfl

/-- The text without the characters of a class at its end. -/
def dropEndWhile (cut : Char → Bool) (text : List Char) : List Char :=
  (text.reverse.dropWhile cut).reverse

/-- The text without ASCII blanks at either end. -/
def trimAscii (text : List Char) : List Char :=
  dropEndWhile isAsciiBlank (text.dropWhile isAsciiBlank)

/-! ## Lines -/

/-- A finished line without its one carriage return, if it ends in one. -/
def dropCarriageReturn (line : List Char) : List Char :=
  if line.getLast? = some '\r' then line.dropLast else line

/-- The lines of a text. -/
def textLines (text : List Char) : List (List Char) :=
  let pieces := text.splitOn '\n'
  let finished := pieces.dropLast.map dropCarriageReturn
  match pieces.getLast? with
  | some (c :: rest) => finished ++ [c :: rest]
  | _ => finished

/-- The empty text has no lines. -/
@[simp]
theorem textLines_nil : textLines [] = [] := rfl

/-! ## Words -/

/-- The maximal runs of characters that are not blank. -/
def textWords (line : List Char) : List (List Char) :=
  (line.splitOnP isBlank).filter (· ≠ [])

/-! ## Counts -/

/-- What is counted in a text. -/
structure Tally where
  /-- The number of lines. -/
  lines : Nat
  /-- The number of words. -/
  words : Nat
  /-- The characters of the words, and one for each gap between two words of a line. -/
  chars : Nat
  deriving DecidableEq, Repr

namespace Tally

/-- Nothing counted yet. -/
def zero : Tally := ⟨0, 0, 0⟩

/-- Counts of two texts together. -/
def add (first second : Tally) : Tally :=
  ⟨first.lines + second.lines, first.words + second.words, first.chars + second.chars⟩

/-- The counts of one line. -/
def ofLine (line : List Char) : Tally :=
  let words := textWords line
  ⟨1, words.length, words.flatten.length + (words.length - 1)⟩

/-- The counts of a text are the sums over its lines. -/
def ofText (text : List Char) : Tally :=
  ((textLines text).map ofLine).foldl add zero

/-- The empty text counts for nothing. -/
@[simp]
theorem ofText_nil : ofText [] = zero := rfl

end Tally

end CommandShell
