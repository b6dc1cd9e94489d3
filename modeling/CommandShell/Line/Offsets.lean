import CommandShell.Line.Basic
import CommandShell.Text.Utf8

/-!
# Command lines by byte offsets

The redirection of a line is looked for among the bytes of the text, and the text is then cut at the
offsets that were found. An offset beyond the text, or one inside a character, cuts no text: there
is no answer then.

- `CommandLine.parseOffsets`: the command line in a line of input, unless a cut fails.
-/

namespace CommandShell

/-- The byte of the character `>`. -/
def angleByte : UInt8 := 0x3E

/-- The greatest offset at which a mark stands. The mark has bytes. -/
def lastOffset (mark : Bytes) : Bytes → Option Nat
  | [] => none
  | b :: rest =>
    match lastOffset mark rest with
    | some offset => some (offset + 1)
    | none => if mark.isPrefixOf (b :: rest) then some 0 else none

/-- The first offset of the run of `>` that ends at an offset. There is none when a byte is read
that does not exist. -/
def runStart (bytes : Bytes) : Nat → Option Nat
  | 0 => some 0
  | offset + 1 =>
    match bytes[offset]? with
    | none => none
    | some b => if b = angleByte then runStart bytes offset else some (offset + 1)

/-- The text before and behind an offset, when the offset lies in the text and between two
characters. -/
def cutAt : List Char → Nat → Option (List Char × List Char)
  | text, 0 => some ([], text)
  | [], _ + 1 => none
  | c :: rest, offset + 1 =>
    let size := (Utf8.encodeChar c).length
    if offset + 1 < size then none
    else (cutAt rest (offset + 1 - size)).map fun (before, after) => (c :: before, after)

/-- What a search for the redirection finds: where its mark begins, the length of the mark and the
mode. -/
structure MarkPlace where
  /-- The offset at which the mark begins. -/
  start : Nat
  /-- The number of bytes of the mark. -/
  size : Nat
  /-- How the target is written. -/
  mode : WriteMode

/-- The place of the redirection among the bytes of a text: `some none` without one, and `none` when
a byte is read that does not exist. -/
def findMark (bytes : Bytes) : Option (Option MarkPlace) :=
  match lastOffset [angleByte, angleByte] bytes with
  | some offset => (runStart bytes offset).map fun start => some ⟨start, 2, .append⟩
  | none => some ((lastOffset [angleByte] bytes).map fun start => ⟨start, 1, .truncate⟩)

namespace CommandLine

/-- The command part of a trimmed text and its redirection, unless a cut fails. -/
def splitOffsets (text : List Char) : Option (Except LineFault (List Char × Option Redirection)) :=
  match findMark (Utf8.encode text) with
  | none => none
  | some none => some (.ok (text, none))
  | some (some place) =>
    match cutAt text place.start, cutAt text (place.start + place.size) with
    | some (command, _), some (_, target) =>
      some <|
        if trimAscii target = [] then .error .missingTarget
        else if trimAscii command = [] then .error .missingCommand
        else .ok (command, some ⟨String.ofList (trimAscii target), place.mode⟩)
    | _, _ => none

/-- The command line in a line of input, unless a cut fails. -/
def parseOffsets (line : String) : Option (Except LineFault (Option CommandLine)) :=
  let text := trimAscii line.toList
  if text = [] then some (.ok none)
  else
    match splitOffsets text with
    | none => none
    | some (.error fault) => some (.error fault)
    | some (.ok (command, redirection)) =>
      match splitWords command with
      | none => some (.error .openQuote)
      | some words => some (.ok (ofWords redirection words))

end CommandLine

end CommandShell
