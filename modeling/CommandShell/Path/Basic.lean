import CommandShell.Text.Utf8

/-!
# Paths

A path is a byte string in which `/` separates components. The bytes need not be a text: names of
entries may hold any bytes but `/` and NUL. Nothing here looks at a disk.

- `Path.ofString`, `Path.shown`: the path with a text, and the text that a path is shown as.
- `Path.components`: the components of a path. Repeated and trailing separators vanish, and so does
  `.`, except at the start of a relative path.
- `Path.join`: a path read from another one. The bytes are kept as they are, and an absolute path
  stands for itself.
- `Path.parent`, `Path.fileName`, `Path.ancestors`: the way up.
- `Path.startsWith`: whether a path begins with the components of another.
-/

namespace CommandShell

/-- The byte that separates the names of a path: `/`. -/
@[match_pattern]
abbrev separator : UInt8 := 0x2F

/-- The byte that `.` and `..` are made of. -/
@[match_pattern]
abbrev dot : UInt8 := 0x2E

/-- A path as typed or built. -/
structure Path where
  /-- The bytes of the path. -/
  bytes : Bytes
  deriving DecidableEq, Repr

/-- One step of a path. -/
inductive Component
  /-- The `/` at the start of an absolute path. -/
  | root
  /-- A `.`. -/
  | current
  /-- A `..`. -/
  | parent
  /-- Any other name. -/
  | normal (name : Bytes)
  deriving DecidableEq, Repr

namespace Component

/-- The bytes of a component. -/
def bytes : Component → Bytes
  | root => [separator]
  | current => [dot]
  | parent => [dot, dot]
  | normal name => name

/-- The component that a segment between separators stands for, away from the start of a path. -/
def ofSegment? (segment : Bytes) : Option Component :=
  if segment = [] ∨ segment = [dot] then none
  else if segment = [dot, dot] then some parent
  else some (normal segment)

end Component

namespace Path

/-- The path with a text. -/
def ofString (text : String) : Path := ⟨Utf8.ofString text⟩

/-- The text that a path is shown as. -/
def shown (p : Path) : String := Utf8.toStringLossy p.bytes

/-- The root directory. -/
def root : Path := ⟨[separator]⟩

/-- The number of bytes of a path. -/
def size (p : Path) : Nat := p.bytes.length

/-- Whether a path starts at the root. -/
def isAbsolute (p : Path) : Bool :=
  p.bytes.head? == some separator

/-! ## Components -/

/-- The components of some bytes. -/
def componentsOfBytes : Bytes → List Component
  | separator :: rest => .root :: (rest.splitOn separator).filterMap Component.ofSegment?
  | bytes =>
    match bytes.splitOn separator with
    | [dot] :: rest => .current :: rest.filterMap Component.ofSegment?
    | segments => segments.filterMap Component.ofSegment?

/-- A separator at the start is the root. -/
theorem componentsOfBytes_separator (rest : Bytes) :
    componentsOfBytes (separator :: rest) =
      .root :: (rest.splitOn separator).filterMap Component.ofSegment? := rfl

/-- The components of a path. -/
def components (p : Path) : List Component :=
  componentsOfBytes p.bytes

/-- The last component, when it is a name. -/
def fileName (p : Path) : Option Bytes :=
  match p.components.getLast? with
  | some (.normal name) => some name
  | _ => none

/-- Whether a path begins with all components of another. -/
def startsWith (p base : Path) : Bool :=
  base.components.isPrefixOf p.components

/-! ## Joining -/

/-- A path read from a directory. A separator is added unless the directory ends in one. -/
def join (directory p : Path) : Path :=
  if p.isAbsolute then p
  else if directory.bytes = [] ∨ directory.bytes.getLast? = some separator then
    ⟨directory.bytes ++ p.bytes⟩
  else ⟨directory.bytes ++ separator :: p.bytes⟩

/-- The path that a list of components spells. -/
def ofComponents (components : List Component) : Path :=
  components.foldl (fun p component => p.join ⟨component.bytes⟩) ⟨[]⟩

/-! ## The way up -/

/-- Segments, last one first, without those at the end that are no component. The first segment of
a relative path is a component even when it is `.`. -/
def dropVoidSegments (relative : Bool) : List Bytes → List Bytes
  | [] => []
  | segment :: outer =>
    if segment = [] ∨ (segment = [dot] ∧ ¬(relative = true ∧ outer = [])) then
      dropVoidSegments relative outer
    else segment :: outer

/-- Segments, last one first, without the last component and what hangs behind it. -/
def dropLastSegment (relative : Bool) (segments : List Bytes) : List Bytes :=
  dropVoidSegments relative (dropVoidSegments relative segments).tail

/-- Segments, last one first, as the bytes they were cut from. -/
def joinSegments (segments : List Bytes) : Bytes :=
  [separator].intercalate segments.reverse

/-- The bytes of a path without its last component. -/
def parentBytes : Bytes → Bytes
  | separator :: rest =>
    separator :: joinSegments (dropLastSegment false (rest.splitOn separator).reverse)
  | bytes => joinSegments (dropLastSegment true (bytes.splitOn separator).reverse)

/-- The separator at the start stays. -/
theorem parentBytes_separator (rest : Bytes) :
    parentBytes (separator :: rest) =
      separator :: joinSegments (dropLastSegment false (rest.splitOn separator).reverse) := rfl

/-- The path without its last component; the root and the empty path have no parent. -/
def parent (p : Path) : Option Path :=
  match p.components.getLast? with
  | none => none
  | some .root => none
  | some _ => some ⟨parentBytes p.bytes⟩

/-- A path and at most `n` paths above it, nearest first. -/
def ancestorsUpTo : Nat → Path → List Path
  | 0, p => [p]
  | n + 1, p =>
    match p.parent with
    | none => [p]
    | some above => p :: ancestorsUpTo n above

/-- A path and all paths above it, nearest first; each step up removes one component. -/
def ancestors (p : Path) : List Path :=
  ancestorsUpTo p.components.length p

end Path

end CommandShell
