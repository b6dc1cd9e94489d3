import CommandShell.Path.Basic

/-!
# Locations

Names of entries, and places in a tree of directories.

- `FileName`: a name that an entry of a directory can have. It is a byte string and need not be a
  text.
- `FileName.shown`: the text that a name is shown as, and looked up under where only the shown text
  is at hand.
- `Location`: the names on the way from a place up to the root.
- `Location.path`: the absolute path of a location.
-/

namespace CommandShell

/-! ## Names -/

/-- Bytes that can name an entry of a directory: not empty, not `.` or `..`, no `/`, no NUL, and at
most 255 of them. -/
def FileName.Legal (bytes : Bytes) : Prop :=
  bytes ≠ [] ∧ bytes ≠ [dot] ∧ bytes ≠ [dot, dot] ∧ separator ∉ bytes ∧ 0 ∉ bytes ∧
    bytes.length ≤ 255

/-- Legal names can be told from other bytes. -/
instance (bytes : Bytes) : Decidable (FileName.Legal bytes) := by
  unfold FileName.Legal
  infer_instance

/-- The name of an entry of a directory. -/
structure FileName where
  /-- The bytes of the name. -/
  bytes : Bytes
  /-- The bytes are fit to be a name. -/
  legal : FileName.Legal bytes
  deriving DecidableEq

namespace FileName

/-- The name with given bytes, when they are legal. -/
def ofBytes? (bytes : Bytes) : Option FileName :=
  if h : Legal bytes then some ⟨bytes, h⟩ else none

/-- The name with a text, which must be legal. -/
def ofString (text : String) (legal : Legal (Utf8.ofString text) := by decide) : FileName :=
  ⟨Utf8.ofString text, legal⟩

/-- The text that a name is shown as. -/
def shown (name : FileName) : String := Utf8.toStringLossy name.bytes

end FileName

/-! ## Locations -/

/-- A place in the tree: the names from the place up to the root, so that the tail of a location is
the directory it lies in and the root is the empty list. -/
abbrev Location := List FileName

/-- The absolute path of a location. -/
def Location.path (location : Location) : Path :=
  ⟨separator :: [separator].intercalate (location.reverse.map FileName.bytes)⟩

end CommandShell
