import CommandShell.Path.Basic

/-!
# Normal forms of paths

Folding `.` and `..` by the text alone, without looking at a disk.

- `Path.resolve`: a typed path read from a directory.
- `Path.normalize`: the path without `.`, with every `..` taken back that has a name before it. A
  `..` at the root stays at the root; a relative path keeps those that lead above its start.
- `Path.isWithin`: whether a path is another one or lies below it, after folding.
-/

namespace CommandShell

namespace Component

/-- One component on a stack of folded components, whose top comes first. -/
def fold : List Component → Component → List Component
  | stack, current => stack
  | normal _ :: stack, parent => stack
  | root :: stack, parent => root :: stack
  | stack, component => component :: stack

/-- A list of components with `.` removed and `..` taken back. -/
def normalize (components : List Component) : List Component :=
  (components.foldl fold []).reverse

end Component

namespace Path

/-- A typed path read from a directory: an absolute one stands for itself. -/
def resolve (base : Path) (typed : String) : Path :=
  base.join (ofString typed)

/-- The normal form of a path. -/
def normalize (p : Path) : Path :=
  ofComponents (Component.normalize p.components)

/-- Whether a path, in normal form, is `base` or lies below it. -/
def isWithin (p base : Path) : Bool :=
  p.normalize.startsWith base.normalize

end Path

end CommandShell
