import CommandShell.Disk.Basic
import CommandShell.Disk.Refusal

/-!
# Walking a disk

What a path leads to, name by name and through symbolic links.

- `Path.steps`: the steps that a path asks for. A separator at the end is a step of its own: it
  needs a directory.
- `Disk.walk`: the spot that a path leads to. It is either occupied, or vacant in a directory that
  exists; the way to any other spot is refused.
- At most `linkLimit` symbolic links are followed, and a path has fewer than `pathLimit` bytes.
-/

namespace CommandShell

/-! ## Steps -/

/-- One step of a walk. -/
inductive Step
  /-- Into the entry with this name. -/
  | name (bytes : Bytes)
  /-- Nowhere, which needs a directory: `.`. -/
  | stay
  /-- To the directory above: `..`. -/
  | up
  /-- Nowhere, which needs a directory: a separator at the end. -/
  | slash
  deriving DecidableEq, Repr

/-- The step that a segment between separators asks for; empty segments ask for none. -/
def Step.ofSegment? (segment : Bytes) : Option Step :=
  if segment = [] then none
  else if segment = [dot] then some .stay
  else if segment = [dot, dot] then some .up
  else some (.name segment)

/-- The steps of a path, from the root or from where the walk stands. -/
def Path.steps (p : Path) : List Step :=
  let steps := (p.bytes.splitOn separator).filterMap Step.ofSegment?
  if steps ≠ [] ∧ p.bytes.getLast? = some separator then steps ++ [.slash] else steps

/-- Steps without a separator at the end. -/
def Step.dropSlash (steps : List Step) : List Step :=
  if steps.getLast? = some .slash then steps.dropLast else steps

/-! ## Walking -/

/-- Where a walk ends. -/
inductive Spot
  /-- Something lies here. -/
  | found (location : Location)
  /-- Nothing has this name in the directory. -/
  | vacant (directory : Location) (name : FileName)
  deriving DecidableEq

/-- What a walk is for, which decides about its last name. -/
inductive Purpose
  /-- To use what lies there, through symbolic links. -/
  | use
  /-- To use a symbolic link itself. -/
  | useLink
  /-- To write a file there, through symbolic links; a separator behind the name is refused as the
  spot of a directory. -/
  | makeFile
  deriving DecidableEq, Repr

/-- The number of symbolic links that a walk may follow. -/
def linkLimit : Nat := 40

/-- The number of bytes that no path reaches. -/
def pathLimit : Nat := 4096

namespace Disk

/-- The steps from a location. `follow` goes on behind a symbolic link: it gets the location at
which the link's text starts, and the steps of that text together with those still to go. -/
def walkFrom (d : Disk) (purpose : Purpose)
    (follow : Location → List Step → Except Refusal Spot) :
    Location → List Step → Except Refusal Spot
  | here, [] => .ok (.found here)
  | here, step :: rest =>
    if d.get? here ≠ some .directory then .error .notDirectory
    else
      match step with
      | .stay => walkFrom d purpose follow here rest
      | .slash => walkFrom d purpose follow here rest
      | .up => walkFrom d purpose follow here.tail rest
      | .name bytes =>
        -- Whatever the name leads to, what is made there would be a directory.
        if purpose = .makeFile ∧ rest = [.slash] then .error .isDirectory
        else
          match FileName.ofBytes? bytes with
          | none => .error .nameTooLong
          | some name =>
            match d.get? (name :: here) with
            | none => if rest = [] then .ok (.vacant here name) else .error .notFound
            | some (.link target) =>
              if purpose = .useLink ∧ rest = [] then .ok (.found (name :: here))
              else follow (if target.isAbsolute then [] else here) (target.steps ++ rest)
            | some _ => walkFrom d purpose follow (name :: here) rest

/-- The steps from a location, through at most the given number of symbolic links. -/
def walkLinks (d : Disk) (purpose : Purpose) : Nat → Location → List Step → Except Refusal Spot
  | 0 => walkFrom d purpose fun _ _ => .error .tooManyLinks
  | links + 1 => walkFrom d purpose (walkLinks d purpose links)

/-- Steps from the root. -/
def walkSteps (d : Disk) (purpose : Purpose) (steps : List Step) : Except Refusal Spot :=
  walkLinks d purpose linkLimit [] steps

/-- A path that no disk can serve is refused before any step: one with a NUL, one that is too long,
and the empty one. -/
def checkPath (p : Path) : Except Refusal Unit :=
  if 0 ∈ p.bytes then .error .nulByte
  else if pathLimit ≤ p.size then .error .nameTooLong
  else if p.bytes = [] then .error .notFound
  else .ok ()

/-- The spot that a path leads to. A path that is not absolute is read from the root. -/
def walk (d : Disk) (purpose : Purpose) (p : Path) : Except Refusal Spot :=
  match checkPath p with
  | .error refusal => .error refusal
  | .ok () => d.walkSteps purpose p.steps

/-- The location of what lies at a path. -/
def find (d : Disk) (purpose : Purpose) (p : Path) : Except Refusal Location :=
  match d.walk purpose p with
  | .ok (.found location) => .ok location
  | .ok (.vacant ..) => .error .notFound
  | .error refusal => .error refusal

end Disk

end CommandShell
