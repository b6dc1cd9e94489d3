import CommandShell.Archive.Member
import CommandShell.Fault

/-!
# Formats of archives

Members are stored one after the other. Which members can be stored, how they become the bytes of a
file, and how the members are found again in a file is up to the format.

- `Archive.Format`: what a format has to say.
- `Archive.Format.Accepts`: the members that can be stored one after the other.
- `Archive.Format.read`: the members of a file, all of which must be readable.
- `Archive.Format.Faithful` and `Archive.Format.StoresOnce`: what may be expected of a format, that
  members are found again as they were stored, and that no name is stored twice.
-/

namespace CommandShell

namespace Archive

/-- What is found under one name in the file of an archive. -/
structure Listed where
  /-- The name exactly as stored. -/
  name : String
  /-- Whether it is taken for a directory. -/
  isDirectory : Bool
  /-- The bytes of a file, unless they cannot be had. -/
  data : Except InflateFault Bytes

/-- A format of archives. -/
structure Format where
  /-- Why nothing can be stored under a name behind some members. -/
  refusesName : List Member → String → Option ArchiveFault
  /-- Why the bytes of a file are not taken behind some members. -/
  refusesData : List Member → Member → Option Refusal
  /-- The file of an archive with some members. -/
  encode : List Member → Except ArchiveFault Bytes
  /-- What is found in a file, in the order of the archive. -/
  list : Bytes → Except ArchiveFault (List (Except ArchiveFault Listed))

namespace Format

/-- Members that can be stored one after the other. -/
inductive Accepts (format : Format) : List Member → Prop
  /-- There may be none. -/
  | nil : Accepts format []
  /-- One more is accepted by its name, and a file by its bytes too. -/
  | concat {members : List Member} {m : Member} :
      Accepts format members → format.refusesName members m.name = none →
        (m.kind = .file → format.refusesData members m = none) → Accepts format (members ++ [m])

/-- The member that was found. A directory has no bytes. -/
def memberOf : Except ArchiveFault Listed → Except Fault Member
  | .error fault => .error (.archive fault)
  | .ok found =>
    if found.isDirectory then .ok ⟨found.name, .directory, []⟩
    else
      match found.data with
      | .error fault => .error (.file (.inflate found.name fault))
      | .ok data => .ok ⟨found.name, .file, data⟩

/-- The members of a file, in order. -/
def read (format : Format) (file : Bytes) : Except Fault (List Member) :=
  match format.list file with
  | .error fault => .error (.archive fault)
  | .ok found => found.mapM memberOf

/-! ## What may be expected -/

/-- Archives hold the names and the bytes that were written, in their order, and a name that ends in
a slash or a backslash is taken for that of a directory. -/
def Faithful (format : Format) : Prop :=
  ∀ members file, format.Accepts members →
    format.encode members = .ok file →
      format.list file = .ok (members.map fun m => .ok ⟨m.name, namesDirectory m.name, .ok m.data⟩)

/-- Nothing is stored under a name that is stored already. -/
def StoresOnce (format : Format) : Prop :=
  ∀ members name, name ∈ members.map Member.name → format.refusesName members name ≠ none

end Format

end Archive

end CommandShell
