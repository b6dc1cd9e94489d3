import CommandShell.Archive.Format
import CommandShell.Archive.Inflate
import CommandShell.Archive.Record

/-!
# Reading zip archives

The end record is searched from the end of the file backwards; it says how many members there are
and where the directory lies. What lies before the archive or behind it does not matter. A directory
that cannot be read sends the search further back.

Names that are not marked as UTF-8 have one byte for each character of the code page 437, whose
lower half is ASCII.

- `CodePage.toString`: the text of such a name; `length_upperHalf` says that the table has a
  character for each byte of the upper half.
- `Archive.entries`: the directory of a file, with the offsets of the members' records. A later
  entry with the name of an earlier one takes its place.
- `Archive.zip`: the format as a whole.

Name, sizes and checksum are those of the directory; the local records only say where data start.
-/

namespace CommandShell

namespace CodePage

/-- The characters of the bytes from 128 on. -/
def upperHalf : List Char :=
  ['Ç', 'ü', 'é', 'â', 'ä', 'à', 'å', 'ç', 'ê', 'ë', 'è', 'ï', 'î', 'ì', 'Ä', 'Å', 'É', 'æ', 'Æ',
    'ô', 'ö', 'ò', 'û', 'ù', 'ÿ', 'Ö', 'Ü', '¢', '£', '¥', '₧', 'ƒ', 'á', 'í', 'ó', 'ú', 'ñ',
    'Ñ', 'ª', 'º', '¿', '⌐', '¬', '½', '¼', '¡', '«', '»', '░', '▒', '▓', '│', '┤', '╡', '╢',
    '╖', '╕', '╣', '║', '╗', '╝', '╜', '╛', '┐', '└', '┴', '┬', '├', '─', '┼', '╞', '╟', '╚',
    '╔', '╩', '╦', '╠', '═', '╬', '╧', '╨', '╤', '╥', '╙', '╘', '╒', '╓', '╫', '╪', '┘', '┌',
    '█', '▄', '▌', '▐', '▀', 'α', 'ß', 'Γ', 'π', 'Σ', 'σ', 'µ', 'τ', 'Φ', 'Θ', 'Ω', 'δ', '∞',
    'φ', 'ε', '∩', '≡', '±', '≥', '≤', '⌠', '⌡', '÷', '≈', '°', '∙', '·', '√', 'ⁿ', '²', '■',
    '\u00A0']

/-- The table has a character for each byte of the upper half. -/
theorem length_upperHalf : upperHalf.length = 128 := by
  simp [upperHalf]

/-- The character of a byte. -/
def decodeByte (b : UInt8) : Char :=
  if b.toNat < 128 then Char.ofNat b.toNat else upperHalf.getD (b.toNat - 128) '\uFFFD'

/-- The text of some bytes. -/
def toString (bytes : Bytes) : String :=
  String.ofList (bytes.map decodeByte)

end CodePage

namespace Archive

/-! ## The end record -/

/-- What the end record says. -/
structure EndRecord where
  /-- Where the record lies in the file. -/
  position : Nat
  /-- The number of this part of the archive. -/
  part : Nat
  /-- The number of the part with the directory. -/
  directoryPart : Nat
  /-- The number of members listed in this part. -/
  listed : Nat
  /-- The number of members. -/
  total : Nat
  /-- Where the directory lies, counted from the start of the archive. -/
  directoryOffset : Nat

/-- The positions at which some bytes lie, the last one first. -/
def positionsOf (signature : Bytes) : (file : Bytes) → (position : Nat) → List Nat
  | [], _ => []
  | b :: rest, position =>
    positionsOf signature rest (position + 1) ++
      if signature.isPrefixOf (b :: rest) then [position] else []

/-- The end record at a position. -/
def endRecordAt (file : Bytes) (position : Nat) : Except ArchiveFault EndRecord :=
  let bytes := file.drop position
  if bytes.length < endSize then .error .unreadable
  else if bytes.length < endSize + numberAt bytes 20 2 then .error .commentTooLong
  else
    .ok
      { position
        part := numberAt bytes 4 2
        directoryPart := numberAt bytes 6 2
        listed := numberAt bytes 8 2
        total := numberAt bytes 10 2
        directoryOffset := numberAt bytes 16 4 }

/-- Where the directory starts in the file: at its recorded offset, or, when bytes were put before
the archive, at the first directory record after that offset. -/
def directoryStart (file : Bytes) (record : EndRecord) : Except ArchiveFault Nat :=
  -- An archive without members has no directory record to look for.
  if record.total = 0 then .ok record.directoryOffset
  else if record.position ≤ record.directoryOffset then .error .badDirectoryOffset
  else
    let between := (file.take record.position).drop record.directoryOffset
    match (positionsOf directorySignature between record.directoryOffset).getLast? with
    | some start => .ok start
    | none => .error .noDirectoryEntry

/-! ## The directory -/

/-- What the directory says about a member. -/
structure DirectoryEntry where
  /-- The name of the member. -/
  name : String
  /-- The flags of the member. -/
  flags : Nat
  /-- How the data are stored. -/
  method : Nat
  /-- The checksum of the data. -/
  checksum : Nat
  /-- The number of bytes that the data take in the file. -/
  storedSize : Nat
  /-- Where the local record lies in the file. -/
  position : Nat

/-- The first directory record of some bytes, and the bytes behind it. `shift` is the number of
bytes before the archive. -/
def readDirectoryEntry (shift : Nat) (bytes : Bytes) : Option (DirectoryEntry × Bytes) :=
  let nameLength := numberAt bytes 28 2
  let size := directorySize + nameLength + numberAt bytes 30 2 + numberAt bytes 32 2
  if directorySignature.isPrefixOf bytes ∧ size ≤ bytes.length then
    let flags := numberAt bytes 8 2
    let name := (bytes.drop directorySize).take nameLength
    some
      ({ name := if flags.testBit utf8Flag then Utf8.toStringLossy name else CodePage.toString name
         flags
         method := numberAt bytes 10 2
         checksum := numberAt bytes 16 4
         storedSize := numberAt bytes 20 4
         position := numberAt bytes 42 4 + shift },
        bytes.drop size)
  else none

/-- A directory of some members so far, with one more: it takes the place of an entry with the same
name. -/
def addEntry (entry : DirectoryEntry) : List DirectoryEntry → List DirectoryEntry
  | [] => [entry]
  | old :: rest => if old.name = entry.name then entry :: rest else old :: addEntry entry rest

/-- As many directory records as counted, added to those before. -/
def readDirectory (shift : Nat) :
    (count : Nat) → List DirectoryEntry → Bytes → Option (List DirectoryEntry)
  | 0, listed, _ => some listed
  | count + 1, listed, bytes => do
    let (entry, rest) ← readDirectoryEntry shift bytes
    readDirectory shift count (addEntry entry listed) rest

/-- The directory that an end record points to, when it can be read. -/
def entriesOf (file : Bytes) (record : EndRecord) (start : Nat) : Option (List DirectoryEntry) :=
  if record.part ≠ record.directoryPart then none
  else readDirectory (start - record.directoryOffset) record.listed [] (file.drop start)

/-- The directory of a file, given the positions where an end record may lie. `remembered` is the
fault to report when none of them serves. -/
def entriesFrom (file : Bytes) :
    List Nat → Option ArchiveFault → Except ArchiveFault (List DirectoryEntry)
  | [], remembered => .error (remembered.getD .noEndRecord)
  | position :: earlier, remembered =>
    match endRecordAt file position with
    | .error fault => entriesFrom file earlier (remembered.or (some fault))
    | .ok record =>
      match directoryStart file record with
      -- A fault of the directory outweighs those of end records behind it.
      | .error fault => entriesFrom file earlier (some fault)
      | .ok start =>
        match entriesOf file record start with
        | some entries => .ok entries
        -- Records that cannot be read are no reason to report: the end record was none.
        | none => entriesFrom file earlier none

/-- The directory of a file. -/
def entries (file : Bytes) : Except ArchiveFault (List DirectoryEntry) :=
  entriesFrom file (positionsOf endSignature file 0) none

/-! ## Members -/

/-- The data of a member as stored; they may end early with the file. -/
def storedData (file : Bytes) (entry : DirectoryEntry) : Except ArchiveFault Bytes :=
  let bytes := file.drop entry.position
  if entry.flags.testBit encryptedFlag then .error .encrypted
  else if bytes.length < localSize then .error .unreadable
  else if !localSignature.isPrefixOf bytes then .error .badLocalHeader
  else if entry.method ≠ 0 ∧ entry.method ≠ 8 then .error .badMethod
  else
    .ok ((bytes.drop (localSize + numberAt bytes 26 2 + numberAt bytes 28 2)).take entry.storedSize)

/-- The data of a member, unpacked and checked. -/
def unpack (entry : DirectoryEntry) (stored : Bytes) : Except InflateFault Bytes := do
  let data ← if entry.method = 8 then inflate stored else .ok stored
  if (Checksum.ofBytes data).toNat = entry.checksum then .ok data else .error .checksum

/-- What lies under a directory entry. A name tells whether it is that of a directory. -/
def openEntry (file : Bytes) (entry : DirectoryEntry) : Except ArchiveFault Listed :=
  (storedData file entry).map fun stored =>
    ⟨entry.name, namesDirectory entry.name, unpack entry stored⟩

/-! ## The format -/

/-- Archives in the zip format. A name is stored once, and takes two bytes for its length. -/
def zip : Format where
  refusesName members name :=
    if members.any (·.name = name) then some (.duplicateName name)
    else if 0x10000 ≤ (Utf8.ofString name).length then some .nameTooLong
    else none
  refusesData _ _ := none
  encode := encode
  list file := (entries file).map fun listed => listed.map (openEntry file)

end Archive

end CommandShell
