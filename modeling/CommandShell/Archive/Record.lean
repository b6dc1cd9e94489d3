import CommandShell.Archive.Member
import CommandShell.Fault

/-!
# Records of zip archives

An archive is a sequence of local records, each a header followed by the data of one member, then a
directory with one record for each member, then an end record. For the bytes of a member a cyclic
redundancy check with 32 bits is recorded: the reflected polynomial `0xEDB88320`, all bits set at
the start and flipped at the end.

- `Checksum.ofBytes`: the checksum of some bytes.
- `number`, `numberAt`: numbers as bytes, lowest byte first.
- `localRecord`, `directoryRecord`, `endRecord`: the records as they are written. Members are
  stored as they are, and names are marked as UTF-8.
- `Archive.encode`: the archive with some members. It fails when a name, a size or a count does not
  fit its field; the fields for larger archives are not written.
-/

namespace CommandShell

namespace Checksum

/-- One bit: a division step by the polynomial. -/
def bitStep (state : UInt32) : UInt32 :=
  if state &&& 1 = 1 then (state >>> 1) ^^^ 0xEDB88320 else state >>> 1

/-- One byte, lowest bit first. -/
def byteStep (state : UInt32) (b : UInt8) : UInt32 :=
  Nat.repeat bitStep 8 (state ^^^ b.toUInt32)

/-- The checksum of some bytes. -/
def ofBytes (bytes : Bytes) : UInt32 :=
  bytes.foldl byteStep 0xFFFFFFFF ^^^ 0xFFFFFFFF

/-- No bytes have the checksum zero. -/
@[simp]
theorem ofBytes_nil : ofBytes [] = 0 := by decide

end Checksum

namespace Archive

/-! ## Numbers -/

/-- A number in `width` bytes, lowest byte first. -/
def number : (width value : Nat) → Bytes
  | 0, _ => []
  | width + 1, value => UInt8.ofNat value :: number width (value / 256)

/-- The number that some bytes spell, lowest byte first. -/
def ofNumber : Bytes → Nat
  | [] => 0
  | b :: bytes => b.toNat + 256 * ofNumber bytes

/-- The number in `width` bytes from an offset on. -/
def numberAt (bytes : Bytes) (offset width : Nat) : Nat :=
  ofNumber ((bytes.drop offset).take width)

/-- A number takes as many bytes as its field has. -/
@[simp]
theorem length_number (width value : Nat) : (number width value).length = width := by
  induction width generalizing value with
  | zero => rfl
  | succ width ih => simp [number, ih]

/-! ## Layout -/

/-- The first bytes of a local record. -/
def localSignature : Bytes := [0x50, 0x4B, 0x03, 0x04]

/-- The first bytes of a directory record. -/
def directorySignature : Bytes := [0x50, 0x4B, 0x01, 0x02]

/-- The first bytes of the end record. -/
def endSignature : Bytes := [0x50, 0x4B, 0x05, 0x06]

/-- The length of a local record without its name, extra field and data. -/
def localSize : Nat := 30

/-- The length of a directory record without its name, extra field and comment. -/
def directorySize : Nat := 46

/-- The length of the end record without its comment. -/
def endSize : Nat := 22

/-- The flag of a name in UTF-8. -/
def utf8Flag : Nat := 11

/-- The flag of encrypted data. -/
def encryptedFlag : Nat := 0

/-- The fields that a local record and a directory record share: version, flags, method, time, date,
checksum, both sizes, and the length of the name. -/
def sharedFields (m : Member) : Bytes :=
  number 2 20 ++ number 2 (1 <<< utf8Flag) ++ number 2 0 ++ number 2 0 ++ number 2 0x21 ++
    number 4 (Checksum.ofBytes m.data).toNat ++ number 4 m.data.length ++ number 4 m.data.length ++
    number 2 (Utf8.ofString m.name).length

/-- The local record of a member, with its data. -/
def localRecord (m : Member) : Bytes :=
  localSignature ++ sharedFields m ++ number 2 0 ++ Utf8.ofString m.name ++ m.data

/-- The directory record of a member whose local record starts at an offset. -/
def directoryRecord (m : Member) (offset : Nat) : Bytes :=
  directorySignature ++ number 2 20 ++ sharedFields m ++ number 2 0 ++ number 2 0 ++ number 2 0 ++
    number 2 0 ++ number 4 0 ++ number 4 offset ++ Utf8.ofString m.name

/-- The directory of some members whose local records follow each other from an offset on. -/
def directory (offset : Nat) : List Member → Bytes
  | [] => []
  | m :: members => directoryRecord m offset ++ directory (offset + (localRecord m).length) members

/-- The end record of an archive: the number of members, and where the directory lies. -/
def endRecord (count size offset : Nat) : Bytes :=
  endSignature ++ number 2 0 ++ number 2 0 ++ number 2 count ++ number 2 count ++ number 4 size ++
    number 4 offset ++ number 2 0

/-! ## Writing -/

/-- The archive with some members. -/
def encode (members : List Member) : Except ArchiveFault Bytes :=
  let records := members.flatMap localRecord
  let listing := directory 0 members
  if members.any fun m => 0x10000 ≤ (Utf8.ofString m.name).length then .error .nameTooLong
  else if 0x10000 ≤ members.length ∨ 0x100000000 ≤ records.length + listing.length then
    .error .tooLarge
  else .ok (records ++ listing ++ endRecord members.length listing.length records.length)

end Archive

end CommandShell
