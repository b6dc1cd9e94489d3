import CommandShell.Archive.Reading
import CommandShell.Proofs.Utf8

/-!
# Archives are read back

An archive in a faithful format holds the members it was written with, in their order. The zip
format is faithful: the end record is the last one that can be read, it leads to the directory, and
each directory record leads to the data of its member.

## Main definitions

* `Member.asRead`: a member as it is read back.
* `Member.Proper`: a member whose name tells whether it is a directory.
* `Archive.entryFor`: what the directory says about a member.

## Main results

* `Archive.readDirectory_directory`: the directory is read back;
* `Archive.openEntry_entryFor`: the data of a member are found where the directory says;
* `Archive.Format.Faithful.read_encode`: an archive in a faithful format is read as the members that
  were written, and their names tell which are directories;
* `Archive.zip_faithful` and `Archive.zip_storesOnce`: what may be expected of the zip format.
-/

namespace CommandShell

/-- A member as it is read back: its name tells whether it is a directory, and a directory holds no
bytes. -/
def Member.asRead (m : Member) : Member :=
  if namesDirectory m.name then ⟨m.name, .directory, []⟩ else ⟨m.name, .file, m.data⟩

/-- The name of a member is read back whatever it is. -/
@[simp]
theorem Member.name_asRead (m : Member) : m.asRead.name = m.name := by
  rw [asRead]
  split <;> rfl

/-- The name of a member tells whether it is a directory, and a directory holds no bytes. -/
structure Member.Proper (m : Member) : Prop where
  /-- The kind is the one that the name tells. -/
  kind_eq : m.kind = if namesDirectory m.name then .directory else .file
  /-- A directory holds nothing. -/
  data_eq : m.kind = .directory → m.data = []

/-- A proper member is read back as it is. -/
theorem Member.Proper.asRead_eq {m : Member} (h : m.Proper) : m.asRead = m := by
  obtain ⟨name, kind, data⟩ := m
  obtain ⟨hkind, hdata⟩ := h
  simp only at hkind hdata
  rw [asRead]
  by_cases hdirectory : namesDirectory name = true
  · rw [if_pos hdirectory] at hkind ⊢
    rw [hkind, hdata hkind]
  · rw [if_neg hdirectory] at hkind ⊢
    rw [hkind]

namespace Archive

/-! ## Fields -/

/-- A number that fits its field is read back. -/
theorem ofNumber_number {width value : Nat} (h : value < 256 ^ width) :
    ofNumber (number width value) = value := by
  induction width generalizing value with
  | zero =>
    have : value = 0 := by simpa using h
    simp [number, ofNumber, this]
  | succ width ih =>
    have hdiv : value / 256 < 256 ^ width := by
      rw [Nat.div_lt_iff_lt_mul (by decide)]
      rw [Nat.pow_succ] at h
      exact h
    simp only [number, ofNumber, ih hdiv, UInt8.toNat_ofNat']
    omega

/-- A number that was written into two bytes is read back. -/
theorem ofNumber_two {value : Nat} (h : value < 2 ^ 16) : ofNumber (number 2 value) = value :=
  ofNumber_number (by simpa using h)

/-- A number that was written into four bytes is read back. -/
theorem ofNumber_four {value : Nat} (h : value < 2 ^ 32) : ofNumber (number 4 value) = value :=
  ofNumber_number (by simpa using h)

/-- What stands before a field does not matter. -/
theorem numberAt_append {before : Bytes} {offset : Nat} (h : before.length ≤ offset)
    (rest : Bytes) (width : Nat) :
    numberAt (before ++ rest) offset width = numberAt rest (offset - before.length) width := by
  rw [numberAt, numberAt, List.drop_append, List.drop_eq_nil_of_le h, List.nil_append]

/-- A field is the number that was written there. -/
theorem numberAt_number (width value : Nat) (rest : Bytes) :
    numberAt (number width value ++ rest) 0 width = ofNumber (number width value) := by
  rw [numberAt, List.drop_zero, List.take_left' (length_number width value)]

/-- The length of a directory record. -/
theorem length_directoryRecord (m : Member) (offset : Nat) :
    (directoryRecord m offset).length = directorySize + (Utf8.ofString m.name).length := by
  simp only [directoryRecord, sharedFields, List.length_append, length_number]
  rfl

/-- The length of a local record. -/
theorem length_localRecord (m : Member) :
    (localRecord m).length = localSize + (Utf8.ofString m.name).length + m.data.length := by
  simp only [localRecord, sharedFields, List.length_append, length_number]
  rfl

/-- The length of an end record. -/
theorem length_endRecord (count size offset : Nat) :
    (endRecord count size offset).length = endSize := by
  simp [endRecord, endSignature, endSize]

/-! ## Directory records -/

/-- What the directory says about a member whose local record starts at an offset. -/
def entryFor (m : Member) (offset : Nat) : DirectoryEntry where
  name := m.name
  flags := 1 <<< utf8Flag
  method := 0
  checksum := (Checksum.ofBytes m.data).toNat
  storedSize := m.data.length
  position := offset

/-- A record that is marked as one with a name in UTF-8, and has neither extra field nor comment, is
read up to the end of its name. -/
theorem readDirectoryEntry_of_fields {record : Bytes} (name : String) (rest : Bytes)
    (hlong : directorySize ≤ record.length)
    (hsignature : directorySignature.isPrefixOf record = true)
    (hflags : numberAt record 8 2 = 1 <<< utf8Flag)
    (hname : numberAt record 28 2 = (Utf8.ofString name).length)
    (hvoid : numberAt record 30 2 = 0 ∧ numberAt record 32 2 = 0)
    (htext : record.drop directorySize = Utf8.ofString name ++ rest) :
    readDirectoryEntry 0 record =
      some
        ({ name
           flags := 1 <<< utf8Flag
           method := numberAt record 10 2
           checksum := numberAt record 16 4
           storedSize := numberAt record 20 4
           position := numberAt record 42 4 },
          rest) := by
  -- The name lies within the record, and what is behind it is left.
  have hsize : directorySize + (Utf8.ofString name).length ≤ record.length := by
    have hlength := congrArg List.length htext
    rw [List.length_drop, List.length_append] at hlength
    omega
  have hrest : record.drop (directorySize + (Utf8.ofString name).length) = rest := by
    rw [← List.drop_drop, htext, List.drop_left]
  rw [readDirectoryEntry]
  simp only [hname, hvoid, hflags, hsignature, htext, Nat.add_zero, hsize, and_self, if_true,
    List.take_left, hrest, Utf8.toStringLossy_ofString, Nat.one_shiftLeft,
    Nat.testBit_two_pow_self]

/-- The fields of a directory record, with whatever stands behind it. -/
theorem fields_directoryRecord (m : Member) (offset : Nat) (rest : Bytes) :
    let record := directoryRecord m offset ++ rest
    numberAt record 8 2 = ofNumber (number 2 (1 <<< utf8Flag)) ∧
      numberAt record 10 2 = ofNumber (number 2 0) ∧
      numberAt record 16 4 = ofNumber (number 4 (Checksum.ofBytes m.data).toNat) ∧
      numberAt record 20 4 = ofNumber (number 4 m.data.length) ∧
      numberAt record 28 2 = ofNumber (number 2 (Utf8.ofString m.name).length) ∧
      numberAt record 30 2 = ofNumber (number 2 0) ∧
      numberAt record 32 2 = ofNumber (number 2 0) ∧
      numberAt record 42 4 = ofNumber (number 4 offset) := by
  have hsignature : directorySignature.length = 4 := rfl
  -- Whatever stands before a field is as long as the field's offset says.
  refine ⟨?_, ?_, ?_, ?_, ?_, ?_, ?_, ?_⟩ <;>
    simp (disch := simp [hsignature]) only [directoryRecord, sharedFields, List.append_assoc,
      numberAt_append, hsignature, length_number, numberAt_number, Nat.reduceSub]

/-- A directory record is read back, with whatever stands behind it. -/
theorem readDirectoryEntry_directoryRecord {m : Member} {offset : Nat}
    (hname : (Utf8.ofString m.name).length < 2 ^ 16) (hdata : m.data.length < 2 ^ 32)
    (hoffset : offset < 2 ^ 32) (rest : Bytes) :
    readDirectoryEntry 0 (directoryRecord m offset ++ rest) = some (entryFor m offset, rest) := by
  obtain ⟨hflags, hmethod, hchecksum, hsize, hlength, hextra, hcomment, hposition⟩ :=
    fields_directoryRecord m offset rest
  -- The numbers fit into their fields, so they are read as they were written.
  rw [ofNumber_four (Checksum.ofBytes m.data).toNat_lt] at hchecksum
  rw [ofNumber_four hdata] at hsize
  rw [ofNumber_two hname] at hlength
  rw [ofNumber_four hoffset] at hposition
  have hlong : directorySize ≤ (directoryRecord m offset ++ rest).length := by
    rw [List.length_append, length_directoryRecord]
    omega
  have hsignature : directorySignature.isPrefixOf (directoryRecord m offset ++ rest) = true := by
    simp [directoryRecord, List.append_assoc]
  have htext : (directoryRecord m offset ++ rest).drop directorySize =
      Utf8.ofString m.name ++ rest := by
    rw [directoryRecord, List.append_assoc, List.drop_left']
    simp only [sharedFields, List.length_append, length_number]
    rfl
  rw [readDirectoryEntry_of_fields m.name rest hlong hsignature hflags hlength
    ⟨hextra, hcomment⟩ htext, hmethod, hchecksum, hsize, hposition]
  rfl

/-- The directory of members says about each of them where its local record starts. -/
def entriesFor (offset : Nat) : List Member → List DirectoryEntry
  | [] => []
  | m :: members => entryFor m offset :: entriesFor (offset + (localRecord m).length) members

/-- A new name is added behind the others. -/
theorem addEntry_of_new {entry : DirectoryEntry} {listed : List DirectoryEntry}
    (h : entry.name ∉ listed.map DirectoryEntry.name) :
    addEntry entry listed = listed ++ [entry] := by
  induction listed with
  | nil => rfl
  | cons old rest ih =>
    rw [List.map_cons, List.mem_cons, not_or] at h
    rw [addEntry, if_neg (Ne.symm h.1), ih h.2, List.cons_append]

/-- What is needed of the sizes of members whose local records start at an offset. -/
def Fits (offset : Nat) (members : List Member) : Prop :=
  (∀ m ∈ members, (Utf8.ofString m.name).length < 2 ^ 16) ∧
    offset + (members.flatMap localRecord).length < 2 ^ 32

/-- The directory is read back, with whatever stands behind it. -/
theorem readDirectory_directory {offset : Nat} {members : List Member} (hfits : Fits offset members)
    {listed : List DirectoryEntry}
    (hnew : (listed.map DirectoryEntry.name ++ members.map Member.name).Nodup) (rest : Bytes) :
    readDirectory 0 members.length listed (directory offset members ++ rest) =
      some (listed ++ entriesFor offset members) := by
  -- The induction is on the members; those read so far have other names than the rest.
  induction members generalizing offset listed with
  | nil => simp [readDirectory, entriesFor]
  | cons m members ih =>
    obtain ⟨hnames, hend⟩ := hfits
    rw [List.flatMap_cons, List.length_append] at hend
    have hlength := length_localRecord m
    have hentry := readDirectoryEntry_directoryRecord (hnames m (by simp))
      (by omega : m.data.length < 2 ^ 32) (by omega : offset < 2 ^ 32)
      (directory (offset + (localRecord m).length) members ++ rest)
    have hfits' : Fits (offset + (localRecord m).length) members :=
      ⟨fun other hother => hnames other (by simp [hother]), by omega⟩
    have hadd : addEntry (entryFor m offset) listed = listed ++ [entryFor m offset] := by
      refine addEntry_of_new fun hmem => ?_
      exact (List.nodup_append.1 hnew).2.2 _ hmem m.name (by simp) rfl
    have hnew' : ((listed ++ [entryFor m offset]).map DirectoryEntry.name ++
        members.map Member.name).Nodup := by
      simpa [entryFor] using hnew
    rw [List.length_cons, readDirectory, directory, List.append_assoc, hentry]
    -- The first record is read, and its name is new.
    show readDirectory 0 members.length (addEntry (entryFor m offset) listed) _ = _
    rw [hadd, ih hfits' hnew', List.append_assoc]
    rfl

/-! ## Local records -/

/-- The data behind a local record are found where the record starts. -/
theorem storedData_localRecord {m : Member} (hname : (Utf8.ofString m.name).length < 2 ^ 16)
    (before after : Bytes) :
    storedData (before ++ (localRecord m ++ after)) (entryFor m before.length) = .ok m.data := by
  have hsignature : localSignature.length = 4 := rfl
  have hlength : numberAt (localRecord m ++ after) 26 2 = (Utf8.ofString m.name).length := by
    simp (disch := simp [hsignature]) only [localRecord, sharedFields, List.append_assoc,
      numberAt_append, hsignature, length_number, numberAt_number, Nat.reduceSub,
      ofNumber_two hname]
  have hextra : numberAt (localRecord m ++ after) 28 2 = 0 := by
    simp (disch := simp [hsignature]) only [localRecord, sharedFields, List.append_assoc,
      numberAt_append, hsignature, length_number, numberAt_number, Nat.reduceSub]
    rfl
  have hlong : ¬(localRecord m ++ after).length < localSize := by
    rw [List.length_append, length_localRecord]
    omega
  have hprefix : localSignature.isPrefixOf (localRecord m ++ after) = true := by
    simp [localRecord, List.append_assoc]
  have hdata : (localRecord m ++ after).drop (localSize + (Utf8.ofString m.name).length) =
      m.data ++ after := by
    rw [localRecord, List.append_assoc, List.drop_left']
    simp only [sharedFields, List.length_append, length_number]
    rfl
  simp only [storedData, entryFor, List.drop_left, hlength, hextra, hlong, hprefix]
  simp [utf8Flag, encryptedFlag, hdata]

/-- The member that the directory says something about is found at its local record. -/
theorem openEntry_entryFor {m : Member} (hname : (Utf8.ofString m.name).length < 2 ^ 16)
    (before after : Bytes) :
    openEntry (before ++ (localRecord m ++ after)) (entryFor m before.length) =
      .ok ⟨m.name, namesDirectory m.name, .ok m.data⟩ := by
  rw [openEntry, storedData_localRecord hname]
  simp [entryFor, unpack, Except.map, bind, Except.bind]

/-- All members are found at their local records. -/
theorem map_openEntry {members : List Member}
    (hnames : ∀ m ∈ members, (Utf8.ofString m.name).length < 2 ^ 16) (before after : Bytes) :
    (entriesFor before.length members).map
      (openEntry (before ++ (members.flatMap localRecord ++ after))) =
        members.map fun m => .ok ⟨m.name, namesDirectory m.name, .ok m.data⟩ := by
  -- The records found so far become part of what stands before the next one.
  induction members generalizing before with
  | nil => rfl
  | cons m members ih =>
    have hrest := ih (fun other hother => hnames other (by simp [hother])) (before ++ localRecord m)
    rw [List.length_append, List.append_assoc, ← List.append_assoc (localRecord m)] at hrest
    rw [entriesFor, List.map_cons, List.flatMap_cons, hrest, List.append_assoc,
      openEntry_entryFor (hnames m (by simp)), List.map_cons]

/-! ## The end record -/

/-- Where some bytes lie in the second part of a file they lie in the file, and those places come
first. -/
theorem positionsOf_append (signature before rest : Bytes) (position : Nat) :
    ∃ earlier, positionsOf signature (before ++ rest) position =
      positionsOf signature rest (position + before.length) ++ earlier := by
  induction before generalizing position with
  | nil => exact ⟨[], by simp⟩
  | cons b before ih =>
    obtain ⟨earlier, hearlier⟩ := ih (position + 1)
    refine ⟨earlier ++ if signature.isPrefixOf (b :: (before ++ rest)) then [position] else [], ?_⟩
    rw [List.cons_append, positionsOf, hearlier, List.append_assoc, List.length_cons,
      Nat.add_right_comm, Nat.add_assoc]

/-- All places lie behind the one where the search starts. -/
theorem le_of_mem_positionsOf {signature bytes : Bytes} {position found : Nat}
    (h : found ∈ positionsOf signature bytes position) : position ≤ found := by
  induction bytes generalizing position with
  | nil => cases h
  | cons b rest ih =>
    rw [positionsOf, List.mem_append] at h
    rcases h with h | h
    · exact Nat.le_of_succ_le (ih h)
    · split at h
      · exact Nat.le_of_eq (List.mem_singleton.1 h).symm
      · cases h

/-- A place too near to the end of a file for an end record is passed over. -/
theorem entriesFrom_append (file : Bytes) {late : List Nat}
    (h : ∀ position ∈ late, file.length < position + endSize) (earlier : List Nat)
    (remembered : Option ArchiveFault) :
    ∃ fault, entriesFrom file (late ++ earlier) remembered = entriesFrom file earlier fault := by
  -- Each such place is tried, does not hold a whole record, and is remembered as a fault only.
  induction late generalizing remembered with
  | nil => exact ⟨remembered, rfl⟩
  | cons position late ih =>
    obtain ⟨fault, hfault⟩ := ih (fun other hother => h other (by simp [hother]))
      (remembered.or (some .unreadable))
    have hshort : (file.drop position).length < endSize := by
      have := h position (by simp)
      rw [List.length_drop]
      simp only [endSize] at this ⊢
      omega
    refine ⟨fault, ?_⟩
    rw [List.cons_append, entriesFrom, endRecordAt, if_pos hshort]
    exact hfault

/-- The fields of an end record. -/
theorem endRecordAt_endRecord {count offset : Nat} (size : Nat) (hcount : count < 2 ^ 16)
    (hoffset : offset < 2 ^ 32) (before : Bytes) :
    endRecordAt (before ++ endRecord count size offset) before.length =
      .ok
        { position := before.length
          part := 0
          directoryPart := 0
          listed := count
          total := count
          directoryOffset := offset } := by
  have hsignature : endSignature.length = 4 := rfl
  have hlength := length_endRecord count size offset
  have hfields :
      numberAt (endRecord count size offset) 4 2 = 0 ∧
      numberAt (endRecord count size offset) 6 2 = 0 ∧
      numberAt (endRecord count size offset) 8 2 = count ∧
      numberAt (endRecord count size offset) 10 2 = count ∧
      numberAt (endRecord count size offset) 16 4 = offset ∧
      numberAt (endRecord count size offset) 20 2 = 0 := by
    have hzero : ofNumber (number 2 0) = 0 := rfl
    rw [← List.append_nil (endRecord count size offset)]
    refine ⟨?_, ?_, ?_, ?_, ?_, ?_⟩ <;>
      simp (disch := simp [hsignature]) only [endRecord, List.append_assoc, numberAt_append,
        hsignature, length_number, numberAt_number, Nat.reduceSub, ofNumber_two hcount,
        ofNumber_four hoffset, hzero]
  obtain ⟨hpart, hdirectoryPart, hlisted, htotal, hdirectory, hcomment⟩ := hfields
  simp only [endRecordAt, List.drop_left, hlength, hpart, hdirectoryPart, hlisted, htotal,
    hdirectory, hcomment, Nat.add_zero, Nat.lt_irrefl, if_false]

/-- The directory of some members starts with a directory record. -/
theorem directory_of_ne_nil {members : List Member} (h : members ≠ []) (offset : Nat) :
    ∃ bytes, directory offset members = directorySignature ++ bytes := by
  cases members with
  | nil => exact absurd rfl h
  | cons m members =>
    simp only [directory, directoryRecord, List.append_assoc]
    exact ⟨_, rfl⟩

/-- The first place of a signature is the one where the search starts, if it lies there. -/
theorem getLast?_positionsOf {first : UInt8} {signature : Bytes} (bytes : Bytes) (position : Nat) :
    (positionsOf (first :: signature) (first :: signature ++ bytes) position).getLast? =
      some position := by
  have hprefix : (first :: signature).isPrefixOf (first :: signature ++ bytes) = true := by simp
  rw [List.cons_append] at hprefix ⊢
  rw [positionsOf, if_pos hprefix, List.getLast?_concat]

/-- The directory of an archive starts where its end record says. -/
theorem directoryStart_encoded (records last : Bytes) (members : List Member) :
    directoryStart (records ++ directory 0 members ++ last)
        { position := (records ++ directory 0 members).length
          part := 0
          directoryPart := 0
          listed := members.length
          total := members.length
          directoryOffset := records.length } = .ok records.length := by
  -- Without members no directory is searched; else its first record is the first one found.
  by_cases hnil : members = []
  · simp [directoryStart, hnil]
  · obtain ⟨bytes, hbytes⟩ := directory_of_ne_nil hnil 0
    have hposition : ¬(records ++ directory 0 members).length ≤ records.length := by
      simp [hbytes, directorySignature]
    have hbetween : ((records ++ directory 0 members ++ last).take
        (records ++ directory 0 members).length).drop records.length = directory 0 members := by
      rw [List.take_left, List.drop_left]
    have hfirst : (positionsOf directorySignature (directory 0 members) records.length).getLast? =
        some records.length := by
      rw [hbytes]
      exact getLast?_positionsOf bytes records.length
    rw [directoryStart, if_neg (by simpa using hnil), if_neg hposition]
    simp only [hbetween, hfirst]

/-- The end record is found where it starts, and behind that only places that are too near to the
end of the file. -/
theorem positionsOf_endRecord (front : Bytes) (count size offset : Nat) :
    ∃ late earlier, positionsOf endSignature (front ++ endRecord count size offset) 0 =
        late ++ front.length :: earlier ∧
      ∀ position ∈ late, (front ++ endRecord count size offset).length < position + endSize := by
  obtain ⟨earlier, hearlier⟩ :=
    positionsOf_append endSignature front (endRecord count size offset) 0
  have hlength := length_endRecord count size offset
  obtain ⟨rest, hrest⟩ : ∃ rest, endRecord count size offset = endSignature ++ rest := by
    simp only [endRecord, List.append_assoc]
    exact ⟨_, rfl⟩
  have hprefix : endSignature.isPrefixOf (endSignature ++ rest) = true := by simp
  rw [hrest] at hlength hearlier ⊢
  -- The signature stands at the start of the record, so that place is among those found.
  rw [endSignature, List.cons_append] at hprefix hearlier hlength ⊢
  rw [positionsOf, if_pos hprefix, Nat.zero_add, List.append_assoc] at hearlier
  refine ⟨_, earlier, hearlier, fun position hposition => ?_⟩
  have := le_of_mem_positionsOf hposition
  rw [List.length_append, hlength]
  omega

/-- The directory of an archive is found from its end record. -/
theorem entries_encoded {members : List Member} (hfits : Fits 0 members)
    (hcount : members.length < 2 ^ 16) (hnames : (members.map Member.name).Nodup) :
    entries (members.flatMap localRecord ++ directory 0 members ++
        endRecord members.length (directory 0 members).length
          (members.flatMap localRecord).length) =
      .ok (entriesFor 0 members) := by
  have hoffset : (members.flatMap localRecord).length < 2 ^ 32 := by
    have := hfits.2
    omega
  -- The search goes from the end backwards, and what looks like an end record inside the real one
  -- is too near to the end to be one.
  obtain ⟨late, earlier, hpositions, hlate⟩ := positionsOf_endRecord
    (members.flatMap localRecord ++ directory 0 members) members.length
    (directory 0 members).length (members.flatMap localRecord).length
  obtain ⟨fault, hskip⟩ := entriesFrom_append _ hlate
    ((members.flatMap localRecord ++ directory 0 members).length :: earlier) none
  have hread : readDirectory 0 members.length [] (directory 0 members ++
      endRecord members.length (directory 0 members).length
        (members.flatMap localRecord).length) = some ([] ++ entriesFor 0 members) :=
    readDirectory_directory hfits (by simpa using hnames) _
  have hentries : entriesOf (members.flatMap localRecord ++ directory 0 members ++
        endRecord members.length (directory 0 members).length (members.flatMap localRecord).length)
      { position := (members.flatMap localRecord ++ directory 0 members).length
        part := 0
        directoryPart := 0
        listed := members.length
        total := members.length
        directoryOffset := (members.flatMap localRecord).length }
      (members.flatMap localRecord).length = some (entriesFor 0 members) := by
    rw [entriesOf, if_neg (by simp), Nat.sub_self, List.append_assoc, List.drop_left, hread,
      List.nil_append]
  rw [entries, hpositions, hskip, entriesFrom, endRecordAt_endRecord _ hcount hoffset]
  simp only [directoryStart_encoded, hentries]

/-! ## The format -/

/-- Members that can be stored one after the other have names of their own, when no name is stored
twice. -/
theorem Format.Accepts.nodup {format : Format} (honce : format.StoresOnce) {members : List Member}
    (h : format.Accepts members) : (members.map Member.name).Nodup := by
  induction h with
  | nil => exact List.nodup_nil
  | @concat members m _ hname _ ih =>
    rw [List.map_append, List.map_singleton, List.nodup_append]
    refine ⟨ih, by simp, fun name hmem other hother => ?_⟩
    rintro rfl
    rw [List.mem_singleton.1 hother] at hmem
    exact honce members m.name hmem hname

/-- An archive in a faithful format is read as the members that were written, in their order, each
as it is read back. -/
theorem Format.Faithful.read_encode {format : Format} (h : format.Faithful)
    {members : List Member} {file : Bytes} (haccepts : format.Accepts members)
    (hencode : format.encode members = .ok file) :
    format.read file = .ok (members.map Member.asRead) := by
  rw [Format.read, h members file haccepts hencode]
  simp only
  clear haccepts hencode
  induction members with
  | nil => rfl
  | cons m members ih =>
    have hfirst : Format.memberOf (.ok ⟨m.name, namesDirectory m.name, .ok m.data⟩) =
        .ok m.asRead := by
      rw [Format.memberOf, Member.asRead]
      split <;> rfl
    rw [List.map_cons, List.mapM_cons, hfirst, ih]
    rfl

/-- In the zip format no name is stored twice. -/
theorem zip_storesOnce : zip.StoresOnce := by
  intro members name hmem
  obtain ⟨m, hm, rfl⟩ := List.mem_map.1 hmem
  have hany : members.any (·.name = m.name) = true := List.any_eq_true.2 ⟨m, hm, by simp⟩
  simp only [zip, if_pos hany]
  nofun

/-- What was written in the zip format is found again. -/
theorem zip_faithful : zip.Faithful := by
  intro members bytes haccepts h
  have hnames := haccepts.nodup zip_storesOnce
  simp only [zip, encode] at h
  split at h
  · cases h
  · next hshort =>
    split at h
    · cases h
    · next hsmall =>
      have hnameSizes : ∀ m ∈ members, (Utf8.ofString m.name).length < 2 ^ 16 := by
        simpa using hshort
      rw [not_or, Nat.not_le, Nat.not_le] at hsmall
      have hfits : Fits 0 members := ⟨hnameSizes, by omega⟩
      have hread := map_openEntry hnameSizes []
        (directory 0 members ++ endRecord members.length (directory 0 members).length
          (members.flatMap localRecord).length)
      obtain rfl := Except.ok.inj h
      rw [List.nil_append, List.length_nil, ← List.append_assoc] at hread
      simp only [zip, entries_encoded hfits hsmall.1 hnames, Except.map, hread]

end Archive

end CommandShell
