import CommandShell.Proofs.Containment
import CommandShell.Proofs.Gathering

/-!
# Extracting what was collected

Members that were collected are extracted to the places they were collected under, read from the
destination. Nothing is in the way: each place is vacant and lies in the destination or in a
directory that was extracted before, so none of the checks stops the extraction.

## Main definitions

* `Quiet`: a step that leaves the session alone and complains about nothing;
* `Location.IsText`: a place all of whose names are texts, and so are read back from a member;
* `Builtin.Extractable`: everything that is to be extracted has a vacant place and a path that can
  be served.

## Main results

* `Builtin.memberPlace_ofItem`: the place of a collected member is where it was collected, read from
  the destination;
* `Builtin.perform_extract_ofItem`: extracting a collected member puts its entry at its place;
* `Builtin.perform_extractAll_ofItem`: extracting all of them puts all entries at their places, and
  nothing else changes.
-/

namespace CommandShell

open ShellM

/-! ## Places -/

/-- All names on the way to a place are texts. -/
def Location.IsText (place : Location) : Prop :=
  ∀ name ∈ place, Utf8.Valid name.bytes

/-- The text of a place has at least one name. -/
theorem Location.ofString_relativeText_ne_nil {place : Location} (hne : place ≠ []) :
    Utf8.ofString (Location.relativeText place) ≠ [] := by
  have hbytes : ∀ front (name : FileName), Utf8.ofString (front ++ name.shown) ≠ [] :=
    fun front name he => (Path.isName_shown name).1 (by simpa using And.right (by simpa using he))
  cases place with
  | nil => exact absurd rfl hne
  | cons name above =>
    cases above with
    | nil => simpa [relativeText] using hbytes "" name
    | cons next above =>
      rw [relativeText_cons (by simp)]
      exact hbytes _ name

/-- The path of a location with one more name. -/
theorem Location.bytes_path_cons {above : Location} (hne : above ≠ []) (name : FileName) :
    (Location.path (name :: above)).bytes =
      (Location.path above).bytes ++ separator :: name.bytes := by
  rw [← Path.ofNames_location, ← Path.ofNames_location, List.map_cons, Path.ofNames_cons,
    if_neg (by simpa using hne)]

/-- The text of a place read from a directory is the path of the place in that directory. -/
theorem join_relativeText {place : Location} (hne : place ≠ []) (htext : place.IsText)
    (base : Location) :
    (Location.path base).join (.ofString (Location.relativeText place)) =
      Location.path (place ++ base) := by
  induction place with
  | nil => exact absurd rfl hne
  | cons name above ih =>
    have hname := FileName.ofString_shown (htext name (by simp))
    have habove : Location.IsText above := fun other hother => htext other (by simp [hother])
    have hchild : (Location.path (above ++ base)).join ⟨name.bytes⟩ =
        Location.path (name :: above ++ base) := Disk.child_path (above ++ base) name
    cases above with
    | nil => simpa [Location.relativeText, Path.ofString, hname] using hchild
    | cons next above =>
      -- The last name stands behind a separator in either text.
      have hpath := Location.bytes_path_cons (List.cons_ne_nil next (above ++ base)) name
      have hslash : Utf8.ofString "/" = [separator] := rfl
      rw [Location.relativeText_cons (by simp), Path.ofString, Utf8.ofString_append,
        Utf8.ofString_append, hslash, hname, List.append_assoc, List.singleton_append,
        Path.join_append (Location.ofString_relativeText_ne_nil (by simp)), ← Path.ofString,
        ih (by simp) habove]
      exact congrArg Path.mk hpath.symm

/-- The path of a location is folded already. -/
theorem normalize_path (location : Location) : location.path.normalize = location.path := by
  rw [← Path.ofNames_location, Path.normalize_ofNames fun _ => Path.isName_of_mem_location]

/-- A location is absolute as a path. -/
theorem isAbsolute_path (location : Location) : location.path.isAbsolute = true := by
  rw [← Path.ofNames_location, Path.isAbsolute_ofNames]

namespace Builtin

/-- The place of a collected member is where it was collected, read from the destination. -/
theorem memberPlace_ofItem {item : Location × Entry} (hne : item.1 ≠ []) (htext : item.1.IsText)
    (base : Location) :
    memberPlace base.path (Member.ofItem item) = Location.path (item.1 ++ base) := by
  have hjoin := join_relativeText hne htext base
  have hfile : (base.path.join (.ofString (Location.relativeText item.1))).normalize =
      Location.path (item.1 ++ base) := by
    rw [hjoin, normalize_path]
  have hdirectory : (base.path.join (.ofString (Location.relativeText item.1 ++ "/"))).normalize =
      Location.path (item.1 ++ base) := by
    have hslash : Utf8.ofString "/" = [separator] := rfl
    rw [Path.ofString, Utf8.ofString_append, hslash,
      Path.join_append (Location.ofString_relativeText_ne_nil hne), ← Path.ofString, hjoin,
      Path.normalize_append_slash (isAbsolute_path _), normalize_path]
  obtain ⟨place, entry⟩ := item
  cases entry with
  | file content => exact hfile
  | directory => exact hdirectory
  | link target => exact hdirectory
  | device kind => exact hdirectory

end Builtin

/-! ## Steps that complain about nothing -/

/-- A step that leaves the session alone, complains about nothing, and finds and leaves streams that
never fail. -/
structure Quiet (w after : World Disk) : Prop where
  /-- The session stays. -/
  session : after.session = w.session
  /-- The streams never fail. -/
  neverFails : after.streams.NeverFails
  /-- Nothing is written to the error stream. -/
  err : after.streams.bytesOn .err = w.streams.bytesOn .err

namespace Quiet

/-- Doing nothing. -/
theorem refl {w : World Disk} (h : w.streams.NeverFails) : Quiet w w := ⟨rfl, h, rfl⟩

/-- Two steps. -/
theorem trans {w middle after : World Disk} (h : Quiet w middle) (hmore : Quiet middle after) :
    Quiet w after :=
  ⟨hmore.session.trans h.session, hmore.neverFails, hmore.err.trans h.err⟩

/-- What the disk holds plays no part. -/
theorem hold {w after : World Disk} (h : Quiet w after) (held : Disk) :
    Quiet w { after with held } :=
  ⟨h.session, h.neverFails, h.err⟩

end Quiet

/-- A line is printed to streams that never fail, and nothing else happens. -/
theorem perform_printLine (text : String) {w : World Disk} (h : w.streams.NeverFails) :
    ∃ after, (printLine text).perform w = (.ok (), after) ∧ Quiet w after ∧
      after.held = w.held := by
  refine ⟨{ w with streams := (w.streams.write .out (Utf8.ofString (text ++ "\n"))).2 }, ?_, ?_,
    rfl⟩
  · rw [printLine, perform_write, h.write]
    rfl
  · refine ⟨rfl, ?_, ?_⟩
    · rw [h.write]
      exact h
    · simp

/-- Lines are printed one after the other. -/
theorem perform_printEach {α : Type} (lineOf : α → String) (items : List α) {w : World Disk}
    (h : w.streams.NeverFails) :
    ∃ after, (printEach lineOf items).perform w = (.ok (), after) ∧ Quiet w after ∧
      after.held = w.held := by
  induction items generalizing w with
  | nil => exact ⟨w, rfl, .refl h, rfl⟩
  | cons item rest ih =>
    obtain ⟨middle, hfirst, hquiet, hheld⟩ := perform_printLine (lineOf item) h
    obtain ⟨after, hrest, hquiet', hheld'⟩ := ih hquiet.neverFails
    refine ⟨after, ?_, hquiet.trans hquiet', hheld'.trans hheld⟩
    rw [printEach, perform_bind, hfirst]
    exact hrest

namespace Builtin

variable (read : Path → Disk → Except Stop (List Member)) (format : Archive.Format)
  {base : Location}

/-! ## Answers -/

/-- Directories that can be made are made. -/
theorem answer_makeDirectories {d made : Disk} {p : Path}
    (h : d.makeDirectories p = (.ok (), made)) :
    (Disk.filesReading read .reliable format).answer (.makeDirectories p) d = (.ok (), made) := by
  have hanswer : (Disk.filesReading read .reliable format).answer (.makeDirectories p) d =
      d.answer (.makeDirectories p) := rfl
  rw [hanswer, Disk.answer, h]

/-- A path that can be resolved is resolved. -/
theorem answer_canonical {d : Disk} {p place : Path} (h : d.canonical p = .ok place) :
    (Disk.filesReading read .reliable format).answer (.canonical p) d = (.ok place, d) := by
  have hanswer : (Disk.filesReading read .reliable format).answer (.canonical p) d =
    d.answer (.canonical p) := rfl
  rw [hanswer, Disk.answer, h, Disk.looking]

/-! ## One member -/

section Placed

variable {w : World Disk} {name : FileName} {above : Location} (hplain : w.held.Plain)
  (hdir : w.held.get? above = some .directory)
  (hsize : Path.size (Location.path (name :: above)) < pathLimit)
include hplain hdir hsize

/-- The deepest part of a vacant place that exists is the directory it lies in. -/
theorem perform_leadsInside_vacant (hbelow : base <:+ above)
    (hnone : w.held.get? (name :: above) = none) :
    (leadsInside (Disk.filesReading read .reliable format) base.path
      (Location.path (name :: above)).ancestors).perform w = (.ok true, w) := by
  have hsize' := Nat.lt_of_le_of_lt (Disk.size_path_le name above) hsize
  have habsent := hplain.isPresent_vacant hdir hnone hsize
  have hpresent := hplain.isPresent_path (by simp [hdir]) hsize'
  have hcanonical := hplain.canonical_path (by simp [hdir]) hsize'
  have hstarts : (Location.path above).startsWith base.path = true :=
    (Path.startsWith_path above base).2 hbelow
  -- Nothing lies at the place, so the directory is the first that is resolved.
  obtain ⟨paths, hpaths⟩ := Path.ancestors_eq_cons (Location.path above)
  rw [Disk.ancestors_path_cons, hpaths, perform_leadsInside_cons, if_neg (by simp [habsent]),
    perform_leadsInside_cons, if_pos hpresent, hcanonical]
  simp [Disk.looking, Except.map, hstarts]

/-- The directory of a file exists already. -/
theorem perform_readyParent_placed (hbelow : base <:+ above) :
    (readyParent (Disk.filesReading read .reliable format) base.path
      (Location.path (name :: above))).perform w = (.ok true, w) := by
  have hsize' := Nat.lt_of_le_of_lt (Disk.size_path_le name above) hsize
  have hmake := answer_makeDirectories read format (hplain.makeDirectories_path hdir hsize')
  have hcanonical := answer_canonical read format (hplain.canonical_path (by simp [hdir]) hsize')
  have hstarts : (Location.path above).startsWith base.path = true :=
    (Path.startsWith_path above base).2 hbelow
  simp only [readyParent, Disk.parent_path_cons, perform_bind, perform_request, hmake, hcanonical,
    hstarts, perform_pure]

/-- A directory is made at a vacant place. -/
theorem perform_extractDirectory_vacant (m : Member) (hstreams : w.streams.NeverFails)
    (hnone : w.held.get? (name :: above) = none) :
    ∃ after, (extractDirectory (Disk.filesReading read .reliable format) m
        (Location.path (name :: above))).perform w = (.ok (), after) ∧
      Quiet w after ∧ after.held = w.held.put (name :: above) .directory := by
  have hmake := answer_makeDirectories read format (hplain.makeDirectories_vacant hdir hnone hsize)
  -- The directory is made, and only then its name is printed.
  have hquiet := (Quiet.refl hstreams).hold (w.held.put (name :: above) .directory)
  obtain ⟨after, hprint, hquiet', hheld⟩ :=
    perform_printLine ("   creating: " ++ m.name) hquiet.neverFails
  refine ⟨after, ?_, hquiet.trans hquiet', hheld⟩
  rw [extractDirectory, perform_bind, perform_request, hmake]
  exact hprint

/-- A file is written at a vacant place. -/
theorem perform_extractFile_vacant (m : Member) (hstreams : w.streams.NeverFails)
    (hnone : w.held.get? (name :: above) = none) :
    ∃ after, (extractFile (Disk.filesReading read .reliable format) m
        (Location.path (name :: above))).perform w = (.ok (), after) ∧ Quiet w after ∧
      after.held = (w.held.put (name :: above) (.file [])).put (name :: above) (.file m.data) := by
  have hwrite : (Disk.filesReading read .reliable format).answer
      (.write (Location.path (name :: above)) m.data .truncate) w.held =
        (.ok (), (w.held.put (name :: above) (.file [])).put (name :: above) (.file m.data)) :=
    hplain.write_vacant hdir hnone hsize m.data
  have hquiet := (Quiet.refl hstreams).hold
    ((w.held.put (name :: above) (.file [])).put (name :: above) (.file m.data))
  obtain ⟨after, hprint, hquiet', hheld⟩ :=
    perform_printLine ("  inflating: " ++ m.name) hquiet.neverFails
  refine ⟨after, ?_, hquiet.trans hquiet', hheld⟩
  rw [extractFile, perform_bind, perform_request, hwrite]
  exact hprint

end Placed

/-- A place in the destination is within it, and is not the destination itself. -/
theorem isWithin_path (name : FileName) {above : Location} (hbelow : base <:+ above) :
    (Location.path (name :: above)).isWithin base.path = true ∧
      (Location.path (name :: above)).components ≠ base.path.components := by
  have hwithin : base <:+ name :: above := hbelow.trans (List.suffix_cons name above)
  refine ⟨?_, fun he => ?_⟩
  · rw [Path.isWithin, normalize_path, normalize_path]
    exact (Path.startsWith_path _ _).2 hwithin
  · -- A path with the components of the destination would lead to the destination.
    have hbase : name :: above <:+ base := by
      rw [← Path.startsWith_path, Path.startsWith, he]
      exact List.isPrefixOf_iff_prefix.2 (List.prefix_refl _)
    have hlength := (hbase.trans hbelow).length_le
    rw [List.length_cons] at hlength
    omega

/-- Extracting a collected member to a vacant place puts its entry there. -/
theorem perform_extract_ofItem {w : World Disk} {name : FileName} {inner : Location}
    {entry : Entry} (hplain : w.held.Plain) (hstreams : w.streams.NeverFails)
    (hentry : entry.IsStored) (htext : Location.IsText (name :: inner))
    (hdir : w.held.get? (inner ++ base) = some .directory)
    (hnone : w.held.get? (name :: (inner ++ base)) = none)
    (hsize : Path.size (Location.path (name :: (inner ++ base))) < pathLimit) :
    ∃ after, (extract (Disk.filesReading read .reliable format) base.path
        (Member.ofItem (name :: inner, entry))).perform w = (.ok (), after) ∧
      Quiet w after ∧ after.held.Plain ∧ ∀ other, after.held.get? other =
        if other = name :: (inner ++ base) then some entry else w.held.get? other := by
  have hbelow : base <:+ inner ++ base := List.suffix_append inner base
  obtain ⟨hwithin, hother⟩ := isWithin_path name hbelow
  have hplace : memberPlace base.path (Member.ofItem (name :: inner, entry)) =
      Location.path (name :: (inner ++ base)) := memberPlace_ofItem (by simp) htext base
  have hleads := perform_leadsInside_vacant read format hplain hdir hsize hbelow hnone
  -- The checks are passed alike; the entry is made by what it is.
  rcases hentry with rfl | ⟨content, rfl⟩
  · obtain ⟨after, hextract, hquiet, hheld⟩ := perform_extractDirectory_vacant read format hplain
      hdir hsize (Member.ofItem (name :: inner, .directory)) hstreams hnone
    refine ⟨after, ?_, hquiet, hheld ▸ hplain.put (by simp) _, fun other => ?_⟩
    · rw [extract, hplace, hwithin]
      simp only [Bool.not_true, Bool.false_eq_true, if_false, perform_bind, hleads]
      exact hextract
    · rw [hheld, Disk.get?_put (Disk.accepts_of_vacant hdir hnone _)]
  · obtain ⟨after, hextract, hquiet, hheld⟩ := perform_extractFile_vacant read format hplain hdir
      hsize (Member.ofItem (name :: inner, .file content)) hstreams hnone
    have hready := perform_readyParent_placed read format hplain hdir hsize hbelow
    refine ⟨after, ?_, hquiet, hheld ▸ (hplain.put (by simp) _).put (by simp) _, fun other => ?_⟩
    · rw [extract, hplace, hwithin]
      simp only [Bool.not_true, Bool.false_eq_true, if_false, perform_bind, hleads]
      simp only [Member.ofItem, if_neg hother, perform_bind, hready, if_true]
      exact hextract
    · rw [hheld, Disk.get?_put_put hdir hnone]
      rfl

/-! ## All members -/

/-- What extraction needs to find: directories come before what they hold, all places are different
and vacant, and their paths can be served. -/
structure Extractable (d : Disk) (base : Location) (known : List Location)
    (items : List (Location × Entry)) : Prop where
  /-- Each place lies in a known directory or in one that comes before it. -/
  parentsFirst : ParentsFirst known items
  /-- The known directories exist. -/
  known : ∀ place ∈ known, d.get? (place ++ base) = some .directory
  /-- Nothing lies at the places. -/
  vacant : ∀ item ∈ items, d.get? (item.1 ++ base) = none
  /-- An archive stores the entries as they are. -/
  stored : ∀ item ∈ items, item.2.IsStored
  /-- All names are texts. -/
  text : ∀ item ∈ items, Location.IsText item.1
  /-- The paths are short enough. -/
  size : ∀ item ∈ items, Path.size (Location.path (item.1 ++ base)) < pathLimit
  /-- All places are different. -/
  nodup : (items.map Prod.fst).Nodup

namespace Extractable

variable {d : Disk} {known : List Location} {place : Location} {entry : Entry}
  {rest : List (Location × Entry)}

/-- The first place lies in a directory that exists. -/
theorem head (h : Extractable d base known ((place, entry) :: rest)) :
    ∃ name inner, place = name :: inner ∧ d.get? (inner ++ base) = some .directory := by
  have hdir := h.known _ h.parentsFirst.1
  have hnone : d.get? (place ++ base) = none := h.vacant (place, entry) (by simp)
  cases place with
  | nil =>
    rw [List.tail_nil, hnone] at hdir
    cases hdir
  | cons name inner => exact ⟨name, inner, rfl, hdir⟩

/-- The first place comes only once. -/
theorem head_ne (h : Extractable d base known ((place, entry) :: rest)) :
    ∀ item ∈ rest, item.1 ≠ place := by
  rintro item hitem rfl
  exact (List.nodup_cons.1 h.nodup).1 (List.mem_map.2 ⟨item, hitem, rfl⟩)

/-- The other places can be extracted when the first one is. -/
theorem tail (h : Extractable d base known ((place, entry) :: rest)) {extracted : Disk}
    (hget : ∀ other, extracted.get? other =
      if other = place ++ base then some entry else d.get? other) :
    Extractable extracted base (if entry = .directory then place :: known else known) rest where
  parentsFirst := h.parentsFirst.2
  known := by
    -- A known directory is not at the place that was vacant so far.
    have hkeep : ∀ other ∈ known, extracted.get? (other ++ base) = some .directory := by
      intro other hother
      have hdir := h.known other hother
      have hnone : d.get? (place ++ base) = none := h.vacant (place, entry) (by simp)
      rw [hget, if_neg, hdir]
      intro he
      rw [he, hnone] at hdir
      cases hdir
    intro other hother
    split at hother
    · next hentry =>
      rcases List.mem_cons.1 hother with rfl | hother
      · rw [hget, if_pos rfl, hentry]
      · exact hkeep other hother
    · exact hkeep other hother
  vacant item hitem := by
    rw [hget, if_neg fun he => h.head_ne item hitem (List.append_cancel_right he)]
    exact h.vacant item (by simp [hitem])
  stored item hitem := h.stored item (by simp [hitem])
  text item hitem := h.text item (by simp [hitem])
  size item hitem := h.size item (by simp [hitem])
  nodup := (List.nodup_cons.1 h.nodup).2

end Extractable

/-- Extracting all collected members puts every entry at its place, and changes nothing else. -/
theorem perform_extractAll_ofItem {items : List (Location × Entry)} {known : List Location}
    {w : World Disk} (hplain : w.held.Plain) (hstreams : w.streams.NeverFails)
    (hitems : Extractable w.held base known items) :
    ∃ after, (extractAll (Disk.filesReading read .reliable format) base.path
        (items.map Member.ofItem)).perform w = (.ok (), after) ∧
      Quiet w after ∧
      (∀ item ∈ items, after.held.get? (item.1 ++ base) = some item.2) ∧
      ∀ other, (∀ item ∈ items, other ≠ item.1 ++ base) →
        after.held.get? other = w.held.get? other := by
  -- The induction is on the items: what is still to be extracted stays extractable.
  induction items generalizing known w with
  | nil => exact ⟨w, rfl, .refl hstreams, by simp, fun _ _ => rfl⟩
  | cons item rest ih =>
    obtain ⟨place, entry⟩ := item
    obtain ⟨name, inner, rfl, hdir⟩ := hitems.head
    obtain ⟨middle, hfirst, hquiet, hplain', hget⟩ := perform_extract_ofItem read format hplain
      hstreams (hitems.stored (name :: inner, entry) (by simp))
      (hitems.text (name :: inner, entry) (by simp)) hdir
      (hitems.vacant (name :: inner, entry) (by simp))
      (hitems.size (name :: inner, entry) (by simp))
    have hrest := hitems.tail hget
    obtain ⟨after, hothers, hquiet', hput, hsame⟩ := ih hplain' hquiet.neverFails hrest
    refine ⟨after, ?_, hquiet.trans hquiet', ?_, ?_⟩
    · rw [List.map_cons, extractAll, perform_bind, hfirst]
      exact hothers
    · intro item hitem
      rcases List.mem_cons.1 hitem with rfl | hitem
      · -- The other members leave the place of the first one alone.
        have hne : ∀ other ∈ rest, name :: inner ++ base ≠ other.1 ++ base := fun other hother he =>
          hitems.head_ne other hother (List.append_cancel_right he).symm
        rw [hsame _ hne, hget]
        exact if_pos rfl
      · exact hput item hitem
    · intro other hother
      rw [hsame other fun item hitem => hother item (by simp [hitem]), hget]
      exact if_neg (hother (name :: inner, entry) (by simp))

end Builtin

end CommandShell
