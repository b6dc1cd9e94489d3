import CommandShell.Proofs.PartialExtraction
import CommandShell.Proofs.WorkingDirectory

/-!
# Extracting an archive again

What was extracted once can be extracted once more. The second time other branches are taken, as
everything that is extracted exists by then, but each place leads where it led, and the last member
that is written to a file is the same.

## Main definitions

* `Disk.KeepsKinds`: a disk has what another one has, up to the bytes in files, and no new links.
* `Disk.Between`: what a disk has on the way of the second extraction, which starts from where the
  first one ends.
* `Builtin.PlacesFit`: the canonical paths of all that was extracted are short enough.

## Main results

* `Disk.Extracts.keepsKinds`: extracting changes bytes in files, and adds files and directories;
* `Builtin.perform_extract_again`: a member that was extracted is extracted again;
* `Builtin.perform_extractAll_again`: and so are members in turn, to the same end;
* `dispatch_unzip_again`: what this means for `unzip`.
-/

namespace CommandShell

open ShellM

namespace Disk

variable {d : Disk}

/-! ## Writing -/

/-- Writing where something lies already. -/
theorem write_of_found {p : Path} {location : Location} {bytes : Bytes} {mode : WriteMode}
    (hwalk : d.walk .makeFile p = .ok (.found location))
    (hdir : d.get? location ≠ some .directory) :
    d.write p bytes mode = finishing .write p (d.writeAt location bytes mode) := by
  simp [write, openFile, hwalk, hdir, bind, Except.bind]

/-- A file that lies where a path leads takes other bytes. -/
theorem write_of_file {p : Path} {location : Location} {old bytes : Bytes}
    (hwalk : d.walk .makeFile p = .ok (.found location))
    (hget : d.get? location = some (.file old)) :
    d.write p bytes .truncate = (.ok (), d.put location (.file bytes)) := by
  rw [write_of_found hwalk (by simp [hget]), writeAt_file hget]
  rfl

/-- What a device that lies where a path leads makes of the bytes decides over the write. -/
theorem write_of_device {p : Path} {location : Location} {kind : Device} {bytes : Bytes}
    (hwalk : d.walk .makeFile p = .ok (.found location))
    (hget : d.get? location = some (.device kind)) :
    d.write p bytes .truncate = (.ok (), d) ↔ kind.take bytes = .ok () := by
  rw [write_of_found hwalk (by simp [hget]), writeAt_device hget]
  cases kind.take bytes <;> simp [finishing]

/-- A file is found where it would be written. -/
theorem find_of_makeFile {p : Path} {location : Location}
    (h : d.walk .makeFile p = .ok (.found location)) : d.find .use p = .ok location := by
  obtain ⟨hcheck, hwalk⟩ := walk_eq_ok h
  have huse : d.walkSteps .use p.steps = .ok (.found location) :=
    (ends_of_walkLinks hwalk).walkLinks_use (by simp)
  simp only [find, walk, hcheck, huse]

/-- A canonical path stays canonical when links and directories stay. -/
theorem KeepsLinks.canonical {kept : Disk} {p : Path} {location : Location}
    (hkeeps : d.KeepsLinks kept) (h : d.find .use p = .ok location) :
    kept.canonical p = d.canonical p := by
  rw [canonical_of_find (hkeeps.find h), canonical_of_find h]

/-- A write that succeeds leaves the bytes in a file, or was one to a device. -/
theorem write_eq_ok {p : Path} {bytes : Bytes} {written : Disk}
    (h : d.write p bytes .truncate = (.ok (), written)) :
    ∃ spot, d.walk .makeFile p = .ok spot ∧
      (((∃ kind, d.get? spot.location = some (.device kind)) ∧ written = d) ∨
        ((∀ entry, d.get? spot.location = some entry → ∃ old, entry = .file old) ∧
          ∀ other, written.get? other =
            if other = spot.location then some (.file bytes) else d.get? other)) := by
  unfold write at h
  split at h
  · cases h
  · next location opened hopen =>
    obtain ⟨spot, hwalk, rfl, hopened⟩ := openFile_eq_ok hopen
    refine ⟨spot, hwalk, ?_⟩
    rcases get?_openFile hopen with ⟨old, hold, hbefore⟩ | ⟨kind, hkind, rfl⟩
    · refine .inr ⟨fun entry hentry => ⟨old, hbefore entry hentry⟩, fun other => ?_⟩
      rw [writeAt_file hold] at h
      obtain rfl := (Prod.mk.inj h).2
      rw [WriteMode.apply, get?_put (accepts_of_file hold bytes)]
      split
      · rfl
      · next hother => exact hopened other hother
    · rw [writeAt_device hkind] at h
      refine .inl ⟨⟨kind, hkind⟩, ?_⟩
      cases htake : kind.take bytes <;> rw [htake] at h <;> cases h
      rfl

/-- Something lies where something was written. -/
theorem isSome_of_write {p : Path} {bytes : Bytes} {written : Disk}
    (h : d.write p bytes .truncate = (.ok (), written)) :
    ∃ spot, d.walk .makeFile p = .ok spot ∧ (written.get? spot.location).isSome := by
  obtain ⟨spot, hwalk, ⟨⟨kind, hdevice⟩, rfl⟩ | ⟨-, hget⟩⟩ := write_eq_ok h
  · exact ⟨spot, hwalk, by simp [hdevice]⟩
  · exact ⟨spot, hwalk, by simp [hget]⟩

/-- What an archive holds depends on what its path leads to. -/
theorem fst_unpackArchive_congr {kept : Disk} {archive : Path} (format : Archive.Format)
    (h : kept.lookAt archive = d.lookAt archive) :
    (kept.unpackArchive archive format).1 = (d.unpackArchive archive format).1 := by
  unfold unpackArchive
  rw [h]
  cases d.lookAt archive with
  | error refusal => rfl
  | ok entry =>
    simp only
    cases archiveBytes entry with
    | none => rfl
    | some bytes =>
      simp only
      cases format.read bytes <;> rfl

/-! ## Disks that keep what others have -/

/-- A disk has what another one has, maybe with other bytes in files, and no new links. -/
structure KeepsKinds (d kept : Disk) : Prop where
  /-- A link was there before. -/
  link : ∀ {location target},
    kept.get? location = some (.link target) → d.get? location = some (.link target)
  /-- What was there is there, but a file may hold other bytes. -/
  entry : ∀ {location entry}, d.get? location = some entry →
    kept.get? location = some entry ∨
      ∃ old new, entry = .file old ∧ kept.get? location = some (.file new)

namespace KeepsKinds

variable {kept : Disk} {location : Location}

/-- A disk keeps what it has. -/
theorem refl (d : Disk) : d.KeepsKinds d := ⟨id, .inl⟩

/-- Keeping twice is keeping. -/
theorem trans {middle : Disk} (h : d.KeepsKinds middle) (hmore : middle.KeepsKinds kept) :
    d.KeepsKinds kept where
  link hget := h.link (hmore.link hget)
  entry hget := by
    rcases h.entry hget with hsame | ⟨old, new, rfl, hfile⟩
    · exact hmore.entry hsame
    · rcases hmore.entry hfile with hsame | ⟨-, last, -, hlast⟩
      · exact .inr ⟨old, new, rfl, hsame⟩
      · exact .inr ⟨old, last, rfl, hlast⟩

/-- A file stays a file. -/
theorem file (h : d.KeepsKinds kept) {bytes : Bytes} (hget : d.get? location = some (.file bytes)) :
    ∃ new, kept.get? location = some (.file new) := by
  rcases h.entry hget with hsame | ⟨-, new, -, hfile⟩
  · exact ⟨bytes, hsame⟩
  · exact ⟨new, hfile⟩

/-- A device stays as it is. -/
theorem device (h : d.KeepsKinds kept) {kind : Device}
    (hget : d.get? location = some (.device kind)) :
    kept.get? location = some (.device kind) := by
  rcases h.entry hget with hsame | ⟨old, -, hfile, -⟩
  · exact hsame
  · cases hfile

/-- Links and directories stay. -/
theorem keepsLinks (h : d.KeepsKinds kept) : d.KeepsLinks kept where
  link := by
    refine ⟨h.link, fun hget => ?_⟩
    rcases h.entry hget with hsame | ⟨old, -, hfile, -⟩
    · exact hsame
    · cases hfile
  directory hget := by
    rcases h.entry hget with hsame | ⟨old, -, hfile, -⟩
    · exact hsame
    · cases hfile
  isSome hsome := by
    obtain ⟨entry, hentry⟩ := Option.isSome_iff_exists.1 hsome
    rcases h.entry hentry with hsame | ⟨-, new, -, hfile⟩
    · rw [hsame, Option.isSome_some]
    · rw [hfile, Option.isSome_some]

end KeepsKinds

/-- A disk that grows keeps what it has. -/
theorem Grows.keepsKinds {grown : Disk} (h : d.Grows grown) : d.KeepsKinds grown where
  link hget := h.keepsLinks.link.1 hget
  entry hget := .inl (h.get? hget)

/-- Writing keeps everything but the bytes of a file. -/
theorem keepsKinds_write {p : Path} {bytes : Bytes} {written : Disk}
    (h : d.write p bytes .truncate = (.ok (), written)) : d.KeepsKinds written := by
  obtain ⟨spot, -, ⟨-, rfl⟩ | ⟨hbefore, hwritten⟩⟩ := write_eq_ok h
  · exact .refl written
  · constructor
    · intro location target hget
      rw [hwritten] at hget
      split at hget
      · cases hget
      · exact hget
    · intro location entry hget
      rw [hwritten]
      split
      · next he =>
        obtain ⟨old, rfl⟩ := hbefore entry (he ▸ hget)
        exact .inr ⟨old, bytes, rfl, rfl⟩
      · exact .inl hget

/-- Extracting a member keeps everything but the bytes of a file. -/
theorem Extracts.keepsKinds {base : Location} {m : Member} {placed : Disk}
    (h : d.Extracts base m placed) : d.KeepsKinds placed := by
  cases h with
  | directory _ _ _ _ _ hmake => exact (grows_of_makeDirectories hmake).keepsKinds
  | file _ _ _ _ _ _ hmake _ _ hwrite =>
    exact (grows_of_makeDirectories hmake).keepsKinds.trans (keepsKinds_write hwrite)

/-- Extracting members in turn keeps everything but the bytes of files. -/
theorem ExtractsAll.keepsKinds {base : Location} {members : List Member} {extracted : Disk}
    (h : ExtractsAll base d members extracted) : d.KeepsKinds extracted := by
  induction h with
  | nil => exact .refl _
  | cons hfirst _ ih => exact hfirst.keepsKinds.trans ih

/-! ## On the way -/

/-- A disk on the way of the second of two extractions, where the first one is at `d` and ends at
`final`: it has what that end has, or a file as the first extraction left it so far. -/
def Between (d final now : Disk) : Prop :=
  ∀ location, now.get? location = final.get? location ∨
    (now.get? location = d.get? location ∧
      ∃ old new, now.get? location = some (.file old) ∧ final.get? location = some (.file new))

namespace Between

variable {final now : Disk}

/-- The second extraction starts at the end of the first one. -/
theorem start (d final : Disk) : d.Between final final := fun _ => .inl rfl

/-- The second extraction ends there, too. -/
theorem finish (h : final.Between final now) (location : Location) :
    now.get? location = final.get? location :=
  (h location).elim id And.left

/-- On the way everything is as in the end, but for bytes in files. -/
theorem keepsKinds (h : d.Between final now) : final.KeepsKinds now where
  link {location} _ hget := by
    rcases h location with hsame | ⟨-, old, -, hold, -⟩
    · exact hsame ▸ hget
    · simp [hold] at hget
  entry {location} _ hget := by
    rcases h location with hsame | ⟨-, old, new, hold, hnew⟩
    · exact .inl (hsame.trans hget)
    · obtain rfl := Option.some.inj (hnew.symm.trans hget)
      exact .inr ⟨new, old, rfl, hold⟩

/-- The directories that the first extraction makes are there already. -/
theorem grow {made : Disk} (h : d.Between final now) (hgrows : d.Grows made) :
    made.Between final now := by
  intro location
  refine (h location).imp_right fun ⟨hsame, old, new, hold, hnew⟩ => ⟨?_, old, new, hold, hnew⟩
  rw [hold, hgrows.get? (hsame ▸ hold)]

/-- A file that the first extraction wrote is written again. -/
theorem write {written again : Disk} {place : Location} {bytes : Bytes}
    (h : d.Between final now) (hfile : ∃ last, final.get? place = some (.file last))
    (hwritten : ∀ other, written.get? other =
      if other = place then some (.file bytes) else d.get? other)
    (hagain : ∀ other, again.get? other =
      if other = place then some (.file bytes) else now.get? other) :
    written.Between final again := by
  intro location
  rw [hwritten, hagain]
  split
  · next he =>
    obtain ⟨last, hlast⟩ := hfile
    exact .inr ⟨rfl, bytes, last, rfl, he ▸ hlast⟩
  · exact h location

/-- What the first extraction wrote is written again. -/
theorem write_again {made written : Disk} {p : Path} {bytes : Bytes} (h : d.Between final now)
    (hrest : written.KeepsKinds final) (hgrows : d.Grows made)
    (hwrite : made.write p bytes .truncate = (.ok (), written)) :
    ∃ again, now.write p bytes .truncate = (.ok (), again) ∧ written.Between final again := by
  have hnow := h.keepsKinds
  have hsame := (keepsKinds_write hwrite).trans (hrest.trans hnow)
  obtain ⟨spot, hwalk, hwritten⟩ := write_eq_ok hwrite
  rcases hwritten with ⟨⟨kind, hdevice⟩, rfl⟩ | ⟨-, hget⟩
  · -- A device takes the same bytes again.
    have hkept := hsame.device hdevice
    have hopened := (KeepsLinks.refl written).walk hwalk (by simp [hdevice])
    have hfound := hsame.keepsLinks.walk hwalk (by simp [hkept])
    refine ⟨now, ?_, h.grow hgrows⟩
    exact (write_of_device hfound hkept).2 ((write_of_device hopened hdevice).1 hwrite)
  · obtain ⟨last, hlast⟩ := hrest.file ((hget spot.location).trans (if_pos rfl))
    obtain ⟨old, hold⟩ := hnow.file hlast
    have hfound := hsame.keepsLinks.walk hwalk (by simp [hold])
    refine ⟨_, write_of_file hfound hold, ?_⟩
    exact (h.grow hgrows).write ⟨last, hlast⟩ hget (get?_put (accepts_of_file hold bytes))

end Between

end Disk

namespace Builtin

variable {base : Location} {m : Member} {w : World Disk} {format : Archive.Format}

/-! ## One member -/

/-- A place that leads somewhere is itself the first that is resolved. -/
theorem perform_leadsInside_of_find {p : Path} {there : Location}
    (hfind : w.held.find .use p = .ok there) :
    (leadsInside (Disk.files .reliable format) base.path p.ancestors).perform w =
      ((w.held.looking .resolve p ((w.held.canonical p).map (·.startsWith base.path))).1, w) := by
  obtain ⟨above, habove⟩ := Path.ancestors_eq_cons p
  rw [← Disk.filesReading_unpackArchive, habove, perform_leadsInside_cons,
    if_pos (Disk.isPresent_of_find hfind)]

section Again

variable {d placed final : Disk} (h : d.Extracts base m placed)
include h

/-- The place of a member that was extracted is within the destination by its text. -/
theorem isWithin_of_extracts : (memberPlace base.path m).isWithin base.path = true := by
  cases h with
  | directory _ hplace hwithin =>
    rw [hplace]
    exact hwithin
  | file _ hplace hwithin =>
    rw [hplace]
    exact hwithin

/-- The place of a member that was extracted leads into the destination. -/
theorem find_of_extracts :
    ∃ there, placed.find .use (memberPlace base.path m) = .ok there ∧ base <:+ there := by
  cases h with
  | directory hnames hplace _ hanchored _ hmake =>
    have hdir := Disk.isDirectory_of_makeDirectories (by simp [Path.ofNames]) hmake
    obtain ⟨there, hwalk, -⟩ := Disk.lookAt_eq_ok.1 (Disk.isDirectory_eq_true.1 hdir)
    obtain ⟨hcheck, hsteps⟩ := Disk.walk_eq_ok hwalk
    rw [Path.steps_ofNames hnames] at hsteps
    have hgrows := Disk.grows_of_makeDirectories hmake
    refine ⟨there, hplace ▸ Disk.find_eq_ok.2 hwalk, ?_⟩
    exact (hanchored.ends_below hgrows hcheck (Disk.walkLinks_use_iff.1 hsteps)).1
  | file hnames hplace _ hanchored _ _ hmake _ _ hwrite =>
    obtain ⟨spot, hwalk, hsome⟩ := Disk.isSome_of_write hwrite
    have hfound := (Disk.keepsKinds_write hwrite).keepsLinks.walk hwalk hsome
    have hgrows := Disk.grows_of_makeDirectories hmake
    refine ⟨spot.location, hplace ▸ Disk.find_of_makeFile hfound, ?_⟩
    exact hanchored.spot_below hnames hgrows hwalk

variable (hrest : placed.KeepsKinds final) (hbetween : d.Between final w.held)
  (format : Archive.Format)
include hrest hbetween

/-- The place of a member that was extracted is found to lead into the destination, unless its
canonical path is too long. -/
theorem perform_leadsInside_again :
    (final.canonical (memberPlace base.path m) ≠ .error .nameTooLong →
      (leadsInside (Disk.files .reliable format) base.path
        (memberPlace base.path m).ancestors).perform w = (.ok true, w)) ∧
    (final.canonical (memberPlace base.path m) = .error .nameTooLong →
      ((leadsInside (Disk.files .reliable format) base.path
        (memberPlace base.path m).ancestors).perform w).1 ≠ .ok true) := by
  obtain ⟨there, hfind, hbelow⟩ := find_of_extracts h
  have hfinal := hrest.keepsLinks.find hfind
  have hcanonical := hbetween.keepsKinds.keepsLinks.canonical hfinal
  have hstarts : there.path.startsWith base.path = true :=
    (Path.startsWith_path there base).2 hbelow
  rw [perform_leadsInside_of_find (hbetween.keepsKinds.keepsLinks.find hfinal), hcanonical,
    Disk.canonical_of_find hfinal]
  constructor
  · intro hfits
    rw [if_neg fun hlong => hfits (if_pos hlong)]
    simp [Except.map, Disk.looking, hstarts]
  · intro hlong
    simp [hlong, Except.map, Disk.looking]

/-- A member whose place has too long a canonical path is not extracted again. -/
theorem perform_extract_of_tooLong
    (hlong : final.canonical (memberPlace base.path m) = .error .nameTooLong) :
    ((extract (Disk.files .reliable format) base.path m).perform w).1 ≠ .ok () := by
  have hleads := (perform_leadsInside_again h hrest hbetween format).2 hlong
  rw [extract, isWithin_of_extracts h]
  simp only [Bool.not_true, Bool.false_eq_true, if_false, perform_bind]
  rcases hperform : (leadsInside (Disk.files .reliable format) base.path
    (memberPlace base.path m).ancestors).perform w with ⟨stop | _ | _, after⟩
  · simp
  · simp [escaped]
  · simp [hperform] at hleads

/-- A member that was extracted is extracted again, wherever the first extraction went on to. -/
theorem perform_extract_again (hstreams : w.streams.NeverFails)
    (hfits : final.canonical (memberPlace base.path m) ≠ .error .nameTooLong) :
    ∃ again, (extract (Disk.files .reliable format) base.path m).perform w =
        (.ok (), afterMember m w again) ∧
      placed.Between final again := by
  have hleads := (perform_leadsInside_again h hrest hbetween format).1 hfits
  have hnow := hbetween.keepsKinds
  rw [extract, isWithin_of_extracts h]
  simp only [Bool.not_true, Bool.false_eq_true, if_false, perform_bind, hleads]
  cases h with
  | directory hnames hplace _ _ hkind hmake =>
    -- The directory exists, and none is made.
    have hdir := Disk.isDirectory_of_makeDirectories (by simp [Path.ofNames]) hmake
    have hdir := hnow.keepsLinks.isDirectory (hrest.keepsLinks.isDirectory hdir)
    refine ⟨w.held, ?_, hbetween.grow (Disk.grows_of_makeDirectories hmake)⟩
    simp only [hkind, hplace, perform_extractDirectory, Disk.makeDirectories_of_isDirectory hdir]
    rw [perform_printLine_of_neverFails hstreams]
    simp only [afterMember, Member.extractedLine, hkind]
  | @file name names made _ parent hnames hplace _ _ hkind hother hmake hparent hinside hwrite =>
    -- The directory that the file lies in exists, and leads where it led.
    have hsame := (Disk.keepsKinds_write hwrite).trans (hrest.trans hnow)
    have hdir := Disk.isDirectory_of_makeDirectories (by simp [Path.ofNames]) hmake
    obtain ⟨up, hup, -⟩ := Disk.lookAt_eq_ok.1 (Disk.isDirectory_eq_true.1 hdir)
    have hparent := (hsame.keepsLinks.canonical (Disk.find_eq_ok.2 hup)).trans hparent
    obtain ⟨again, hagain, hwritten⟩ := hbetween.write_again hrest
      (Disk.grows_of_makeDirectories hmake) hwrite
    refine ⟨again, ?_, hwritten⟩
    simp only [hkind, hplace, if_neg hother, perform_bind,
      perform_readyParent (Path.parent_ofNames_cons hnames),
      Disk.makeDirectories_of_isDirectory (hsame.keepsLinks.isDirectory hdir), hparent, hinside,
      if_true, perform_extractFile, hagain]
    rw [perform_printLine_of_neverFails (w := { w with held := again }) hstreams]
    simp only [afterMember, Member.extractedLine, hkind]

end Again

/-! ## Whole archives -/

/-- Members that were extracted are extracted again, to the same end, if the canonical paths of
their places are not too long, and only then. -/
theorem perform_extractAll_again {d final : Disk} {members : List Member}
    {result : Except Stop Unit} {after : World Disk}
    (hall : Disk.ExtractsAll base d members final) (hbetween : d.Between final w.held)
    (hstreams : w.streams.NeverFails)
    (h : (extractAll (Disk.files .reliable format) base.path members).perform w = (result, after)) :
    (result = .ok () ↔
        ∀ m ∈ members, final.canonical (memberPlace base.path m) ≠ .error .nameTooLong) ∧
      (result = .ok () → ∀ location, after.held.get? location = final.get? location) := by
  -- The induction is on the first extraction; the second one stays between it and its end.
  induction hall generalizing w with
  | nil =>
    cases h
    exact ⟨by simp, fun _ => hbetween.finish⟩
  | @cons _ placed final m rest hfirst hrest ih =>
    rw [extractAll, perform_bind] at h
    by_cases hfits : final.canonical (memberPlace base.path m) = .error .nameTooLong
    · have hstops := perform_extract_of_tooLong hfirst hrest.keepsKinds hbetween
        format hfits
      rcases hextract : (extract (Disk.files .reliable format) base.path m).perform w with
        ⟨stop | _, stopped⟩
      · rw [hextract] at h
        cases h
        simp [hfits]
      · exact absurd (congrArg Prod.fst hextract) hstops
    · obtain ⟨again, hextract, hbetween⟩ := perform_extract_again hfirst hrest.keepsKinds hbetween
        format hstreams hfits
      rw [hextract] at h
      have hothers := ih hbetween (prints_afterMember hstreams m again).neverFails h
      simpa [hfits] using hothers

/-- The archive reads the same after an extraction as before. -/
def ArchiveKept (w after : World Disk) (args : List String) : Prop :=
  ∀ archive directory, unzipOperands none none args = some (archive, directory) →
    after.held.lookAt (w.session.resolve archive) = w.held.lookAt (w.session.resolve archive)

/-- The canonical paths of the places of all members, as the extraction leaves them, are not too
long. -/
def PlacesFit (format : Archive.Format) (w after : World Disk) (args : List String) : Prop :=
  ∀ archive directory members base, unzipOperands none none args = some (archive, directory) →
    (w.held.unpackArchive (w.session.resolve archive) format).1 = .ok members →
      after.held.canonical (w.session.destination directory) = .ok base →
        ∀ m ∈ members, after.held.canonical (memberPlace base m) ≠ .error .nameTooLong

/-- An extraction that comes to its end has made its destination and extracted all members. -/
theorem runUnzip_eq_ok {args : List String} {after : World Disk}
    (h : (runUnzip (Disk.files .reliable format) args).perform w = (.ok (), after)) :
    ∃ archive directory members made base,
      unzipOperands none none args = some (archive, directory) ∧
        (w.held.unpackArchive (w.session.resolve archive) format).1 = .ok members ∧
        w.held.makeDirectories (w.session.destination directory) = (.ok (), made) ∧
        made.canonical (w.session.destination directory) = .ok (Location.path base) ∧
        (extractAll (Disk.files .reliable format) base.path members).perform
          { w with held := made } = (.ok (), after) := by
  cases hoperands : unzipOperands none none args with
  | none =>
    rw [runUnzip, hoperands] at h
    cases h
  | some operands =>
    obtain ⟨archive, directory⟩ := operands
    have hrun : (runUnzip (Disk.files .reliable format) args).perform w = _ :=
      perform_runUnzip_files hoperands w
    cases hunpack : (w.held.unpackArchive (w.session.resolve archive) format).1 with
    | error stop =>
      rw [hrun, hunpack] at h
      cases h
    | ok members =>
      have hmaking : (Disk.files .reliable format).answer
          (.makeDirectories (w.session.destination directory)) w.held =
        w.held.answer (.makeDirectories (w.session.destination directory)) .reliable format := rfl
      have hresolving : ∀ made : Disk,
          (Disk.files .reliable format).answer (.canonical (w.session.destination directory)) made =
            made.looking .resolve (w.session.destination directory)
              (made.canonical (w.session.destination directory)) := fun _ => rfl
      -- A request that fails ends the run, so it came to its end only if none did.
      rw [hrun, hunpack] at h
      simp only [perform_bind, perform_request, hmaking, hresolving, Disk.answer] at h
      rcases hmake : w.held.makeDirectories (w.session.destination directory) with
        ⟨refusal | _, made⟩ <;> simp only [hmake] at h
      · cases h
      · cases hcanonical : made.canonical (w.session.destination directory) with
        | error refusal =>
          rw [hcanonical] at h
          cases h
        | ok place =>
          obtain ⟨base, -, rfl⟩ := Disk.canonical_eq_ok hcanonical
          rw [hcanonical] at h
          exact ⟨archive, directory, members, made, base, rfl, hunpack, hmake, hcanonical, h⟩

/-- An extraction that came to its end comes to the same end again, if the canonical paths of the
places are not too long, and only then. -/
theorem perform_runUnzip_again {args : List String} {first second : World Disk}
    {result : Except Stop Unit} (hstreams : w.streams.NeverFails)
    (hfirst : (runUnzip (Disk.files .reliable format) args).perform w = (.ok (), first))
    (harchive : ArchiveKept w first args)
    (hsecond : (runUnzip (Disk.files .reliable format) args).perform first = (result, second)) :
    (result = .ok () ↔ PlacesFit format w first args) ∧
      (result = .ok () → ∃ printed, Prints printed w first ∧ Prints printed first second ∧
        ∀ location, second.held.get? location = first.held.get? location) := by
  obtain ⟨archive, directory, members, made, base, hoperands, hunpack, hmake, hcanonical, hall⟩ :=
    runUnzip_eq_ok hfirst
  obtain ⟨hprints, hextracted⟩ := extractAll_eq_ok (w := { w with held := made }) hstreams hall
  have hbytes : (w.session.destination directory).bytes ≠ [] := by
    intro hempty
    simp [Disk.canonical, hempty] at hcanonical
  have hdir := Disk.isDirectory_of_makeDirectories hbytes hmake
  obtain ⟨there, hwalk, -⟩ := Disk.lookAt_eq_ok.1 (Disk.isDirectory_eq_true.1 hdir)
  have hkept := hextracted.keepsKinds.keepsLinks
  -- The archive, the destination and its canonical path are the same again.
  have hsession : first.session = w.session := hprints.session
  have hresolved : first.held.canonical (w.session.destination directory) = .ok base.path := by
    rw [hkept.canonical (Disk.find_eq_ok.2 hwalk), hcanonical]
  have hrun : (runUnzip (Disk.files .reliable format) args).perform first =
      (extractAll (Disk.files .reliable format) base.path members).perform first := by
    refine perform_runUnzip_existing hoperands ?_ ?_ ?_
    · rw [hsession,
        Disk.fst_unpackArchive_congr format (harchive archive directory hoperands), hunpack]
    · rw [hsession, hkept.isDirectory hdir]
    · rw [hsession, hresolved]
  have hfits : PlacesFit format w first args ↔
      ∀ m ∈ members, first.held.canonical (memberPlace base.path m) ≠ .error .nameTooLong := by
    constructor
    · exact fun hfits => hfits archive directory members base.path hoperands hunpack hresolved
    · intro hfits archive' directory' members' base' hoperands' hunpack' hresolved'
      obtain ⟨rfl, rfl⟩ := Prod.mk.inj (Option.some.inj (hoperands.symm.trans hoperands'))
      obtain rfl := Except.ok.inj (hunpack.symm.trans hunpack')
      obtain rfl := Except.ok.inj (hresolved.symm.trans hresolved')
      exact hfits
  rw [hrun] at hsecond
  obtain ⟨hiff, hsame⟩ := perform_extractAll_again hextracted (.start _ _) hprints.neverFails
    hsecond
  refine ⟨hiff.trans hfits.symm, ?_⟩
  rintro rfl
  refine ⟨extractedOutput members, ?_, (extractAll_eq_ok hprints.neverFails hsecond).1, hsame rfl⟩
  exact ⟨⟨hprints.session, hprints.neverFails, hprints.err⟩, hprints.out⟩

/-- The second extraction complains exactly when a canonical path is too long. -/
theorem silent_again {args : List String} {first : World Disk}
    (hstreams : w.streams.NeverFails)
    (hfirst : (runUnzip (Disk.files .reliable format) args).perform w = (.ok (), first))
    (harchive : ArchiveKept w first args) :
    let second := ((dispatch (Disk.files .reliable format) ⟨"unzip", args, none⟩).perform first).2
    (second.streams.bytesOn .err = first.streams.bytesOn .err ↔ PlacesFit format w first args) ∧
      (PlacesFit format w first args →
        (runUnzip (Disk.files .reliable format) args).perform first = (.ok (), second)) := by
  intro second
  rcases hrun : (runUnzip (Disk.files .reliable format) args).perform first with ⟨result, last⟩
  obtain ⟨hfits, hsame⟩ := perform_runUnzip_again hstreams hfirst harchive hrun
  -- The second extraction is the whole of its line when it comes to its end.
  have hlast : result = .ok () → second = last := by
    rintro rfl
    exact congrArg Prod.snd
      (perform_dispatch_of_run (Disk.files .reliable format) (b := .unzip) hrun)
  have hnever : first.streams.NeverFails := by
    have hnever := neverFails_dispatch (Disk.files .reliable format)
      ⟨Builtin.unzip.name, args, none⟩ hstreams
    rwa [perform_dispatch_of_run (Disk.files .reliable format) (b := .unzip) hfirst] at hnever
  refine ⟨⟨fun hsilent => ?_, fun hplaces => ?_⟩, fun hplaces => ?_⟩
  · have hcomplete :
        (runUnzip (Disk.files .reliable format) args).perform first = (.ok (), second) :=
      run_of_silent (Disk.files .reliable format) (b := .unzip) hnever hsilent
    exact hfits.1 (congrArg Prod.fst (hrun.symm.trans hcomplete))
  · obtain ⟨printed, -, hprints, -⟩ := hsame (hfits.2 hplaces)
    rw [hlast (hfits.2 hplaces)]
    exact hprints.err
  · rw [hlast (hfits.2 hplaces), hfits.2 hplaces]

end Builtin

/-! ## Behind a link -/

namespace Disk

variable {d : Disk} {deep : Location} {link name : FileName}

section Behind

variable (hlink : d.get? [link] = some (.link deep.path)) (hdeep : d.get? deep = some .directory)
include hlink hdeep

/-- A walk through a link at the root goes on where the link leads. -/
theorem walkSteps_behind {purpose : Purpose} {rest : List Step} (hpurpose : purpose = .use ∨
    (rest ≠ [] ∧ rest ≠ [.slash])) :
    d.walkSteps purpose (.name link.bytes :: rest) = d.walkLinks purpose 39 deep rest := by
  have hclear : d.Clear deep := clear_of_get? hdeep (by simp)
  have habsolute : deep.path.isAbsolute = true := isAbsolute_path deep
  rw [walkSteps, linkLimit, walkLinks_follow hlink hpurpose, if_pos habsolute, steps_path,
    walkLinks_of_leads (hclear.leads (by simp [hdeep])) (Nat.zero_le _) hpurpose]

/-- A link at the root leads to its directory. -/
theorem find_link (hcheck : checkPath (Location.path [link]) = .ok ()) :
    d.find .use (Location.path [link]) = .ok deep := by
  have hsteps : d.walkSteps .use (Location.path [link]).steps = .ok (.found deep) := by
    rw [steps_path]
    exact (walkSteps_behind hlink hdeep (.inl rfl)).trans walkLinks_nil
  simp only [find, walk, hcheck, hsteps]

/-- A path through a link at the root leads to a place that is vacant. -/
theorem walk_behind (purpose : Purpose) (hnone : d.get? (name :: deep) = none)
    (hcheck : checkPath (Location.path [name, link]) = .ok ()) :
    d.walk purpose (Location.path [name, link]) = .ok (.vacant deep name) := by
  have hsteps : d.walkSteps purpose (Location.path [name, link]).steps =
      .ok (.vacant deep name) := by
    rw [steps_path]
    refine (walkSteps_behind hlink hdeep (.inr (by simp))).trans ?_
    simp [walkLinks_eq, walkFrom, hdeep, hnone]
  simp only [walk, hcheck, hsteps]

end Behind

/-- A file is written where nothing lies. -/
theorem write_of_vacant {p : Path} {above : Location}
    (hwalk : d.walk .makeFile p = .ok (.vacant above name)) (bytes : Bytes) :
    d.write p bytes .truncate =
      (.ok (), (d.put (name :: above) (.file [])).put (name :: above) (.file bytes)) := by
  obtain ⟨hdir, hnone⟩ := (ends_of_walkLinks (walk_eq_ok hwalk).2).of_vacant
  have hempty : (d.put (name :: above) (.file [])).get? (name :: above) = some (.file []) := by
    rw [get?_put (accepts_of_vacant hdir hnone _), if_pos rfl]
  simp [write, openFile, hwalk, writeAt, hempty, finishing, WriteMode.apply, bind, Except.bind]

end Disk

namespace Builtin

variable {w : World Disk} {deep : Location} {link name : FileName}

/-- A file is extracted through a link at the root. -/
theorem perform_extract_behind (bytes : Bytes) (hlink : w.held.get? [link] = some (.link deep.path))
    (hdeep : w.held.get? deep = some .directory) (hnone : w.held.get? (name :: deep) = none)
    (htext : Location.IsText [name, link])
    (hcheck : Disk.checkPath (Location.path [name, link]) = .ok ())
    (hsize : deep.path.size < pathLimit) (hstreams : w.streams.NeverFails) :
    let m := Member.ofItem ([name, link], .file bytes)
    let placed := (w.held.put (name :: deep) (.file [])).put (name :: deep) (.file bytes)
    (extract Disk.files (Location.path []) m).perform w = (.ok (), afterMember m w placed) := by
  intro m placed
  have hbase : ([] : Location) <:+ [link] := List.nil_suffix
  have hplace : memberPlace (Location.path []) m = Location.path [name, link] :=
    memberPlace_ofItem (by simp) htext []
  obtain ⟨hwithin, hother⟩ := isWithin_path name hbase
  have hcheck' : Disk.checkPath (Location.path [link]) = .ok () :=
    Disk.checkPath_path.2
      (Nat.lt_of_le_of_lt (Disk.size_path_le name [link]) (Disk.checkPath_path.1 hcheck))
  have hfind := Disk.find_link hlink hdeep hcheck'
  have hcanonical := (Disk.canonical_of_find hfind).trans (if_neg (Nat.not_le.2 hsize))
  have hdirectory : w.held.isDirectory (Location.path [link]) = true :=
    Disk.isDirectory_eq_true.2 (Disk.lookAt_eq_ok.2 ⟨deep, Disk.find_eq_ok.1 hfind, hdeep⟩)
  have hstarts : deep.path.startsWith (Location.path []) = true :=
    (Path.startsWith_path deep []).2 List.nil_suffix
  -- Nothing lies at the place, and the link above leads to a directory.
  have habsent : w.held.isPresent (Location.path [name, link]) = false := by
    simp [Disk.isPresent, Disk.find, Disk.walk_behind hlink hdeep .useLink hnone hcheck]
  have hleads : (leadsInside Disk.files (Location.path [])
      (Location.path [name, link]).ancestors).perform w = (.ok true, w) := by
    rw [Disk.ancestors_path_cons, ← Disk.filesReading_unpackArchive, perform_leadsInside_cons,
      if_neg (by simp [habsent]), Disk.filesReading_unpackArchive,
      perform_leadsInside_of_find hfind, hcanonical]
    simp [Except.map, Disk.looking, hstarts]
  have hwrite := Disk.write_of_vacant (Disk.walk_behind hlink hdeep .makeFile hnone hcheck) bytes
  rw [extract, hplace, hwithin]
  simp only [Bool.not_true, Bool.false_eq_true, if_false, perform_bind, hleads, m, Member.ofItem,
    if_neg hother, perform_readyParent (Disk.parent_path_cons name [link]),
    Disk.makeDirectories_of_isDirectory hdirectory, hcanonical, hstarts, if_true,
    perform_extractFile, hwrite]
  exact perform_printLine_of_neverFails (w := { w with held := placed }) hstreams _

end Builtin

/-! ## Too deep a place -/

/-- A link at the root. -/
def throughName : FileName := .ofString "ln"

/-- An archive at the root. -/
def storeName : FileName := .ofString "ar"

/-- A file behind the link. -/
def innerName : FileName := .ofString "file"

/-- The archive is not the file. -/
theorem storeName_ne : storeName ≠ innerName := by decide

/-- The link is not the file. -/
theorem throughName_ne : throughName ≠ innerName := by decide

/-- The names of the link and of the file are texts. -/
theorem isText_inner : Location.IsText [innerName, throughName] := by
  simp only [Location.IsText, List.forall_mem_cons]
  decide

/-- The file as a member of the archive. -/
def innerMember : Member := .ofItem ([innerName, throughName], .file [1])

/-- The archive. -/
def innerArchive : Bytes := (Archive.encode [innerMember]).toOption.getD []

/-- At the root lie the archive and a link, which leads to a directory that the file can be
extracted to. -/
structure Disk.LinksTo (d : Disk) (deep : Location) : Prop where
  archive : d.get? [storeName] = some (.file innerArchive)
  link : d.get? [throughName] = some (.link deep.path)
  directory : d.get? deep = some .directory
  vacant : d.get? (innerName :: deep) = none

/-- The disk with the file in the directory. -/
def Disk.withFile (d : Disk) (deep : Location) : Disk :=
  (d.put (innerName :: deep) (.file [])).put (innerName :: deep) (.file [1])

/-- A shell at the root. -/
def World.atRoot (d : Disk) : World Disk := ⟨Session.start .root .root, .unlimited, d⟩

/-- The root is where it is. -/
theorem Disk.find_root (d : Disk) : d.find .use (Location.path []) = .ok [] := by
  have hsteps : d.walkSteps .use (Location.path []).steps = .ok (.found []) := by
    rw [steps_path]
    exact walkLinks_nil
  have hcheck : checkPath (Location.path []) = .ok () := by decide +kernel
  simp only [find, walk, hcheck, hsteps]

/-- What is extracted is extracted to the root, unless it is said where. -/
theorem World.destination_atRoot (d : Disk) :
    (World.atRoot d).session.destination none = Location.path [] := by
  show (Session.start .root .root).destination none = _
  decide +kernel

/-- The root has a canonical path. -/
theorem Disk.canonical_root (d : Disk) :
    d.canonical ((World.atRoot d).session.destination none) = .ok (Location.path []) := by
  rw [World.destination_atRoot, canonical_of_find d.find_root]
  decide +kernel

/-- The archive is what its name leads to. -/
theorem Disk.lookAt_innerArchive {d : Disk}
    (h : d.get? [storeName] = some (.file innerArchive)) :
    d.lookAt ((World.atRoot d).session.resolve "ar") = .ok (.file innerArchive) := by
  have hresolve : (Session.start .root .root).resolve "ar" = Location.path [storeName] := by
    decide +kernel
  show d.lookAt ((Session.start .root .root).resolve "ar") = _
  rw [hresolve]
  exact (clear_of_get? h (by simp)).lookAt_eq h (by decide +kernel)

/-- The archive holds the file. -/
theorem Disk.unpackArchive_innerArchive {d : Disk}
    (h : d.get? [storeName] = some (.file innerArchive)) :
    (d.unpackArchive ((World.atRoot d).session.resolve "ar")).1 = .ok [innerMember] := by
  have hdecode : Archive.zip.read innerArchive = .ok [innerMember] := by decide +kernel
  exact congrArg Prod.fst (unpackArchive_of_lookAt (lookAt_innerArchive h) hdecode)

/-- The archive is the only operand. -/
theorem Builtin.unzipOperands_archive : unzipOperands none none ["ar"] = some ("ar", none) := by
  decide

section LinksTo

variable {d : Disk} {deep : Location} (h : d.LinksTo deep)
include h

/-- The file is all that is added. -/
theorem Disk.LinksTo.get?_withFile (location : Location) :
    (d.withFile deep).get? location =
      if location = innerName :: deep then some (.file [1]) else d.get? location := by
  have hnew := accepts_of_vacant h.directory h.vacant (.file [])
  have hold :
      (d.put (innerName :: deep) (.file [])).get? (innerName :: deep) = some (.file []) := by
    rw [get?_put hnew, if_pos rfl]
  rw [withFile, get?_put (accepts_of_file hold [1]), get?_put hnew]
  by_cases hlocation : location = innerName :: deep <;> simp [hlocation]

/-- The archive stays what it is. -/
theorem Disk.LinksTo.archive_withFile :
    (d.withFile deep).get? [storeName] = some (.file innerArchive) := by
  rw [h.get?_withFile, if_neg (by simp [storeName_ne]), h.archive]

/-- The file is found behind the link. -/
theorem Disk.LinksTo.find_withFile :
    (d.withFile deep).find .use (Location.path [innerName, throughName]) =
      .ok (innerName :: deep) := by
  have hlink : (d.withFile deep).get? [throughName] = some (.link deep.path) := by
    rw [h.get?_withFile, if_neg (by simp [throughName_ne]), h.link]
  have hdirectory : (d.withFile deep).get? deep = some .directory := by
    rw [h.get?_withFile, if_neg (List.cons_ne_self _ _).symm, h.directory]
  have hfile : (d.withFile deep).get? (innerName :: deep) = some (.file [1]) := by
    rw [h.get?_withFile, if_pos rfl]
  have hcheck : checkPath (Location.path [innerName, throughName]) = .ok () := by decide +kernel
  have hsteps : (d.withFile deep).walkSteps .use (Location.path [innerName, throughName]).steps =
      .ok (.found (innerName :: deep)) := by
    rw [steps_path]
    refine (walkSteps_behind hlink hdirectory (.inl rfl)).trans ?_
    simp [walkLinks_eq, walkFrom, hdirectory, hfile]
  simp only [find, walk, hcheck, hsteps]

/-- The archive is extracted. -/
theorem Builtin.perform_runUnzip_linksTo (hsize : deep.path.size < pathLimit) :
    (runUnzip Disk.files ["ar"]).perform (.atRoot d) =
      (.ok (), afterMember innerMember (.atRoot d) (d.withFile deep)) := by
  have hcheck : Disk.checkPath (Location.path [innerName, throughName]) = .ok () := by
    decide +kernel
  have hextract : (extract Disk.files (Location.path []) innerMember).perform (.atRoot d) =
      (.ok (), afterMember innerMember (.atRoot d) (d.withFile deep)) :=
    perform_extract_behind (w := .atRoot d) [1] h.link h.directory h.vacant isText_inner hcheck
      hsize
      Streams.neverFails_unlimited
  have hdirectory : d.isDirectory ((World.atRoot d).session.destination none) = true := by
    rw [World.destination_atRoot]
    exact Disk.isDirectory_eq_true.2 (Disk.lookAt_eq_ok.2 ⟨[], Disk.find_eq_ok.1 d.find_root, rfl⟩)
  rw [perform_runUnzip_existing (w := .atRoot d) unzipOperands_archive
    (Disk.unpackArchive_innerArchive h.archive) hdirectory d.canonical_root]
  simp only [extractAll, perform_bind, hextract, perform_pure]

/-- The archive is not changed by its extraction. -/
theorem Builtin.archiveKept_linksTo :
    ArchiveKept (.atRoot d) (afterMember innerMember (.atRoot d) (d.withFile deep)) ["ar"] := by
  intro archive directory hoperands
  obtain ⟨rfl, rfl⟩ := Prod.mk.inj (Option.some.inj (unzipOperands_archive.symm.trans hoperands))
  exact (Disk.lookAt_innerArchive h.archive_withFile).trans
    (Disk.lookAt_innerArchive h.archive).symm

/-- The place of the file fits if the canonical path of the file is not too long. -/
theorem Builtin.placesFit_linksTo :
    PlacesFit Archive.zip (.atRoot d) (afterMember innerMember (.atRoot d) (d.withFile deep))
        ["ar"] ↔
      (Location.path (innerName :: deep)).size < pathLimit := by
  have hplace : memberPlace (Location.path []) innerMember =
      Location.path [innerName, throughName] :=
    memberPlace_ofItem (by simp) isText_inner []
  have hcanonical := Disk.canonical_of_find h.find_withFile
  constructor
  · intro hfits
    have hfits := hfits "ar" none [innerMember] (Location.path []) unzipOperands_archive
      (Disk.unpackArchive_innerArchive h.archive) (d.withFile deep).canonical_root
      innerMember (List.mem_singleton_self _)
    rw [hplace] at hfits
    by_contra hlong
    exact hfits (hcanonical.trans (if_pos (Nat.not_lt.1 hlong)))
  · intro hsize archive directory members base hoperands hunpack hbase m hm
    obtain ⟨rfl, rfl⟩ := Prod.mk.inj (Option.some.inj (unzipOperands_archive.symm.trans hoperands))
    obtain rfl := Except.ok.inj ((Disk.unpackArchive_innerArchive h.archive).symm.trans hunpack)
    obtain rfl := Except.ok.inj ((d.withFile deep).canonical_root.symm.trans hbase)
    obtain rfl := List.mem_singleton.1 hm
    rw [hplace]
    have hfits := hcanonical.trans (if_neg (Nat.not_le.2 hsize))
    exact fun hlong => by cases hfits.symm.trans hlong

end LinksTo

/-- The archive is extracted without a word, and is what it was. -/
theorem Builtin.perform_dispatch_linksTo {d : Disk} {deep : Location} (h : d.LinksTo deep)
    (hsize : deep.path.size < pathLimit) :
    (dispatch Disk.files ⟨"unzip", ["ar"], none⟩).perform (.atRoot d) =
      (.ok (), afterMember innerMember (.atRoot d) (d.withFile deep)) :=
  perform_dispatch_of_run Disk.files (b := .unzip) (perform_runUnzip_linksTo h hsize)

/-- The archive is extracted again only if the canonical path of the file is not too long. -/
theorem Builtin.again_linksTo {d : Disk} {deep : Location} (h : d.LinksTo deep)
    (hsize : deep.path.size < pathLimit) :
    let w := World.atRoot d
    let first := ((dispatch Disk.files ⟨"unzip", ["ar"], none⟩).perform w).2
    let second := ((dispatch Disk.files ⟨"unzip", ["ar"], none⟩).perform first).2
    (first.streams.bytesOn .err = w.streams.bytesOn .err ∧ ArchiveKept w first ["ar"]) ∧
      (second.streams.bytesOn .err = first.streams.bytesOn .err ↔
        (Location.path (innerName :: deep)).size < pathLimit) := by
  intro w first second
  have hfirst : first = afterMember innerMember w (d.withFile deep) :=
    congrArg Prod.snd (perform_dispatch_linksTo h hsize)
  have hagain := (silent_again Streams.neverFails_unlimited (perform_runUnzip_linksTo h hsize)
    (archiveKept_linksTo h)).1
  rw [placesFit_linksTo h, ← hfirst] at hagain
  refine ⟨⟨?_, hfirst ▸ archiveKept_linksTo h⟩, hagain⟩
  rw [hfirst]
  exact (prints_afterMember (w := w) Streams.neverFails_unlimited innerMember _).err

/-- A disk with nested directories, a link to the innermost of them and the archive. -/
def Disk.linking (deep : Location) : Disk :=
  ((nested deep).put [throughName] (.link deep.path)).put [storeName] (.file innerArchive)

/-- The link leads to the innermost directory when no directory is in the way. -/
theorem Disk.linksTo_linking {deep : Location} (hlink : ¬[throughName] <:+ deep)
    (harchive : ¬[storeName] <:+ deep) : (linking deep).LinksTo deep := by
  have hnew : (nested deep).Accepts [throughName] (.link deep.path) :=
    accepts_of_vacant (get?_root _) (by rw [get?_nested, if_neg hlink]) _
  have hnewer : ((nested deep).put [throughName] (.link deep.path)).Accepts [storeName]
      (.file innerArchive) := by
    refine accepts_of_vacant (get?_root _) ?_ _
    rw [get?_put hnew, if_neg (by decide), get?_nested, if_neg harchive]
  have hget (location : Location) : (linking deep).get? location =
      if location = [storeName] then some (.file innerArchive)
      else if location = [throughName] then some (.link deep.path)
      else if location <:+ deep then some .directory else none := by
    rw [linking, get?_put hnewer, get?_put hnew, get?_nested]
  constructor
  · rw [hget, if_pos rfl]
  · rw [hget, if_neg (by decide), if_pos rfl]
  · rw [hget, if_neg (by rintro rfl; exact harchive (List.suffix_refl _)),
      if_neg (by rintro rfl; exact hlink (List.suffix_refl _)), if_pos (List.suffix_refl _)]
  · rw [hget, if_neg (by simp [storeName_ne.symm]), if_neg (by simp [throughName_ne.symm]),
      if_neg (fun h => Nat.not_succ_le_self _ h.length_le)]

/-! ## Extracting twice -/

/-- Extracting an archive once more, while it still reads the same, reports no error exactly when
the canonical paths of all that was extracted are short enough. It prints the same lines then and
leaves everything as it is. The archive may be of any format, and the machine ends what it
begins. -/
theorem dispatch_unzip_again {w : World Disk} (hstreams : w.streams.NeverFails)
    (format : Archive.Format) (args : List String) :
    let files := Disk.files .reliable format
    let first := ((dispatch files ⟨"unzip", args, none⟩).perform w).2
    let second := ((dispatch files ⟨"unzip", args, none⟩).perform first).2
    first.streams.bytesOn .err = w.streams.bytesOn .err → Builtin.ArchiveKept w first args →
      (second.streams.bytesOn .err = first.streams.bytesOn .err ↔
          Builtin.PlacesFit format w first args) ∧
        (Builtin.PlacesFit format w first args →
          (∃ printed, first.streams.bytesOn .out = w.streams.bytesOn .out ++ printed ∧
            second.streams.bytesOn .out = first.streams.bytesOn .out ++ printed) ∧
          ∀ location, second.held.get? location = first.held.get? location) := by
  intro files first second hsilent harchive
  have hfirst : (Builtin.runUnzip files args).perform w = (.ok (), first) :=
    run_of_silent files (b := .unzip) hstreams hsilent
  obtain ⟨hsilent', hcomplete⟩ := Builtin.silent_again hstreams hfirst harchive
  refine ⟨hsilent', fun hplaces => ?_⟩
  obtain ⟨-, hsame⟩ := Builtin.perform_runUnzip_again hstreams hfirst harchive (hcomplete hplaces)
  obtain ⟨printed, hprints, hprints', hheld⟩ := hsame rfl
  exact ⟨⟨printed, hprints.out, hprints'.out⟩, hheld⟩

/-- A file that was extracted through a link to the root is extracted again. -/
theorem dispatch_unzip_again_through_link :
    let w := World.atRoot (Disk.linking [])
    let first := ((dispatch Disk.files ⟨"unzip", ["ar"], none⟩).perform w).2
    let second := ((dispatch Disk.files ⟨"unzip", ["ar"], none⟩).perform first).2
    (w.streams.NeverFails ∧ first.streams.bytesOn .err = w.streams.bytesOn .err ∧
        Builtin.ArchiveKept w first ["ar"] ∧ Builtin.PlacesFit Archive.zip w first ["ar"]) ∧
      second.streams.bytesOn .err = first.streams.bytesOn .err ∧
        ∀ location, second.held.get? location = first.held.get? location := by
  intro w first second
  have hlinks : (Disk.linking []).LinksTo [] := Disk.linksTo_linking (by simp) (by simp)
  have hsize : (Location.path []).size < pathLimit := by decide +kernel
  obtain ⟨⟨hsilent, harchive⟩, -⟩ := Builtin.again_linksTo hlinks hsize
  have hfits : Builtin.PlacesFit Archive.zip w first ["ar"] := by
    have hfirst := congrArg Prod.snd (Builtin.perform_dispatch_linksTo hlinks hsize)
    rw [show first = _ from hfirst]
    exact (Builtin.placesFit_linksTo hlinks).2 (by decide +kernel)
  obtain ⟨hagain, hsame⟩ :=
    dispatch_unzip_again (w := w) Streams.neverFails_unlimited Archive.zip ["ar"] hsilent harchive
  exact ⟨⟨Streams.neverFails_unlimited, hsilent, harchive, hfits⟩, hagain.2 hfits,
    (hsame hfits).2⟩

/-- A short name is none of those of the deeply nested directories. -/
theorem not_suffix_deep {name : FileName} (hshort : name.bytes.length < 250) :
    ¬[name] <:+ deepName :: deepAbove := by
  intro hsuffix
  have hinner : deepName.bytes.length = 250 := List.length_replicate
  have houter : (FileName.letters 255 (by decide) (by decide)).bytes.length = 255 :=
    List.length_replicate
  rcases List.mem_cons.1 (hsuffix.subset (List.mem_singleton_self name)) with rfl | hmem
  · omega
  · rw [List.eq_of_mem_replicate hmem] at hshort
    omega

/-- What is extracted through the link has too long a canonical path to be extracted again, although
the first extraction reports no error. -/
theorem unzip_again_too_deep :
    let w := World.atRoot (Disk.linking (deepName :: deepAbove))
    let first := ((dispatch Disk.files ⟨"unzip", ["ar"], none⟩).perform w).2
    let second := ((dispatch Disk.files ⟨"unzip", ["ar"], none⟩).perform first).2
    (w.streams.NeverFails ∧ first.streams.bytesOn .err = w.streams.bytesOn .err ∧
        Builtin.ArchiveKept w first ["ar"]) ∧
      second.streams.bytesOn .err ≠ first.streams.bytesOn .err := by
  intro w first second
  have hlinks : (Disk.linking (deepName :: deepAbove)).LinksTo (deepName :: deepAbove) :=
    Disk.linksTo_linking (not_suffix_deep (by decide)) (not_suffix_deep (by decide))
  have hsize : (Location.path (deepName :: deepAbove)).size < pathLimit := by
    rw [size_path_deep]
    decide
  have hlong : ¬(Location.path (innerName :: deepName :: deepAbove)).size < pathLimit := by
    have hdeep := size_path_deep
    rw [size_path (List.cons_ne_nil _ _)] at hdeep
    rw [size_path (List.cons_ne_nil _ _), List.foldr_cons, hdeep]
    decide
  obtain ⟨hfirst, hagain⟩ := Builtin.again_linksTo hlinks hsize
  exact ⟨⟨Streams.neverFails_unlimited, hfirst⟩, fun hsilent => hlong (hagain.1 hsilent)⟩

end CommandShell
