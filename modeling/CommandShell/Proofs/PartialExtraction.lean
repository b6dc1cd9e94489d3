import CommandShell.Proofs.ArchiveRoundTrip
import CommandShell.Proofs.Extraction
import CommandShell.Proofs.Interruptions

/-!
# Extractions that stop halfway

An extraction stops at the first member that cannot be extracted. What was extracted before stays,
and of the member itself nothing stays but directories that were made on the way to it and, when the
machine breaks off the write, the file as far as it was written. A member that would escape the
destination is found out before anything is made for it: the directory of a file is looked at once
more after it was made, but where that look finds an escape the directory was there before.

## Main definitions

* `Archive.Format.CannotRead`: a file that cannot be read as an archive in full.
* `Member.extractedLine`: the line that says that a member was extracted.
* `Disk.Extracts`: what a member makes of a disk when it is extracted.
* `Disk.ExtractsPart`: what a member makes of a disk when its extraction fails.
* `Builtin.Leaves`: what a member leaves that stops an extraction.
* `Builtin.ComesTo`: an extraction comes to a member once those before it were extracted.

## Main results

* `Disk.Anchored.canonical_above`: the look at a directory that was made finds it in the
  destination, or nothing was made;
* `Builtin.handles_extract`: what extracting a member does, whether or not it fails;
* `Builtin.extractAll_eq_ok`: what extracting members in turn prints;
* `dispatch_unzip_stops`: what a stopped extraction leaves and says.
-/

namespace CommandShell

open ShellM

/-! ## Archives that cannot be read -/

/-- Something fails among things in a row when it fails for one of them. -/
theorem exists_error_mapM {ε α β : Type} {f : α → Except ε β} {items : List α} :
    (∃ e, items.mapM f = .error e) ↔ ∃ a ∈ items, ∃ e, f a = .error e := by
  induction items with
  | nil => simp [pure, Except.pure]
  | cons a rest ih =>
    simp only [List.mapM_cons, List.mem_cons, exists_eq_or_imp, ← ih]
    cases hfirst : f a with
    | error e => simp [bind, Except.bind]
    | ok b => cases hrest : rest.mapM f <;> simp [bind, Except.bind, pure, Except.pure]

/-- A file that cannot be read as an archive in full: what it holds cannot be found, or one of the
members cannot be had. -/
def Archive.Format.CannotRead (format : Archive.Format) (file : Bytes) : Prop :=
  (∃ fault, format.list file = .error fault) ∨
    ∃ found, format.list file = .ok found ∧
      ∃ listed ∈ found, ∃ fault, Archive.Format.memberOf listed = .error fault

/-- A file is read as a whole or not at all. -/
theorem Archive.Format.cannotRead_iff {format : Archive.Format} {file : Bytes} :
    format.CannotRead file ↔ ∃ fault, format.read file = .error fault := by
  unfold CannotRead read
  cases format.list file with
  | error fault => simp
  | ok found => simp [exists_error_mapM]

namespace Disk

/-- An archive that cannot be opened and read in full. -/
def CannotUnpack (d : Disk) (format : Archive.Format) (archive : Path) : Prop :=
  (∃ refusal, d.lookAt archive = .error refusal) ∨
    ∃ entry, d.lookAt archive = .ok entry ∧
      ∀ bytes, archiveBytes entry = some bytes → format.CannotRead bytes

/-- Such an archive has no members to extract. -/
theorem cannotUnpack_iff {d : Disk} {format : Archive.Format} {archive : Path} :
    d.CannotUnpack format archive ↔
      ∃ stop, (d.unpackArchive archive format).1 = .error stop := by
  unfold CannotUnpack unpackArchive
  cases d.lookAt archive with
  | error refusal => simp
  | ok entry =>
    cases hbytes : archiveBytes entry with
    | none => simp [hbytes]
    | some bytes =>
      simp only [reduceCtorEq, exists_false, Except.ok.injEq, exists_eq_left', hbytes,
        Option.some.injEq, forall_eq', Archive.Format.cannotRead_iff, false_or]
      cases format.read bytes <;> simp

/-! ## The look after directories were made -/

/-- A path that leads to a directory can be served. -/
theorem checkPath_of_isDirectory {d : Disk} {p : Path} (h : d.isDirectory p = true) :
    checkPath p = .ok () := by
  obtain ⟨_, hwalk, -⟩ := lookAt_eq_ok.1 (isDirectory_eq_true.1 h)
  exact (walk_eq_ok hwalk).1

/-- Above an anchored place a directory that was made lies in the destination, unless it was there
before and nothing was made. -/
theorem Anchored.canonical_above {d made : Disk} {base : Location} {name : Bytes}
    {names : List Bytes} {parent : Path} (hnames : ∀ other ∈ names, Path.IsName other)
    (h : d.Anchored base (name :: names))
    (hmake : d.makeDirectories (.ofNames names) = (.ok (), made))
    (hparent : made.canonical (.ofNames names) = .ok parent) :
    parent.startsWith base.path = true ∨ made = d := by
  have hbytes : (Path.ofNames names).bytes ≠ [] := by simp [Path.ofNames]
  have hmade := isDirectory_of_makeDirectories hbytes hmake
  have hcheck := checkPath_of_isDirectory hmade
  cases h with
  | here hreaches =>
    -- The place exists, and so does the directory that it lies in.
    obtain ⟨above, last, ⟨used, hused, hleads⟩, -, hentry⟩ := hreaches.above
    have hdir : d.get? above = some .directory := by
      rcases hentry with ⟨target, hget⟩ | ⟨-, entry, hget⟩ <;> exact directory_of_get? hget
    have hsteps : d.walkSteps .use (Path.ofNames names).steps = .ok (.found above) := by
      rw [Path.steps_ofNames hnames]
      exact walkLinks_use_iff.2 ⟨used, hused, hleads⟩
    have hisdir : d.isDirectory (.ofNames names) = true := by
      refine isDirectory_eq_true.2 (lookAt_eq_ok.2 ⟨above, ?_, hdir⟩)
      simp only [walk, hcheck, hsteps]
    rw [makeDirectories_of_isDirectory hisdir] at hmake
    exact .inr (Prod.mk.inj hmake).2.symm
  | above _ habove =>
    obtain ⟨there, hsteps, rfl⟩ := canonical_eq_ok hparent
    rw [Path.steps_ofNames hnames] at hsteps
    obtain ⟨hbelow, -⟩ := habove.ends_below (grows_of_makeDirectories hmake) hcheck
      (walkLinks_use_iff.1 hsteps)
    exact .inl ((Path.startsWith_path there base).2 hbelow)

/-- A write stops with a fault that names its file. -/
theorem stop_of_write {d left : Disk} {p : Path} {bytes : Bytes} {mode : WriteMode} {host : Host}
    {stop : Stop} (h : d.write p bytes mode host = (.error stop, left)) :
    ∃ attempt refusal, stop = .failed (.refused attempt p refusal) := by
  unfold write at h
  split at h
  · cases h
    exact ⟨_, _, rfl⟩
  · next location opened hopen =>
    unfold finishing at h
    split at h
    · cases h
    · cases h
      exact ⟨_, _, rfl⟩

end Disk

/-! ## One member -/

/-- The line that says that a member was extracted. -/
def Member.extractedLine (m : Member) : String :=
  match m.kind with
  | .directory => "   creating: " ++ m.name
  | .file => "  inflating: " ++ m.name

/-- What a member makes of a disk when it is extracted to a destination. -/
inductive Disk.Extracts (d : Disk) (base : Location) (m : Member) : Disk → Prop
  /-- The directories on the way to a directory are made, and itself. -/
  | directory {names : List Bytes} {made : Disk} :
      (∀ name ∈ names, Path.IsName name) → Builtin.memberPlace base.path m = .ofNames names →
        (Path.ofNames names).isWithin base.path = true → d.Anchored base names →
          m.kind = .directory → d.makeDirectories (.ofNames names) = (.ok (), made) →
            Extracts d base m made
  /-- The directories on the way to a file are made, and then the file is written. -/
  | file {name : Bytes} {names : List Bytes} {made written : Disk} {parent : Path} :
      (∀ other ∈ name :: names, Path.IsName other) →
        Builtin.memberPlace base.path m = .ofNames (name :: names) →
          (Path.ofNames (name :: names)).isWithin base.path = true →
            d.Anchored base (name :: names) → m.kind = .file →
              (Path.ofNames (name :: names)).components ≠ base.path.components →
              d.makeDirectories (.ofNames names) = (.ok (), made) →
                made.canonical (.ofNames names) = .ok parent →
                  parent.startsWith base.path = true →
                    made.write (.ofNames (name :: names)) m.data .truncate = (.ok (), written) →
                      Extracts d base m written

/-- What a member makes of a disk when its extraction to a destination fails: new directories in the
destination, and in these or others the file of the member when the machine breaks off its write. -/
def Disk.ExtractsPart (d : Disk) (host : Host) (base : Location) (m : Member) (left : Disk) :
    Prop :=
  ∃ made, d.Grows made ∧ d.ChangesBelow base left ∧
    (left = made ∨
      m.kind = .file ∧ made.BreaksOff host (Builtin.memberPlace base.path m) m.data left)

/-- On a reliable machine only directories are new. -/
theorem Disk.ExtractsPart.grows {d left : Disk} {base : Location} {m : Member}
    (h : d.ExtractsPart .reliable base m left) : d.Grows left := by
  obtain ⟨made, hgrows, -, rfl | ⟨-, hbreaks⟩⟩ := h
  · exact hgrows
  · exact absurd hbreaks not_breaksOff_reliable

/-- What members make of a disk that are extracted one after the other. -/
inductive Disk.ExtractsAll (base : Location) : Disk → List Member → Disk → Prop
  /-- Without members nothing happens. -/
  | nil {d : Disk} : ExtractsAll base d [] d
  /-- The first member is extracted, and then the others. -/
  | cons {d placed extracted : Disk} {m : Member} {rest : List Member} :
      d.Extracts base m placed → ExtractsAll base placed rest extracted →
        ExtractsAll base d (m :: rest) extracted

namespace Builtin

variable {host : Host} {format : Archive.Format} {base : Location} {m : Member} {w : World Disk}

/-- A line is printed to streams that never fail. -/
theorem perform_printLine_of_neverFails (h : w.streams.NeverFails) (text : String) :
    (printLine text).perform w =
      (.ok (), { w with streams := (w.streams.write .out (Utf8.ofString (text ++ "\n"))).2 }) := by
  rw [printLine, perform_write, h.write]
  rfl

/-- Making a directory of an archive makes the directories on the way to it, and says so. -/
theorem perform_extractDirectory (m : Member) (place : Path) (w : World Disk) :
    (extractDirectory (Disk.files host format) m place).perform w =
      match w.held.makeDirectories place with
      | (.ok (), made) =>
        (printLine ("   creating: " ++ m.name)).perform { w with held := made }
      | (.error refusal, made) =>
        (.error (.failed (.refused .makeDirectory place refusal)), { w with held := made }) := by
  rw [extractDirectory, perform_bind, perform_request, Disk.answer_makeDirectories]
  rcases w.held.makeDirectories place with ⟨refusal | _, made⟩ <;> rfl

/-- Making a file of an archive writes it, and says so. -/
theorem perform_extractFile (m : Member) (place : Path) (w : World Disk) :
    (extractFile (Disk.files host format) m place).perform w =
      match w.held.write place m.data .truncate host with
      | (.ok (), written) =>
        (printLine ("  inflating: " ++ m.name)).perform { w with held := written }
      | (.error stop, left) => (.error stop, { w with held := left }) := by
  have hanswer : (Disk.files host format).answer (.write place m.data .truncate) w.held =
      w.held.write place m.data .truncate host := rfl
  rw [extractFile, perform_bind, perform_request, hanswer]
  rcases w.held.write place m.data .truncate host with ⟨stop | _, written⟩ <;> rfl

/-- Making the directory of a file makes the directories on the way to the file, and looks where
they lead. -/
theorem perform_readyParent {place above : Path} (habove : place.parent = some above)
    (w : World Disk) :
    (readyParent (Disk.files host format) base.path place).perform w =
      match w.held.makeDirectories above with
      | (.ok (), made) =>
        match made.canonical above with
        | .ok parent => (.ok (parent.startsWith base.path), { w with held := made })
        | .error refusal =>
          (.error (.failed (.refused .resolve above refusal)), { w with held := made })
      | (.error refusal, made) =>
        (.error (.failed (.refused .makeDirectory above refusal)), { w with held := made }) := by
  simp only [readyParent, habove, perform_bind, perform_request, Disk.answer_makeDirectories]
  rcases w.held.makeDirectories above with ⟨refusal | _, made⟩
  · rfl
  · simp only [Disk.answer_canonical]
    cases made.canonical above <;> rfl

/-- What a member that stops an extraction leaves: part of what it would make of the disk, and
nothing at all when it is reported to escape. Nothing is printed. -/
structure Leaves (host : Host) (base : Location) (m : Member) (w : World Disk) (stop : Stop)
    (after : World Disk) : Prop where
  /-- The session stays. -/
  session : after.session = w.session
  /-- Nothing is printed. -/
  streams : after.streams = w.streams
  /-- The member is extracted in part. -/
  part : w.held.ExtractsPart host base m after.held
  /-- A member that escapes leaves nothing. -/
  escapes : stop = .failed (.command (.escapes m.name)) → after.held = w.held

/-- Leaving everything as it was. -/
theorem Leaves.nothing (base : Location) (m : Member) (w : World Disk) (stop : Stop) :
    Leaves host base m w stop w :=
  ⟨rfl, rfl, ⟨w.held, .refl _, .refl _, .inl rfl⟩, fun _ => rfl⟩

/-- Leaving directories on the way to an anchored place. -/
theorem Leaves.directories {names outer : List Bytes} {made : Disk} {result : Except Refusal Unit}
    {stop : Stop} (hnames : ∀ name ∈ names, Path.IsName name)
    (hanchored : w.held.Anchored base names)
    (houter : outer <:+ names) (hmake : w.held.makeDirectories (.ofNames outer) = (result, made))
    (hescapes : stop = .failed (.command (.escapes m.name)) → made = w.held) :
    Leaves host base m w stop { w with held := made } := by
  have hbelow := hanchored.makeDirectories hnames houter
  rw [hmake] at hbelow
  exact ⟨rfl, rfl, ⟨made, Disk.grows_of_makeDirectories hmake, hbelow, .inl rfl⟩, hescapes⟩

/-- Leaving a file at an anchored place that cannot be written. -/
theorem Leaves.file {name : Bytes} {names : List Bytes} {made left : Disk} {stop : Stop}
    (hnames : ∀ other ∈ name :: names, Path.IsName other)
    (hplace : memberPlace base.path m = .ofNames (name :: names))
    (hanchored : w.held.Anchored base (name :: names)) (hkind : m.kind = .file)
    (hmake : w.held.makeDirectories (.ofNames names) = (.ok (), made))
    (hwrite : made.write (.ofNames (name :: names)) m.data .truncate host = (.error stop, left)) :
    Leaves host base m w stop { w with held := left } := by
  have hgrows := Disk.grows_of_makeDirectories hmake
  have hmade := hanchored.makeDirectories hnames (List.suffix_cons name names)
  have hwritten : Disk.ChangesBelow base made
      (made.write (.ofNames (name :: names)) m.data .truncate host).2 :=
    hanchored.write hnames hgrows
  rw [hmake] at hmade
  rw [hwrite] at hwritten
  obtain ⟨attempt, refusal, rfl⟩ := Disk.stop_of_write hwrite
  refine ⟨rfl, rfl, ⟨made, hgrows, hmade.trans hwritten, ?_⟩, by simp [Fault.refused]⟩
  rw [hplace]
  exact (Disk.write_eq_error hwrite).imp_right fun hbreaks => ⟨hkind, hbreaks⟩

/-- The world after a member was extracted: it has one more line. -/
def afterMember (m : Member) (w : World Disk) (placed : Disk) : World Disk :=
  { w with
    held := placed
    streams := (w.streams.write .out (Utf8.ofString (m.extractedLine ++ "\n"))).2 }

/-- What a step of an extraction does with a member: the member is extracted, or the extraction
stops. -/
def Handles (host : Host) (base : Location) (m : Member) (w : World Disk) :
    Except Stop Unit × World Disk → Prop
  | (.ok (), after) => ∃ placed, w.held.Extracts base m placed ∧ after = afterMember m w placed
  | (.error stop, after) => Leaves host base m w stop after

/-- A place within the destination that has no names is the destination. -/
theorem components_of_isWithin (h : (Path.ofNames []).isWithin base.path = true) :
    (Path.ofNames []).components = base.path.components := by
  have hbase : ∀ bytes ∈ base.map FileName.bytes, Path.IsName bytes :=
    fun _ => Path.isName_of_mem_location
  rw [Path.isWithin, normalize_path, Path.normalize_ofNames (by simp), ← Path.ofNames_location,
    Path.startsWith_ofNames (by simp) hbase, List.suffix_nil] at h
  rw [← Path.ofNames_location, h]

section Placed

variable {name : Bytes} {names : List Bytes} (hstreams : w.streams.NeverFails)
include hstreams

/-- A directory at an anchored place is made, or it stops the extraction. -/
theorem handles_extractDirectory (hnames : ∀ name ∈ names, Path.IsName name)
    (hplace : memberPlace base.path m = .ofNames names)
    (hwithin : (Path.ofNames names).isWithin base.path = true)
    (hanchored : w.held.Anchored base names) (hkind : m.kind = .directory) :
    Handles host base m w
      ((extractDirectory (Disk.files host format) m (.ofNames names)).perform w) := by
  rw [perform_extractDirectory]
  rcases hmake : w.held.makeDirectories (.ofNames names) with ⟨refusal | _, made⟩
  · exact Leaves.directories hnames hanchored (List.suffix_refl names) hmake
      (by simp [Fault.refused])
  · simp only
    rw [perform_printLine_of_neverFails (w := { w with held := made }) hstreams]
    refine ⟨made, .directory hnames hplace hwithin hanchored hkind hmake, ?_⟩
    simp only [afterMember, Member.extractedLine, hkind]

/-- A file at an anchored place is written, or it stops the extraction. -/
theorem handles_extractPlaced (hnames : ∀ other ∈ name :: names, Path.IsName other)
    (hplace : memberPlace base.path m = .ofNames (name :: names))
    (hwithin : (Path.ofNames (name :: names)).isWithin base.path = true)
    (hanchored : w.held.Anchored base (name :: names)) (hkind : m.kind = .file)
    (hother : (Path.ofNames (name :: names)).components ≠ base.path.components) :
    Handles host base m w ((do
      if ← readyParent (Disk.files host format) base.path (.ofNames (name :: names)) then
        extractFile (Disk.files host format) m (.ofNames (name :: names))
      else escaped m : ShellM Disk Unit).perform w) := by
  have hnames' : ∀ other ∈ names, Path.IsName other := fun other h => hnames other (by simp [h])
  have hleaves : ∀ {result : Except Refusal Unit} {made : Disk} {stop : Stop},
      w.held.makeDirectories (.ofNames names) = (result, made) →
        (stop = .failed (.command (.escapes m.name)) → made = w.held) →
          Leaves host base m w stop { w with held := made } :=
    .directories hnames hanchored (List.suffix_cons name names)
  rw [perform_bind, perform_readyParent (Path.parent_ofNames_cons hnames)]
  rcases hmake : w.held.makeDirectories (.ofNames names) with ⟨refusal | _, made⟩
  · exact hleaves hmake (by simp [Fault.refused])
  rcases hparent : made.canonical (.ofNames names) with refusal | parent
  · simp only [hparent]
    exact hleaves hmake (by simp [Fault.refused])
  simp only [hparent]
  cases hinside : parent.startsWith base.path with
  | false =>
    -- The look finds an escape only when nothing was made.
    have hsame : made = w.held := by
      rcases hanchored.canonical_above hnames' hmake hparent with hstarts | hsame
      · simp [hinside] at hstarts
      · exact hsame
    simp only [Bool.false_eq_true, if_false]
    exact hleaves hmake fun _ => hsame
  | true =>
    simp only [if_true, perform_extractFile]
    rcases hwrite : made.write (.ofNames (name :: names)) m.data .truncate host with
      ⟨stop | _, written⟩
    · exact .file hnames hplace hanchored hkind hmake hwrite
    · simp only
      rw [perform_printLine_of_neverFails (w := { w with held := written }) hstreams]
      refine ⟨written, .file hnames hplace hwithin hanchored hkind hother hmake hparent hinside
        (Disk.write_reliable hwrite), ?_⟩
      simp only [afterMember, Member.extractedLine, hkind]

/-- Extracting a member extracts it, or leaves at most new directories in the destination. -/
theorem handles_extract {m : Member} {outcome : Except Stop Unit × World Disk}
    (h : (extract (Disk.files host format) base.path m).perform w = outcome) :
    Handles host base m w outcome := by
  obtain ⟨names, hnames, hplace⟩ : ∃ names, (∀ name ∈ names, Path.IsName name) ∧
      memberPlace base.path m = .ofNames names :=
    Path.exists_normalize_eq (Path.isAbsolute_join (isAbsolute_path base) (.ofString m.name))
  have hleads := perform_leadsInside (fun archive d => (d.unpackArchive archive format).1) host
    format base hnames w
  rw [Disk.filesReading_unpackArchive] at hleads
  obtain ⟨result, hleads, hanchored⟩ := hleads
  rw [extract, hplace] at h
  -- Both checks, of the text of the place and of where it leads, come before anything is made.
  split at h
  · rw [← h]
    exact .nothing base m w _
  · next hwithin =>
    have hwithin : (Path.ofNames names).isWithin base.path = true := by simpa using hwithin
    rw [perform_bind, hleads] at h
    rcases result with stop | inside | inside
    · rw [← h]
      exact .nothing base m w _
    · rw [← h]
      exact .nothing base m w _
    · have hanchored := hanchored rfl
      simp only [Bool.not_true, Bool.false_eq_true, if_false] at h
      cases hkind : m.kind with
      | directory =>
        simp only [hkind] at h
        rw [← h]
        exact handles_extractDirectory hstreams hnames hplace hwithin hanchored hkind
      | file =>
        simp only [hkind] at h
        split at h
        · rw [← h]
          exact .nothing base m w _
        · next hother =>
          cases names with
          -- The root is within the root alone, which is the destination itself.
          | nil => exact absurd (components_of_isWithin hwithin) hother
          | cons name names =>
            rw [← h]
            exact handles_extractPlaced hstreams hnames hplace hwithin hanchored hkind hother

end Placed

/-! ## Members in turn -/

/-- A run that prints some bytes and complains about nothing. -/
structure Prints (bytes : Bytes) (w after : World Disk) : Prop extends Quiet w after where
  /-- The bytes are all that is written to the output stream. -/
  out : after.streams.bytesOn .out = w.streams.bytesOn .out ++ bytes

/-- What is printed for members that were extracted. -/
def extractedOutput (members : List Member) : Bytes :=
  members.flatMap fun m => Utf8.ofString (m.extractedLine ++ "\n")

/-- A member that was extracted has its line printed. -/
theorem prints_afterMember (hstreams : w.streams.NeverFails) (m : Member) (placed : Disk) :
    Prints (extractedOutput [m]) w (afterMember m w placed) where
  session := rfl
  neverFails := by
    rw [afterMember, hstreams.write]
    exact hstreams
  err := by simp [afterMember]
  out := by simp [afterMember, extractedOutput, Streams.fitting, hstreams .out]

/-- Members that are all extracted have their lines printed, in order, and nothing else. -/
theorem extractAll_eq_ok {members : List Member} {after : World Disk}
    (hstreams : w.streams.NeverFails)
    (h : (extractAll (Disk.files host format) base.path members).perform w = (.ok (), after)) :
    Prints (extractedOutput members) w after ∧ Disk.ExtractsAll base w.held members after.held := by
  induction members generalizing w with
  | nil =>
    cases h
    exact ⟨⟨.refl hstreams, by simp [extractedOutput]⟩, .nil⟩
  | cons m rest ih =>
    rw [extractAll, perform_bind] at h
    rcases hperform : (extract (Disk.files host format) base.path m).perform w with
      ⟨stop | _, middle⟩ <;> rw [hperform] at h
    · cases h
    · obtain ⟨placed, hplaced, rfl⟩ := handles_extract hstreams hperform
      have hprints := prints_afterMember hstreams m placed
      obtain ⟨hrest, hall⟩ := ih hprints.neverFails h
      refine ⟨⟨hprints.toQuiet.trans hrest.toQuiet, ?_⟩, .cons hplaced hall⟩
      rw [hrest.out, hprints.out, List.append_assoc]
      simp [extractedOutput]

/-- Members in a row are extracted in two parts, one after the other. -/
theorem perform_extractAll_append (files : FileSystem Disk) (base : Path)
    (before others : List Member) (w : World Disk) :
    (extractAll files base (before ++ others)).perform w =
      match (extractAll files base before).perform w with
      | (.ok (), middle) => (extractAll files base others).perform middle
      | (.error stop, left) => (.error stop, left) := by
  induction before generalizing w with
  | nil => rfl
  | cons m rest ih =>
    rw [List.cons_append, extractAll, extractAll, perform_bind, perform_bind]
    rcases (extract files base m).perform w with ⟨stop | _, middle⟩
    · rfl
    · exact ih middle

/-- An extraction cannot start: the arguments are wrong, or the archive cannot be read in full. -/
def CannotStart (format : Archive.Format) (w : World Disk) (args : List String) : Prop :=
  unzipOperands none none args = none ∨
    ∃ archive directory, unzipOperands none none args = some (archive, directory) ∧
      w.held.CannotUnpack format (w.session.resolve archive)

/-- An extraction to a location comes to a member, after all members before it were extracted. -/
def ComesTo (host : Host) (format : Archive.Format) (w : World Disk) (args : List String)
    (base : Location) (before : List Member) (m : Member) (rest : List Member)
    (middle : World Disk) : Prop :=
  ∃ archive directory made, unzipOperands none none args = some (archive, directory) ∧
    (w.held.unpackArchive (w.session.resolve archive) format).1 = .ok (before ++ m :: rest) ∧
    w.held.makeDirectories (w.session.destination directory) = (.ok (), made) ∧
    made.canonical (w.session.destination directory) = .ok base.path ∧
    (extractAll (Disk.files host format) base.path before).perform { w with held := made } =
      (.ok (), middle)

/-- With good arguments the archive is read first, and then extracted to the destination. -/
theorem perform_runUnzip_files {args : List String} {archive : String} {directory : Option String}
    (h : unzipOperands none none args = some (archive, directory)) (w : World Disk) :
    (runUnzip (Disk.files host format) args).perform w =
      match (w.held.unpackArchive (w.session.resolve archive) format).1 with
      | .error stop => (.error stop, w)
      | .ok members =>
        (do
          request (Disk.files host format) (.makeDirectories (w.session.destination directory))
          let base ←
            request (Disk.files host format) (.canonical (w.session.destination directory))
          extractAll (Disk.files host format) base members : ShellM Disk Unit).perform w := by
  have hrun := perform_runUnzip (fun archive d => (d.unpackArchive archive format).1) host format h
    w
  rwa [Disk.filesReading_unpackArchive] at hrun

/-- An extraction that cannot start changes nothing. -/
theorem held_runUnzip_of_cannotStart {args : List String} (h : CannotStart format w args) :
    ((runUnzip (Disk.files host format) args).perform w).2.held = w.held := by
  rcases h with hwrong | ⟨archive, directory, hoperands, hunpack⟩
  · rw [runUnzip, hwrong]
    rfl
  · obtain ⟨stop, hstop⟩ := Disk.cannotUnpack_iff.1 hunpack
    rw [perform_runUnzip_files hoperands, hstop]

/-- An extraction to a destination that can be made goes through the members in turn. -/
theorem perform_runUnzip_extractAll {args : List String} {archive : String}
    {directory : Option String} {members : List Member} {made : Disk}
    (hoperands : unzipOperands none none args = some (archive, directory))
    (hunpack : (w.held.unpackArchive (w.session.resolve archive) format).1 = .ok members)
    (hmake : w.held.makeDirectories (w.session.destination directory) = (.ok (), made))
    (hcanonical : made.canonical (w.session.destination directory) = .ok base.path) :
    (runUnzip (Disk.files host format) args).perform w =
      (extractAll (Disk.files host format) base.path members).perform { w with held := made } := by
  have hmade : (Disk.files host format).answer
      (.makeDirectories (w.session.destination directory)) w.held = (.ok (), made) := by
    rw [Disk.answer_makeDirectories, hmake]
  rw [perform_runUnzip_files hoperands, hunpack]
  simp only [perform_bind, perform_request, hmade, Disk.answer_canonical, hcanonical, Disk.looking]

/-- An extraction to a directory that exists goes through the members in turn. -/
theorem perform_runUnzip_existing {args : List String} {archive : String}
    {directory : Option String} {members : List Member}
    (hoperands : unzipOperands none none args = some (archive, directory))
    (hunpack : (w.held.unpackArchive (w.session.resolve archive) format).1 = .ok members)
    (hdir : w.held.isDirectory (w.session.destination directory) = true)
    (hcanonical : w.held.canonical (w.session.destination directory) = .ok base.path) :
    (runUnzip (Disk.files host format) args).perform w =
      (extractAll (Disk.files host format) base.path members).perform w :=
  perform_runUnzip_extractAll hoperands hunpack (Disk.makeDirectories_of_isDirectory hdir)
    hcanonical

/-- An extraction that comes to a member that stops it ends there. -/
theorem perform_runUnzip_of_comesTo {args : List String} {before rest : List Member}
    {middle left : World Disk} {stop : Stop}
    (h : ComesTo host format w args base before m rest middle)
    (hm : (extract (Disk.files host format) base.path m).perform middle = (.error stop, left)) :
    (runUnzip (Disk.files host format) args).perform w = (.error stop, left) := by
  obtain ⟨archive, directory, made, hoperands, hunpack, hmake, hcanonical, hbefore⟩ := h
  rw [perform_runUnzip_extractAll hoperands hunpack hmake hcanonical]
  simp only [perform_extractAll_append, hbefore, extractAll, perform_bind, hm]

end Builtin

/-- An extraction stops cleanly. When its arguments are wrong or its archive cannot be read in full,
nothing is changed. When it comes to a member that fails, everything is as extracting the members
before it made it, apart from new directories in the destination, and from the file of the member
when the machine breaks off its write; a member that is reported to escape leaves none of these
either. One line is printed for each member before, and one line says why the extraction stopped. -/
theorem dispatch_unzip_stops {w : World Disk} (hstreams : w.streams.NeverFails) (host : Host)
    (format : Archive.Format) (args : List String) :
    let files := Disk.files host format
    let after := ((dispatch files ⟨"unzip", args, none⟩).perform w).2
    (Builtin.CannotStart format w args → after.held = w.held) ∧
      ∀ base before m rest middle stop left,
        Builtin.ComesTo host format w args base before m rest middle →
          (Builtin.extract files base.path m).perform middle = (.error stop, left) →
            after.held = left.held ∧ middle.held.ExtractsPart host base m left.held ∧
              (host = .reliable → middle.held.Grows left.held) ∧
              (stop = .failed (.command (.escapes m.name)) → left.held = middle.held) ∧
              after.streams.bytesOn .out =
                w.streams.bytesOn .out ++ Builtin.extractedOutput before ∧
              ∃ fault, stop = .failed fault ∧
                after.streams.bytesOn .err = w.streams.bytesOn .err ++
                  Utf8.ofString ("unzip: " ++ fault.message ++ "\n") := by
  intro files after
  have hafter : after = invoke files .unzip args w :=
    congrArg Prod.snd (perform_dispatch_plain files args (Builtin.ofName?_name .unzip) w)
  refine ⟨fun hstart => ?_, fun base before m rest middle stop left hcomes hm => ?_⟩
  · rw [hafter, held_invoke]
    exact Builtin.held_runUnzip_of_cannotStart hstart
  · have hrun := Builtin.perform_runUnzip_of_comesTo hcomes hm
    have hinvoke := invoke_of_neverFails files .unzip args hstreams
    rw [show Builtin.unzip.run files args = Builtin.runUnzip files args from rfl, hrun] at hinvoke
    obtain ⟨archive, directory, made, -, -, -, -, hbefore⟩ := hcomes
    -- The members before only print their lines, so the streams still never fail at this one.
    obtain ⟨hprints, -⟩ := Builtin.extractAll_eq_ok (w := { w with held := made }) hstreams hbefore
    have hleaves := Builtin.handles_extract hprints.neverFails hm
    -- A disk does not break down, so what stops the extraction can be reported.
    obtain ⟨fault, rfl⟩ : ∃ fault, stop = .failed fault := by
      have hbroken := (Builtin.alike_extract files files base.path m).not_broken
        (fun r held => Disk.answer_ne_broken held r host format) middle
      rw [hm] at hbroken
      cases stop with
      | failed fault => exact ⟨fault, rfl⟩
      | broken => exact absurd rfl hbroken
    have hstreams := hleaves.streams
    rw [hafter, hinvoke]
    refine ⟨rfl, hleaves.part, fun hreliable => (hreliable ▸ hleaves.part).grows, hleaves.escapes,
      ?_, fault, rfl, ?_⟩
    · have hout := hprints.out
      rw [← hout]
      simp [Streams.bytesOn, Builtin.faultLine, hstreams]
    · have herr := hprints.err
      simp only at herr
      rw [← herr]
      simp [Streams.bytesOn, Builtin.faultLine, hstreams, Builtin.name]

/-- A member that can be extracted. -/
def goodMember : Member := ⟨"x", .file, [1]⟩

/-- A member that would lie beside the destination. -/
def escapingMember : Member := ⟨"../y", .file, [2]⟩

/-- A member that is not come to. -/
def laterMember : Member := ⟨"z", .file, [3]⟩

/-- A disk with an archive of some members. -/
def Disk.withArchive (members : List Member) : Disk :=
  Disk.empty.put [.ofString "a"] (.file ((Archive.zip.encode members).toOption.getD []))

/-- A destination. -/
def extractedName : FileName := .ofString "d"

/-- The first member stays, and those from the one on that escapes are not extracted. -/
theorem dispatch_unzip_stops_at_escape :
    let w : World Disk := ⟨Session.start .root .root, .unlimited,
      .withArchive [goodMember, escapingMember, laterMember]⟩
    let after := ((dispatch Disk.files ⟨"unzip", ["a", "-d", "d"], none⟩).perform w).2
    let base : Location := [extractedName]
    ∃ middle left,
      (w.streams.NeverFails ∧
        Builtin.ComesTo .reliable Archive.zip w ["a", "-d", "d"] base [goodMember] escapingMember
          [laterMember] middle ∧
        (Builtin.extract Disk.files base.path escapingMember).perform middle =
          (.error (.failed (.command (.escapes "../y"))), left)) ∧
      after.held = middle.held ∧ after.held.get? (.ofString "x" :: base) = some (.file [1]) ∧
      after.streams.bytesOn .out = Utf8.ofString "  inflating: x\n" := by
  intro w after base
  let made := (w.held.makeDirectories (w.session.destination (some "d"))).2
  let middle := ((Builtin.extractAll Disk.files base.path [goodMember]).perform
    { w with held := made }).2
  have hunpack : (w.held.unpackArchive (w.session.resolve "a")).1 =
      .ok ([goodMember] ++ escapingMember :: [laterMember]) := by decide +kernel
  have hmake : w.held.makeDirectories (w.session.destination (some "d")) = (.ok (), made) :=
    Prod.fst_eq_iff.1 (by decide +kernel)
  have hcanonical : made.canonical (w.session.destination (some "d")) = .ok base.path := by
    decide +kernel
  have hbefore : (Builtin.extractAll Disk.files base.path [goodMember]).perform
      { w with held := made } = (.ok (), middle) := Prod.fst_eq_iff.1 (by decide +kernel)
  have hcomes : Builtin.ComesTo .reliable Archive.zip w ["a", "-d", "d"] base [goodMember]
      escapingMember [laterMember] middle :=
    ⟨"a", some "d", made, by decide, hunpack, hmake, hcanonical, hbefore⟩
  have hm : (Builtin.extract Disk.files base.path escapingMember).perform middle =
      (.error (.failed (.command (.escapes "../y"))),
        ((Builtin.extract Disk.files base.path escapingMember).perform middle).2) :=
    Prod.fst_eq_iff.1 (by decide +kernel)
  obtain ⟨-, hstops⟩ := dispatch_unzip_stops (w := w) Streams.neverFails_unlimited .reliable
    Archive.zip ["a", "-d", "d"]
  obtain ⟨hheld, -, -, hescapes, hout, -⟩ := hstops base _ _ _ _ _ _ hcomes hm
  have hkept := hheld.trans (hescapes rfl)
  refine ⟨middle, _, ⟨Streams.neverFails_unlimited, hcomes, hm⟩, hkept, ?_, hout.trans ?_⟩
  · rw [hkept]
    decide +kernel
  · decide +kernel

/-- A member with a name that no entry can have, in directories that can be made. -/
def deepMember : Member := ⟨"b/c/\x00", .file, []⟩

/-- More than empty directories may be left of a member that fails: directories that lie in each
other, and a file that is emptied when the machine has no room for its bytes. -/
theorem dispatch_unzip_leaves_more :
    (let w : World Disk := ⟨Session.start .root .root, .unlimited, .withArchive [deepMember]⟩
      let after := ((dispatch Disk.files ⟨"unzip", ["a", "-d", "d"], none⟩).perform w).2
      after.held.get? [.ofString "b", extractedName] = some .directory ∧
        after.held.children [.ofString "b", extractedName] ≠ [] ∧
        after.streams.bytesOn .out = []) ∧
      (let d := (Disk.withArchive [goodMember]).put [extractedName] .directory
        let w : World Disk := ⟨Session.start .root .root, .unlimited,
          d.put [.ofString "x", extractedName] (.file [7])⟩
        let after := ((dispatch (Disk.files .outOfRoom)
          ⟨"unzip", ["a", "-d", "d"], none⟩).perform w).2
        after.held.get? [.ofString "x", extractedName] = some (.file []) ∧
          after.streams.bytesOn .out = []) := by
  decide +kernel

end CommandShell
