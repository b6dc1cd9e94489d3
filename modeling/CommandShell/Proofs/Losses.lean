import CommandShell.Proofs.Footprints
import CommandShell.Proofs.Containment

/-!
# What a line of input may cost

On a disk without symbolic links a line of input costs only what it names: each command may write or
remove few files, and only `rmdir` removes directories. Everything else is there afterwards as it
was before, whether the line is malformed, its command fails, or is refused halfway.

## Main definitions

* `Builtin.MayTouch`: the files that a command may write or remove, by its arguments.
* `Builtin.MayDrop`: the directories that a command may remove, by its arguments.
* `Builtin.Places`: where a copy goes.
* `CommandLine.MayTouch`: the files that a command line may write or remove.
* `CommandLine.MayDrop`: the directories that a command line may remove.

## Main results

* `Builtin.spares_run`: a command costs only what it may touch and what it may drop;
* `CommandLine.spares_dispatch`: the same of a command line, whose redirection costs its target;
* `runLine_costs`: what this means for the files and the directories, for any line of input.
-/

namespace CommandShell

open ShellM

variable {host : Host} {format : Archive.Format}

/-! ## What is named -/

namespace Builtin

/-- The files that a command may write or remove, by its arguments. -/
inductive MayTouch (session : Session) (location : Location) : Builtin → List String → Prop
  /-- The operand of `rm`. -/
  | removed {typed : String} :
      (session.resolve typed).Names location → MayTouch session location .rm [typed]
  /-- The destination of `cp`. -/
  | copied {args : List String} {recursive : Bool} {source target : String} :
      takeRecursive args = (recursive, [source, target]) →
        (session.resolve target).Names location → MayTouch session location .cp args
  /-- What has the name of the source in the destination of `cp`. -/
  | copiedInto {args : List String} {recursive : Bool} {source target : String} {name : Bytes} :
      takeRecursive args = (recursive, [source, target]) →
        (Path.root.join (session.resolve source)).normalize.fileName = some name →
          ((session.resolve target).join ⟨name⟩).Names location → MayTouch session location .cp args
  /-- What lies in the destination of `cp -r`. -/
  | copiedTree {args : List String} {source target : String} :
      takeRecursive args = (true, [source, target]) →
        location.path.isWithin (Path.root.join (session.resolve target)) = true →
          MayTouch session location .cp args
  /-- The archive of `zip`. -/
  | stored {args operands : List String} {recursive : Bool} {archive : String} :
      takeRecursive args = (recursive, archive :: operands) →
        (session.resolve archive).Names location → MayTouch session location .zip args
  /-- What lies in the destination of `unzip`. -/
  | extracted {args : List String} {archive : String} {directory : Option String} :
      unzipOperands none none args = some (archive, directory) →
        location.path.isWithin (Path.root.join (session.destination directory)) = true →
          MayTouch session location .unzip args

/-- The directories that a command may remove, by its arguments: they are empty. -/
inductive MayDrop (session : Session) (d : Disk) (location : Location) :
    Builtin → List String → Prop
  /-- The operand of `rmdir`. -/
  | operand {typed : String} :
      typed ≠ "*" → (session.resolve typed).Names location → d.children location = [] →
        MayDrop session d location .rmdir [typed]
  /-- What lies directly in the working directory, for `rmdir *`. -/
  | inDirectory {name : FileName} {above : Location} :
      location = name :: above → session.directory.Names above → d.children location = [] →
        MayDrop session d location .rmdir ["*"]

end Builtin

/-- The files that a command line may write or remove: those that its command may, and the target of
its redirection, read from the session that the line leaves. -/
def CommandLine.MayTouch (line : CommandLine) (before after : Session) (location : Location) :
    Prop :=
  ∃ b, Builtin.ofName? line.name = some b ∧
    (b.MayTouch before location line.args ∨
      ∃ r, line.redirection = some r ∧ (after.resolve r.target).Names location)

/-- The directories that a command line may remove. -/
def CommandLine.MayDrop (line : CommandLine) (session : Session) (d : Disk) (location : Location) :
    Prop :=
  ∃ b, Builtin.ofName? line.name = some b ∧ b.MayDrop session d location line.args

/-! ## Step by step -/

section Steps

variable {P : Disk → Prop} {α β : Type} {first : ShellM Disk α} {second : α → ShellM Disk β}
  {w : World Disk}

/-- What holds of the disk behind one action, and behind the next one, holds behind both. -/
theorem held_bind (hfirst : P (first.perform w).2.held)
    (hsecond : ∀ a after, first.perform w = (.ok a, after) → P after.held →
      P ((second a).perform after).2.held) :
    P ((first >>= second).perform w).2.held := by
  rw [perform_bind]
  rcases hperform : first.perform w with ⟨_ | a, after⟩ <;> rw [hperform] at hfirst
  · exact hfirst
  · exact hsecond a after hperform hfirst

/-- Looking leaves a disk and a session as they are. -/
theorem ShellM.Alike.unchanged_of_looking
    (h : Composed (Disk.files host format) .looking first) (w : World Disk) :
    (first.perform w).2.held = w.held ∧ (first.perform w).2.session = w.session :=
  ⟨h.held_of_answer (R := fun before after => after = before) (fun _ => rfl)
    (fun hfirst hmore => hmore.trans hfirst)
    (fun _ hr d => Disk.held_answer_of_looks hr d host format) w,
    h.session_eq id w⟩

/-- What follows on looking starts from the same disk and the same session. -/
theorem held_bind_looking (hlooks : Composed (Disk.files host format) .looking first)
    (hstart : P w.held)
    (hsecond : ∀ a after, first.perform w = (.ok a, after) → after.held = w.held →
      after.session = w.session → P ((second a).perform after).2.held) :
    P ((first >>= second).perform w).2.held := by
  obtain ⟨hheld, hsession⟩ := hlooks.unchanged_of_looking w
  refine held_bind (by rwa [hheld]) fun a after hperform _ => ?_
  rw [hperform] at hheld hsession
  exact hsecond a after hperform hheld hsession

/-- Reading a typed path changes nothing. -/
theorem held_bind_resolve {typed : String} {next : Path → ShellM Disk β}
    (hnext : P ((next (w.session.resolve typed)).perform w).2.held) :
    P ((resolve typed >>= next).perform w).2.held := by
  rwa [perform_bind, perform_resolve]

/-- Printing lines leaves a disk as it is. -/
theorem held_printEach (lineOf : α → String) (items : List α) (w : World Disk) :
    ((printEach lineOf items).perform w).2.held = w.held := by
  have hprints : Composed Disk.files .looking (printEach lineOf items) := .printEach lineOf items
  exact (hprints.unchanged_of_looking w).1

/-- Printing a line leaves a disk as it is. -/
theorem held_printLine (text : String) (w : World Disk) :
    ((printLine text).perform w).2.held = w.held := by
  have hprints : Composed Disk.files .looking (printLine text) := .printLine text
  exact (hprints.unchanged_of_looking w).1

end Steps

namespace Disk

variable {d : Disk}

/-- The file that is opened by a path lies where the path names it. -/
theorem Plain.names_of_opens (hplain : d.Plain) {p : Path} {location : Location}
    (h : d.Opens p location) : p.Names location := by
  obtain ⟨spot, hwalk, rfl⟩ := h
  exact hplain.names_of_walk hwalk

/-- A canonical path belongs to the location of the names that are left of the path. -/
theorem Plain.folded_of_canonical (hplain : d.Plain) {p : Path} {there : Location}
    (h : d.canonical p = .ok there.path) : p.folded = there.map FileName.bytes := by
  obtain ⟨found, hwalk, hpath⟩ := canonical_eq_ok h
  obtain rfl := Path.path_injective hpath
  rw [← Step.foldl_fold_steps, ← hplain.map_bytes_of_walkSteps hwalk]
  rfl

/-- A canonical path is the normal form. -/
theorem Plain.normalize_of_canonical (hplain : d.Plain) {p place : Path}
    (h : d.canonical p = .ok place) : (Path.root.join p).normalize = place := by
  obtain ⟨there, -, rfl⟩ := canonical_eq_ok h
  exact Path.names_of_folded (hplain.folded_of_canonical h)

end Disk

/-! ## Commands -/

namespace Builtin

variable {w : World Disk}

/-- Most commands make no request that could cost anything. -/
theorem spares_run_of_harmless {b : Builtin} (hb : b ∉ [rm, rmdir, cp, zip, unzip])
    (args : List String) (w : World Disk) :
    Disk.Spares Disk.nowhere Disk.nowhere w.held
      ((b.run (Disk.files host format) args).perform w).2.held := by
  refine (b.composed_run (Disk.files host format) args).held_of_answer .refl .trans
    (fun r hr d => ?_) w
  have hspares := d.spares_answer r host format
  cases r with
  | list | kindOf | isPresent | read | canonical | members | touch | makeDirectory
  | makeDirectories => exact hspares
  | write | removeFile | removeDirectory | copyFile | copyTree | store =>
    cases b with
    | rm | rmdir | cp | zip | unzip => simp at hb
    | _ => cases hr

/-- Removing a file costs only what the operand names. -/
theorem spares_runRm (hplain : w.held.Plain) (args : List String) :
    Disk.Spares (rm.MayTouch w.session · args) Disk.nowhere w.held
      ((runRm (Disk.files host format) args).perform w).2.held := by
  match args with
  | [] => exact .refl _
  | [typed] =>
    exact (w.held.spares_answer (.removeFile (w.session.resolve typed)) host format).mono
      (fun _ hfind => .removed (hplain.names_of_find hfind)) fun _ => id
  | _ :: _ :: _ => exact .refl _

/-- Storing in an archive costs only what the archive's operand names. -/
theorem spares_runZip (hplain : w.held.Plain) (args : List String) :
    Disk.Spares (zip.MayTouch w.session · args) Disk.nowhere w.held
      ((runZip (Disk.files host format) args).perform w).2.held := by
  rw [runZip]
  rcases hargs : takeRecursive args with ⟨recursive, _ | ⟨archive, _ | ⟨operand, rest⟩⟩⟩
  · exact .refl _
  · exact .refl _
  · refine held_bind_looking
      (alike_sourcesOf (Disk.files host format) (Disk.files host format) _ _) (.refl _)
      fun sources after _ hheld hsession => ?_
    rw [← hheld, ← hsession]
    refine held_bind_resolve (held_bind ?_ fun stored last _ hstored => ?_)
    · exact (after.held.spares_answer (.store (after.session.resolve archive) sources) host
        format).mono
        (fun _ hopens => .stored hargs ((hheld ▸ hplain).names_of_opens hopens)) fun _ => id
    · rwa [held_printEach]

/-- Where a copy goes: into the target, under the last name of the source's canonical path, when the
target is a directory, and else to the target itself. -/
inductive Places (d : Disk) (source target : Path) : Path → Prop
  /-- The target is no directory. -/
  | itself : d.isDirectory target = false → Places d source target target
  /-- The target is a directory. -/
  | inside {origin : Path} {name : Bytes} :
      d.isDirectory target = true → d.canonical source = .ok origin →
        origin.fileName = some name → Places d source target (target.join ⟨name⟩)

/-- The place that is found for a copy is the one where it goes. -/
theorem places_of_placement {source target place : Path} {after : World Disk}
    (h : (placement (Disk.files host format) source target).perform w = (.ok place, after)) :
    Places w.held source target place := by
  simp only [placement, perform_bind, perform_tryRequest, Disk.answer_kindOf] at h
  by_cases hdir : w.held.lookAt target = .ok .directory
  · simp only [hdir, Except.map, Disk.kindOfEntry, Disk.looking, catchFault, perform_bind,
      perform_request, Disk.answer_canonical] at h
    rcases hcanonical : w.held.canonical source with refusal | origin
    · simp [hcanonical] at h
    · simp only [hcanonical] at h
      cases hname : origin.fileName with
      | none => simp [hname] at h
      | some name =>
        simp only [hname, perform_pure, Prod.mk.injEq, Except.ok.injEq] at h
        obtain ⟨rfl, -⟩ := h
        exact .inside (Disk.isDirectory_eq_true.2 hdir) hcanonical hname
  · -- Whatever else lies there counts as a file.
    have hitself : place = target := by
      rcases hlook : w.held.lookAt target with refusal | entry
      · simp only [hlook, Except.map, Disk.looking, catchFault, perform_pure, Prod.mk.injEq,
          Except.ok.injEq] at h
        exact h.1.symm
      · cases entry with
        | directory => exact absurd hlook hdir
        | _ =>
          simp only [hlook, Except.map, Disk.kindOfEntry, Disk.looking, catchFault, perform_pure,
            Prod.mk.injEq, Except.ok.injEq] at h
          exact h.1.symm
    subst hitself
    exact .itself (Bool.eq_false_iff.2 fun h => hdir (Disk.isDirectory_eq_true.1 h))

/-- Where a copy may go: to the target itself, or into it under the last name of the source's
canonical path. -/
def CopyPlace (d : Disk) (source target place : Path) : Prop :=
  place = target ∨ ∃ origin name, d.canonical source = .ok origin ∧
    origin.fileName = some name ∧ place = target.join ⟨name⟩

/-- Where a copy goes it may go. -/
theorem Places.copyPlace {d : Disk} {source target place : Path}
    (h : Places d source target place) : CopyPlace d source target place := by
  cases h with
  | itself => exact .inl rfl
  | inside _ horigin hname => exact .inr ⟨_, _, horigin, hname, rfl⟩

/-- The last name of a canonical path is a name. -/
theorem isName_of_canonical {d : Disk} {p origin : Path} {name : Bytes}
    (h : d.canonical p = .ok origin) (hname : origin.fileName = some name) : Path.IsName name := by
  obtain ⟨there, -, rfl⟩ := Disk.canonical_eq_ok h
  cases there with
  | nil => simp [Disk.fileName_path_nil] at hname
  | cons first above =>
    obtain rfl : first.bytes = name := by simpa [Disk.fileName_path_cons] using hname
    exact Path.isName_of_legal first.legal

/-- What lies in the place of a copy lies in the target. -/
theorem CopyPlace.isWithin_target {d : Disk} {source target place : Path} {location : Location}
    (h : CopyPlace d source target place)
    (hwithin : location.path.isWithin (Path.root.join place) = true) :
    location.path.isWithin (Path.root.join target) = true := by
  rw [Path.isWithin_iff] at hwithin ⊢
  rcases h with rfl | ⟨origin, name, hcanonical, hname, rfl⟩
  · exact hwithin
  · rw [Path.folded_join_name _ (isName_of_canonical hcanonical hname)] at hwithin
    exact (List.suffix_cons _ _).trans hwithin

/-- What the place of a copy names, copying may write. -/
theorem CopyPlace.mayTouch {d : Disk} {session : Session} {args : List String} {recursive : Bool}
    {source target : String} {place : Path} {location : Location}
    (h : CopyPlace d (session.resolve source) (session.resolve target) place) (hplain : d.Plain)
    (hargs : takeRecursive args = (recursive, [source, target])) (hnames : place.Names location) :
    cp.MayTouch session location args := by
  rcases h with rfl | ⟨origin, name, hcanonical, hname, rfl⟩
  · exact .copied hargs hnames
  · refine .copiedInto hargs ?_ hnames
    rw [hplain.normalize_of_canonical hcanonical, hname]

/-- Copying costs only what the destination names, or what lies in it. -/
theorem spares_runCp (hplain : w.held.Plain) (args : List String) :
    Disk.Spares (cp.MayTouch w.session · args) Disk.nowhere w.held
      ((runCp (Disk.files host format) args).perform w).2.held := by
  rw [runCp]
  rcases hargs : takeRecursive args with ⟨recursive, _ | ⟨source, _ | ⟨target, _ | ⟨_, _⟩⟩⟩⟩
  · exact .refl _
  · exact .refl _
  · refine held_bind_resolve (held_bind_looking (.request _ trivial) (.refl _)
      fun kind after _ hheld hsession => ?_)
    rw [← hheld] at hplain ⊢
    rw [← hsession]
    split
    · exact .refl _
    · next hrecursive =>
      refine held_bind_resolve (held_bind_looking
        (alike_placement (Disk.files host format) (Disk.files host format) _ _) (.refl _)
        fun place last hplace hlast _ => ?_)
      have hcopyPlace := (places_of_placement hplace).copyPlace
      rw [← hlast] at hplain hcopyPlace ⊢
      cases kind with
      | directory =>
        -- A directory is copied only on demand.
        have hdemand : recursive = true := by simpa using hrecursive
        subst hdemand
        rw [perform_request]
        show Disk.Spares _ _ _ (last.held.answer (.copyTree _ place) host format).2
        rw [Disk.held_answer_copyTree _ _ _ host format]
        exact (hplain.spares_copyTree _ place).mono
          (fun _ hwithin => .copiedTree hargs (hcopyPlace.isWithin_target hwithin)) fun _ => id
      | file =>
        refine held_bind_looking
          (alike_sameFile (Disk.files host format) (Disk.files host format) _ _) (.refl _)
          fun same ready _ hready _ => ?_
        rw [← hready] at hplain hcopyPlace ⊢
        split
        · exact .refl _
        · refine held_bind ?_ fun _ _ _ hdone => hdone
          exact (ready.held.spares_answer (.copyFile (after.session.resolve source) place) host
            format).mono
            (fun _ hopens => hcopyPlace.mayTouch hplain hargs (hplain.names_of_opens hopens))
            fun _ => id
  · exact .refl _

/-- Extracting costs only what lies in the destination. -/
theorem spares_runUnzip (hplain : w.held.Plain) (args : List String) :
    Disk.Spares (unzip.MayTouch w.session · args) Disk.nowhere w.held
      ((runUnzip (Disk.files host format) args).perform w).2.held := by
  -- No request of the command takes a directory away.
  have hkept : Disk.Spares Disk.anywhere Disk.nowhere w.held
      ((runUnzip (Disk.files host format) args).perform w).2.held := by
    refine (unzip.composed_run (Disk.files host format) args).held_of_answer .refl .trans
      (fun r hr d => ?_) w
    have hspares : Disk.Spares Disk.anywhere (d.dropped r) d (d.answer r host format).2 :=
      (d.spares_answer r host format).mono (fun _ _ => trivial) fun _ => id
    cases r with
    | removeDirectory => cases hr
    | _ => exact hspares
  refine ⟨hkept.link, fun {location entry} hget hne => ?_, hkept.directory⟩
  have hchanges := changes_runUnzip (fun p d => (d.unpackArchive p format).1) host format args w
    location
  rw [Disk.filesReading_unpackArchive] at hchanges
  rcases hchanges with hsame | ⟨archive, directory, hargs, hrest⟩
  · exact .inr (hsame.trans hget)
  · rcases hrest with ⟨base, hcanonical, hbelow⟩ | ⟨hnone, -, -⟩
    · -- The destination is where its path leads, and that is what it names.
      refine .inl (.extracted hargs (Path.isWithin_iff.2 ?_))
      have hmade := (w.held.grows_makeDirectories (w.session.destination directory)).spares
      rw [(hmade.plain hplain).folded_of_canonical hcanonical]
      exact hbelow.map FileName.bytes
    · rw [hget] at hnone
      cases hnone

/-- What a listing shows are names. -/
theorem isName_of_listed {d : Disk} {directory : Path} {listed : List (String × Kind)}
    (h : (d.answer (.list directory) host format).1 = .ok listed) :
    ∀ shown ∈ listed, Path.IsName (Utf8.ofString shown.1) := by
  rw [Disk.answer, Disk.listing] at h
  cases hnames : d.names directory with
  | error refusal =>
    rw [hnames] at h
    cases h
  | ok names =>
    rw [hnames] at h
    cases h
    intro shown hshown
    obtain ⟨name, -, rfl⟩ := List.mem_map.1 (List.mem_mergeSort.1 hshown)
    exact Path.isName_shown name

/-- An empty directory that lies in another one. -/
def EmptyBelow (d : Disk) (directory : Path) (location : Location) : Prop :=
  ∃ name above, location = name :: above ∧ directory.Names above ∧ d.children location = []

/-- A directory that is empty after others in the same directory were removed was empty before. -/
theorem emptyBelow_of_spares {start now : Disk} {directory : Path} {name : FileName}
    {above : Location} (habove : directory.Names above)
    (hstart : Disk.Spares Disk.nowhere (EmptyBelow start directory) start now)
    (hempty : now.children (name :: above) = []) :
    EmptyBelow start directory (name :: above) := by
  refine ⟨name, above, rfl, habove, List.eq_nil_iff_forall_not_mem.2 fun child hchild => ?_⟩
  obtain ⟨entry, hget⟩ := Option.isSome_iff_exists.1 ((start.mem_children_iff _ child).1 hchild)
  -- What lay in the directory still lies in it: removed were only directories beside it.
  have hkept : now.get? (child :: name :: above) = some entry := by
    by_cases hdir : entry = .directory
    · subst hdir
      refine (hstart.directory hget).resolve_left ?_
      rintro ⟨_, _, hlocation, hnames, -⟩
      obtain ⟨-, rfl⟩ := List.cons.inj hlocation
      have hsame := congrArg List.length (Path.path_injective (habove.symm.trans hnames))
      simp at hsame
    · exact (hstart.entry hget hdir).resolve_left id
  have hlisted := (now.mem_children_iff (name :: above) child).2 (by simp [hkept])
  rw [hempty] at hlisted
  cases hlisted

/-- Removing one more empty directory of a directory. -/
theorem spares_removeBelow {start now : Disk} {directory : Path} {name : Bytes}
    (hplain : start.Plain) (hname : Path.IsName name)
    (hstart : Disk.Spares Disk.nowhere (EmptyBelow start directory) start now) :
    Disk.Spares Disk.nowhere (EmptyBelow start directory) start
      (now.answer (.removeDirectory (directory.join ⟨name⟩)) host format).2 := by
  refine hstart.trans ((now.spares_answer _ host format).mono (fun _ => id) ?_)
  rintro location ⟨hwalk, hempty⟩
  have hbytes := (hstart.plain hplain).map_bytes_of_walkSteps hwalk
  rw [Step.foldl_fold_dropSlash, Step.foldl_fold_steps, Path.folded_join_name directory hname]
    at hbytes
  change location.map FileName.bytes = _ at hbytes
  cases location with
  | nil => cases hbytes
  | cons first above =>
    obtain ⟨-, habove⟩ := List.cons.inj hbytes
    exact emptyBelow_of_spares (Path.names_of_folded habove.symm) hstart hempty

/-- Removing the empty directories of a directory one after the other costs only these, also when
some were removed already. -/
theorem spares_removeEach {start : Disk} {directory : Path} {listed : List (String × Kind)}
    (hplain : start.Plain) (hnames : ∀ shown ∈ listed, Path.IsName (Utf8.ofString shown.1))
    (hstart : Disk.Spares Disk.nowhere (EmptyBelow start directory) start w.held) :
    Disk.Spares Disk.nowhere (EmptyBelow start directory) start
      ((removeEach (Disk.files host format) directory listed).perform w).2.held := by
  induction listed generalizing w with
  | nil => exact hstart
  | cons shown rest ih =>
    obtain ⟨name, kind⟩ := shown
    have hrest := fun {w : World Disk} => ih (w := w) fun shown hshown =>
      hnames shown (List.mem_cons_of_mem _ hshown)
    cases kind with
    | file => exact hrest hstart
    | directory =>
      rw [removeEach]
      refine held_bind_looking
        (alike_holdsNothing (Disk.files host format) (Disk.files host format) _) hstart
        fun empty after _ hheld _ => ?_
      rw [← hheld] at hstart
      split
      · -- The removal may be refused, and either way the rest is tried.
        have hremoved : Disk.Spares Disk.nowhere (EmptyBelow start directory) start
            (after.held.answer (.removeDirectory (directory.join (.ofString name))) host
              format).2 :=
          spares_removeBelow hplain (hnames _ List.mem_cons_self) hstart
        refine held_bind hremoved fun removed last _ hlast => ?_
        cases removed with
        | ok => exact held_bind (hrest hlast) fun _ _ _ hdone => hdone
        | error fault =>
          have hcomplains : Composed (Disk.files host format) .looking
              (complainLine (rmdir.name ++ ": " ++ fault.message)) := .complainLine _
          exact held_bind_looking hcomplains hlast fun _ _ _ hsame _ => hrest (hsame ▸ hlast)
      · exact hrest hstart

/-- Removing all empty directories costs only those in the working directory. -/
theorem spares_removeEmpty (hplain : w.held.Plain) :
    Disk.Spares Disk.nowhere (EmptyBelow w.held w.session.directory) w.held
      ((removeEmpty (Disk.files host format)).perform w).2.held := by
  rw [removeEmpty]
  refine held_bind (.refl _) fun current after hcurrent _ => ?_
  cases hcurrent
  refine held_bind_looking (.request _ trivial) (.refl _) fun listed last hlisted hlast _ => ?_
  have hnames := isName_of_listed
    (show (w.held.answer (.list w.session.directory) host format).1 = .ok listed from
      congrArg Prod.fst hlisted)
  refine held_bind (spares_removeEach hplain hnames (hlast ▸ .refl _)) fun removed _ _ hdone => ?_
  split
  · rwa [held_printLine]
  · exact hdone

/-- Removing directories costs only empty ones that are named, or all in the working directory. -/
theorem spares_runRmdir (hplain : w.held.Plain) (args : List String) :
    Disk.Spares Disk.nowhere (rmdir.MayDrop w.session w.held · args) w.held
      ((runRmdir (Disk.files host format) args).perform w).2.held := by
  match args with
  | [] => exact .refl _
  | _ :: _ :: _ => exact .refl _
  | [typed] =>
    rw [runRmdir]
    split
    · next hstar =>
      subst hstar
      refine (spares_removeEmpty hplain).mono (fun _ => id) ?_
      rintro _ ⟨name, above, rfl, habove, hempty⟩
      exact .inDirectory rfl habove hempty
    · next hnot =>
      refine held_bind_resolve (held_bind_looking (.request _ trivial) (.refl _)
        fun kind last _ hlast _ => ?_)
      cases kind with
      | file =>
        rw [← hlast]
        exact .refl _
      | directory =>
        rw [← hlast] at hplain ⊢
        have hspares := last.held.spares_answer (.removeDirectory (w.session.resolve typed)) host
          format
        refine hspares.mono (fun _ => id) ?_
        rintro location ⟨hwalk, hempty⟩
        -- Without links the walk ends at the location that folding the path names.
        have hbytes := hplain.map_bytes_of_walkSteps hwalk
        rw [Step.foldl_fold_dropSlash, Step.foldl_fold_steps] at hbytes
        exact .operand hnot (Path.names_of_folded hbytes.symm) hempty

/-- What a command may cost, it may cost by its arguments only. -/
theorem spares_run (hplain : w.held.Plain) (b : Builtin) (args : List String) :
    Disk.Spares (b.MayTouch w.session · args) (b.MayDrop w.session w.held · args) w.held
      ((b.run (Disk.files host format) args).perform w).2.held := by
  cases b with
  | rm => exact (spares_runRm hplain args).mono (fun _ => id) fun _ => False.elim
  | rmdir => exact (spares_runRmdir hplain args).mono (fun _ => False.elim) fun _ => id
  | cp => exact (spares_runCp hplain args).mono (fun _ => id) fun _ => False.elim
  | zip => exact (spares_runZip hplain args).mono (fun _ => id) fun _ => False.elim
  | unzip => exact (spares_runUnzip hplain args).mono (fun _ => id) fun _ => False.elim
  | pwd | cd | ls | mkdir | touch | exit | cat | wc =>
    exact (spares_run_of_harmless (by simp) args w).mono (fun _ => False.elim) fun _ => False.elim

end Builtin

/-! ## Lines -/

/-- A command line costs what its command costs and, when it is redirected, what lies at the
target. -/
theorem CommandLine.spares_dispatch (line : CommandLine) {w : World Disk} (hplain : w.held.Plain)
    (host : Host) (format : Archive.Format) :
    let after := ((dispatch (Disk.files host format) line).perform w).2
    Disk.Spares (line.MayTouch w.session after.session) (line.MayDrop w.session w.held)
      w.held after.held := by
  obtain ⟨name, args, redirection⟩ := line
  cases hname : Builtin.ofName? name with
  | none =>
    rw [perform_dispatch_unknown (Disk.files host format) args redirection hname]
    exact .refl _
  | some b =>
    intro after
    obtain ⟨own, hsession, hheld⟩ :=
      dispatch_leaves (Disk.files host format) args redirection hname w
    have hrun : Disk.Spares (b.MayTouch w.session · args) (b.MayDrop w.session w.held · args)
        w.held ((b.run (Disk.files host format) args).perform { w with streams := own }).2.held :=
      b.spares_run (w := { w with streams := own }) hplain args
    have hcommand : Disk.Spares
        (CommandLine.MayTouch ⟨name, args, redirection⟩ w.session after.session)
        (CommandLine.MayDrop ⟨name, args, redirection⟩ w.session w.held) w.held
        ((b.run (Disk.files host format) args).perform { w with streams := own }).2.held :=
      hrun.mono (fun _ htouch => ⟨b, hname, .inl htouch⟩) fun _ hdrop => ⟨b, hname, hdrop⟩
    cases redirection with
    | none =>
      rw [show after.held = _ from hheld]
      exact hcommand
    | some r =>
      -- The target is opened on the disk that the command leaves, and read from its session.
      obtain ⟨output, hheld⟩ := hheld
      rw [show after.held = _ from hheld]
      refine hcommand.trans ((Disk.spares_answer _ _ host format).mono
        (fun location hopens => ?_) fun _ => False.elim)
      refine ⟨b, hname, .inr ⟨r, rfl, ?_⟩⟩
      rw [show after.session = _ from hsession]
      exact (hrun.plain hplain).names_of_opens hopens

/-- On a disk without links every file is there after a line of input with the same bytes, unless
the line may write or remove it, and every directory is there, unless the line may remove it. A line
that is not well-formed costs nothing. How the machine fails and how archives are kept plays no
part. -/
theorem runLine_costs {d : Disk} (hplain : d.Plain) (text : List Char) (session : Session)
    (terminal : Streams) (host : Host) (format : Archive.Format) :
    let after := ((runLine (Disk.files host format) text).perform ⟨session, terminal, d⟩).2
    (∀ location bytes, d.get? location = some (.file bytes) →
      after.held.get? location = some (.file bytes) ∨
        ∃ line, CommandLine.parseChars text = .ok (some line) ∧
          line.MayTouch session after.session location) ∧
    (∀ location, d.get? location = some .directory →
      after.held.get? location = some .directory ∨
        ∃ line, CommandLine.parseChars text = .ok (some line) ∧
          line.MayDrop session d location) := by
  simp only [runLine]
  rcases CommandLine.parseChars text with fault | _ | line
  · exact ⟨fun _ _ hget => .inl hget, fun _ hget => .inl hget⟩
  · exact ⟨fun _ _ hget => .inl hget, fun _ hget => .inl hget⟩
  · have hspares := line.spares_dispatch (w := ⟨session, terminal, d⟩) hplain host format
    refine ⟨fun location bytes hget => ?_, fun location hget => ?_⟩
    · exact (hspares.entry hget (by simp)).symm.imp_right fun htouch => ⟨line, rfl, htouch⟩
    · exact (hspares.directory hget).symm.imp_right fun hdrop => ⟨line, rfl, hdrop⟩

/-- Of two files `rm a` costs the one that it names, and only that one. -/
theorem runLine_costs_removed_file :
    let gone : Location := [.ofString "a"]
    let kept : Location := [.ofString "b"]
    let d := (Disk.empty.put gone (.file [])).put kept (.file [1])
    let session := Session.start .root .root
    let after := ((runLine Disk.files "rm a".toList).perform ⟨session, .unlimited, d⟩).2
    d.Plain ∧
      (d.get? kept = some (.file [1]) ∧ after.held.get? kept = some (.file [1])) ∧
      (d.get? gone = some (.file []) ∧ after.held.get? gone = none) ∧
      ∃ line, CommandLine.parseChars "rm a".toList = .ok (some line) ∧
        line.MayTouch session after.session gone := by
  intro gone kept d session after
  have hplain : d.Plain := Disk.plain_of_entries (by decide)
  have hparsed : CommandLine.parseChars "rm a".toList = .ok (some ⟨"rm", ["a"], none⟩) := rfl
  have hgone : d.get? gone = some (.file []) := by decide
  have hremoved : after.held.get? gone = none := by decide +kernel
  obtain ⟨hfiles, -⟩ := runLine_costs hplain "rm a".toList session .unlimited .reliable Archive.zip
  refine ⟨hplain, ⟨by decide, ?_⟩, ⟨hgone, hremoved⟩, ?_⟩
  · refine (hfiles kept [1] (by decide)).resolve_right ?_
    rintro ⟨line, hline, b, hb, hmay⟩
    cases hparsed.symm.trans hline
    cases hb
    rcases hmay with hmay | ⟨r, hr, -⟩
    · cases hmay with
      | removed hnames => exact absurd hnames (by unfold Path.Names; decide +kernel)
    · cases hr
  · refine (hfiles gone [] hgone).resolve_left fun hstill => ?_
    rw [show after.held.get? gone = none from hremoved] at hstill
    cases hstill

end CommandShell
