import CommandShell.Proofs.Footprints
import CommandShell.Proofs.Containment
import Mathlib.Logic.Relation

/-!
# The working directory

The working directory starts as a path without symbolic links on it, and only `cd` changes it, to
another one. No command makes a link, so none ever comes to lie on it, whatever is removed and made
again. This is why leaving for the directory above by the text alone is right.

## Main definitions

* `Disk.Clear`: no link lies on the way to a location.
* `Shell.LineStep`: one line of input, on any machine and streams of any kind.
* `Shell.Physical`: the working directory is the path of a location, with no link on the way.

## Main results

* `Disk.Clear.eq_of_canonical`: a path without links on it is its own canonical path;
* `Shell.LineStep.physical` and `Shell.Physical.run_lines`: one line, and any number of them, keep
  the working directory physical;
* `Shell.directory_stays_physical`: what this means for `cd` and for links.
-/

namespace CommandShell

open ShellM

/-! ## Ways without links -/

namespace Disk

variable {d : Disk} {location : Location}

/-- No link lies on the way to a location, nor at the location itself. -/
def Clear (d : Disk) (location : Location) : Prop :=
  ∀ above, above <:+ location → ∀ target, d.get? above ≠ some (.link target)

/-- The way to the directory of a location is a part of the way to the location. -/
theorem Clear.above {name : FileName} (h : d.Clear (name :: location)) : d.Clear location :=
  fun above habove => h above (habove.trans (List.suffix_cons _ _))

/-- Without new links a way stays clear. -/
theorem Clear.spares {touched dropped : Location → Prop} {changed : Disk} (h : d.Clear location)
    (hspares : Spares touched dropped d changed) : changed.Clear location :=
  fun above habove target hlink => h above habove target (hspares.link hlink)

/-- What is no link lies at the end of a clear way, as only directories hold anything. -/
theorem clear_of_get? {entry : Entry} (h : d.get? location = some entry)
    (hlink : ∀ target, entry ≠ .link target) : d.Clear location := by
  induction location generalizing entry with
  | nil =>
    rintro above habove target hget
    rw [List.suffix_nil.1 habove] at hget
    cases hget
  | cons name outer ih =>
    intro above habove target hget
    rcases List.suffix_cons_iff.1 habove with rfl | habove
    · exact hlink target (Option.some.inj (h.symm.trans hget))
    · exact ih (directory_of_get? h) (by simp) above habove target hget

/-- A walk through links ends with a clear way behind it, at something. -/
theorem clear_of_walkSteps {steps : List Step} {there : Location}
    (h : d.walkSteps .use steps = .ok (.found there)) :
    d.Clear there ∧ (d.get? there).isSome := by
  obtain ⟨used, -, hleads⟩ := walkLinks_use_iff.1 h
  have hsome := hleads.isSome (by simp)
  obtain ⟨entry, hentry⟩ := Option.isSome_iff_exists.1 hsome
  refine ⟨clear_of_get? hentry ?_, hsome⟩
  rintro target rfl
  exact hleads.ne_link (by simp) target hentry

namespace Clear

/-- Along a clear way the names of a location lead to the location, through no link. -/
theorem leads (h : d.Clear location) (hsome : (d.get? location).isSome) :
    Leads d 0 [] ((location.map FileName.bytes).reverse.map .name) location := by
  induction location with
  | nil => exact .done
  | cons name above ih =>
    obtain ⟨entry, hget⟩ := Option.isSome_iff_exists.1 hsome
    have habove := ih h.above (by simp [directory_of_get? hget])
    rw [List.map_cons, Step.map_name_reverse_cons]
    refine habove.append (.enter hget ?_ .done)
    rintro target rfl
    exact h _ (List.suffix_refl _) target hget

/-- Along a clear way the names of a location lead nowhere else. -/
theorem eq_of_reaches (h : d.Clear location) {there : Location}
    (hreaches : d.Reaches (location.map FileName.bytes) there) : there = location := by
  induction location generalizing there with
  | nil => exact reaches_nil.1 hreaches
  | cons name outer ih =>
    obtain ⟨above, last, habove, hlast, hend⟩ := hreaches.above
    obtain rfl := ih h.above habove
    obtain rfl := FileName.bytes_injective hlast
    rcases hend with ⟨target, hlink⟩ | ⟨rfl, -⟩
    · exact absurd hlink (h _ (List.suffix_refl _) target)
    · rfl

/-- A path without links on it is its own canonical path, if it has one. -/
theorem eq_of_canonical (h : d.Clear location) {p : Path}
    (hcanonical : d.canonical location.path = .ok p) : p = location.path := by
  obtain ⟨there, hwalk, rfl⟩ := canonical_eq_ok hcanonical
  rw [steps_path] at hwalk
  rw [h.eq_of_reaches (walkLinks_use_iff.1 hwalk)]

/-- A walk along a clear way goes on with the rest of its steps. -/
theorem walkSteps (h : d.Clear location) (hsome : (d.get? location).isSome) (rest : List Step) :
    d.walkSteps .use (location.path.steps ++ rest) = d.walkLinks .use linkLimit location rest := by
  rw [Disk.walkSteps, steps_path, walkLinks_of_leads (h.leads hsome) (Nat.zero_le _) (.inl rfl)]
  rfl

/-- What lies at a path without links on it. -/
theorem lookAt_eq (h : d.Clear location) {entry : Entry} (hget : d.get? location = some entry)
    (hsize : location.path.size < pathLimit) : d.lookAt location.path = .ok entry := by
  have hwalk := h.walkSteps (by simp [hget]) []
  rw [List.append_nil, walkLinks_nil] at hwalk
  simp [lookAt, find, walk, checkPath_path.2 hsize, hwalk, hget, bind, Except.bind]

/-- A path leads to a directory when its steps lead along a clear way and then to one. -/
theorem lookAt_and_canonical (h : d.Clear location) (hsome : (d.get? location).isSome) {p : Path}
    {rest : List Step} {there : Location} (hsteps : p.steps = location.path.steps ++ rest)
    (hrest : d.walkLinks .use linkLimit location rest = .ok (.found there))
    (hcheck : checkPath p = .ok ()) (hdir : d.get? there = some .directory)
    (hsize : there.path.size < pathLimit) :
    d.lookAt p = .ok .directory ∧ d.canonical p = .ok there.path := by
  have hwalk : d.walkSteps .use p.steps = .ok (.found there) := by
    rw [hsteps, h.walkSteps hsome, hrest]
  obtain ⟨hnul, -, hne⟩ := checkPath_eq_ok.1 hcheck
  refine ⟨?_, ?_⟩
  · simp [lookAt, find, walk, hcheck, hwalk, hdir, bind, Except.bind]
  · simp [canonical, hnul, hne, hwalk, Nat.not_le.2 hsize]

/-- A path without links on it leads to a directory when one lies at its location. -/
theorem isDirectory_iff (h : d.Clear location) :
    d.isDirectory location.path = true ↔
      location.path.size < pathLimit ∧ d.get? location = some .directory := by
  constructor
  · intro hdirectory
    refine ⟨size_lt_of_isDirectory hdirectory, ?_⟩
    obtain ⟨there, hwalk, hget⟩ := lookAt_eq_ok.1 (isDirectory_eq_true.1 hdirectory)
    -- The walk ends at the location, so the directory lies there.
    have hsteps := (walk_eq_ok hwalk).2
    rw [steps_path] at hsteps
    obtain rfl := h.eq_of_reaches (walkLinks_use_iff.1 hsteps)
    exact hget
  · rintro ⟨hsize, hget⟩
    exact isDirectory_eq_true.2 (h.lookAt_eq hget hsize)

end Clear

end Disk

/-! ## Changing the directory -/

variable {host : Host} {format : Archive.Format}

namespace Disk

/-- A canonical path is short enough to be served. -/
theorem size_lt_of_canonical {d : Disk} {p place : Path} (h : d.canonical p = .ok place) :
    place.size < pathLimit := by
  unfold canonical at h
  split at h
  · cases h
  · split at h
    · cases h
    · split at h
      · cases h
      · cases h
      · split at h
        · cases h
        · next hsize => exact Except.ok.inj h ▸ Nat.lt_of_not_le hsize

/-- The canonical path of a directory is that of a location with a clear way, where the directory
lies. -/
theorem canonical_of_directory {d : Disk} {p place : Path} (hlook : d.lookAt p = .ok .directory)
    (hcanonical : d.canonical p = .ok place) :
    ∃ there : Location, place = there.path ∧ d.Clear there ∧ d.isDirectory place = true := by
  obtain ⟨there, hwalk, rfl⟩ := canonical_eq_ok hcanonical
  obtain ⟨hclear, -⟩ := clear_of_walkSteps hwalk
  exact ⟨there, rfl, hclear, hclear.isDirectory_iff.2
    ⟨size_lt_of_canonical hcanonical, get?_of_canonical hlook hcanonical⟩⟩

end Disk

namespace Builtin

/-- What a change of directory does when there is a target. -/
theorem perform_runCd {args : List String} {w : World Disk} {target : Path} {shown : String}
    (h : cdTarget w.session args = .ok (target, shown)) :
    (runCd (Disk.files host format) args).perform w =
      match w.held.lookAt target with
      | .ok .directory =>
        match w.held.canonical target with
        | .ok directory => (.ok (), { w with session := { w.session with directory } })
        | .error refusal => (.error (.failed (.file (.refused .resolve target refusal))), w)
      | .ok _ => (.error (.failed (.command (.notDirectory shown))), w)
      | .error _ => (.error (.failed (.command (.noSuchDirectory shown))), w) := by
  have hkind : (Disk.files host format).answer (.kindOf target) w.held =
      w.held.looking .stat target ((w.held.lookAt target).map Disk.kindOfEntry) := rfl
  have hplace : (Disk.files host format).answer (.canonical target) w.held =
      w.held.looking .resolve target (w.held.canonical target) := rfl
  simp only [runCd, perform_bind, perform_session, h, perform_tryRequest, hkind]
  rcases w.held.lookAt target with refusal | entry
  · rfl
  · cases entry with
    | directory =>
      simp only [Except.map, Disk.kindOfEntry, Disk.looking, catchFault, perform_bind,
        perform_request, perform_setSession, hplace]
      cases w.held.canonical target <;> rfl
    | file | link | device => rfl

/-- A change of directory leaves the disk alone. It either stops, and the session is as before, or
leads to a directory with a clear way. -/
theorem runCd_cases (args : List String) (w : World Disk) :
    let (result, after) := (runCd (Disk.files host format) args).perform w
    after.held = w.held ∧
      ((result ≠ .ok () ∧ after.session = w.session) ∨
        ∃ there : Location, result = .ok () ∧
          after.session = { w.session with directory := there.path } ∧ w.held.Clear there ∧
            w.held.isDirectory there.path = true) := by
  cases hfound : cdTarget w.session args with
  | error fault =>
    simp [runCd, hfound]
  | ok found =>
    obtain ⟨target, shown⟩ := found
    rw [perform_runCd hfound]
    rcases hlook : w.held.lookAt target with refusal | entry
    · exact ⟨rfl, .inl ⟨nofun, rfl⟩⟩
    · cases entry with
      | file | link | device => exact ⟨rfl, .inl ⟨nofun, rfl⟩⟩
      | directory =>
        rcases hcanonical : w.held.canonical target with refusal | place
        · exact ⟨rfl, .inl ⟨nofun, rfl⟩⟩
        · obtain ⟨there, rfl, hclear, hdirectory⟩ :=
            Disk.canonical_of_directory hlook hcanonical
          exact ⟨rfl, .inr ⟨there, rfl, rfl, hclear, hdirectory⟩⟩

/-- What was shown before plays no part in how a change of directory ends. -/
theorem result_runCd (args : List String) (session : Session) (first second : Streams) (d : Disk) :
    ((runCd (Disk.files host format) args).perform ⟨session, first, d⟩).1 =
      ((runCd (Disk.files host format) args).perform ⟨session, second, d⟩).1 := by
  cases hfound : cdTarget session args with
  | error fault => simp [runCd, hfound]
  | ok found =>
    rw [perform_runCd (w := ⟨session, first, d⟩) hfound,
      perform_runCd (w := ⟨session, second, d⟩) hfound]
    simp only
    split
    · split <;> rfl
    · rfl
    · rfl

/-- Only `cd` changes the working directory. -/
theorem directory_run (files : FileSystem Disk) {b : Builtin} (hb : b ≠ .cd) (args : List String)
    (w : World Disk) :
    ((b.run files args).perform w).2.session.directory = w.session.directory := by
  by_cases hexit : b = .exit
  · subst hexit
    simp [run, runExit, printLine]
  · rw [(b.composed_run files args).session_eq (not_or.2 ⟨hb, hexit⟩)]

/-- No command makes a link. -/
theorem link_of_run (b : Builtin) (args : List String) (w : World Disk) (host : Host)
    (format : Archive.Format) :
    Disk.Spares Disk.anywhere Disk.anywhere w.held
      ((b.run (Disk.files host format) args).perform w).2.held :=
  (b.composed_run (Disk.files host format) args).held_of_answer .refl .trans
    (fun r _ d => d.link_of_answer r host format) w

end Builtin

/-! ## Lines and runs -/

namespace Shell

/-- The session and the disk that a line of input leaves on some machine, with a format of archives
and on streams of any kind. -/
def leave (host : Host) (format : Archive.Format) (streams : Streams) (text : List Char)
    (before : Session × Disk) : Session × Disk :=
  let w := ((runLine (Disk.files host format) text).perform ⟨before.1, streams, before.2⟩).2
  (w.session, w.held)

/-- One line of input, on any machine and streams of any kind, takes a session and a disk to
others. -/
def LineStep (before after : Session × Disk) : Prop :=
  ∃ host format streams text, after = leave host format streams text before

/-- The working directory is the path of a location, and no link lies on the way there. -/
def Physical (session : Session) (d : Disk) : Prop :=
  ∃ location : Location, session.directory = location.path ∧ d.Clear location

/-- A command keeps the working directory physical. -/
theorem Physical.run (b : Builtin) (args : List String) {w : World Disk}
    (h : Physical w.session w.held) (host : Host) (format : Archive.Format) :
    Physical ((b.run (Disk.files host format) args).perform w).2.session
      ((b.run (Disk.files host format) args).perform w).2.held := by
  obtain ⟨location, hlocation, hclear⟩ := h
  have hstays := hclear.spares (b.link_of_run args w host format)
  by_cases hcd : b = .cd
  · subst hcd
    obtain ⟨hheld, ⟨-, hsession⟩ | ⟨there, -, hsession, hthere, -⟩⟩ := Builtin.runCd_cases args w
    · exact ⟨location, (congrArg Session.directory hsession).trans hlocation, hstays⟩
    · have hstill := hthere.spares (Builtin.cd.link_of_run args w host format)
      exact ⟨there, congrArg Session.directory hsession, hstill⟩
  · exact ⟨location, (Builtin.directory_run _ hcd args w).trans hlocation, hstays⟩

/-- A line of input makes no link and keeps the working directory physical. -/
theorem LineStep.physical {before after : Session × Disk} (hstep : LineStep before after)
    (h : Physical before.1 before.2) :
    Disk.Spares Disk.anywhere Disk.anywhere before.2 after.2 ∧ Physical after.1 after.2 := by
  obtain ⟨host, format, streams, text, rfl⟩ := hstep
  rw [leave, runLine]
  rcases CommandLine.parseChars text with fault | _ | ⟨name, args, redirection⟩
  · exact ⟨.refl _, h⟩
  · exact ⟨.refl _, h⟩
  · dsimp only
    cases hname : Builtin.ofName? name with
    | none =>
      rw [perform_dispatch_unknown (Disk.files host format) args redirection hname]
      exact ⟨.refl _, h⟩
    | some b =>
      obtain ⟨own, hsession, hheld⟩ :=
        dispatch_leaves (Disk.files host format) args redirection hname
          ⟨before.1, streams, before.2⟩
      have hspares := b.link_of_run args ⟨before.1, own, before.2⟩ host format
      have hcommand := Physical.run b args (w := ⟨before.1, own, before.2⟩) h host format
      rw [hsession]
      cases redirection with
      | none =>
        rw [hheld]
        exact ⟨hspares, hcommand⟩
      | some r =>
        -- Writing the output makes no link either.
        obtain ⟨output, hheld⟩ := hheld
        obtain ⟨location, hlocation, hclear⟩ := hcommand
        rw [hheld]
        exact ⟨hspares.trans (Disk.link_of_answer _ _ host format), location, hlocation,
          hclear.spares (Disk.link_of_answer _ _ host format)⟩

/-- What any number of lines of input keep: there are no new links, and the working directory stays
physical. -/
theorem Physical.run_lines {start now : Session × Disk} (h : Physical start.1 start.2)
    (hrun : Relation.ReflTransGen LineStep start now) :
    Disk.Spares Disk.anywhere Disk.anywhere start.2 now.2 ∧ Physical now.1 now.2 := by
  induction hrun with
  | refl => exact ⟨.refl _, h⟩
  | tail _ hstep ih =>
    obtain ⟨hspares, hphysical⟩ := hstep.physical ih.2
    exact ⟨ih.1.trans hspares, hphysical⟩

/-- A session that starts in a canonical directory starts physical. -/
theorem physical_of_canonical {session : Session} {d : Disk}
    (h : d.canonical session.directory = .ok session.directory) : Physical session d := by
  obtain ⟨there, hwalk, hthere⟩ := Disk.canonical_eq_ok h
  exact ⟨there, hthere, (Disk.clear_of_walkSteps hwalk).1⟩

end Shell

/-! ## The directory above -/

/-- The steps of a path with `./..` read from it. -/
theorem Path.steps_join_up {directory : Path} (hne : directory.bytes ≠ [])
    (hslash : directory.bytes.getLast? ≠ some separator) :
    (directory.join (.ofString "./..")).steps = directory.steps ++ [.stay, .up] := by
  have hrelative : Path.isAbsolute (.ofString "./..") = false := by decide
  have hsplit : (Path.ofString "./..").bytes.splitOn separator = [[dot], [dot, dot]] := by decide
  have hlast : (separator :: (Path.ofString "./..").bytes).getLast? ≠ some separator := by decide
  rw [join, if_neg (by simp [hrelative]), if_neg (by simp [hne, hslash]), steps, steps,
    List.splitOn_append_cons_self, hsplit, List.filterMap_append, List.getLast?_append]
  simp [hslash, hlast, Step.ofSegment?]

/-- No path of a location is empty. -/
theorem ne_nil_path (location : Location) : location.path.bytes ≠ [] := by
  rw [← Path.ofNames_location]
  cases location <;> simp [Path.ofNames]

/-- Only the path of the root ends in a separator. -/
theorem getLast?_path (name : FileName) (above : Location) :
    (Location.path (name :: above)).bytes.getLast? ≠ some separator := by
  rw [← Path.ofNames_location]
  exact Path.getLast?_ofNames (Path.isName_of_legal name.legal) _

namespace Builtin

variable {w : World Disk} {name : FileName} {above : Location}

/-- From a directory that is physical `cd ..` leads to the directory above. -/
theorem perform_runCd_parent (hsession : w.session.directory = Location.path (name :: above))
    (hclear : w.held.Clear (name :: above))
    (hdirectory : w.held.isDirectory w.session.directory = true) :
    (runCd (Disk.files host format) [".."]).perform w =
      (.ok (), { w with session := { w.session with directory := above.path } }) := by
  rw [hsession] at hdirectory
  obtain ⟨hsize, hget⟩ := hclear.isDirectory_iff.1 hdirectory
  have hshort := Nat.lt_of_le_of_lt (Disk.size_path_le name above) hsize
  have habove := Disk.directory_of_get? hget
  have htarget : cdTarget w.session [".."] = .ok (above.path, "..") := by
    simp [cdTarget, hsession, Disk.parent_path_cons]
  obtain ⟨hlook, hcanonical⟩ := hclear.above.lookAt_and_canonical (by simp [habove])
    (List.append_nil _).symm Disk.walkLinks_nil (Disk.checkPath_path.2 hshort) habove hshort
  rw [perform_runCd htarget, hlook, hcanonical]

/-- The bytes of a location's path with `./..` read from it. -/
theorem join_up_path (name : FileName) (above : Location) :
    (Location.path (name :: above)).join (.ofString "./..") =
      ⟨(Location.path (name :: above)).bytes ++ separator :: (Path.ofString "./..").bytes⟩ := by
  have hne := ne_nil_path (name :: above)
  rw [Path.join, if_neg (by decide), if_neg (by simp [hne, getLast?_path name above])]

/-- From a directory that is physical `cd ./..` leads to the directory above, unless the path has no
room for that. -/
theorem perform_runCd_current_parent
    (hsession : w.session.directory = Location.path (name :: above))
    (hclear : w.held.Clear (name :: above))
    (hdirectory : w.held.isDirectory w.session.directory = true) :
    (runCd (Disk.files host format) ["./.."]).perform w =
      if w.session.directory.size + 5 < pathLimit then
        (.ok (), { w with session := { w.session with directory := above.path } })
      else (.error (.failed (.command (.noSuchDirectory "./.."))), w) := by
  rw [hsession] at hdirectory ⊢
  obtain ⟨hsize, hget⟩ := hclear.isDirectory_iff.1 hdirectory
  have hshort := Nat.lt_of_le_of_lt (Disk.size_path_le name above) hsize
  have htarget : cdTarget w.session ["./.."] =
      .ok ((Location.path (name :: above)).join (.ofString "./.."), "./..") := by
    simp [cdTarget, hsession, Session.resolve, Path.resolve]
  have hlong : ((Location.path (name :: above)).join (.ofString "./..")).size =
      (Location.path (name :: above)).size + 5 := by
    rw [join_up_path, Path.size, List.length_append]
    rfl
  rw [perform_runCd htarget]
  by_cases hroom : (Location.path (name :: above)).size + 5 < pathLimit
  · have hcheck : Disk.checkPath ((Location.path (name :: above)).join (.ofString "./..")) =
        .ok () := by
      have hnul := Disk.nul_notMem_path (name :: above)
      have hnone : 0 ∉ (Path.ofString "./..").bytes := by decide
      rw [Disk.checkPath_eq_ok, hlong]
      exact ⟨by simp [join_up_path, hnul, hnone], hroom, by simp [join_up_path]⟩
    -- Behind the directory `.` stays there, and `..` leads to the one above.
    have hup : w.held.walkLinks .use linkLimit (name :: above) [.stay, .up] =
        .ok (.found above) := by
      rw [Disk.walkLinks_pass hget rfl, Disk.walkLinks_pass hget rfl, Disk.walkLinks_nil]
      rfl
    have hsteps := Path.steps_join_up (ne_nil_path (name :: above)) (getLast?_path name above)
    obtain ⟨hlook, hcanonical⟩ := hclear.lookAt_and_canonical (by simp [hget]) hsteps hup hcheck
      (Disk.directory_of_get? hget) hshort
    rw [if_pos hroom, hlook, hcanonical]
  · rw [if_neg hroom]
    cases hlook : w.held.lookAt ((Location.path (name :: above)).join (.ofString "./..")) with
    | error => rfl
    | ok => exact absurd (hlong ▸ Disk.size_lt_of_lookAt hlook) hroom

end Builtin

namespace Shell

/-- A change of directory that does not stop ends in a directory, also when its output is written
to a file. -/
theorem isDirectory_of_cd {session : Session} {d : Disk} {shown streams : Streams}
    {text : List Char} {args : List String} {redirection : Option Redirection}
    (hline : CommandLine.parseChars text = .ok (some ⟨Builtin.cd.name, args, redirection⟩))
    (hok : ((Builtin.cd.run (Disk.files host format) args).perform ⟨session, shown, d⟩).1 =
      .ok ()) :
    let after := ((runLine (Disk.files host format) text).perform ⟨session, streams, d⟩).2
    after.held.isDirectory after.session.directory = true := by
  obtain ⟨own, hsession, hheld⟩ := dispatch_leaves (Disk.files host format) args redirection
    (Builtin.ofName?_name .cd) ⟨session, streams, d⟩
  simp only [runLine, hline]
  let command := ((Builtin.cd.run (Disk.files host format) args).perform ⟨session, own, d⟩).2
  obtain ⟨hkept, ⟨hfailed, -⟩ | ⟨there, -, hleft, hclear, hdirectory⟩⟩ :=
    Builtin.runCd_cases args ⟨session, own, d⟩
  · exact absurd ((Builtin.result_runCd args session own shown d).trans hok) hfailed
  · change command.held = d at hkept
    change command.session = _ at hleft
    rw [hsession, hleft]
    obtain ⟨hsize, hget⟩ := hclear.isDirectory_iff.1 hdirectory
    cases redirection with
    | none =>
      rw [hheld, hkept]
      exact hdirectory
    | some r =>
      -- Writing the output takes no directory away and puts no link on the way.
      obtain ⟨output, hheld⟩ := hheld
      rw [hheld, hkept]
      have hwrite := Disk.spares_answer d (.write (command.session.resolve r.target) output r.mode)
        host format
      exact (hclear.spares hwrite).isDirectory_iff.2
        ⟨hsize, (hwrite.directory hget).resolve_left id⟩

/-- The working directory stays physical. From a session that starts in a canonical directory, any
number of lines of input lead to a state where every link was there at the start with the same
target; where the working directory is an absolute path without `.` and `..`, and its own canonical
path if it has one; and where a `cd` that does not stop ends in a directory. From a working
directory that exists and is not the root, `cd ..` leads to the directory above, and so does
`cd ./..` unless that makes the path too long. -/
theorem directory_stays_physical {session : Session} {d : Disk} {now : Session × Disk}
    (hcanonical : d.canonical session.directory = .ok session.directory)
    (hrun : Relation.ReflTransGen LineStep (session, d) now) :
    (∀ location target, now.2.get? location = some (.link target) →
      d.get? location = some (.link target)) ∧
    (now.1.directory.isAbsolute = true ∧ .current ∉ now.1.directory.components ∧
      .parent ∉ now.1.directory.components) ∧
    (∀ p, now.2.canonical now.1.directory = .ok p → p = now.1.directory) ∧
    (∀ text args redirection shown streams,
      CommandLine.parseChars text = .ok (some ⟨Builtin.cd.name, args, redirection⟩) →
      ((Builtin.cd.run (Disk.files host format) args).perform ⟨now.1, shown, now.2⟩).1 = .ok () →
        let after := ((runLine (Disk.files host format) text).perform ⟨now.1, streams, now.2⟩).2
        after.held.isDirectory after.session.directory = true) ∧
    (now.2.isDirectory now.1.directory = true → now.1.directory ≠ .root →
      ∃ directory,
        (∀ streams, (runLine (Disk.files host format) "cd ..".toList).perform
            ⟨now.1, streams, now.2⟩ =
          (.ok (), ⟨{ now.1 with directory }, streams, now.2⟩)) ∧
        (now.1.directory.size + 5 < pathLimit →
          ∀ streams, (runLine (Disk.files host format) "cd ./..".toList).perform
              ⟨now.1, streams, now.2⟩ =
            (.ok (), ⟨{ now.1 with directory }, streams, now.2⟩))) := by
  obtain ⟨hspares, location, hlocation, hclear⟩ := (physical_of_canonical hcanonical).run_lines hrun
  have hnames : ∀ text ∈ location.map FileName.bytes, Path.IsName text :=
    fun _ => Path.isName_of_mem_location
  -- The directory spells a location that no link lies on, whatever has been removed since.
  refine ⟨fun _ _ => hspares.link, ?_, ?_, ?_, ?_⟩
  · rw [hlocation, ← Path.ofNames_location, Path.components_ofNames hnames]
    exact ⟨Path.isAbsolute_ofNames _, by simp, by simp⟩
  · intro p hp
    rw [hlocation] at hp ⊢
    exact hclear.eq_of_canonical hp
  · exact fun _ _ _ _ _ => isDirectory_of_cd
  · intro hdirectory hroot
    cases location with
    | nil => exact absurd hlocation hroot
    | cons name above =>
      have hparent : CommandLine.parseChars "cd ..".toList =
          .ok (some ⟨Builtin.cd.name, [".."], none⟩) := rfl
      have hcurrent : CommandLine.parseChars "cd ./..".toList =
          .ok (some ⟨Builtin.cd.name, ["./.."], none⟩) := rfl
      refine ⟨Location.path above, fun streams => ?_, fun hroom streams => ?_⟩
      · simp only [runLine, hparent]
        exact perform_dispatch_of_run (Disk.files host format)
          (Builtin.perform_runCd_parent (w := ⟨now.1, streams, now.2⟩) hlocation hclear hdirectory)
      · simp only [runLine, hcurrent]
        exact perform_dispatch_of_run (Disk.files host format)
          ((Builtin.perform_runCd_current_parent (w := ⟨now.1, streams, now.2⟩) hlocation hclear
            hdirectory).trans (if_pos hroom))

/-- One line from a directory below the root: the directory is still physical, and `cd ./..` leads
to the root. -/
theorem directory_stays_physical_below_root :
    let below : Location := [.ofString "a"]
    let start := (Session.start below.path .root, Disk.empty.put below .directory)
    let now := leave .reliable Archive.zip .unlimited "mkdir b".toList start
    start.2.canonical start.1.directory = .ok start.1.directory ∧
      Relation.ReflTransGen LineStep start now ∧
      (∀ p, now.2.canonical now.1.directory = .ok p → p = now.1.directory) ∧
      now.2.isDirectory now.1.directory = true ∧
      ∃ directory, ∀ streams,
        (runLine Disk.files "cd ./..".toList).perform ⟨now.1, streams, now.2⟩ =
          (.ok (), ⟨{ now.1 with directory }, streams, now.2⟩) := by
  intro below start now
  have hcanonical : start.2.canonical start.1.directory = .ok start.1.directory :=
    Disk.Plain.canonical_path (Disk.plain_of_entries (by decide)) (by decide) (by decide)
  have hrun : Relation.ReflTransGen LineStep start now :=
    .single ⟨.reliable, Archive.zip, .unlimited, _, rfl⟩
  obtain ⟨-, -, hphysical, -, hup⟩ := directory_stays_physical hcanonical hrun
  have hdirectory : now.2.isDirectory now.1.directory = true := by decide +kernel
  obtain ⟨directory, -, hcurrent⟩ := hup hdirectory (by decide +kernel)
  exact ⟨hcanonical, hrun, hphysical, hdirectory, directory, hcurrent (by decide +kernel)⟩

end Shell

/-! ## Where the path has no room -/

namespace Disk

/-- The disk that has the directories on the way to a location, and nothing else. -/
def nested : Location → Disk
  | [] => empty
  | name :: above => (nested above).put (name :: above) .directory

/-- What lies where on a disk of nested directories. -/
theorem get?_nested (location other : Location) :
    (nested location).get? other = if other <:+ location then some .directory else none := by
  induction location generalizing other with
  | nil => simp [nested]
  | cons name above ih =>
    have hnew : ¬name :: above <:+ above := fun h => Nat.not_succ_le_self _ h.length_le
    have hdir : (nested above).get? above = some .directory := by
      rw [ih, if_pos (List.suffix_refl _)]
    have hnone : (nested above).get? (name :: above) = none := by rw [ih, if_neg hnew]
    rw [nested, get?_put (accepts_of_vacant hdir hnone _), ih]
    simp only [List.suffix_cons_iff]
    split
    · next he => simp [he]
    · next hne => simp [hne]

/-- A disk of nested directories has no links. -/
theorem plain_nested (location : Location) : (nested location).Plain := by
  intro other target h
  rw [get?_nested] at h
  split at h <;> cases h

end Disk

/-- The bytes of the path of a location: its names, each behind a separator. -/
theorem size_path {location : Location} (h : location ≠ []) :
    location.path.size =
      location.foldr (fun name size => size + (name.bytes.length + 1)) 0 := by
  induction location with
  | nil => exact absurd rfl h
  | cons name above ih =>
    rw [← Path.ofNames_location, List.map_cons, Path.ofNames_cons, Path.ofNames_location]
    cases above with
    | nil => simp [Path.size]
    | cons next outer =>
      have houter := ih (by simp)
      simp only [Path.size] at houter
      simp only [List.map_cons, reduceCtorEq, if_false, Path.size, List.length_append,
        List.length_cons, houter, List.foldr_cons]

namespace FileName

/-- Up to 255 letters are a name. -/
theorem legal_letters {length : Nat} (hpos : 0 < length) (hmax : length ≤ 255) :
    Legal (.replicate length 0x61) := by
  have hmem : 0x61 ∈ List.replicate length (0x61 : UInt8) := by
    simpa using Nat.ne_of_gt hpos
  refine ⟨?_, ?_, ?_, by simp [separator], by simp, by simpa using hmax⟩
  all_goals
    intro he
    rw [he] at hmem
    revert hmem
    decide

/-- A name of so many letters. -/
def letters (length : Nat) (hpos : 0 < length) (hmax : length ≤ 255) : FileName :=
  ⟨_, legal_letters hpos hmax⟩

end FileName

/-- The innermost of sixteen nested directories. -/
def deepName : FileName := .letters 250 (by decide) (by decide)

/-- The fifteen directories above it. -/
def deepAbove : Location := .replicate 15 (.letters 255 (by decide) (by decide))

/-- The path of the sixteen directories has 4091 bytes. -/
theorem size_path_deep : (Location.path (deepName :: deepAbove)).size = 4091 := by
  have hinner : deepName.bytes.length = 250 := List.length_replicate
  have houter : (FileName.letters 255 (by decide) (by decide)).bytes.length = 255 :=
    List.length_replicate
  rw [size_path (by simp), deepAbove]
  -- Only the sizes of the names matter, so the names themselves are not spelled out.
  generalize FileName.letters 255 _ _ = outer at houter
  simp only [List.replicate, List.foldr, hinner, houter]

/-- From a directory whose path has no room for four more bytes and a separator `cd ..` leads to the
directory above, but `cd ./..` does not. -/
theorem cd_without_room {name : FileName} {above : Location}
    (hsize : (Location.path (name :: above)).size < pathLimit)
    (hlong : ¬(Location.path (name :: above)).size + 5 < pathLimit) :
    let session := Session.start (Location.path (name :: above)) .root
    let d := Disk.nested (name :: above)
    d.canonical session.directory = .ok session.directory ∧
      d.isDirectory session.directory = true ∧
      ((Builtin.cd.run Disk.files [".."]).perform ⟨session, .unlimited, d⟩).1 = .ok () ∧
      ((Builtin.cd.run Disk.files ["./.."]).perform ⟨session, .unlimited, d⟩).1 =
        .error (.failed (.command (.noSuchDirectory "./.."))) := by
  intro session d
  have hget : d.get? (name :: above) = some .directory := by
    rw [Disk.get?_nested, if_pos (List.suffix_refl _)]
  have hclear : d.Clear (name :: above) := fun outer _ => Disk.plain_nested _ outer
  have hdirectory : d.isDirectory session.directory = true :=
    hclear.isDirectory_iff.2 ⟨hsize, hget⟩
  refine ⟨(Disk.plain_nested _).canonical_path (by rw [hget]; rfl) hsize, hdirectory, ?_, ?_⟩
  · exact congrArg Prod.fst
      (Builtin.perform_runCd_parent (w := ⟨session, .unlimited, d⟩) rfl hclear hdirectory)
  · exact congrArg Prod.fst ((Builtin.perform_runCd_current_parent
      (w := ⟨session, .unlimited, d⟩) rfl hclear hdirectory).trans (if_neg hlong))

/-- From a directory that exists, is not the root and has a path of 4091 bytes, `cd ..` leads to the
directory above, but `cd ./..` does not. -/
theorem cd_current_parent_too_long :
    let session := Session.start (Location.path (deepName :: deepAbove)) .root
    let d := Disk.nested (deepName :: deepAbove)
    (d.canonical session.directory = .ok session.directory ∧
      d.isDirectory session.directory = true ∧
      ((Builtin.cd.run Disk.files [".."]).perform ⟨session, .unlimited, d⟩).1 = .ok () ∧
      ((Builtin.cd.run Disk.files ["./.."]).perform ⟨session, .unlimited, d⟩).1 =
        .error (.failed (.command (.noSuchDirectory "./..")))) ∧
    session.directory ≠ .root := by
  refine ⟨cd_without_room (by rw [size_path_deep]; decide) (by rw [size_path_deep]; decide), ?_⟩
  intro he
  have hroot := size_path_deep.symm.trans (congrArg Path.size he)
  revert hroot
  decide

end CommandShell
