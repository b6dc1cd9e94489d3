import CommandShell.Proofs.Footprints
import CommandShell.Proofs.OperandsInTurn
import Mathlib.Data.List.Basic

/-!
# Making and removing again

What is made where nothing lies can be removed under the same path, and then the disk is what it
was. The commands look the path up in different ways, each with refusals of its own, but they agree
on whether there is a vacant place behind it.

## Main definitions

* `Host.SetsTime`: the time of the file at a path can be set, also when it has just been made.
* `Refuses`: a command line that reports something and changes nothing else.
* `TakesBack`: two commands of which the second one takes back the first one.
* `Undone`: the same, and both of them are reported on, or none is.

## Main results

* `Disk.removeFile_of_openFile` and `Disk.removeDirectory_of_makeDirectory`: the calls that take
  back another one;
* `dispatch_undone`: `rm` takes back `touch`, and `rmdir` takes back `mkdir`.
-/

namespace CommandShell

open ShellM

namespace Disk

variable {d : Disk}

/-! ## Vacant places -/

/-- A walk that ends well ends at the same spot when a link at its end is meant itself, or else at
that link. -/
theorem Ends.walkLinks_useLink {purpose : Purpose} {links : Nat} {here : Location}
    {steps : List Step} {spot : Spot} (h : Ends d purpose links here steps spot) :
    d.walkLinks .useLink links here steps = .ok spot ∨
      ∃ found, d.walkLinks .useLink links here steps = .ok (.found found) := by
  -- Along the way every link is followed for either purpose, so only its end can differ.
  induction h with
  | done => exact .inl walkLinks_nil
  | pass hdir hpast _ ih => rwa [walkLinks_pass hdir hpast]
  | @vacant _ here name hdir hnone =>
    refine .inl ?_
    rw [walkLinks_eq, walkFrom]
    simp [hdir, hnone]
  | enter hget hlink _ ih => rwa [walkLinks_enter hget hlink (by simp)]
  | @atLink _ here name _ hget _ =>
    refine .inl ?_
    rw [walkLinks_eq, walkFrom]
    simp [directory_of_get? hget, hget]
  | @follow _ here name _ rest _ hget _ _ ih =>
    by_cases hrest : rest = []
    · -- The link itself is what the path names.
      subst hrest
      refine .inr ⟨name :: here, ?_⟩
      rw [walkLinks_eq, walkFrom]
      simp [directory_of_get? hget, hget]
    · rwa [walkLinks_behind hget (by simp) (by simp [hrest])]

/-- Where nothing lies at a path, the place that a file would be made at is the place that the path
names. -/
theorem walk_of_absent {p : Path} {spot : Spot} (habsent : d.isPresent p = false)
    (hwalk : d.walk .makeFile p = .ok spot) :
    d.walk .useLink p = .ok spot ∧ ∃ above name, spot = .vacant above name := by
  have hnone : ∀ found, d.walk .useLink p ≠ .ok (.found found) := by
    intro found hfound
    rw [isPresent, find_eq_ok.2 hfound] at habsent
    cases habsent
  obtain ⟨hcheck, hsteps⟩ := walk_eq_ok hwalk
  have hlink : d.walk .useLink p = d.walkSteps .useLink p.steps := by rw [walk, hcheck]
  rcases (ends_of_walkLinks hsteps).walkLinks_useLink with hsame | ⟨found, hfound⟩
  · have huse : d.walk .useLink p = .ok spot := hlink.trans hsame
    refine ⟨huse, ?_⟩
    cases spot with
    | found location => exact absurd huse (hnone location)
    | vacant above name => exact ⟨above, name, rfl⟩
  · exact absurd (hlink.trans hfound) (hnone found)

/-- Nothing lies in what is put where nothing lay. -/
theorem children_put_of_none {location : Location} {entry : Entry}
    (hnone : d.get? location = none) :
    (d.put location entry).children location = [] := by
  refine List.eq_nil_iff_forall_not_mem.2 fun inner hmem => ?_
  obtain ⟨entry, hget⟩ := Option.isSome_iff_exists.1 ((mem_children_iff _ _ _).1 hmem)
  rw [get?_put_of_ne d _ (by simp)] at hget
  rw [directory_of_get? hget] at hnone
  cases hnone

/-- Disks with the same entries are the same. -/
theorem eq_of_entries {other : Disk} (h : d.entries = other.entries) : d = other := by
  cases d
  cases other
  subst h
  rfl

/-- An entry is put at the end where none was. -/
theorem placeIn_of_notMem {entries : List (Location × Entry)} {location : Location}
    (h : location ∉ entries.map Prod.fst) (entry : Entry) :
    placeIn entries location entry = entries ++ [(location, entry)] := by
  induction entries with
  | nil => rfl
  | cons placed rest ih =>
    rw [List.map_cons, List.mem_cons, not_or] at h
    rw [placeIn, if_neg (Ne.symm h.1), ih h.2, List.cons_append]

/-- Removing what was put where nothing lay gives back the disk, down to the order of its
entries. -/
theorem remove_put {above : Location} {name : FileName} (hdir : d.get? above = some .directory)
    (hnone : d.get? (name :: above) = none) (entry : Entry) :
    (d.put (name :: above) entry).remove (name :: above) = d := by
  have haccepts : d.Accepts (name :: above) entry := accepts_of_vacant hdir hnone entry
  have hremovable : (d.put (name :: above) entry).Removable (name :: above) :=
    ⟨List.cons_ne_nil name above, children_put_of_none hnone⟩
  have hnot : name :: above ∉ d.entries.map Prod.fst := by
    intro hmem
    rw [← lookup_isSome_iff] at hmem
    rw [get?, entryAt, if_neg (List.cons_ne_nil name above)] at hnone
    simp [hnone] at hmem
  apply eq_of_entries
  rw [remove, dif_pos hremovable]
  simp only [put, dif_pos haccepts, placeIn_of_notMem hnot, clearIn, List.filter_append]
  -- The entry went to the end of the list, and the others stand where they stood.
  have hkept : d.entries.filter (·.1 ≠ name :: above) = d.entries :=
    List.filter_eq_self.2 fun placed hplaced => decide_eq_true fun he =>
      hnot (he ▸ List.mem_map_of_mem hplaced)
  rw [hkept]
  simp

/-! ## Calls that take back another one -/

/-- What is removed as a file is what a path names, links at its end left alone. -/
theorem removeFile_of_walk {p : Path} {location : Location}
    (hwalk : d.walk .useLink p = .ok (.found location))
    (hdir : d.get? location ≠ some .directory) : d.removeFile p = .ok (d.remove location) := by
  simp [removeFile, find_eq_ok.2 hwalk, hdir, bind, Except.bind]

/-- A file that was made where nothing lay is removed again. -/
theorem removeFile_of_openFile {p : Path} {location : Location} {opened : Disk}
    (habsent : d.isPresent p = false) (hopen : d.openFile p = .ok (location, opened)) :
    opened.removeFile p = .ok d := by
  obtain ⟨spot, hwalk, -, -⟩ := openFile_eq_ok hopen
  obtain ⟨hlink, above, name, rfl⟩ := walk_of_absent habsent hwalk
  obtain ⟨hdir, hnone⟩ := (ends_of_walkLinks (walk_eq_ok hlink).2).of_vacant
  obtain ⟨-, rfl⟩ : location = name :: above ∧ opened = d.put (name :: above) (.file []) := by
    simpa [openFile, hwalk, bind, Except.bind, eq_comm] using hopen
  have hget : (d.put (name :: above) (.file [])).get? (name :: above) = some (.file []) := by
    rw [get?_put (accepts_of_vacant hdir hnone _), if_pos rfl]
  -- The path leads to the place, as no link on the way has changed.
  have hkeeps : d.KeepsLinks (d.put (name :: above) (.file [])) :=
    keepsLinks_put (by simp [hnone]) []
  have hfound := hkeeps.walk hlink (by rw [Spot.location, hget]; rfl)
  rw [removeFile_of_walk hfound (by rw [Spot.location, hget]; simp), Spot.location,
    remove_put hdir hnone]

/-- Where nothing lies at a path, nothing is removed as a file. -/
theorem removeFile_of_absent {p : Path} (habsent : d.isPresent p = false) :
    ∃ refusal, d.removeFile p = .error refusal := by
  cases hfind : d.find .useLink p with
  | error refusal => exact ⟨refusal, by simp [removeFile, hfind, bind, Except.bind]⟩
  | ok location =>
    rw [isPresent, hfind] at habsent
    cases habsent

/-- Where nothing lies at a path, it leads nowhere. -/
theorem lookAt_of_absent {p : Path} (habsent : d.isPresent p = false) :
    ∃ refusal, d.lookAt p = .error refusal := by
  cases hlook : d.lookAt p with
  | error refusal => exact ⟨refusal, rfl⟩
  | ok entry =>
    obtain ⟨location, hwalk, -⟩ := lookAt_eq_ok.1 hlook
    rw [isPresent_of_find (find_eq_ok.2 hwalk)] at habsent
    cases habsent

/-- A walk that ends at a vacant place ends with a name. -/
theorem Ends.getLast?_of_vacant {purpose : Purpose} {links : Nat} {here above : Location}
    {name : FileName} {steps : List Step}
    (h : Ends d purpose links here steps (.vacant above name)) :
    ∃ text, steps.getLast? = some (.name text) := by
  generalize hspot : Spot.vacant above name = spot at h
  induction h with
  | done | atLink => cases hspot
  | vacant => exact ⟨_, rfl⟩
  | pass _ _ _ ih | enter _ _ _ ih =>
    obtain ⟨text, hlast⟩ := ih hspot
    exact ⟨text, by rw [List.getLast?_cons, hlast]; rfl⟩
  | @follow _ _ _ _ rest _ _ _ _ ih =>
    by_cases hrest : rest = []
    · exact ⟨_, by rw [hrest]; rfl⟩
    · obtain ⟨text, hlast⟩ := ih hspot
      rw [List.getLast?_append_of_ne_nil _ hrest] at hlast
      exact ⟨text, by rw [List.getLast?_cons, hlast]; rfl⟩

/-- A directory that was made is removed again. -/
theorem removeDirectory_of_makeDirectory {p : Path} {made : Disk}
    (h : d.makeDirectory p = .ok made) :
    made.removeDirectory p = .ok d := by
  obtain ⟨hcheck, above, name, hwalk, hdir, hnone, rfl⟩ := makeDirectory_eq_ok h
  have hget : (d.put (name :: above) .directory).get? (name :: above) = some .directory := by
    rw [get?_put (accepts_of_vacant hdir hnone _), if_pos rfl]
  have hfound : (d.put (name :: above) .directory).walkSteps .useLink (Step.dropSlash p.steps) =
      .ok (.found (name :: above)) :=
    (grows_put hdir hnone).keepsLinks.walkLinks hwalk (by rw [Spot.location, hget]; rfl)
  -- A path that ends in a dot is refused, but no such path led to the vacant place.
  obtain ⟨text, hlast⟩ := (ends_of_walkLinks hwalk).getLast?_of_vacant
  simp only [removeDirectory, hcheck, hlast, hfound, bind, Except.bind, hget,
    children_put_of_none hnone, ne_eq, not_true_eq_false, if_false, remove_put hdir hnone]

end Disk

/-! ## Command lines -/

/-- The machine can set the time of the file at a path, which is made when nothing lies there. -/
def Host.SetsTime (host : Host) (d : Disk) (p : Path) : Prop :=
  ∀ location opened, d.openFile p = .ok (location, opened) → host.keepsTime opened location = none

/-- A command line reports something, and leaves the disk and the session as they are. -/
def Refuses (files : FileSystem Disk) (line : CommandLine) (w : World Disk) : Prop :=
  let after := ((dispatch files line).perform w).2
  after.held = w.held ∧ after.session = w.session ∧ after.streams.log ≠ w.streams.log

/-- A second command line takes back the first one: the disk is the same as before, down to the
order of its entries, and the session is. -/
def TakesBack (files : FileSystem Disk) (first second : CommandLine) (w : World Disk) : Prop :=
  let middle := ((dispatch files first).perform w).2
  let after := ((dispatch files second).perform middle).2
  after.held = w.held ∧ after.session = w.session

/-- A second command line takes back the first one, and reports something when the first one does,
and only then. -/
def Undone (files : FileSystem Disk) (first second : CommandLine) (w : World Disk) : Prop :=
  let middle := ((dispatch files first).perform w).2
  let after := ((dispatch files second).perform middle).2
  TakesBack files first second w ∧
    (after.streams.log = middle.streams.log ↔ middle.streams.log = w.streams.log)

/-- A report is logged. -/
theorem log_report_ne {σ : Type} (text : String) (w : World σ) :
    (report text w).streams.log ≠ w.streams.log := by
  simp [report, Streams.write]

variable {files : FileSystem Disk} {host : Host} {format : Archive.Format}

/-- A command that fails before it does anything is refused. -/
theorem refuses_of_failed {b : Builtin} {args : List String} {w : World Disk} {fault : Fault}
    (h : (b.run files args).perform w = (.error (.failed fault), w)) :
    Refuses files ⟨b.name, args, none⟩ w := by
  rw [Refuses, perform_dispatch_plain files args (Builtin.ofName?_name b), invoke, h]
  exact ⟨rfl, rfl, log_report_ne _ w⟩

namespace Undone

variable {first second : CommandLine} {w : World Disk}

/-- What was done is taken back. -/
theorem of_done {made : Disk}
    (hfirst : (dispatch files first).perform w = (.ok (), { w with held := made }))
    (hsecond : (dispatch files second).perform { w with held := made } = (.ok (), w)) :
    Undone files first second w := by
  rw [Undone, TakesBack, hfirst, hsecond]
  exact ⟨⟨rfl, rfl⟩, iff_of_true rfl rfl⟩

/-- Where nothing was done nothing is taken back. -/
theorem of_refused (hfirst : Refuses files first w)
    (hsecond : ∀ middle : World Disk, middle.held = w.held → middle.session = w.session →
      Refuses files second middle) : Undone files first second w := by
  obtain ⟨hheld, hsession, hlog⟩ := hfirst
  obtain ⟨hheld', hsession', hlog'⟩ := hsecond _ hheld hsession
  exact ⟨⟨hheld'.trans hheld, hsession'.trans hsession⟩, iff_of_false hlog' hlog⟩

end Undone

namespace Builtin

variable {w : World Disk} {typed : String}

/-- `touch` makes one request. -/
theorem perform_runTouch (typed : String) (w : World Disk) :
    (touch.run (Disk.files host format) [typed]).perform w =
      ((w.held.touch (w.session.resolve typed) host).1,
        { w with held := (w.held.touch (w.session.resolve typed) host).2 }) := rfl

/-- `rm` makes one request. -/
theorem perform_runRm (typed : String) (w : World Disk) :
    (rm.run (Disk.files host format) [typed]).perform w =
      let removed := w.held.changing .remove (w.session.resolve typed)
        (w.held.removeFile (w.session.resolve typed))
      (removed.1, { w with held := removed.2 }) := rfl

/-- Where nothing lies there is no file to be removed. -/
theorem refuses_rm (habsent : w.held.isPresent (w.session.resolve typed) = false) :
    Refuses (Disk.files host format) ⟨rm.name, [typed], none⟩ w := by
  obtain ⟨refusal, hremove⟩ := Disk.removeFile_of_absent habsent
  have hrun : (rm.run (Disk.files host format) [typed]).perform w =
      (.error (.failed (.refused .remove (w.session.resolve typed) refusal)), w) := by
    rw [perform_runRm, hremove]
    rfl
  exact refuses_of_failed hrun

/-- Where nothing lies there is no directory to be removed. -/
theorem refuses_rmdir (habsent : w.held.isPresent (w.session.resolve typed) = false)
    (htyped : typed ≠ "*") : Refuses (Disk.files host format) ⟨rmdir.name, [typed], none⟩ w := by
  obtain ⟨refusal, hlook⟩ := Disk.lookAt_of_absent habsent
  have hkind : (Disk.files host format).answer (.kindOf (w.session.resolve typed)) w.held =
      (.error (.failed (.refused .stat (w.session.resolve typed) refusal)), w.held) := by
    rw [Disk.answer_kindOf, hlook]
    rfl
  have hrun : (rmdir.run (Disk.files host format) [typed]).perform w =
      (.error (.failed (.refused .stat (w.session.resolve typed) refusal)), w) := by
    rw [run, runRmdir, if_neg htyped]
    simp only [perform_bind, perform_resolve, perform_request, hkind]
  exact refuses_of_failed hrun

/-- A directory that cannot be made is not, and this is reported, whether there is room for it or
not. -/
theorem refuses_mkdir {refusal : Refusal}
    (h : w.held.makeDirectory (w.session.resolve typed) = .error refusal) :
    Refuses (Disk.files host format) ⟨mkdir.name, [typed], none⟩ w := by
  have hrun : (mkdir.run (Disk.files host format) [typed]).perform w =
      (write .err (makeComplaint (w.session.resolve typed) refusal) >>= fun _ =>
        makeEach (Disk.files host format) []).perform w := perform_makeEach_of_refused [] h
  rw [Refuses, perform_dispatch_plain (Disk.files host format) [typed]
    (Builtin.ofName?_name mkdir), invoke, hrun, perform_bind, perform_write]
  generalize makeComplaint (w.session.resolve typed) refusal = complaint
  -- A complaint that does not fit is followed by a report of that.
  rcases (w.streams.write .err complaint).1 with fault | _
  · exact ⟨rfl, rfl, by simp [ofWrite, report, Streams.write]⟩
  · exact ⟨rfl, rfl, by simp [ofWrite, makeEach, Streams.write]⟩

/-- Where nothing lies, the disk is what it was when `rm` follows `touch`, also when the time of the
file could not be set. -/
theorem takesBack_touch (habsent : w.held.isPresent (w.session.resolve typed) = false) :
    TakesBack (Disk.files host format) ⟨touch.name, [typed], none⟩ ⟨rm.name, [typed], none⟩ w := by
  have htouch : Builtin.ofName? touch.name = some touch := Builtin.ofName?_name touch
  have hrm : Builtin.ofName? rm.name = some rm := Builtin.ofName?_name rm
  rw [TakesBack, perform_dispatch_plain _ _ htouch, perform_dispatch_plain _ _ hrm, held_invoke,
    session_invoke, perform_runRm]
  simp only [held_invoke, session_invoke, perform_runTouch, and_true]
  cases hopen : w.held.openFile (w.session.resolve typed) with
  | error refusal =>
    obtain ⟨absence, hremove⟩ := Disk.removeFile_of_absent habsent
    simp only [Disk.touch, hopen, hremove, Disk.changing]
  | ok result =>
    obtain ⟨location, opened⟩ := result
    have hremove := Disk.removeFile_of_openFile habsent hopen
    cases hkeeps : host.keepsTime opened location <;>
      simp only [Disk.touch, hopen, hkeeps, hremove, Disk.changing]

/-- `rm` takes back `touch` where nothing lies, on a machine that sets the time of the file. -/
theorem undone_touch (habsent : w.held.isPresent (w.session.resolve typed) = false)
    (hsets : host.SetsTime w.held (w.session.resolve typed)) :
    Undone (Disk.files host format) ⟨touch.name, [typed], none⟩ ⟨rm.name, [typed], none⟩ w := by
  cases hopen : w.held.openFile (w.session.resolve typed) with
  | error refusal =>
    have htouch : (touch.run (Disk.files host format) [typed]).perform w =
        (.error (.failed (.refused .touch (w.session.resolve typed) refusal)), w) := by
      rw [perform_runTouch, Disk.touch, hopen]
    exact .of_refused (refuses_of_failed htouch) fun middle hheld hsession =>
      refuses_rm (by rwa [hheld, hsession])
  | ok result =>
    obtain ⟨location, opened⟩ := result
    have htouch : (touch.run (Disk.files host format) [typed]).perform w =
        (.ok (), { w with held := opened }) := by
      rw [perform_runTouch, Disk.touch, hopen]
      simp only [hsets location opened hopen]
    have hrm : (rm.run (Disk.files host format) [typed]).perform { w with held := opened } =
        (.ok (), w) := by
      rw [perform_runRm, Disk.removeFile_of_openFile habsent hopen]
      rfl
    exact .of_done (perform_dispatch_of_run _ htouch) (perform_dispatch_of_run _ hrm)

/-- `rmdir` takes back `mkdir` where nothing lies. -/
theorem undone_mkdir (habsent : w.held.isPresent (w.session.resolve typed) = false)
    (htyped : typed ≠ "*") :
    Undone (Disk.files host format) ⟨mkdir.name, [typed], none⟩ ⟨rmdir.name, [typed], none⟩ w := by
  cases hmake : w.held.makeDirectory (w.session.resolve typed) with
  -- Nothing lies there either way, so what is not made cannot be removed.
  | error refusal =>
    exact .of_refused (refuses_mkdir hmake) fun middle hheld hsession =>
      refuses_rmdir (by rwa [hheld, hsession]) htyped
  | ok made =>
    have hmkdir : (mkdir.run (Disk.files host format) [typed]).perform w =
        (.ok (), { w with held := made }) := perform_makeEach_of_made [] hmake
    have hkind : (Disk.files host format).answer (.kindOf (w.session.resolve typed)) made =
        (.ok .directory, made) := by
      rw [Disk.answer_kindOf, Disk.isDirectory_eq_true.1 (Disk.isDirectory_of_makeDirectory hmake)]
      rfl
    have hanswer : (Disk.files host format).answer
        (.removeDirectory (w.session.resolve typed)) made = (.ok (), w.held) := by
      rw [Disk.answer_removeDirectory, Disk.removeDirectory_of_makeDirectory hmake]
      rfl
    have hrmdir : (rmdir.run (Disk.files host format) [typed]).perform { w with held := made } =
        (.ok (), w) := by
      rw [run, runRmdir, if_neg htyped]
      simp only [perform_bind, perform_resolve, perform_request, hkind, hanswer]
    exact .of_done (perform_dispatch_of_run (Disk.files host format) hmkdir)
      (perform_dispatch_of_run (Disk.files host format) hrmdir)

end Builtin

/-- Where nothing lies, not even a link that leads nowhere, `rm` takes back `touch`, and `rmdir`
takes back `mkdir` unless it means all empty directories. Only a machine that cannot set the time of
the file that `touch` has made leaves a file behind a report, and `rm` takes back that file too. -/
theorem dispatch_undone {w : World Disk} {typed : String} (host : Host) (format : Archive.Format)
    (habsent : w.held.isPresent (w.session.resolve typed) = false) :
    let files := Disk.files host format
    (TakesBack files ⟨"touch", [typed], none⟩ ⟨"rm", [typed], none⟩ w ∧
        (host.SetsTime w.held (w.session.resolve typed) →
          Undone files ⟨"touch", [typed], none⟩ ⟨"rm", [typed], none⟩ w)) ∧
      (typed ≠ "*" → Undone files ⟨"mkdir", [typed], none⟩ ⟨"rmdir", [typed], none⟩ w) :=
  ⟨⟨Builtin.takesBack_touch habsent, Builtin.undone_touch habsent⟩,
    Builtin.undone_mkdir habsent⟩

/-- A file and a directory are made behind a link and removed again. -/
theorem dispatch_undone_behind_link :
    let d := (Disk.empty.put [.ofString "d"] .directory).put [.ofString "l"]
      (.link (.ofString "d"))
    let w : World Disk := ⟨Session.start .root .root, .unlimited, d⟩
    let place : Location := [.ofString "n", .ofString "d"]
    w.held.isPresent (w.session.resolve "l/n") = false ∧
      Host.reliable.SetsTime w.held (w.session.resolve "l/n") ∧
      ((dispatch Disk.files ⟨"touch", ["l/n"], none⟩).perform w).2.held.get? place =
        some (.file []) ∧
      Undone Disk.files ⟨"touch", ["l/n"], none⟩ ⟨"rm", ["l/n"], none⟩ w ∧
      ((dispatch Disk.files ⟨"mkdir", ["l/n"], none⟩).perform w).2.held.get? place =
        some .directory ∧
      Undone Disk.files ⟨"mkdir", ["l/n"], none⟩ ⟨"rmdir", ["l/n"], none⟩ w := by
  intro d w place
  have habsent : w.held.isPresent (w.session.resolve "l/n") = false := by decide +kernel
  have hsets : Host.reliable.SetsTime w.held (w.session.resolve "l/n") := fun _ _ _ => rfl
  obtain ⟨⟨-, hfile⟩, hdirectory⟩ := dispatch_undone .reliable Archive.zip habsent
  exact ⟨habsent, hsets, by decide +kernel, hfile hsets, by decide +kernel,
    hdirectory (by decide)⟩

end CommandShell
