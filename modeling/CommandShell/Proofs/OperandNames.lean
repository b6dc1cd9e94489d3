import CommandShell.Proofs.Breakdowns
import CommandShell.Proofs.CyclicTrees
import CommandShell.Proofs.NormalForms
import CommandShell.Proofs.ShownFiles
import Mathlib.Data.List.DropRight

/-!
# The names of operands

What is copied into a directory, or stored in an archive, goes by the last name of the canonical
path of its operand. So `.` and `..` in the operand play no part, but a link does: the name is that
of what the link leads to. Here it is shown that the last name of the operand itself makes a
difference only when it is the name of a link, whatever links lie on the way to it.

## Main definitions

* `Disk.NamesLink`: the last name of a path is that of a symbolic link.
* `Disk.GoesBy`: the name that an operand goes by.
* `Disk.CopiedTo`: a file, or a directory with everything in it, is there once more.
* `Builtin.Stored`: an archive with some names was written, and its names were shown.

## Main results

* `Disk.eq_cons_of_walkSteps`: a path whose last name is not that of a link leads to something of
  that name;
* `run_of_unreported`: a command that reports nothing came to its end;
* `Disk.mirrors_copyTree`: a copy of a directory has whatever can be reached from the directory;
* `dispatch_names_operands`: what `cp` and `zip` do with the name of an operand;
* `dispatch_renames_link`: an operand that is a link loses its name.
-/

namespace CommandShell

/-! ## The last name of a path -/

namespace Step

/-- Whether a step leads nowhere: `.`, or a separator at the end. -/
def isIdle : Step → Bool
  | stay | slash => true
  | _ => false

/-- Segments whose last component is a name ask for that name last, but for steps that lead
nowhere. -/
theorem exists_front {segments : List Bytes} {name : Bytes}
    (h : (segments.filterMap Component.ofSegment?).getLast? = some (.normal name)) :
    ∃ front, (segments.filterMap ofSegment?).rdropWhile isIdle = front ++ [.name name] := by
  -- The induction looks at the segments from the end, up to the first one that is a component.
  induction segments using List.reverseRecOn with
  | nil => cases h
  | append_singleton segments segment ih =>
    rw [List.filterMap_append] at h ⊢
    by_cases hempty : segment = []
    · subst hempty
      simpa [Component.ofSegment?, ofSegment?] using ih (by simpa [Component.ofSegment?] using h)
    by_cases hcurrent : segment = [dot]
    · subst hcurrent
      have hidle : [[dot]].filterMap ofSegment? = [stay] := rfl
      rw [hidle, List.rdropWhile_concat_pos _ _ _ rfl]
      exact ih (by simpa [Component.ofSegment?] using h)
    by_cases hparent : segment = [dot, dot]
    · subst hparent
      simp [Component.ofSegment?] at h
    · obtain rfl : segment = name := by
        simpa [Component.ofSegment?, hempty, hcurrent, hparent] using h
      have hname : [segment].filterMap ofSegment? = [name segment] := by
        simp [ofSegment?, hempty, hcurrent, hparent]
      rw [hname, List.rdropWhile_concat_neg _ _ _ (by simp [isIdle])]
      exact ⟨_, rfl⟩

end Step

namespace Path

variable {p : Path} {name : Bytes}

/-- The last name of a path is the last of its parts. -/
theorem getLast?_parts (h : p.fileName = some name) : p.parts.getLast? = some (.normal name) := by
  have hlast : p.components.getLast? = some (.normal name) := by
    unfold fileName at h
    split at h
    · next hnormal => rw [hnormal, Option.some.inj h]
    · cases h
  -- Neither the root nor a `.` at the start is a name.
  have hbehind : ∀ front : List Component, (∀ c ∈ front, c ≠ .normal name) →
      (front ++ p.parts).getLast? = some (.normal name) →
        p.parts.getLast? = some (.normal name) := by
    intro front hfront hall
    rw [List.getLast?_append] at hall
    cases hparts : p.parts.getLast? with
    | some c => rwa [hparts, Option.some_or] at hall
    | none =>
      rw [hparts, Option.none_or] at hall
      exact absurd rfl (hfront _ (List.mem_of_getLast? hall))
  rcases p.components_eq with hparts | ⟨-, -, hparts⟩
  · rw [hparts] at hlast
    refine hbehind _ (fun c hc => ?_) hlast
    split at hc
    · rw [List.mem_singleton.1 hc]
      simp
    · cases hc
  · rw [hparts] at hlast
    exact hbehind [.current] (by simp) hlast

/-- The last name of a typed path is the last part of what it is read as. -/
theorem getLast?_parts_join (directory : Path) (h : p.fileName = some name) :
    (directory.join p).parts.getLast? = some (.normal name) := by
  have hlast := getLast?_parts h
  by_cases habsolute : p.isAbsolute = true
  · rwa [join, if_pos habsolute]
  · rw [parts_join directory (by simpa using habsolute), List.getLast?_append, hlast,
      Option.some_or]

/-- A path whose last part is a name asks for that name last, but for steps that lead nowhere. -/
theorem exists_front (h : p.parts.getLast? = some (.normal name)) :
    ∃ front, p.steps.rdropWhile Step.isIdle = front ++ [.name name] := by
  rw [steps]
  by_cases hslash : (p.bytes.splitOn separator).filterMap Step.ofSegment? ≠ [] ∧
      p.bytes.getLast? = some separator
  · rw [if_pos hslash, List.rdropWhile_concat_pos _ _ _ rfl]
    exact Step.exists_front h
  · rw [if_neg hslash]
    exact Step.exists_front h

end Path

namespace Disk

variable {d : Disk}

/-- The last name of a path is that of a symbolic link. What stands behind the name leads
nowhere. -/
def NamesLink (d : Disk) (p : Path) : Prop :=
  ∃ location target,
    d.walkSteps .useLink (p.steps.rdropWhile Step.isIdle) = .ok (.found location) ∧
      d.get? location = some (.link target)

/-- Steps that lead nowhere end where they start. -/
theorem Leads.eq_of_idle {links : Nat} {here there : Location} {steps : List Step}
    (h : Leads d links here steps there) (hidle : ∀ step ∈ steps, step.isIdle) : there = here := by
  induction h with
  | done => rfl
  | @pass _ _ _ _ step _ _ hpast _ ih =>
    have hfirst := hidle step List.mem_cons_self
    have hrest := ih fun other hother => hidle other (List.mem_cons_of_mem _ hother)
    cases step with
    | stay | slash => exact hrest.trans (Option.some.inj hpast).symm
    | up | name => cases hfirst
  | enter | follow => cases hidle _ List.mem_cons_self

/-- A path whose last name is not that of a link leads to something of that name, whatever links lie
on the way. -/
theorem eq_cons_of_walkSteps {p : Path} {own : Bytes} {there : Location}
    (hown : p.parts.getLast? = some (.normal own))
    (hwalk : d.walkSteps .use p.steps = .ok (.found there)) (hlink : ¬d.NamesLink p) :
    ∃ name above, there = name :: above ∧ name.bytes = own := by
  obtain ⟨front, hfront⟩ := Path.exists_front hown
  obtain ⟨used, hused, hleads⟩ := walkLinks_use_iff.1 hwalk
  -- The way is cut behind the last name and before it.
  rw [← List.rdropWhile_append_rtakeWhile (p := Step.isIdle) (l := p.steps), hfront] at hleads
  obtain ⟨before, after, last, rfl, hbefore, hafter⟩ := hleads.split
  obtain rfl := hafter.eq_of_idle fun _ => List.mem_rtakeWhile_imp
  obtain ⟨outer, inner, above, rfl, houter, hinner⟩ := hbefore.split
  generalize hstep : [Step.name own] = steps at hinner
  cases hinner with
  | done => cases hstep
  | pass _ hpast _ =>
    cases hstep
    cases hpast
  | enter _ _ hdone =>
    cases hstep
    cases hdone
    exact ⟨_, above, rfl, rfl⟩
  | @follow _ _ _ _ name target hget _ =>
    cases hstep
    refine absurd ⟨name :: above, target, ?_, hget⟩ hlink
    rw [hfront, walkSteps, walkLinks_of_leads houter (by omega) (.inr (by simp)), walkLinks_eq,
      walkFrom]
    simp [directory_of_get? hget, hget]

/-- The name that an operand with a last name of its own goes by: the name of what it leads to, and
that is its own one unless it is a symbolic link. -/
structure GoesBy (d : Disk) (p : Path) (own : Bytes) (origin : Path) (name : FileName) : Prop where
  /-- The operand can be resolved. -/
  canonical : d.canonical p = .ok origin
  /-- What it leads to has the name. -/
  fileName : origin.fileName = some name.bytes
  /-- The name is the operand's own. -/
  own : ¬d.NamesLink p → name.bytes = own

/-- What can be resolved and has a last name then goes by that name. -/
theorem exists_goesBy {p origin : Path} {own text : Bytes}
    (hown : p.parts.getLast? = some (.normal own)) (horigin : d.canonical p = .ok origin)
    (htext : origin.fileName = some text) :
    ∃ name : FileName, name.bytes = text ∧ d.GoesBy p own origin name := by
  obtain ⟨there, hwalk, rfl⟩ := canonical_eq_ok horigin
  cases there with
  | nil => rw [fileName_path_nil] at htext; cases htext
  | cons name above =>
    rw [fileName_path_cons] at htext
    refine ⟨name, Option.some.inj htext, horigin, fileName_path_cons name above, fun hlink => ?_⟩
    obtain ⟨_, _, hthere, hname⟩ := eq_cons_of_walkSteps hown hwalk hlink
    obtain ⟨rfl, -⟩ := List.cons.inj hthere
    exact hname

end Disk

/-! ## Commands that report nothing -/

/-- A report adds something to what was shown before it, if there is any room for it at all. -/
theorem bytesOn_err_report_ne {σ : Type} {w after : World σ} {shown : Bytes}
    (hroom : w.streams.room .err ≠ some 0) (h : w.streams.Shows after.streams .err shown)
    (text : String) : (report text after).streams.bytesOn .err ≠ w.streams.bytesOn .err := by
  intro hsame
  rw [bytesOn_report, if_pos rfl, h.1, h.2, List.append_assoc, List.append_right_eq_self,
    List.append_eq_nil_iff] at hsame
  obtain ⟨rfl, hfitting⟩ := hsame
  -- Nothing was shown before, so the first byte of the line is missing only for want of any room.
  have hline : ¬(Utf8.ofString text = [] ∧ Utf8.ofString "\n" = []) := by
    simpa using Utf8.ofString_line_ne_nil text
  cases hlimit : w.streams.room .err with
  | none => simp [hlimit, Streams.left, Streams.fitting, hline] at hfitting
  | some limit =>
    have hzero : limit = 0 := by
      simpa [hlimit, Streams.left, Streams.fitting, hline] using hfitting
    exact hroom (by rw [hlimit, hzero])

/-- A command under which nothing is reported came to its end, if there is any room for a report. -/
theorem run_of_unreported {σ : Type} (files : FileSystem σ) {b : Builtin} {args : List String}
    {w : World σ} (hroom : w.streams.room .err ≠ some 0)
    (h : ((dispatch files ⟨b.name, args, none⟩).perform w).2.streams.bytesOn .err =
      w.streams.bytesOn .err) :
    (b.run files args).perform w =
      (.ok (), ((dispatch files ⟨b.name, args, none⟩).perform w).2) := by
  rw [perform_dispatch_plain files args (Builtin.ofName?_name b)] at h ⊢
  obtain ⟨shown, hshows⟩ := (b.composed_run files args).shows .err w
  simp only [invoke] at h ⊢
  -- What ends in a fault or breaks down is reported.
  rcases hrun : (b.run files args).perform w with ⟨(fault | _) | _, after⟩ <;>
    simp only [hrun] at h hshows
  · exact absurd h (bytesOn_err_report_ne hroom hshows _)
  · exact absurd h (bytesOn_err_report_ne hroom hshows _)
  · simp only

/-! ## Copies -/

namespace Disk

variable {d now after copied : Disk} {source target place p : Path} {trail : Trail}
  {host : Host}

/-- A path that leads to something still does when nothing vanishes. -/
theorem KeepsLinks.exists_lookAt (hkeeps : d.KeepsLinks now) {entry : Entry}
    (h : d.lookAt p = .ok entry) : ∃ later, now.lookAt p = .ok later := by
  obtain ⟨location, hwalk, -⟩ := lookAt_eq_ok.1 h
  exact exists_lookAt_of_find (hkeeps.find (find_eq_ok.2 hwalk))

/-- Trails that lead down still do when nothing vanishes. -/
theorem Descends.keepLinks (hkeeps : d.KeepsLinks now) (h : d.Descends p trail) :
    now.Descends p trail := by
  induction h with
  | here => exact .here
  | into hnames hmem _ ih =>
    obtain ⟨location, hfind, hdir, rfl⟩ := names_eq_ok.1 hnames
    refine .into (names_eq_ok.2 ⟨location, hkeeps.find hfind, hkeeps.directory hdir, rfl⟩) ?_ ih
    rw [mem_children_iff] at hmem ⊢
    exact hkeeps.isSome hmem

/-- What lies at the end of a trail down from one path has its like at the end of the trail down
from another one. -/
structure Mirrors (d : Disk) (source : Path) (after : Disk) (place : Path) (trail : Trail) :
    Prop where
  /-- Something lies there. -/
  exists_entry : ∃ entry, after.lookAt (place.follow trail) = .ok entry
  /-- A directory has a directory as its like. -/
  directory : d.isDirectory (source.follow trail) = true →
    after.isDirectory (place.follow trail) = true

namespace Mirrors

/-- What has its like keeps it when nothing vanishes. -/
theorem keep (h : d.Mirrors source now place trail) (hkeeps : now.KeepsLinks after) :
    d.Mirrors source after place trail where
  exists_entry := by
    obtain ⟨entry, hlook⟩ := h.exists_entry
    exact hkeeps.exists_lookAt hlook
  directory hdir := hkeeps.isDirectory (h.directory hdir)

/-- What later has its like had one before. -/
theorem of_later (hkeeps : d.KeepsLinks now) (h : now.Mirrors source after place trail) :
    d.Mirrors source after place trail where
  exists_entry := h.exists_entry
  directory hdir := h.directory (hkeeps.isDirectory hdir)

/-- The like of an entry is that of the directory above it, one step further down. -/
theorem into {name : FileName} (h : d.Mirrors (source.child name) after (place.child name) trail) :
    d.Mirrors source after place (name :: trail) :=
  ⟨h.exists_entry, h.directory⟩

/-- The like of a directory. -/
theorem here (h : after.isDirectory place = true) : d.Mirrors source after place [] :=
  ⟨⟨.directory, isDirectory_eq_true.1 h⟩, fun _ => h⟩

end Mirrors

/-- A file lies where a file was copied from, unless it was copied to itself. -/
theorem exists_file_of_copyFile {count : Nat}
    (hother : ∀ origin location, d.find .use source = .ok origin → d.Opens target location →
      location ≠ origin)
    (h : d.copyFile source target host = (.ok count, copied)) :
    ∃ bytes, d.lookAt source = .ok (.file bytes) := by
  obtain ⟨origin, location, opened, emptied, bytes, hfind, hopen, hempty, hcontent, -⟩ :=
    copyFile_eq_ok h
  have hopens := (spares_openFile hopen).1
  have hne := hother origin location hfind hopens
  obtain ⟨spot, -, rfl, hopened⟩ := openFile_eq_ok hopen
  have hkept : d.get? origin = some (.file bytes) := by
    rw [← hopened origin hne.symm, ← hcontent]
    have hemptied := get?_writeAt_of_ne (d := opened) [] .truncate .reliable hne.symm
    rwa [hempty, eq_comm] at hemptied
  exact ⟨bytes, lookAt_eq_ok.2 ⟨origin, find_eq_ok.1 hfind, hkept⟩⟩

/-- Something lies where a file was copied to. -/
theorem exists_lookAt_of_copyFile {count : Nat}
    (h : d.copyFile source target host = (.ok count, copied)) :
    ∃ entry, copied.lookAt target = .ok entry := by
  obtain ⟨_, location, opened, emptied, bytes, -, hopen, hempty, -, hwrite, -⟩ := copyFile_eq_ok h
  obtain ⟨spot, hwalk, rfl, -⟩ := openFile_eq_ok hopen
  obtain ⟨hcheck, hsteps⟩ := walk_eq_ok hwalk
  -- What was opened is no link, and nothing has vanished since.
  obtain ⟨entry, hget, hlink⟩ : ∃ entry, opened.get? spot.location = some entry ∧
      ∀ target, entry ≠ .link target := by
    rcases get?_openFile hopen with ⟨old, hold, -⟩ | ⟨kind, hkind, rfl⟩
    · exact ⟨_, hold, by simp⟩
    · exact ⟨_, hkind, by simp⟩
  have hemptied := opened.keepsLinks_writeAt spot.location [] .truncate .reliable
  have hwritten := emptied.keepsLinks_writeAt spot.location bytes .truncate host
  rw [hempty] at hemptied
  rw [hwrite] at hwritten
  have hkeeps := hemptied.trans hwritten
  obtain ⟨later, hlater, hnot⟩ := hkeeps.exists_entry hget hlink
  exact ⟨later, (ends_of_walkLinks hsteps).lookAt ((keepsLinks_openFile hopen).trans hkeeps) hcheck
    hlater hnot⟩

/-- The path of an entry is not empty. -/
theorem bytes_child_ne (directory : Path) (name : FileName) :
    (directory.child name).bytes ≠ [] := by
  intro hempty
  have hlonger := directory.size_lt_child name
  simp [Path.size, hempty] at hlonger

/-- A directory lies where one was made for a copy. -/
theorem isDirectory_of_makeTarget {made : Disk} (hbytes : p.bytes ≠ [])
    (h : d.makeTarget p = (.ok (), made)) : made.isDirectory p = true := by
  unfold makeTarget at h
  split at h
  · next hdir =>
    cases h
    exact hdir
  · split at h
    · next hmade =>
      cases h
      exact isDirectory_of_makeDirectories hbytes hmade
    · cases h

/-- When entries were copied, whatever can be reached from them has its like. -/
theorem mirrors_copyEntries {names : List FileName}
    (h : d.copyEntries source target names host = (.ok (), copied)) {name : FileName}
    (hname : name ∈ names) (hdescends : d.Descends (source.child name) trail) :
    d.Mirrors (source.child name) copied (target.child name) trail := by
  revert h hname hdescends
  -- The disk grows on the way, and what has its like keeps it.
  fun_induction copyEntries d source target names host generalizing name trail copied with
  | case1 => exact fun _ hname => by cases hname
  | case2 => exact fun h => by cases h
  | case3 => exact fun h => by cases h
  | case4 => exact fun h => by cases h
  | case5 d source target first rest hdir made hmade inner hinner done hdone ih₂ ih₁ =>
    intro h hname hdescends
    have hready : d.KeepsLinks made := keepsLinks_of_makeTarget hmade
    have hbelow : made.KeepsLinks done := keepsLinks_of_copyEntries hdone
    have hrest : done.KeepsLinks copied := keepsLinks_of_copyEntries h
    rcases List.mem_cons.1 hname with rfl | hother
    · cases hdescends.keepLinks hready with
      | here =>
        have hthere := isDirectory_of_makeTarget (bytes_child_ne target name) hmade
        exact (Mirrors.here hthere).keep (hbelow.trans hrest)
      | into hnames hmem hdeeper =>
        obtain rfl := Except.ok.inj (hnames.symm.trans hinner)
        exact ((ih₂ hdone hmem hdeeper).into.of_later hready).keep hrest
    · exact (ih₁ h hother (hdescends.keepLinks (hready.trans hbelow))).of_later
        (hready.trans hbelow)
  | case6 => exact fun h => by cases h
  | case7 d source target first rest hfile count done hcopy ih =>
    intro h hname hdescends
    have hfirst := d.keepsLinks_copyFile (source.child first) (target.child first) host
    rw [hcopy] at hfirst
    have hrest : done.KeepsLinks copied := keepsLinks_of_copyEntries h
    rcases List.mem_cons.1 hname with rfl | hother
    · rw [Bool.not_eq_true] at hfile
      obtain rfl := (descends_of_file hfile).1 hdescends
      exact Mirrors.keep ⟨exists_lookAt_of_copyFile hcopy, fun hdir => by
        rw [Path.follow, List.foldl_nil, hfile] at hdir; cases hdir⟩ hrest
    · exact (ih h hother (hdescends.keepLinks hfirst)).of_later hfirst

/-- A copy of a directory has whatever can be reached from the directory. -/
theorem mirrors_copyTree (hbytes : place.bytes ≠ [])
    (h : d.copyTree source place host = (.ok (), copied)) (hdescends : d.Descends source trail) :
    d.Mirrors source copied place trail := by
  obtain ⟨made, names, hmade, hnames, hcopy⟩ := copyTree_eq_ok h
  have hready : d.KeepsLinks made := keepsLinks_of_makeTarget hmade
  have hkeeps : made.KeepsLinks copied := keepsLinks_of_copyEntries hcopy
  cases hdescends.keepLinks hready with
  | here => exact (Mirrors.here (isDirectory_of_makeTarget hbytes hmade)).keep hkeeps
  | into hothers hmem hdeeper =>
    obtain rfl := Except.ok.inj (hothers.symm.trans hnames)
    exact (mirrors_copyEntries hcopy hmem hdeeper).into.of_later hready

/-- What lies at one path lies at another one afterwards. -/
inductive CopiedTo (d : Disk) (source place : Path) (after : Disk) : Prop
  /-- A file, by its bytes; a device takes them and keeps nothing. -/
  | file {bytes : Bytes} :
      d.lookAt source = .ok (.file bytes) →
        after.lookAt place = .ok (.file bytes) ∨ (∃ kind, d.lookAt place = .ok (.device kind)) →
          CopiedTo d source place after
  /-- A directory, with everything that can be reached from it. -/
  | directory :
      d.isDirectory source = true →
        (∀ trail, d.Descends source trail → d.Mirrors source after place trail) →
          CopiedTo d source place after

end Disk

namespace Builtin

open ShellM

variable {w after : World Disk} {operand target archive : String} {args : List String}
  {recursive : Bool} {host : Host} {format : Archive.Format}

/-- Two operands are taken as they are meant, unless the first one is taken for the option. -/
theorem takeRecursive_of_two {first second : String}
    (hargs : args = [first, second] ∨ args = ["-r", first, second]) :
    args = ["-r", second] ∨ ∃ recursive, takeRecursive args = (recursive, [first, second]) ∧
      (recursive = true → args = ["-r", first, second]) := by
  rcases hargs with rfl | rfl
  · by_cases hoption : first = "-r"
    · exact .inl (by rw [hoption])
    · exact .inr ⟨false, by simp [takeRecursive, hoption], by simp⟩
  · exact .inr ⟨true, rfl, fun _ => rfl⟩

/-- Only what lies somewhere is copied, and a directory only with `-r`. -/
theorem exists_lookAt_of_runCp (hargs : takeRecursive args = (recursive, [operand, target]))
    (h : (runCp (Disk.files host format) args).perform w = (.ok (), after)) :
    ∃ entry, w.held.lookAt (w.session.resolve operand) = .ok entry ∧
      (entry = .directory → recursive = true) := by
  cases hlook : w.held.lookAt (w.session.resolve operand) with
  | error refusal => simp [runCp, hargs, Disk.answer_kindOf, hlook, Except.map, Disk.looking] at h
  | ok entry =>
    refine ⟨entry, rfl, ?_⟩
    rintro rfl
    rw [← Bool.not_eq_false]
    rintro rfl
    simp [runCp, hargs, Disk.answer_kindOf, hlook, Except.map, Disk.looking, Disk.kindOfEntry] at h

/-- A file that was copied lies in the place where its copy goes. -/
theorem Copied.copiedTo {source directory place : Path} {copied : Disk}
    (h : Copied w host source directory copied)
    (hplace : ∀ other, Places w.held source directory other → other = place) :
    w.held.CopiedTo source place copied := by
  obtain ⟨count, other, hplaces, hother, hcopied⟩ := h
  obtain rfl := hplace other hplaces
  obtain ⟨bytes, hlook⟩ := Disk.exists_file_of_copyFile hother hcopied
  refine .file hlook ?_
  obtain ⟨origin, hwalk, hfile⟩ := Disk.lookAt_eq_ok.1 hlook
  have horigin := Disk.find_eq_ok.2 hwalk
  obtain ⟨-, location, opened, emptied, content, -, hopen, -⟩ := Disk.copyFile_eq_ok hcopied
  have hopens := (Disk.spares_openFile hopen).1
  -- Where the target was opened, the bytes lie afterwards, or a device has taken them.
  by_cases hdevice : ∃ kind, w.held.get? location = some (.device kind)
  · obtain ⟨kind, hkind⟩ := hdevice
    have hfind := hopens.find (by rw [hkind, Option.isSome_some])
    exact .inr ⟨kind, Disk.lookAt_eq_ok.2 ⟨location, Disk.find_eq_ok.1 hfind, hkind⟩⟩
  · have hget := Disk.get?_copyFile hfile horigin hopens (hother origin location horigin hopens)
      (not_exists.1 hdevice) hcopied location
    rw [if_pos rfl] at hget
    have hkeeps := w.held.keepsLinks_copyFile source other host
    rw [hcopied] at hkeeps
    have hfind := hopens.find_kept hkeeps hget
    exact .inl (Disk.lookAt_eq_ok.2 ⟨location, Disk.find_eq_ok.1 hfind, hget⟩)

/-- When a directory was copied, everything that can be reached from it lies in the place where the
copy goes. -/
theorem copiedTo_of_runCp_directory {place : Path}
    (hlook : w.held.lookAt (w.session.resolve operand) = .ok .directory)
    (hplaces : Places w.held (w.session.resolve operand) (w.session.resolve target) place)
    (hbytes : place.bytes ≠ [])
    (h : (runCp (Disk.files host format) ["-r", operand, target]).perform w = (.ok (), after)) :
    w.held.CopiedTo (w.session.resolve operand) place after.held := by
  rw [perform_runCp_directory hlook hplaces] at h
  rcases hcopy : w.held.copyTree (w.session.resolve operand) place host with ⟨fault | _, copied⟩ <;>
    rw [hcopy] at h
  · cases h
  · cases h
    exact .directory (Disk.isDirectory_eq_true.2 hlook) fun _ => Disk.mirrors_copyTree hbytes hcopy

/-- A copy into a directory goes by the name of its operand. -/
theorem Places.exists_goesBy {d : Disk} {source directory place : Path} {own : Bytes}
    (h : Places d source directory place) (hdir : d.isDirectory directory = true)
    (hown : source.parts.getLast? = some (.normal own)) :
    ∃ origin name, d.GoesBy source own origin name ∧ place = directory.child name := by
  cases h with
  | itself hnot => rw [hdir] at hnot; cases hnot
  | @inside origin text _ horigin htext =>
    obtain ⟨name, rfl, hgoes⟩ := Disk.exists_goesBy hown horigin htext
    exact ⟨origin, name, hgoes, rfl⟩

/-- When `cp` into a directory comes to its end, the copy goes by the name of its operand. -/
theorem exists_copiedTo {own : Bytes}
    (hown : (w.session.resolve operand).parts.getLast? = some (.normal own))
    (hargs : args = [operand, target] ∨ args = ["-r", operand, target])
    (hdir : w.held.isDirectory (w.session.resolve target) = true)
    (h : (runCp (Disk.files host format) args).perform w = (.ok (), after)) :
    ∃ origin name, w.held.GoesBy (w.session.resolve operand) own origin name ∧
      w.held.CopiedTo (w.session.resolve operand) ((w.session.resolve target).child name)
        after.held := by
  obtain rfl | ⟨recursive, htaken, hrecursive⟩ := takeRecursive_of_two hargs
  · -- An operand is missing.
    cases h
  obtain ⟨entry, hlook, hentry⟩ := exists_lookAt_of_runCp htaken h
  -- Directories and files are copied in different ways, but placed in the same one.
  by_cases hdirectory : entry = .directory
  · subst hdirectory
    obtain rfl := hrecursive (hentry rfl)
    rcases hplace : (placement (Disk.files host format) (w.session.resolve operand)
      (w.session.resolve target)).perform w with ⟨stop | place, ready⟩
    · simp [runCp, htaken, Disk.answer_kindOf, hlook, Except.map, Disk.looking,
        Disk.kindOfEntry, hentry, hplace] at h
    · have hplaces := places_of_placement hplace
      obtain ⟨origin, name, hgoes, rfl⟩ := hplaces.exists_goesBy hdir hown
      exact ⟨origin, name, hgoes,
        copiedTo_of_runCp_directory hlook hplaces (Disk.bytes_child_ne _ name) h⟩
  · have hkind : Disk.kindOfEntry entry = .file := by
      cases entry with
      | directory => exact absurd rfl hdirectory
      | file | link | device => rfl
    obtain ⟨hstopped, -⟩ | ⟨-, hcopied⟩ := runCp_of_file hargs hlook hkind h
    · exact absurd rfl hstopped
    · obtain ⟨count, place, hplaces, hrest⟩ := id hcopied
      obtain ⟨origin, name, hgoes, rfl⟩ := hplaces.exists_goesBy hdir hown
      refine ⟨origin, name, hgoes, hcopied.copiedTo fun other hother => ?_⟩
      exact hother.eq_of_isDirectory hdir hgoes.canonical hgoes.fileName

/-! ## Archives -/

/-- An archive with some names was stored: the names were shown, and unless the archive is a device,
it is read back with these names. -/
structure Stored (w after : World Disk) (format : Archive.Format) (archive : Path)
    (names : List String) : Prop where
  /-- There is a line for each name. -/
  shown : after.streams.bytesOn .out =
    w.streams.bytesOn .out ++ names.flatMap fun name => Utf8.ofString ("  adding: " ++ name ++ "\n")
  /-- There is a member for each name. -/
  members : (∀ kind, w.held.lookAt archive ≠ .ok (.device kind)) →
    ∃ members, after.held.answer (.members archive) .reliable format = (.ok members, after.held) ∧
      members.map Member.name = names

/-- What was stored and shown is stored with these names. -/
theorem stored_of_store {p : Path} {sources : List Source} {names : List String} {written : Disk}
    (hformat : format.Faithful)
    (hstore : w.held.store p sources host format = (.ok names, written))
    (hprint : (printEach ("  adding: " ++ ·) names).perform { w with held := written } =
      (.ok (), after)) : Stored w after format p names := by
  have hlooks : Composed (Disk.files host format) .looking
      (printEach ("  adding: " ++ ·) names) := .printEach _ _
  have hkept := hlooks.unchanged_of_looking { w with held := written }
  rw [hprint] at hkept
  obtain rfl : after.held = written := hkept.1
  obtain ⟨members, bytes, hgather, hencode, hwrite, rfl⟩ := Disk.store_eq_ok hstore
  obtain ⟨objects, -, -, haccepts⟩ := Disk.gatherAll_stores hgather
  have hshown := bytesOn_out_of_printEach hprint
  refine ⟨hshown, fun hdevice => ⟨members.map Member.asRead, ?_, ?_⟩⟩
  · exact Disk.unpackArchive_of_lookAt (Disk.lookAt_writeFile hdevice hwrite)
      (hformat.read_encode haccepts hencode)
  · simp [Function.comp_def, Member.name_asRead]

/-- The first name that a source contributes to an archive is its own one; a directory is named as
one. -/
theorem exists_cons_of_store {d written : Disk} {p : Path} {source : Source} {names : List String}
    (h : d.store p [source] host format = (.ok names, written)) :
    ∃ rest, names =
      (if d.isDirectory source.path then directoryName source.name else source.name) :: rest := by
  obtain ⟨members, bytes, hgather, -, -, rfl⟩ := Disk.store_eq_ok h
  obtain ⟨objects, ⟨parts, hparts, rfl⟩, rfl, -⟩ := Disk.gatherAll_stores hgather
  cases hparts with
  | cons hstores hnone =>
    cases hnone
    cases hstores with
    | file hfile => simp [hfile, Disk.memberOf]
    | bare hdir => simp [hdir, Disk.memberOf]
    | tree hdir => simp [hdir, Disk.memberOf]

/-- When `zip` with one operand comes to its end, the first name in the archive is the one that the
operand goes by. -/
theorem exists_stored {own : Bytes} (hformat : format.Faithful)
    (hown : (w.session.resolve operand).parts.getLast? = some (.normal own))
    (hargs : args = [archive, operand] ∨ args = ["-r", archive, operand])
    (h : (runZip (Disk.files host format) args).perform w = (.ok (), after)) :
    ∃ origin name rest, w.held.GoesBy (w.session.resolve operand) own origin name ∧
      Stored w after format (w.session.resolve archive)
        ((if w.held.isDirectory origin then name.shown ++ "/" else name.shown) :: rest) := by
  obtain rfl | ⟨recursive, htaken, -⟩ := takeRecursive_of_two hargs
  · cases h
  obtain ⟨sources, names, written, hsources, hstore, hprint⟩ := runZip_eq_ok htaken h
  cases hsources with
  | @cons _ source _ _ hsource hnone =>
    cases hnone
    obtain ⟨last, hlast, hshown⟩ := Option.map_eq_some_iff.1 hsource.fileName
    obtain ⟨name, rfl, hgoes⟩ := Disk.exists_goesBy hown hsource.canonical hlast
    obtain ⟨rest, hnames⟩ := exists_cons_of_store hstore
    have hslash : directoryName name.shown = name.shown ++ "/" := by
      simpa using directoryName_append "" name
    rw [show source.name = name.shown from hshown.symm, hslash] at hnames
    exact ⟨source.path, name, rest, hgoes, hnames ▸ stored_of_store hformat hstore hprint⟩

end Builtin

/-! ## Command lines -/

/-- **The names of operands.** A file or a directory that is copied into a directory with nothing
reported is there under the name that the operand goes by, and when `zip` reports nothing, the first
name in the archive is that one, with a slash behind it for a directory. It is the last name of the
operand whatever links lie on the way, unless the operand is itself a link: then it is the name of
what the link leads to. -/
theorem dispatch_names_operands {w : World Disk} {operand : String} {own : Bytes} (host : Host)
    {format : Archive.Format} (hformat : format.Faithful)
    (hown : Path.fileName (.ofString operand) = some own) (hroom : w.streams.room .err ≠ some 0) :
    (∀ target args, args = [operand, target] ∨ args = ["-r", operand, target] →
        w.held.isDirectory (w.session.resolve target) = true →
        let after := ((dispatch (Disk.files host format) ⟨"cp", args, none⟩).perform w).2
        after.streams.bytesOn .err = w.streams.bytesOn .err →
          ∃ origin name, w.held.GoesBy (w.session.resolve operand) own origin name ∧
            w.held.CopiedTo (w.session.resolve operand) ((w.session.resolve target).child name)
              after.held) ∧
      ∀ archive args, args = [archive, operand] ∨ args = ["-r", archive, operand] →
        let after := ((dispatch (Disk.files host format) ⟨"zip", args, none⟩).perform w).2
        after.streams.bytesOn .err = w.streams.bytesOn .err →
          ∃ origin name rest, w.held.GoesBy (w.session.resolve operand) own origin name ∧
            Builtin.Stored w after format (w.session.resolve archive)
              ((if w.held.isDirectory origin then name.shown ++ "/" else name.shown) :: rest) := by
  have hlast := Path.getLast?_parts_join w.session.directory hown
  constructor
  · intro target args hargs hdir after hsilent
    exact Builtin.exists_copiedTo hlast hargs hdir
      (run_of_unreported (Disk.files host format) (b := .cp) hroom hsilent)
  · intro archive args hargs after hsilent
    exact Builtin.exists_stored hformat hlast hargs
      (run_of_unreported (Disk.files host format) (b := .zip) hroom hsilent)

/-- A file keeps its name on a way through a link and back. -/
theorem dispatch_names_operands_through_link :
    let w : World Disk := ⟨Session.start .root .root, .unlimited, linkedBeside⟩
    let operand := "l/.././s//f"
    let copied := ((dispatch Disk.files ⟨"cp", [operand, "t"], none⟩).perform w).2
    let stored := ((dispatch Disk.files ⟨"zip", ["a", operand], none⟩).perform w).2
    (Path.fileName (.ofString operand) = some (Utf8.ofString "f") ∧ w.streams.room .err ≠ some 0 ∧
        w.held.isDirectory (w.session.resolve "t") = true ∧
        copied.streams.bytesOn .err = w.streams.bytesOn .err ∧
        stored.streams.bytesOn .err = w.streams.bytesOn .err ∧
        ¬w.held.NamesLink (w.session.resolve operand)) ∧
      (∃ origin name, w.held.GoesBy (w.session.resolve operand) (Utf8.ofString "f") origin name ∧
        w.held.CopiedTo (w.session.resolve operand) ((w.session.resolve "t").child name)
          copied.held) ∧
      ∃ origin name rest,
        w.held.GoesBy (w.session.resolve operand) (Utf8.ofString "f") origin name ∧
        Builtin.Stored w stored Archive.zip (w.session.resolve "a")
          ((if w.held.isDirectory origin then name.shown ++ "/" else name.shown) :: rest) := by
  intro w operand copied stored
  have hown : Path.fileName (.ofString operand) = some (Utf8.ofString "f") := by decide +kernel
  have hroom : w.streams.room .err ≠ some 0 := by decide
  have hdir : w.held.isDirectory (w.session.resolve "t") = true := by decide +kernel
  have hcopied : copied.streams.bytesOn .err = w.streams.bytesOn .err := by decide +kernel
  have hstored : stored.streams.bytesOn .err = w.streams.bytesOn .err := by decide +kernel
  have hlink : ¬w.held.NamesLink (w.session.resolve operand) := by
    rintro ⟨location, target, hwalk, hget⟩
    have hfound : w.held.walkSteps .useLink
        ((w.session.resolve operand).steps.rdropWhile Step.isIdle) = .ok (.found someFile) := by
      decide +kernel
    obtain rfl := Spot.found.inj (Except.ok.inj (hfound.symm.trans hwalk))
    have hfile : w.held.get? someFile = some (.file [1]) := by decide
    cases hfile.symm.trans hget
  obtain ⟨hcp, hzip⟩ := dispatch_names_operands .reliable Archive.zip_faithful hown hroom
  exact ⟨⟨hown, hroom, hdir, hcopied, hstored, hlink⟩,
    hcp "t" [operand, "t"] (.inl rfl) hdir hcopied,
    hzip "a" ["a", operand] (.inl rfl) hstored⟩

/-- The name of a link. -/
def aliasName : FileName := .ofString "alias"

/-- The disk with a file in one of two directories, and with a link to the file beside them. -/
def linkedFile : Disk := sideBySide.put [aliasName] (.link (.ofString "s/f"))

/-- A link that is copied, or stored in an archive, goes by the name of the file that it leads
to. -/
theorem dispatch_renames_link :
    let w : World Disk := ⟨Session.start .root .root, .unlimited, linkedFile⟩
    let copied := ((dispatch Disk.files ⟨"cp", ["alias", "t"], none⟩).perform w).2
    let stored := ((dispatch Disk.files ⟨"zip", ["a", "alias"], none⟩).perform w).2
    (Path.fileName (.ofString "alias") = some (Utf8.ofString "alias") ∧
        w.held.isDirectory (w.session.resolve "t") = true) ∧
      (copied.streams.bytesOn .err = w.streams.bytesOn .err ∧
        copied.held.isPresent (.ofString "/t/alias") = false ∧
        copied.held.lookAt (.ofString "/t/f") = .ok (.file [1])) ∧
      stored.streams.bytesOn .err = w.streams.bytesOn .err ∧
      stored.streams.bytesOn .out = Utf8.ofString "  adding: f\n" := by
  decide +kernel

end CommandShell
