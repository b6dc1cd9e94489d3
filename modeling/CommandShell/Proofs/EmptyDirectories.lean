import CommandShell.Proofs.Channels
import CommandShell.Proofs.TreeCopies
import CommandShell.Proofs.WorkingDirectory
import Mathlib.Data.List.Nodup

/-!
# Removing empty directories

`rmdir *` goes through the names in the working directory. It looks behind links to see what is an
empty directory, removes nothing but directories, and finds each of them by the path of the working
directory and the text that the name is shown as. So it removes the empty directories whose names
are texts and nothing else, as long as that path still leads there when they are gone. A name that
is no text is shown as another one, under which it is not found.

## Main definitions

* `Disk.ListedEmpty`: an empty directory directly in another one, listed under its own name.
* `Disk.withoutEmpty`: a disk without these.
* `Disk.Clears`: a later disk on which some of them are gone, and nothing else has changed.
* `Builtin.Swept`: how going through some names ends.

## Main results

* `Disk.get?_withoutEmpty`: what lies where without the empty directories;
* `Builtin.perform_removeEach_swept`: going through the names of a directory;
* `dispatch_rmdir_all`: what `rmdir *` removes, and what it shows.
-/

namespace CommandShell

open ShellM

namespace Disk

variable {d now later : Disk} {base location : Location} {name : FileName}

/-! ## Empty directories -/

/-- A directory lies here, directly in another one, nothing lies in it, and it is listed under its
own name, which is a text. -/
def ListedEmpty (d : Disk) (base : Location) : Location → Prop
  | [] => False
  | name :: above =>
    above = base ∧ d.get? (name :: above) = some .directory ∧ d.children (name :: above) = [] ∧
      Utf8.Valid name.bytes

/-- Whether such a directory lies somewhere can be decided. -/
instance (d : Disk) (base : Location) : DecidablePred (d.ListedEmpty base)
  | [] => instDecidableFalse
  | _ :: _ => inferInstanceAs (Decidable (_ ∧ _ ∧ _ ∧ _))

/-- An empty directory has a name in the directory it lies in. -/
theorem ListedEmpty.exists_name (h : d.ListedEmpty base location) :
    ∃ name ∈ d.children base, location = name :: base := by
  cases location with
  | nil => exact h.elim
  | cons name above =>
    obtain ⟨rfl, hdir, -⟩ := h
    exact ⟨name, (mem_children_iff d above name).2 (by rw [hdir]; rfl), rfl⟩

/-- An empty directory is a directory. -/
theorem ListedEmpty.get?_eq (h : d.ListedEmpty base location) :
    d.get? location = some .directory := by
  obtain ⟨name, -, rfl⟩ := h.exists_name
  exact h.2.1

/-- The disk without the empty directories in a directory. -/
def withoutEmpty (d : Disk) (base : Location) : Disk :=
  (d.children base).foldl
    (fun left name =>
      if d.ListedEmpty base (name :: base) then left.remove (name :: base) else left) d

/-! ## Disks on which some are gone -/

/-- What lay on a disk still lies there, or is one of the empty directories that another disk has,
and is gone. -/
def Clears (d : Disk) (base : Location) (now later : Disk) : Prop :=
  ∀ location, later.get? location = now.get? location ∨
    (d.ListedEmpty base location ∧ later.get? location = none)

namespace Clears

/-- Nothing is gone. -/
theorem refl (d : Disk) (base : Location) (now : Disk) : d.Clears base now now := fun _ => .inl rfl

/-- Some are gone, and then others. -/
theorem trans {last : Disk} (h : d.Clears base now later) (hmore : d.Clears base later last) :
    d.Clears base now last := by
  intro location
  rcases hmore location with hsame | hgone
  · rw [hsame]
    exact h location
  · exact .inr hgone

/-- What is gone stays away. -/
theorem get?_eq_none (h : d.Clears base now later) (hnone : now.get? location = none) :
    later.get? location = none :=
  (h location).elim (·.trans hnone) (·.2)

/-- An empty directory still lies there, or is gone. -/
theorem directory_or_none (h : d.Clears base d now) (hempty : d.ListedEmpty base location) :
    now.get? location = some .directory ∨ now.get? location = none :=
  (h location).imp (·.trans hempty.get?_eq) (·.2)

/-- Nothing has changed inside a directory that lies beside those that are gone. -/
theorem children_eq_nil_iff (h : d.Clears base d now) :
    now.children (name :: base) = [] ↔ d.children (name :: base) = [] := by
  -- What lies in it lies deeper than anything that is gone.
  have hinner : ∀ inner, now.get? (inner :: name :: base) = d.get? (inner :: name :: base) :=
    fun inner => (h (inner :: name :: base)).resolve_right fun hgone => by
      have hlength := congrArg List.length hgone.1.1
      simp at hlength
  simp only [List.eq_nil_iff_forall_not_mem, mem_children_iff, hinner]

/-- Removing an empty directory is one more step. -/
theorem remove (h : d.Clears base d now) (hempty : d.ListedEmpty base (name :: base)) :
    d.Clears base now (now.remove (name :: base)) ∧
      (now.remove (name :: base)).get? (name :: base) = none := by
  have hremovable : now.Removable (name :: base) :=
    ⟨List.cons_ne_nil name base, h.children_eq_nil_iff.2 hempty.2.2.1⟩
  refine ⟨fun location => ?_, by rw [get?_remove hremovable, if_pos rfl]⟩
  rw [get?_remove hremovable]
  split
  · next he => exact .inr ⟨he ▸ hempty, rfl⟩
  · exact .inl rfl

/-- A directory that is empty by now was empty before. -/
theorem listedEmpty (h : d.Clears base d now) (hdir : now.get? (name :: base) = some .directory)
    (hchildren : now.children (name :: base) = []) (hvalid : Utf8.Valid name.bytes) :
    d.ListedEmpty base (name :: base) := by
  have hsame : now.get? (name :: base) = d.get? (name :: base) :=
    (h (name :: base)).resolve_right fun hgone => by
      rw [hgone.2] at hdir
      cases hdir
  exact ⟨rfl, hsame.symm.trans hdir, h.children_eq_nil_iff.1 hchildren, hvalid⟩

end Clears

/-- Removing empty directories one after the other removes them all. -/
theorem clears_foldl (names : List FileName) (h : d.Clears base d now) :
    let left := names.foldl (fun left name =>
      if d.ListedEmpty base (name :: base) then left.remove (name :: base) else left) now
    d.Clears base now left ∧
      ∀ name ∈ names, d.ListedEmpty base (name :: base) → left.get? (name :: base) = none := by
  -- Whether a directory is empty is told by the disk at the start, whatever is gone by now.
  induction names generalizing now with
  | nil => exact ⟨.refl d base now, by simp⟩
  | cons name rest ih =>
    rw [List.foldl_cons]
    by_cases hempty : d.ListedEmpty base (name :: base)
    · obtain ⟨hremoved, hgone⟩ := h.remove hempty
      obtain ⟨hrest, hothers⟩ := ih (h.trans hremoved)
      rw [if_pos hempty]
      refine ⟨hremoved.trans hrest, fun other hother hotherEmpty => ?_⟩
      rcases List.mem_cons.1 hother with rfl | hmem
      · exact hrest.get?_eq_none hgone
      · exact hothers other hmem hotherEmpty
    · obtain ⟨hrest, hothers⟩ := ih h
      rw [if_neg hempty]
      refine ⟨hrest, fun other hother hotherEmpty => ?_⟩
      rcases List.mem_cons.1 hother with rfl | hmem
      · exact absurd hotherEmpty hempty
      · exact hothers other hmem hotherEmpty

/-- Everything but the empty directories lies where it lay. -/
theorem get?_withoutEmpty (d : Disk) (base location : Location) :
    (d.withoutEmpty base).get? location =
      if d.ListedEmpty base location then none else d.get? location := by
  obtain ⟨hclears, hgone⟩ := clears_foldl (d.children base) (.refl d base d)
  split
  · next hempty =>
    obtain ⟨name, hname, rfl⟩ := hempty.exists_name
    exact hgone name hname hempty
  · next hnot => exact (hclears location).resolve_right fun h => hnot h.1

/-- Some of the empty directories are there, compared with a disk on which none is. -/
theorem Clears.grows (h : d.Clears base d now) : (d.withoutEmpty base).Grows now := by
  intro location
  rw [get?_withoutEmpty]
  split
  · next hempty => exact (h.directory_or_none hempty).symm.imp id fun hdir => ⟨rfl, hdir⟩
  · next hnot => exact .inl ((h location).resolve_right fun hgone => hnot hgone.1)

/-- The working directory is found as long as it is found without the empty directories. -/
theorem Clears.find (h : d.Clears base d now) {p : Path}
    (hleft : (d.withoutEmpty base).find .use p = .ok base) : now.find .use p = .ok base :=
  h.grows.keepsLinks.find hleft

/-- The path of a directory that leads through no link leads there without the empty directories in
it, too. -/
theorem find_withoutEmpty_path (hdir : d.get? base = some .directory)
    (hsize : base.path.size < pathLimit) :
    (d.withoutEmpty base).find .use base.path = .ok base := by
  -- The directory does not lie in itself, so it is still there.
  have hkept : (d.withoutEmpty base).get? base = some .directory := by
    rw [get?_withoutEmpty, if_neg, hdir]
    intro hempty
    obtain ⟨name, -, he⟩ := hempty.exists_name
    exact List.cons_ne_self name base he.symm
  have hclear : (d.withoutEmpty base).Clear base := clear_of_get? hkept (by simp)
  have hwalk := hclear.walkSteps (by rw [hkept]; rfl) []
  rw [List.append_nil, walkLinks_nil] at hwalk
  rw [find_eq_ok, walk, checkPath_path.2 hsize]
  exact hwalk

/-! ## Entries of the working directory -/

section Child

variable {p : Path} (hfind : d.find .use p = .ok base)
include hfind

/-- Behind a path to a directory the name of a directory in it leads there. -/
theorem walkSteps_child_of_directory (hdir : d.get? (name :: base) = some .directory)
    (purpose : Purpose) :
    d.walkSteps purpose (p.child name).steps = .ok (.found (name :: base)) := by
  obtain ⟨links, hsteps⟩ := walkSteps_child purpose (walk_eq_ok (find_eq_ok.1 hfind)).2 name
  rw [hsteps, walkLinks_enter hdir (by simp) (by simp), walkLinks_nil]

/-- A directory in another one is found by a path that is short enough. -/
theorem find_child_of_directory (hdir : d.get? (name :: base) = some .directory)
    (hsize : (p.child name).size < pathLimit) :
    d.find .use (p.child name) = .ok (name :: base) := by
  have hcheck := checkPath_child (walk_eq_ok (find_eq_ok.1 hfind)).1 hsize
  rw [find_eq_ok, walk, hcheck]
  exact walkSteps_child_of_directory hfind hdir .use

/-- An empty directory is listed as such. -/
theorem listing_child_of_empty (hdir : d.get? (name :: base) = some .directory)
    (hchildren : d.children (name :: base) = []) (hsize : (p.child name).size < pathLimit) :
    d.listing (p.child name) = .ok [] := by
  simp [listing, names, find_child_of_directory hfind hdir hsize, hdir, hchildren, bind,
    Except.bind]

/-- An empty directory can be removed. -/
theorem removeDirectory_child_of_empty (hdir : d.get? (name :: base) = some .directory)
    (hchildren : d.children (name :: base) = []) (hsize : (p.child name).size < pathLimit) :
    d.removeDirectory (p.child name) = .ok (d.remove (name :: base)) := by
  have hcheck := checkPath_child (walk_eq_ok (find_eq_ok.1 hfind)).1 hsize
  have hlast : (p.child name).steps.getLast? = some (.name name.bytes) := by
    rw [steps_child, List.getLast?_concat]
  simp [removeDirectory, hcheck, dropSlash_steps_child, hlast,
    walkSteps_child_of_directory hfind hdir, hdir, hchildren, bind, Except.bind]

/-- What is removed under the name of an entry is that entry, and was an empty directory. -/
theorem removeDirectory_child_eq_ok {removed : Disk}
    (h : d.removeDirectory (p.child name) = .ok removed) :
    d.get? (name :: base) = some .directory ∧ d.children (name :: base) = [] ∧
      removed = d.remove (name :: base) := by
  obtain ⟨location, hwalk, hdir, hchildren, hremoved⟩ := removeDirectory_eq_ok h
  obtain ⟨links, hsteps⟩ := walkSteps_child .useLink (walk_eq_ok (find_eq_ok.1 hfind)).2 name
  rw [dropSlash_steps_child, hsteps] at hwalk
  obtain rfl := (ends_of_walkLinks hwalk).location_of_name (absurd rfl)
  exact ⟨hdir, hchildren, hremoved⟩

end Child

/-- What is removed under a name is an entry with that name. -/
theorem exists_name_of_removeDirectory {p : Path} {bytes : Bytes} (hname : Path.IsName bytes)
    {removed : Disk} (h : d.removeDirectory (p.join ⟨bytes⟩) = .ok removed) :
    ∃ name : FileName, name.bytes = bytes := by
  obtain ⟨location, hwalk, -⟩ := removeDirectory_eq_ok h
  rw [Step.steps_join_name p hname, Step.dropSlash, if_neg (by simp)] at hwalk
  obtain ⟨_, _, _, _, hends⟩ := (ends_of_walkLinks hwalk).leads (.inr (by simp))
  exact hends.exists_name

end Disk

namespace Builtin

variable {host : Host} {format : Archive.Format} {d : Disk} {base : Location} {directory : Path}
  {w : World Disk}

/-! ## Going through the names -/

section First

variable {name : String} {rest : List (String × Kind)}

/-- Looking into a directory changes nothing, and says whether it is listed as empty. -/
theorem perform_holdsNothing (host : Host) (format : Archive.Format) (p : Path) (w : World Disk) :
    ∃ empty, (holdsNothing (Disk.files host format) p).perform w = (.ok empty, w) ∧
      (empty = true ↔ w.held.listing p = .ok []) := by
  rw [holdsNothing]
  simp only [perform_bind, perform_tryRequest, Disk.answer_list]
  cases hlist : w.held.listing p with
  | error refusal => exact ⟨false, rfl, by simp⟩
  | ok listed => exact ⟨listed.isEmpty, rfl, by simp⟩

/-- A directory that is not listed as empty is passed over. -/
theorem perform_removeEach_of_not_listed
    (hlisted : w.held.listing (directory.join (.ofString name)) ≠ .ok []) :
    (removeEach (Disk.files host format) directory ((name, .directory) :: rest)).perform w =
      (removeEach (Disk.files host format) directory rest).perform w := by
  obtain ⟨empty, hlook, hempty⟩ :=
    perform_holdsNothing host format (directory.join (.ofString name)) w
  obtain rfl : empty = false := Bool.eq_false_iff.2 (mt hempty.1 hlisted)
  rw [removeEach]
  simp only [perform_bind, hlook]
  rfl

/-- A directory that is listed as empty is removed, unless this is refused. -/
theorem perform_removeEach_of_listed
    (hlisted : w.held.listing (directory.join (.ofString name)) = .ok []) :
    (removeEach (Disk.files host format) directory ((name, .directory) :: rest)).perform w =
      match w.held.removeDirectory (directory.join (.ofString name)) with
      | .ok left =>
        (removeEach (Disk.files host format) directory rest >>= fun removed =>
          pure (removed + 1)).perform { w with held := left }
      | .error refusal =>
        (complainLine (rmdir.name ++ ": " ++ (Fault.refused .removeDirectory
            (directory.join (.ofString name)) refusal).message) >>= fun _ =>
          removeEach (Disk.files host format) directory rest).perform w := by
  obtain ⟨empty, hlook, hempty⟩ :=
    perform_holdsNothing host format (directory.join (.ofString name)) w
  obtain rfl : empty = true := hempty.2 hlisted
  rw [removeEach]
  simp only [perform_bind, hlook, if_true, perform_tryRequest, Disk.answer_removeDirectory]
  cases w.held.removeDirectory (directory.join (.ofString name)) <;>
    simp only [Disk.changing, catchFault, perform_bind]

end First

/-- How going through some of what is listed in a directory ends, compared with the disk `d` at the
start. -/
structure Swept (d : Disk) (base : Location) (listed : List (String × Kind)) (w : World Disk)
    (removed : Nat) (after : World Disk) : Prop where
  /-- Only empty directories are gone. -/
  clears : d.Clears base w.held after.held
  /-- Those that are listed are. -/
  gone : ∀ name : FileName, (name.shown, .directory) ∈ listed → d.ListedEmpty base (name :: base) →
    after.held.get? (name :: base) = none
  /-- When none is counted nothing has changed. -/
  unchanged : removed = 0 → after.held = w.held
  /-- When some are counted there were some. -/
  counted : removed ≠ 0 → ∃ location, d.ListedEmpty base location
  /-- The streams never fail. -/
  neverFails : after.streams.NeverFails

namespace Swept

variable {first : String × Kind} {after : World Disk}

/-- What is passed over. -/
theorem pass (hheld : after.held = w.held) (hstreams : after.streams.NeverFails)
    (hgone : ∀ name : FileName, first = (name.shown, .directory) →
      d.ListedEmpty base (name :: base) → w.held.get? (name :: base) = none) :
    Swept d base [first] w 0 after where
  clears := hheld ▸ .refl d base w.held
  gone name hname hempty := hheld ▸ hgone name (List.mem_singleton.1 hname).symm hempty
  unchanged _ := hheld
  counted h := absurd rfl h
  neverFails := hstreams

/-- One name and then others. -/
theorem cons {rest : List (String × Kind)} {removed others : Nat} {middle : World Disk}
    (h : Swept d base [first] w removed middle) (hrest : Swept d base rest middle others after) :
    Swept d base (first :: rest) w (others + removed) after where
  clears := h.clears.trans hrest.clears
  gone name hname hempty := by
    rcases List.mem_cons.1 hname with he | hmem
    · exact hrest.clears.get?_eq_none (h.gone name (he ▸ List.mem_singleton_self _) hempty)
    · exact hrest.gone name hmem hempty
  unchanged hnone := (hrest.unchanged (by omega)).trans (h.unchanged (by omega))
  counted hsome := by
    by_cases hremoved : removed = 0
    · exact hrest.counted (by omega)
    · exact h.counted hremoved
  neverFails := hrest.neverFails

end Swept

/-- An empty directory is looked for under its own name. -/
theorem join_shown {name : FileName} (hempty : d.ListedEmpty base (name :: base)) :
    directory.join (.ofString name.shown) = directory.child name := by
  rw [Path.ofString, FileName.ofString_shown hempty.2.2.2, Path.child]

/-- A directory that is empty, and so is removed. -/
theorem Swept.removed {name : FileName} {kind : Kind} (h : d.Clears base d w.held)
    (hstreams : w.streams.NeverFails) (hempty : d.ListedEmpty base (name :: base)) :
    Swept d base [(name.shown, kind)] w 1 { w with held := w.held.remove (name :: base) } where
  clears := (h.remove hempty).1
  gone other hother hotherEmpty := by
    have hshown := congrArg Prod.fst (List.mem_singleton.1 hother)
    have hbytes := (FileName.ofString_shown hotherEmpty.2.2.2).symm.trans
      ((congrArg Utf8.ofString hshown).trans (FileName.ofString_shown hempty.2.2.2))
    rw [FileName.bytes_injective hbytes]
    exact (h.remove hempty).2
  unchanged hnone := absurd hnone (by decide)
  counted _ := ⟨_, hempty⟩
  neverFails := hstreams

section Loop

variable (hleft : (d.withoutEmpty base).find .use directory = .ok base)
  (hsize : ∀ name, d.ListedEmpty base (name :: base) → (directory.child name).size < pathLimit)
include hleft hsize

/-- An empty directory counts as a directory, as long as it lies there it is listed as empty, and
then it can be removed. -/
theorem calls_of_listedEmpty {name : FileName} (hempty : d.ListedEmpty base (name :: base)) :
    d.kindAt (directory.child name) = .directory ∧
      ∀ now, d.Clears base d now → now.get? (name :: base) = some .directory →
        now.listing (directory.child name) = .ok [] ∧
          now.removeDirectory (directory.child name) = .ok (now.remove (name :: base)) := by
  constructor
  · have hfind := Disk.find_child_of_directory ((Disk.Clears.refl d base d).find hleft)
      hempty.get?_eq (hsize name hempty)
    have hlook := Disk.lookAt_eq_ok.2 ⟨_, Disk.find_eq_ok.1 hfind, hempty.get?_eq⟩
    rw [Disk.kindAt, if_pos (Disk.isDirectory_eq_true.2 hlook)]
  · intro now hclears hdir
    have hchildren := hclears.children_eq_nil_iff.2 hempty.2.2.1
    have hfind := hclears.find hleft
    exact ⟨Disk.listing_child_of_empty hfind hdir hchildren (hsize name hempty),
      Disk.removeDirectory_child_of_empty hfind hdir hchildren (hsize name hempty)⟩

/-- Going through what is listed removes the empty directories in it, whatever was removed
before. -/
theorem perform_removeEach_swept (host : Host) (format : Archive.Format)
    (listed : List (String × Kind)) {w : World Disk}
    (hnames : ∀ first ∈ listed, Path.IsName (Utf8.ofString first.1))
    (hclears : d.Clears base d w.held) (hstreams : w.streams.NeverFails) :
    ∃ removed after,
      (removeEach (Disk.files host format) directory listed).perform w = (.ok removed, after) ∧
        Swept d base listed w removed after := by
  induction listed generalizing w with
  | nil =>
    exact ⟨0, w, rfl, .refl d base w.held, by simp, fun _ => rfl, (absurd rfl ·), hstreams⟩
  | cons first rest ih =>
    -- Whatever becomes of the first name, the others follow.
    have hrest : ∀ (removed : Nat) (middle : World Disk), Swept d base [first] w removed middle →
        ∃ others after,
          (removeEach (Disk.files host format) directory rest).perform middle =
              (.ok others, after) ∧ Swept d base (first :: rest) w (others + removed) after := by
      intro removed middle hfirst
      obtain ⟨others, after, hperform, hothers⟩ :=
        ih (fun later hlater => hnames later (List.mem_cons_of_mem _ hlater))
          (hclears.trans hfirst.clears) hfirst.neverFails
      exact ⟨others, after, hperform, hfirst.cons hothers⟩
    obtain ⟨shown, kind⟩ := first
    cases kind with
    | file =>
      exact hrest 0 _ (.pass rfl hstreams fun _ hname => by cases hname)
    | directory =>
      -- It may be passed over when no empty directory has the name, or has it any more.
      have hpassed : (∀ name : FileName, shown = name.shown → d.ListedEmpty base (name :: base) →
          w.held.get? (name :: base) = some .directory → False) →
            ∀ name : FileName, (shown, Kind.directory) = (name.shown, .directory) →
              d.ListedEmpty base (name :: base) → w.held.get? (name :: base) = none :=
        fun hnot name hname hempty => (hclears.directory_or_none hempty).resolve_left
          (hnot name (congrArg Prod.fst hname) hempty)
      by_cases hlisted : w.held.listing (directory.join (.ofString shown)) = .ok []
      case neg =>
        rw [perform_removeEach_of_not_listed hlisted]
        refine hrest 0 _ (.pass rfl hstreams (hpassed fun name hshown hempty hdir => hlisted ?_))
        rw [hshown, join_shown hempty]
        exact ((calls_of_listedEmpty hleft hsize hempty).2 w.held hclears hdir).1
      rw [perform_removeEach_of_listed hlisted]
      cases hremove : w.held.removeDirectory (directory.join (.ofString shown)) with
      | error refusal =>
        -- A link to an empty directory is refused.
        simp only [perform_bind, complainLine, perform_write, hstreams.write, ofWrite]
        refine hrest 0 _ (.pass rfl hstreams (hpassed fun name hshown hempty hdir => ?_))
        have hempties := ((calls_of_listedEmpty hleft hsize hempty).2 w.held hclears hdir).2
        rw [hshown, join_shown hempty] at hremove
        cases hempties.symm.trans hremove
      | ok removed =>
        -- What is removed has the shown text as its name, whatever was listed under it.
        obtain ⟨name, hname⟩ := Disk.exists_name_of_removeDirectory (hnames _ List.mem_cons_self)
          hremove
        have hvalid : Utf8.Valid name.bytes := ⟨_, hname.symm⟩
        obtain rfl : name.shown = shown := by
          rw [FileName.shown, hname, Utf8.toStringLossy_ofString]
        rw [Path.ofString, ← hname] at hremove
        obtain ⟨hdir, hchildren, rfl⟩ :=
          Disk.removeDirectory_child_eq_ok (hclears.find hleft) hremove
        obtain ⟨others, after, hperform, hswept⟩ :=
          hrest 1 _ (.removed hclears hstreams (hclears.listedEmpty hdir hchildren hvalid))
        refine ⟨others + 1, after, ?_, hswept⟩
        simp only [perform_bind, hperform, perform_pure]

end Loop

/-- Removing everything empty goes through what is listed in the working directory, and then shows a
line when nothing was removed. -/
theorem perform_runRmdir_of_listing {w : World Disk} {listed : List (String × Kind)}
    (h : w.held.listing w.session.directory = .ok listed) :
    (rmdir.run (Disk.files host format) ["*"]).perform w =
      (removeEach (Disk.files host format) w.session.directory listed >>= fun removed =>
        if removed = 0 then printLine "No empty directories found." else pure ()).perform w := by
  rw [run, runRmdir, if_pos rfl, removeEmpty]
  simp only [perform_bind, perform_session, perform_request, Disk.answer_list, h, Disk.looking]

/-- Of two directories only the first one is removed when the second one is not found without it. -/
theorem perform_runRmdir_of_lost {w : World Disk} {first second : String} {left : Disk}
    (hlisting : w.held.listing w.session.directory =
      .ok [(first, .directory), (second, .directory)])
    (hfirst : w.held.listing (w.session.directory.join (.ofString first)) = .ok [])
    (hremove : w.held.removeDirectory (w.session.directory.join (.ofString first)) = .ok left)
    (hlost : left.listing (w.session.directory.join (.ofString second)) ≠ .ok []) :
    (rmdir.run (Disk.files host format) ["*"]).perform w = (.ok (), { w with held := left }) := by
  rw [perform_runRmdir_of_listing hlisting, perform_bind, perform_removeEach_of_listed hfirst,
    hremove]
  simp only [perform_bind]
  rw [perform_removeEach_of_not_listed (w := { w with held := left }) hlost]
  rfl

/-- To remove everything empty all names in the working directory are gone through. -/
theorem perform_runRmdir_all {w : World Disk} (host : Host) (format : Archive.Format)
    (hstreams : w.streams.NeverFails)
    (hfind : w.held.find .use w.session.directory = .ok base)
    (hdir : w.held.get? base = some .directory)
    (hsize : ∀ name, w.held.ListedEmpty base (name :: base) →
      (w.session.directory.child name).size < pathLimit)
    (hleft : (w.held.withoutEmpty base).find .use w.session.directory = .ok base) :
    ∃ listed removed last,
      (rmdir.run (Disk.files host format) ["*"]).perform w =
        (if removed = 0 then printLine "No empty directories found." else pure ()).perform last ∧
      (∀ name, w.held.ListedEmpty base (name :: base) → (name.shown, .directory) ∈ listed) ∧
      Swept w.held base listed w removed last ∧ last.session = w.session ∧
      last.streams.bytesOn .out = w.streams.bytesOn .out := by
  -- A name is looked up again as the text it is listed as.
  let shownAt (name : FileName) := (name.shown, w.held.kindAt (w.session.directory.child name))
  let listed := ((w.held.children base).map shownAt).mergeSort fun a b => decide (a.1 ≤ b.1)
  have hlisting : w.held.listing w.session.directory = .ok listed := by
    simp [Disk.listing, Disk.names, hfind, hdir, bind, Except.bind, listed, shownAt]
  have hnames : ∀ first ∈ listed, Path.IsName (Utf8.ofString first.1) := fun first hfirst => by
    obtain ⟨name, -, rfl⟩ := List.mem_map.1 (List.mem_mergeSort.1 hfirst)
    exact Path.isName_shown name
  obtain ⟨removed, last, hperform, hswept⟩ := perform_removeEach_swept hleft hsize host format
    listed hnames (.refl w.held base w.held) hstreams
  refine ⟨listed, removed, last, ?_, fun name hempty => ?_, hswept, ?_, ?_⟩
  · rw [perform_runRmdir_of_listing hlisting, perform_bind, hperform]
  · obtain ⟨_, hmem, he⟩ := hempty.exists_name
    obtain rfl := (List.cons.inj he).1
    have hkind := (calls_of_listedEmpty hleft hsize hempty).1
    exact List.mem_mergeSort.2 (List.mem_map.2 ⟨name, hmem, by rw [← hkind]⟩)
  · have hlast := congrArg (fun outcome => outcome.2.session) hperform
    exact hlast.symm.trans ((alike_removeEach (Disk.files host format) (Disk.files host format) _
      _).session_eq (by simp [permit]) w)
  · have hlast := congrArg (fun outcome => outcome.2.streams.bytesOn .out) hperform
    exact hlast.symm.trans (mute_removeEach _ _ w)

namespace Swept

variable {listed : List (String × Kind)} {removed : Nat} {last : World Disk}
  (hlisted : ∀ name, w.held.ListedEmpty base (name :: base) → (name.shown, .directory) ∈ listed)
  (h : Swept w.held base listed w removed last)
include hlisted h

/-- When all names were gone through exactly the empty directories are gone. -/
theorem get?_eq (location : Location) :
    last.held.get? location =
      if w.held.ListedEmpty base location then none else w.held.get? location := by
  split
  · next hempty =>
    obtain ⟨name, -, rfl⟩ := hempty.exists_name
    exact h.gone name (hlisted name hempty) hempty
  · next hnot => exact (h.clears location).resolve_right fun hgone => hnot hgone.1

/-- None is counted when there was none. -/
theorem eq_zero_iff : removed = 0 ↔ ∀ location, ¬w.held.ListedEmpty base location := by
  constructor
  · intro hnone location hempty
    have hgone := h.get?_eq hlisted location
    rw [if_pos hempty, h.unchanged hnone, hempty.get?_eq] at hgone
    cases hgone
  · intro hnothing
    refine Decidable.byContradiction fun hsome => ?_
    obtain ⟨location, hempty⟩ := h.counted hsome
    exact hnothing location hempty

end Swept

end Builtin

/-! ## The command line -/

/-- `rmdir *` removes the empty directories in the working directory whose names are texts and
nothing else, and says so when there are none, as long as the path of the working directory still
leads there without them. -/
theorem dispatch_rmdir_all {host : Host} {format : Archive.Format} {w : World Disk}
    {base : Location} (hstreams : w.streams.NeverFails)
    (hfind : w.held.find .use w.session.directory = .ok base)
    (hdir : w.held.get? base = some .directory)
    (hsize : ∀ name, w.held.ListedEmpty base (name :: base) →
      (w.session.directory.child name).size < pathLimit)
    (hleft : (w.held.withoutEmpty base).find .use w.session.directory = .ok base) :
    let after := ((dispatch (Disk.files host format) ⟨"rmdir", ["*"], none⟩).perform w).2
    (∀ location, after.held.get? location =
        if w.held.ListedEmpty base location then none else w.held.get? location) ∧
      after.session = w.session ∧
      ((∃ location, w.held.ListedEmpty base location) →
        after.streams.bytesOn .out = w.streams.bytesOn .out) ∧
      ((∀ location, ¬w.held.ListedEmpty base location) →
        after.streams.bytesOn .out = w.streams.bytesOn .out ++
          Utf8.ofString "No empty directories found.\n") := by
  intro after
  obtain ⟨listed, removed, last, hrun, hlisted, hswept, hsession, hout⟩ :=
    Builtin.perform_runRmdir_all host format hstreams hfind hdir hsize hleft
  -- The count of what was removed is 0 exactly when no directory that is listed was empty.
  by_cases hnone : removed = 0
  · have hafter : after = { last with streams := (last.streams.write .out
        (Utf8.ofString "No empty directories found.\n")).2 } := by
      rw [if_pos hnone, printLine, perform_write, hswept.neverFails.write] at hrun
      rw [hswept.neverFails.write]
      exact congrArg Prod.snd (perform_dispatch_of_run (Disk.files host format) hrun)
    have hnothing := (hswept.eq_zero_iff hlisted).1 hnone
    rw [hafter]
    refine ⟨fun location => hswept.get?_eq hlisted location, hsession,
      fun hsome => absurd hsome (not_exists.2 hnothing), fun _ => ?_⟩
    rw [Streams.bytesOn_write, if_pos rfl, hout, hswept.neverFails .out]
    rfl
  · have hafter : after = last := by
      rw [if_neg hnone, perform_pure] at hrun
      exact congrArg Prod.snd (perform_dispatch_of_run (Disk.files host format) hrun)
    rw [hafter]
    exact ⟨hswept.get?_eq hlisted, hsession, fun _ => hout,
      fun hnothing => absurd ((hswept.eq_zero_iff hlisted).2 hnothing) hnone⟩

/-- The directory in which some lie. -/
def workName : FileName := .ofString "w"

/-- A name of an empty directory. -/
def firstName : FileName := .ofString "first"

/-- A name of another directory. -/
def secondName : FileName := .ofString "second"

/-- A disk with two empty directories in another one. -/
def Disk.twoEmpty : Disk :=
  ((Disk.empty.put [workName] .directory).put [firstName, workName] .directory).put
    [secondName, workName] .directory

/-- The same disk with a file in one of the two directories, and links to the other one and to the
directory in which both lie. -/
def Disk.oneEmpty : Disk :=
  ((Disk.twoEmpty.put [firstName, secondName, workName] (.file [])).put
    [.ofString "link", workName] (.link (.ofString "first"))).put
    [.ofString "back", workName] (.link (.ofString "."))

/-- The links are no directories that could be removed. -/
theorem dispatch_rmdir_all_oneEmpty :
    let w : World Disk := ⟨Session.start (.ofString "/w") .root, .unlimited, .oneEmpty⟩
    let after := ((dispatch Disk.files ⟨"rmdir", ["*"], none⟩).perform w).2
    w.streams.NeverFails ∧ w.held.find .use w.session.directory = .ok [workName] ∧
      w.held.get? [workName] = some .directory ∧
      (∀ name, w.held.ListedEmpty [workName] [name, workName] →
        (w.session.directory.child name).size < pathLimit) ∧
      (w.held.withoutEmpty [workName]).find .use w.session.directory = .ok [workName] ∧
      (∀ location, after.held.get? location =
        if location = [firstName, workName] then none else w.held.get? location) ∧
      after.streams.bytesOn .out = [] := by
  intro w after
  have hfind : w.held.find .use w.session.directory = .ok [workName] := by decide +kernel
  have hdir : w.held.get? [workName] = some .directory := by decide +kernel
  have hnames : ∀ name ∈ w.held.children [workName],
      (w.session.directory.child name).size < pathLimit ∧
        (w.held.ListedEmpty [workName] [name, workName] ↔ name = firstName) := by
    decide +kernel
  have hempty : ∀ location,
      w.held.ListedEmpty [workName] location ↔ location = [firstName, workName] := by
    intro location
    constructor
    · intro h
      obtain ⟨name, hname, rfl⟩ := h.exists_name
      rw [(hnames name hname).2.1 h]
    · rintro rfl
      decide +kernel
  have hsize : ∀ name, w.held.ListedEmpty [workName] [name, workName] →
      (w.session.directory.child name).size < pathLimit := by
    intro name h
    obtain ⟨other, hother, hsame⟩ := h.exists_name
    obtain rfl := (List.cons.inj hsame).1
    exact (hnames name hother).1
  have hleft : (w.held.withoutEmpty [workName]).find .use w.session.directory = .ok [workName] :=
    Disk.find_withoutEmpty_path hdir (by decide +kernel)
  obtain ⟨hheld, -, hout, -⟩ :=
    dispatch_rmdir_all Streams.neverFails_unlimited hfind hdir hsize hleft
  refine ⟨Streams.neverFails_unlimited, hfind, hdir, hsize, hleft, fun location => ?_,
    hout ⟨_, (hempty _).2 rfl⟩⟩
  refine (hheld location).trans ?_
  simp only [hempty]

/-- Seen from a path through the first of the two directories, the second one is not found when the
first one is gone. -/
theorem perform_rmdir_all_twoEmpty :
    let w : World Disk := ⟨Session.start (.ofString "/w/first/..") .root, .unlimited, .twoEmpty⟩
    ((dispatch Disk.files ⟨"rmdir", ["*"], none⟩).perform w).2 =
      { w with held := Disk.twoEmpty.remove [firstName, workName] } := by
  intro w
  have hfind : w.held.find .use w.session.directory = .ok [workName] := by decide +kernel
  have hdir : w.held.get? [workName] = some .directory := by decide +kernel
  have hchildren : w.held.children [workName] = [firstName, secondName] := by decide +kernel
  have hsorted :
      [(firstName.shown, Kind.directory), (secondName.shown, .directory)].mergeSort
        (fun a b => decide (a.1 ≤ b.1)) =
          [(firstName.shown, .directory), (secondName.shown, .directory)] :=
    List.mergeSort_of_pairwise (by decide +kernel)
  have hkinds : w.held.kindAt (w.session.directory.child firstName) = .directory ∧
      w.held.kindAt (w.session.directory.child secondName) = .directory := by
    decide +kernel
  have hlisting : w.held.listing w.session.directory =
      .ok [(firstName.shown, .directory), (secondName.shown, .directory)] := by
    simp [Disk.listing, Disk.names, hfind, hdir, hchildren, hsorted, hkinds, bind, Except.bind]
  have hget : w.held.get? [firstName, workName] = some .directory := by decide +kernel
  have hempty : w.held.children [firstName, workName] = [] := by decide +kernel
  have hfirst : w.held.listing (w.session.directory.join (.ofString firstName.shown)) = .ok [] :=
    Disk.listing_child_of_empty hfind hget hempty (by decide +kernel)
  have hremove : w.held.removeDirectory (w.session.directory.join (.ofString firstName.shown)) =
      .ok (w.held.remove [firstName, workName]) :=
    Disk.removeDirectory_child_of_empty hfind hget hempty (by decide +kernel)
  -- The way to the second one leads through the first one.
  have hlost : (w.held.remove [firstName, workName]).listing
      (w.session.directory.join (.ofString secondName.shown)) ≠ .ok [] := by
    have hnotFound : (w.held.remove [firstName, workName]).find .use
        (w.session.directory.join (.ofString secondName.shown)) = .error .notFound := by
      decide +kernel
    simp [Disk.listing, Disk.names, hnotFound, bind, Except.bind]
  exact congrArg Prod.snd (perform_dispatch_of_run Disk.files
    (Builtin.perform_runRmdir_of_lost hlisting hfirst hremove hlost))

/-- A disk with an empty directory whose name is no text, in another one. -/
def Disk.strayEmpty : Disk :=
  (Disk.empty.put [workName] .directory).put [.strayByte, workName] .directory

/-- An empty directory whose name is no text is looked for under another name. -/
theorem perform_rmdir_all_strayEmpty :
    let w : World Disk := ⟨Session.start (.ofString "/w") .root, .unlimited, .strayEmpty⟩
    ((dispatch Disk.files ⟨"rmdir", ["*"], none⟩).perform w).2 =
      ((printLine "No empty directories found.").perform w).2 := by
  intro w
  have hfind : w.held.find .use w.session.directory = .ok [workName] := by decide +kernel
  have hdir : w.held.get? [workName] = some .directory := by decide +kernel
  have hchildren : w.held.children [workName] = [.strayByte] := by decide +kernel
  have hkind : w.held.kindAt (w.session.directory.child .strayByte) = .directory := by
    decide +kernel
  have hlisting : w.held.listing w.session.directory =
      .ok [(FileName.strayByte.shown, .directory)] := by
    simp [Disk.listing, Disk.names, hfind, hdir, hchildren, hkind, bind, Except.bind]
  have hlost : w.held.listing
      (w.session.directory.join (.ofString FileName.strayByte.shown)) ≠ .ok [] := by
    have hnotFound : w.held.find .use
        (w.session.directory.join (.ofString FileName.strayByte.shown)) = .error .notFound := by
      decide +kernel
    simp [Disk.listing, Disk.names, hnotFound, bind, Except.bind]
  have hrun : (Builtin.rmdir.run Disk.files ["*"]).perform w =
      (printLine "No empty directories found.").perform w := by
    rw [Builtin.perform_runRmdir_of_listing hlisting, perform_bind,
      Builtin.perform_removeEach_of_not_listed hlost]
    rfl
  exact congrArg Prod.snd (perform_dispatch_of_run Disk.files hrun)

/-- Empty directories stay behind that are not found by the path of the working directory and the
text of their names. -/
theorem dispatch_rmdir_all_passes_over :
    (let w : World Disk := ⟨Session.start (.ofString "/w/first/..") .root, .unlimited, .twoEmpty⟩
      let after := ((dispatch Disk.files ⟨"rmdir", ["*"], none⟩).perform w).2
      w.held.find .use w.session.directory = .ok [workName] ∧
        w.held.get? [workName] = some .directory ∧
        (∀ name ∈ w.held.children [workName],
          (w.session.directory.child name).size < pathLimit ∧
            w.held.ListedEmpty [workName] [name, workName]) ∧
        after.held.get? [firstName, workName] = none ∧
        w.held.ListedEmpty [workName] [secondName, workName] ∧
        after.held.get? [secondName, workName] = some .directory) ∧
      (let w : World Disk := ⟨Session.start (.ofString "/w") .root, .unlimited, .strayEmpty⟩
        let after := ((dispatch Disk.files ⟨"rmdir", ["*"], none⟩).perform w).2
        w.held.find .use w.session.directory = .ok [workName] ∧
          w.held.get? [.strayByte, workName] = some .directory ∧
          w.held.children [.strayByte, workName] = [] ∧
          after.held = w.held ∧
          after.streams.bytesOn .out = Utf8.ofString "No empty directories found.\n") := by
  constructor
  · intro w after
    have hafter : after = { w with held := w.held.remove [firstName, workName] } :=
      perform_rmdir_all_twoEmpty
    rw [hafter]
    decide +kernel
  · intro w after
    have hafter : after = ((printLine "No empty directories found.").perform w).2 :=
      perform_rmdir_all_strayEmpty
    rw [hafter]
    exact ⟨by decide +kernel, by decide +kernel, by decide +kernel, rfl, by decide +kernel⟩

end CommandShell
