import CommandShell.Proofs.MissingDirectories
import CommandShell.Proofs.Overlays

/-!
# Copies of directories

A directory is copied by making its target, with the directories on the way to it, and copying the
entries. Here the copy of the entries is carried over to the whole directory, and what can refuse it
is told from what lies where.

## Main definitions

* `Disk.Placed`: a directory and a place for its copy that lie apart.
* `Disk.Refuses`: what there is that a directory is not copied for.
* `Disk.LaidOver`: a whole directory was laid over a place.

## Main results

* `Disk.Placed.makeTarget_iff_not`: the target is made unless something is in the way;
* `Disk.Placed.copyTree_cases`: a directory is laid over its place, unless that is refused;
* `dispatch_cp_overlays`: what this means for `cp -r`.
-/

namespace CommandShell

namespace Disk

variable {d changed : Disk} {origin there : Location}

/-! ## Whole trees -/

/-- A directory and a place for a copy of it that lie apart: there are neither links nor devices,
the path of the place leads down to it, and all paths on the way are short enough. -/
structure Placed (d : Disk) (source place : Path) (origin there : Location) : Prop where
  /-- There are no links. -/
  plain : d.Plain
  /-- There are no devices. -/
  noDevices : d.NoDevices
  /-- The first path leads to the directory. -/
  canonical : d.canonical source = .ok origin.path
  /-- The directory is one. -/
  directory : d.get? origin = some .directory
  /-- The second path leads down to the place. -/
  down : place.LeadsDown there
  /-- Neither lies at or below the other. -/
  apart : origin.Apart there
  /-- No path is too long. -/
  fits : ∀ inner, (d.get? (inner ++ origin)).isSome →
    (source.below inner).size < pathLimit ∧ (place.below inner).size < pathLimit

/-- Paths are short enough when those of the entries of the disk are. -/
theorem fits_of_entries {source place : Path}
    (h : ∀ location ∈ [] :: d.entries.map Prod.fst, origin <:+ location →
      (source.below (location.take (location.length - origin.length))).size < pathLimit ∧
        (place.below (location.take (location.length - origin.length))).size < pathLimit)
    (inner : Location) (hsome : (d.get? (inner ++ origin)).isSome) :
    (source.below inner).size < pathLimit ∧ (place.below inner).size < pathLimit := by
  have hmem : inner ++ origin ∈ [] :: d.entries.map Prod.fst := by
    by_cases hroot : inner ++ origin = []
    · simp [hroot]
    · rw [get?, entryAt, if_neg hroot] at hsome
      exact List.mem_cons_of_mem _ ((lookup_isSome_iff _ _).1 hsome)
  simpa using h _ hmem (List.suffix_append _ _)

namespace Placed

variable {source place : Path} (h : Placed d source place origin there)
include h

/-- The paths themselves are short enough. -/
theorem size : source.size < pathLimit ∧ place.size < pathLimit :=
  h.fits [] (by simp [h.directory])

/-- The path of the place can be served. -/
theorem checkPath_place : checkPath place = .ok () := by
  refine checkPath_eq_ok.2 ⟨h.down.nul_notMem, h.size.2, fun hempty => ?_⟩
  have habsolute := h.down.absolute
  simp [Path.isAbsolute, hempty] at habsolute

/-- The first path leads to the directory. -/
theorem find_source : d.find .use source = .ok origin :=
  find_of_canonical h.canonical h.size.1

/-- The place is not found to lie in the directory. -/
theorem isInside_eq_false : d.isInside origin.path place = false := by
  cases there with
  | nil => exact absurd (List.nil_suffix) h.apart.2
  | cons name outer =>
    obtain ⟨above, hparent, hname, -, habove, -⟩ := h.down.above
    rw [isInside, hparent, Option.getD_some]
    cases hcanonical : d.canonical above with
    | error refusal => rfl
    | ok directory =>
      -- Where the canonical path leads is told by the names.
      obtain ⟨location, -, rfl⟩ := canonical_eq_ok hcanonical
      have hfolded := h.plain.folded_of_canonical hcanonical
      rw [Path.names_iff.1 habove.names] at hfolded
      obtain rfl := (List.map_inj_right fun _ _ he => FileName.bytes_injective he).1 hfolded
      have hchild : Path.join (Location.path outer) ⟨name.bytes⟩ = Location.path (name :: outer) :=
        child_path outer name
      simp only [hname, hchild]
      exact Bool.eq_false_iff.2 fun hstarts => h.apart.1 ((Path.startsWith_path _ _).1 hstarts)

/-- The target is made where nothing but directories is in the way. -/
theorem makeTarget_iff : (d.makeTarget place).1 = .ok () ↔
    d.Passable there ∧ (place.EndsInPlace → d.get? there = some .directory) := by
  have hiff := h.plain.makeDirectories_iff h.down h.checkPath_place
  unfold makeTarget
  split
  · next hdirectory =>
    have hdir := (h.plain.isDirectory_iff h.down h.checkPath_place).1 hdirectory
    refine iff_of_true rfl ⟨fun above habove entry hget => ?_, fun _ => hdir⟩
    exact Option.some.inj (hget.symm.trans (directory_of_suffix habove hdir))
  · rw [← hiff]
    rcases d.makeDirectories place with ⟨_ | _, made⟩ <;> simp

/-- What is made are the directories on the way. -/
theorem get?_makeTarget {made : Disk} (hmade : d.makeTarget place = (.ok (), made))
    (location : Location) :
    made.get? location = if location <:+ there then some .directory else d.get? location := by
  unfold makeTarget at hmade
  split at hmade
  · next hdirectory =>
    cases hmade
    split
    · next hsuffix =>
      exact directory_of_suffix hsuffix
        ((h.plain.isDirectory_iff h.down h.checkPath_place).1 hdirectory)
    · rfl
  · split at hmade
    · next hmaking =>
      cases hmade
      exact h.plain.get?_makeDirectories h.down h.checkPath_place hmaking location
    · cases hmade

/-- Once the target was made, the entries can be copied. -/
theorem ready {made : Disk} (hmade : d.makeTarget place = (.ok (), made)) :
    Ready origin there made source place [] := by
  have hkeeps := keepsLinks_of_makeTarget hmade
  have hget := h.get?_makeTarget hmade
  have hdir : made.get? there = some .directory := by rw [hget, if_pos (List.suffix_refl _)]
  refine ⟨hkeeps.plain h.plain, fun location kind hdevice => ?_, hkeeps.find h.find_source, ?_,
    hkeeps.directory h.directory, hdir, fun inner hsome => h.fits inner ?_⟩
  · rw [hget] at hdevice
    split at hdevice
    · cases hdevice
    · exact h.noDevices location kind hdevice
  · have hdirectory := ((hkeeps.plain h.plain).isDirectory_iff h.down h.checkPath_place).2 hdir
    obtain ⟨location, hwalk, -⟩ := lookAt_eq_ok.1 (isDirectory_eq_true.1 hdirectory)
    obtain rfl := Path.path_injective
      (((hkeeps.plain h.plain).names_of_walk hwalk).symm.trans h.down.names)
    exact find_eq_ok.2 hwalk
  · rw [List.nil_append, hget, if_neg] at hsome
    · exact hsome
    · exact fun hsuffix => h.apart.1 ((List.suffix_append _ _).trans hsuffix)

/-- All that lies in the directory lies at or below one of its entries. -/
theorem copies_entries {made : Disk} (hmade : d.makeTarget place = (.ok (), made)) :
    Copies origin there (· ≠ []) made
      (made.copyEntries source place (made.children origin)) := by
  have hcopies := (h.ready hmade).copies_copyEntries h.apart
    fun name hname => (made.mem_children_iff _ _).1 hname
  refine hcopies.congr fun inner hsome => ⟨?_, fun hinner => ?_⟩
  · rintro ⟨name, -, hsuffix⟩ rfl
    cases List.suffix_nil.1 hsuffix
  · obtain ⟨deeper, name, rfl⟩ := (List.eq_nil_or_concat inner).resolve_left hinner
    have hbelow : (made.get? (deeper ++ name :: origin)).isSome := by simpa using hsome
    exact ⟨name, (made.mem_children_iff _ _).2 (isSome_of_append hbelow), deeper, by simp⟩

/-- Below the place everything is as it was once the target was made. -/
theorem get?_made {made : Disk} (hmade : d.makeTarget place = (.ok (), made)) {inner : Location}
    (hinner : inner ≠ []) : made.get? (inner ++ there) = d.get? (inner ++ there) := by
  refine (h.get?_makeTarget hmade _).trans (if_neg fun hsuffix => hinner ?_)
  have hlength := hsuffix.length_le
  rw [List.length_append] at hlength
  exact List.length_eq_zero_iff.1 (by omega)

/-- The directory is as it was once the target was made. -/
theorem get?_made_source {made : Disk} (hmade : d.makeTarget place = (.ok (), made))
    (inner : Location) : made.get? (inner ++ origin) = d.get? (inner ++ origin) :=
  (h.get?_makeTarget hmade _).trans
    (if_neg fun hsuffix => h.apart.1 ((List.suffix_append _ _).trans hsuffix))

/-- Below the place there are the same clashes once the target was made. -/
theorem clash_made {made : Disk} (hmade : d.makeTarget place = (.ok (), made)) {inner : Location}
    (hinner : inner ≠ []) : made.Clash origin there inner ↔ d.Clash origin there inner := by
  rw [Clash, Clash, h.get?_made_source hmade, h.get?_made hmade hinner]

end Placed

/-- A file lies on the way to a location. -/
def Blocked (d : Disk) (there : Location) : Prop :=
  ∃ above bytes, above <:+ there ∧ above ≠ there ∧ d.get? above = some (.file bytes)

/-- Nothing clashes with a place where nothing lies. -/
theorem not_clash_of_none (h : d.get? there = none) (inner : Location) :
    ¬d.Clash origin there inner := by
  have hnone : d.get? (inner ++ there) = none := by
    rw [← Option.not_isSome_iff_eq_none]
    intro hsome
    have hthere := isSome_of_append hsome
    simp [h] at hthere
  simp [Clash, hnone]

/-- No file lies on the way to what lies in a directory. -/
theorem not_blocked_of_directory {name : FileName} {outer : Location}
    (h : d.get? outer = some .directory) : ¬d.Blocked (name :: outer) := by
  rintro ⟨above, bytes, habove, hne, hfile⟩
  have hdir := directory_of_suffix ((List.suffix_cons_iff.1 habove).resolve_left hne) h
  cases hfile.symm.trans hdir

/-- Copying a directory to a place is refused: a file lies on the way to the place, a directory and
a file are at the same place in the two trees, or the path of the place ends in `.` and nothing lies
there. -/
def Refuses (d : Disk) (place : Path) (origin there : Location) : Prop :=
  d.Blocked there ∨ (∃ inner, d.Clash origin there inner) ∨
    (place.EndsInPlace ∧ d.get? there = none)

/-- A directory was laid over a place, and the directories on the way to the place were made. -/
structure LaidOver (d changed : Disk) (origin there : Location) : Prop where
  /-- What the directory has covers what the place had. -/
  inside : ∀ inner,
    changed.get? (inner ++ there) = (d.get? (inner ++ origin)).or (d.get? (inner ++ there))
  /-- Elsewhere nothing is changed but for the directories on the way. -/
  outside : ∀ location, ¬there <:+ location →
    changed.get? location = if location <:+ there then some .directory else d.get? location

namespace Placed

variable {source place : Path} (h : Placed d source place origin there)
include h

/-- The target can be made when nothing refuses it. -/
theorem makeTarget_iff_not : (d.makeTarget place).1 = .ok () ↔
    ¬d.Blocked there ∧ ¬d.Clash origin there [] ∧ ¬(place.EndsInPlace ∧ d.get? there = none) := by
  have hclash : d.Clash origin there [] ↔ _ := clash_iff_of_directory h.directory
  rw [h.makeTarget_iff, hclash, List.nil_append]
  constructor
  · rintro ⟨hpassable, hend⟩
    refine ⟨?_, ?_, ?_⟩
    · rintro ⟨above, bytes, habove, -, hfile⟩
      cases hpassable above habove _ hfile
    · rintro ⟨bytes, hfile⟩
      cases hpassable there (List.suffix_refl _) _ hfile
    · rintro ⟨hplace, hnone⟩
      cases hnone.symm.trans (hend hplace)
  · rintro ⟨hblocked, hfile, hend⟩
    have hpassable : d.Passable there := by
      intro above habove entry hget
      cases entry with
      | directory => rfl
      | device kind => exact absurd hget (h.noDevices _ kind)
      | link target => exact absurd hget (h.plain _ target)
      | file bytes =>
        by_cases hsame : above = there
        · exact absurd ⟨bytes, hsame ▸ hget⟩ hfile
        · exact absurd ⟨above, bytes, habove, hsame, hget⟩ hblocked
    refine ⟨hpassable, fun hplace => ?_⟩
    cases hget : d.get? there with
    | none => exact absurd ⟨hplace, hget⟩ hend
    | some entry => rw [hpassable there (List.suffix_refl _) entry hget]

/-- Copying a directory lays it over the place, unless it is refused. -/
theorem copyTree_cases :
    match d.copyTree source place with
    | (.ok (), changed) => ¬d.Refuses place origin there ∧ LaidOver d changed origin there
    | (.error _, _) => d.Refuses place origin there := by
  have hlook : d.lookAt source = .ok .directory :=
    lookAt_eq_ok.2 ⟨origin, find_eq_ok.1 h.find_source, h.directory⟩
  simp only [copyTree, hlook, ne_eq, not_true_eq_false, if_false, h.canonical,
    h.isInside_eq_false, Bool.false_eq_true]
  -- What is refused at the directory itself is told by making its target, what is refused below it
  -- by copying the entries.
  have hmaking := h.makeTarget_iff_not
  rcases hmade : d.makeTarget place with ⟨fault | _, made⟩
  · rw [hmade] at hmaking
    simp only [reduceCtorEq, false_iff] at hmaking
    show d.Refuses place origin there
    refine Classical.byContradiction fun hnot => hmaking ?_
    rw [Refuses, not_or, not_or] at hnot
    exact ⟨hnot.1, fun hclash => hnot.2.1 ⟨[], hclash⟩, hnot.2.2⟩
  · rw [hmade] at hmaking
    obtain ⟨hblocked, hclash, hend⟩ := hmaking.1 rfl
    have hcopies := h.copies_entries hmade
    simp only [(h.ready hmade).names_source, List.nil_append]
    rcases hentries : made.copyEntries source place (made.children origin) with
      ⟨fault | _, changed⟩ <;> rw [hentries] at hcopies
    · obtain ⟨inner, hinner, hmadeclash⟩ := hcopies
      exact .inr (.inl ⟨inner, (h.clash_made hmade hinner).1 hmadeclash⟩)
    · obtain ⟨hfree, hlaid⟩ := hcopies
      refine ⟨?_, fun inner => ?_, fun location hlocation => ?_⟩
      · rintro (hblock | ⟨inner, hfound⟩ | hplace)
        · exact hblocked hblock
        · by_cases hinner : inner = []
          · exact hclash (hinner ▸ hfound)
          · exact hfree inner hinner ((h.clash_made hmade hinner).2 hfound)
        · exact hend hplace
      · by_cases hinner : inner = []
        · subst hinner
          rw [hlaid.unchosen (by simp), List.nil_append, h.get?_makeTarget hmade,
            if_pos (List.suffix_refl _), List.nil_append, h.directory, Option.some_or]
        · rw [hlaid.inside hinner, h.get?_made_source hmade, h.get?_made hmade hinner]
      · refine (hlaid.outside fun inner _ he => hlocation ?_).trans (h.get?_makeTarget hmade _)
        exact he ▸ List.suffix_append inner there

end Placed

/-! ## Disks that hold the same -/

section Same

variable {other : Disk} (hsame : ∀ location, other.get? location = d.get? location)
include hsame

/-- A disk with the same entries has the same links. -/
theorem keepsLinks_of_get? : d.KeepsLinks other where
  link := by simp [hsame]
  directory := by simp [hsame]
  isSome := by simp [hsame]

/-- A directory and a place for its copy are such on every disk with the same entries. -/
theorem Placed.congr {source place : Path} (h : Placed d source place origin there) :
    Placed other source place origin there where
  plain location target := by rw [hsame]; exact h.plain location target
  noDevices location kind := by rw [hsame]; exact h.noDevices location kind
  canonical := by
    have hfind := (keepsLinks_of_get? hsame).find h.find_source
    rw [canonical_of_find hfind, ← canonical_of_find h.find_source, h.canonical]
  directory := (hsame _).trans h.directory
  down := h.down
  apart := h.apart
  fits inner := by rw [hsame]; exact h.fits inner

/-- The copy goes to the same place on a disk with the same entries. -/
theorem Placed.places_congr {source target place : Path}
    (h : Placed d source place origin there) (hplaces : Builtin.Places d source target place) :
    Builtin.Places other source target place := by
  have hback : other.KeepsLinks d := keepsLinks_of_get? fun location => (hsame location).symm
  cases hplaces with
  | itself hnot =>
    refine .itself (Bool.eq_false_iff.2 fun hdir => ?_)
    rw [hback.isDirectory hdir] at hnot
    cases hnot
  | inside hdir horigin hname =>
    obtain rfl := Except.ok.inj (h.canonical.symm.trans horigin)
    exact .inside ((keepsLinks_of_get? hsame).isDirectory hdir) (h.congr hsame).canonical hname

/-- The same is refused on a disk with the same entries. -/
theorem refuses_congr (place : Path) :
    other.Refuses place origin there ↔ d.Refuses place origin there := by
  simp only [Refuses, Blocked, Clash, hsame]

/-- What is laid over a place is told by the entries. -/
theorem LaidOver.congr {last : Disk} (h : LaidOver d changed origin there)
    (hother : LaidOver other last origin there) (location : Location) :
    last.get? location = changed.get? location := by
  by_cases hbelow : there <:+ location
  · obtain ⟨inner, rfl⟩ := hbelow
    rw [h.inside, hother.inside, hsame, hsame]
  · rw [h.outside _ hbelow, hother.outside _ hbelow, hsame]

end Same

end Disk

/-! ## The command -/

namespace Builtin

open ShellM

variable {w : World Disk} {source target : String} {place : Path} {host : Host}
  {format : Archive.Format}

/-- Where a copy goes is found without changing anything. -/
theorem Places.perform_placement {p q : Path} (h : Places w.held p q place) :
    (placement (Disk.files host format) p q).perform w = (.ok place, w) := by
  simp only [placement, perform_bind, perform_tryRequest, Disk.answer_kindOf]
  cases h with
  | itself hnot =>
    rcases hlook : w.held.lookAt place with refusal | entry
    · simp [Except.map, Disk.looking, catchFault]
    · cases entry with
      | directory => rw [Disk.isDirectory_eq_true.2 hlook] at hnot; cases hnot
      | _ => simp [Except.map, Disk.kindOfEntry, Disk.looking, catchFault]
  | inside hdir horigin hname =>
    simp [Disk.isDirectory_eq_true.1 hdir, Except.map, Disk.kindOfEntry, Disk.looking, catchFault,
      Disk.answer_canonical, horigin, hname]

/-- A directory is copied to the place where it goes. -/
theorem perform_runCp_directory
    (hlook : w.held.lookAt (w.session.resolve source) = .ok .directory)
    (hplaces : Places w.held (w.session.resolve source) (w.session.resolve target) place) :
    (runCp (Disk.files host format) ["-r", source, target]).perform w =
      match w.held.copyTree (w.session.resolve source) place host with
      | (.ok (), copied) => (.ok (), { w with held := copied })
      | (.error fault, copied) => (.error (.failed fault), { w with held := copied }) := by
  have hargs : takeRecursive ["-r", source, target] = (true, [source, target]) := rfl
  have hcopying : (Disk.files host format).answer (.copyTree (w.session.resolve source) place)
      w.held = w.held.answer (.copyTree (w.session.resolve source) place) host format := rfl
  simp only [runCp, hargs, perform_bind, perform_resolve, perform_request, Disk.answer_kindOf,
    hlook, Except.map, Disk.kindOfEntry, Disk.looking]
  rw [if_neg (by simp)]
  simp only [perform_bind, perform_resolve, hplaces.perform_placement, perform_request, hcopying,
    Disk.answer]
  rcases w.held.copyTree (w.session.resolve source) place host with ⟨fault | _, copied⟩ <;> rfl

/-- Copying a directory is complained about when it is refused, and else the directory is laid over
its place. -/
theorem silent_cp_iff {origin there : Location} (hstreams : w.streams.NeverFails)
    (hplaces : Places w.held (w.session.resolve source) (w.session.resolve target) place)
    (hplaced : w.held.Placed (w.session.resolve source) place origin there) :
    let after := ((dispatch Disk.files ⟨"cp", ["-r", source, target], none⟩).perform w).2
    (after.streams.bytesOn .err = w.streams.bytesOn .err ↔
        ¬w.held.Refuses place origin there) ∧
      (after.streams.bytesOn .err = w.streams.bytesOn .err →
        w.held.LaidOver after.held origin there) := by
  intro after
  have hlook : w.held.lookAt (w.session.resolve source) = .ok .directory :=
    Disk.lookAt_eq_ok.2 ⟨origin, Disk.find_eq_ok.1 hplaced.find_source, hplaced.directory⟩
  have hrun : (runCp Disk.files ["-r", source, target]).perform w = _ :=
    perform_runCp_directory hlook hplaces
  have hcases := hplaced.copyTree_cases
  rcases hcopy : w.held.copyTree (w.session.resolve source) place with ⟨fault | _, copied⟩ <;>
    rw [hcopy] at hrun hcases
  · -- A command that was silent has come to its end.
    have hloud : after.streams.bytesOn .err ≠ w.streams.bytesOn .err := by
      intro hsilent
      have hdone := run_of_silent Disk.files (b := .cp) hstreams hsilent
      cases (congrArg Prod.fst hrun).symm.trans (congrArg Prod.fst hdone)
    exact ⟨iff_of_false hloud (fun hnot => hnot hcases), fun hsilent => absurd hsilent hloud⟩
  · have hdone : (cp.run Disk.files ["-r", source, target]).perform w =
        (.ok (), { w with held := copied }) := hrun
    rw [show after = { w with held := copied } from
      congrArg Prod.snd (perform_dispatch_of_run Disk.files hdone)]
    exact ⟨iff_of_true rfl hcases.1, fun _ => hcases.2⟩

end Builtin

/-- Copying a directory with `cp -r`, on a disk without links and devices and to a place that lies
apart from it: it is complained about exactly when a file lies on the way to the place, when there
is a directory on one side where the other side has a file, or when the path of the place ends in
`.` and nothing lies there. Otherwise the directory is laid over the place. All this can be told
from what lies where, whatever the order is in which the names of a directory are listed. -/
theorem dispatch_cp_overlays {w : World Disk} {source target : String} {place : Path}
    {origin there : Location} (hstreams : w.streams.NeverFails)
    (hplaces : Builtin.Places w.held (w.session.resolve source) (w.session.resolve target) place)
    (hplaced : w.held.Placed (w.session.resolve source) place origin there) :
    let after := ((dispatch Disk.files ⟨"cp", ["-r", source, target], none⟩).perform w).2
    (after.streams.bytesOn .err ≠ w.streams.bytesOn .err ↔
        w.held.Blocked there ∨ (∃ inner, w.held.Clash origin there inner) ∨
          (place.EndsInPlace ∧ w.held.get? there = none)) ∧
      (after.streams.bytesOn .err = w.streams.bytesOn .err →
        w.held.LaidOver after.held origin there) ∧
      ∀ other : Disk, (∀ location, other.get? location = w.held.get? location) →
        let last := ((dispatch Disk.files ⟨"cp", ["-r", source, target], none⟩).perform
          { w with held := other }).2
        (last.streams.bytesOn .err = w.streams.bytesOn .err ↔
            after.streams.bytesOn .err = w.streams.bytesOn .err) ∧
          (after.streams.bytesOn .err = w.streams.bytesOn .err →
            ∀ location, last.held.get? location = after.held.get? location) := by
  intro after
  obtain ⟨hsilent, hlaid⟩ := Builtin.silent_cp_iff hstreams hplaces hplaced
  refine ⟨?_, hlaid, fun other hsame => ?_⟩
  · rw [ne_eq, hsilent, Classical.not_not]
    rfl
  · have hother := hplaced.places_congr hsame hplaces
    obtain ⟨hsilent', hlaid'⟩ := Builtin.silent_cp_iff (w := { w with held := other }) hstreams
      hother (hplaced.congr hsame)
    have hiff := hsilent'.trans (((not_congr (Disk.refuses_congr hsame place))).trans hsilent.symm)
    exact ⟨hiff, fun h location => Disk.LaidOver.congr hsame (hlaid h) (hlaid' (hiff.2 h)) location⟩

/-- A directory is laid over a place in another directory. -/
theorem dispatch_cp_overlays_side_by_side :
    let w : World Disk := ⟨Session.start .root .root, .unlimited, sideBySide⟩
    let there : Location := .ofString "s" :: otherTree
    let after := ((dispatch Disk.files ⟨"cp", ["-r", "s", "t"], none⟩).perform w).2
    (w.streams.NeverFails ∧
        Builtin.Places w.held (w.session.resolve "s") (w.session.resolve "t") (.ofString "/t/s") ∧
        w.held.Placed (w.session.resolve "s") (.ofString "/t/s") someTree there) ∧
      after.streams.bytesOn .err = w.streams.bytesOn .err ∧
        w.held.LaidOver after.held someTree there := by
  intro w there after
  have hresolve : w.session.resolve "s" = .ofString "/s" := by decide +kernel
  have htarget : w.session.resolve "t" = .ofString "/t" := by decide +kernel
  have hcanonical : w.held.canonical (.ofString "/s") = .ok (.ofString "/s") := rfl
  have hplaces : Builtin.Places w.held (w.session.resolve "s") (w.session.resolve "t")
      (.ofString "/t/s") := by
    have hplace : Path.ofString "/t/s" = Path.join (.ofString "/t") (.ofString "s") := by
      decide +kernel
    rw [hresolve, htarget, hplace]
    exact .inside (by decide +kernel) hcanonical (by decide +kernel)
  have hnames : (Path.root.join (.ofString "/t/s")).normalize = there.path := by decide +kernel
  have hplaced : w.held.Placed (w.session.resolve "s") (.ofString "/t/s") someTree there := by
    rw [hresolve]
    exact ⟨Disk.plain_of_entries (by decide), Disk.noDevices_of_entries (by decide), hcanonical,
      by decide, ⟨by decide +kernel, by decide +kernel, hnames⟩, ⟨by decide, by decide⟩,
      Disk.fits_of_entries (by decide +kernel)⟩
  obtain ⟨hloud, hlaid, -⟩ :=
    dispatch_cp_overlays Streams.neverFails_unlimited hplaces hplaced
  have hsilent : after.streams.bytesOn .err = w.streams.bytesOn .err := by
    refine Classical.not_not.1 (mt hloud.1 ?_)
    rintro (hblocked | ⟨inner, hclash⟩ | ⟨hplace, -⟩)
    · exact Disk.not_blocked_of_directory (by decide) hblocked
    · exact Disk.not_clash_of_none (by decide) inner hclash
    · exact absurd hplace (by decide +kernel)
  exact ⟨⟨Streams.neverFails_unlimited, hplaces, hplaced⟩, hsilent, hlaid hsilent⟩

/-- A directory is not copied to a place that ends in `.` and where nothing lies, although nothing
is in the way. -/
theorem cp_refuses_missing_in_place :
    let w : World Disk := ⟨Session.start .root .root, .unlimited, sideBySide⟩
    let there : Location := [.ofString "n"]
    let after := ((dispatch Disk.files ⟨"cp", ["-r", "s", "n/."], none⟩).perform w).2
    (w.streams.NeverFails ∧
        Builtin.Places w.held (w.session.resolve "s") (w.session.resolve "n/.") (.ofString "/n/.") ∧
        w.held.Placed (w.session.resolve "s") (.ofString "/n/.") someTree there) ∧
      ¬(w.held.Blocked there ∨ ∃ inner, w.held.Clash someTree there inner) ∧
        after.streams.bytesOn .err ≠ w.streams.bytesOn .err := by
  intro w there after
  have hresolve : w.session.resolve "s" = .ofString "/s" := by decide +kernel
  have htarget : w.session.resolve "n/." = .ofString "/n/." := by decide +kernel
  have hplaces : Builtin.Places w.held (w.session.resolve "s") (w.session.resolve "n/.")
      (.ofString "/n/.") := by
    rw [htarget]
    exact .itself (by decide +kernel)
  have hnames : (Path.root.join (.ofString "/n/.")).normalize = there.path := by decide +kernel
  have hplaced : w.held.Placed (w.session.resolve "s") (.ofString "/n/.") someTree there := by
    rw [hresolve]
    exact ⟨Disk.plain_of_entries (by decide), Disk.noDevices_of_entries (by decide), rfl,
      by decide, ⟨by decide +kernel, by decide +kernel, hnames⟩, ⟨by decide, by decide⟩,
      Disk.fits_of_entries (by decide +kernel)⟩
  refine ⟨⟨Streams.neverFails_unlimited, hplaces, hplaced⟩, ?_, fun hsilent => ?_⟩
  · rintro (hblocked | ⟨inner, hclash⟩)
    · exact Disk.not_blocked_of_directory rfl hblocked
    · exact Disk.not_clash_of_none (by decide) inner hclash
  · obtain ⟨hiff, -⟩ := Builtin.silent_cp_iff Streams.neverFails_unlimited hplaces hplaced
    exact hiff.1 hsilent (.inr (.inr ⟨by decide +kernel, by decide⟩))

end CommandShell
