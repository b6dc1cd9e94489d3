import CommandShell.Proofs.Losses

/-!
# What copying a tree does to the tree

A tree is copied file by file, and each file is emptied before the one it is copied from is read.
Before it starts, copying looks once whether the tree would be copied into itself. What this guard
finds, and when the tree that is copied stays as it is, depends on the directories and links on the
way to the copies.

## Main definitions

* `Disk.LeadsBelow`: however files and directories are added, a path leads to places at or below a
  location.
* `Disk.ClearOf`: a place for a copy, once it is made, lies neither in a directory nor around it,
  and no link lies in it.
* `Path.Apart`: the normal form of neither path begins with that of the other.

## Main results

* `Disk.answer_copyTree_into_itself_iff`: without links a copy of a directory into itself is
  refused when the directory that the place lies in exists, and only then;
* `Disk.copyTree_into_itself_unnoticed`: a copy into a missing directory in the tree is begun;
* `Disk.get?_copyTree_of_clearOf`: a copy to a place that is clear of a tree keeps the files in it;
* `dispatch_cp_keeps_source`: so does `cp -r`, and `dispatch_cp_keeps_plain_source` says when it
  does so without links;
* `dispatch_cp_empties_source`: a link in the place of the copy may cost a file of the tree.
-/

namespace CommandShell

variable {host : Host} {format : Archive.Format}

namespace Disk

variable {d : Disk} {source target : Path}

/-! ## Into itself -/

/-- On a plain disk a place at or below a directory is found to be one when the directory that the
place lies in can be resolved. -/
theorem Plain.isInside_iff (hplain : d.Plain) {origin : Path}
    (horigin : d.canonical source = .ok origin) (habsolute : target.isAbsolute = true)
    (hwithin : target.isWithin origin = true) :
    d.isInside origin target = true ↔
      ∃ above, d.canonical (target.parent.getD target) = .ok above := by
  unfold isInside
  cases habove : d.canonical (target.parent.getD target) with
  | error => simp
  | ok above =>
    simp only [Except.ok.injEq, exists_eq', iff_true]
    obtain ⟨base, -, rfl⟩ := canonical_eq_ok horigin
    obtain ⟨there, -, rfl⟩ := canonical_eq_ok habove
    have hthere := hplain.folded_of_canonical habove
    rw [Path.isWithin_path_iff habsolute] at hwithin
    have hbase : ∀ bytes ∈ base.map FileName.bytes, Path.IsName bytes :=
      fun _ => Path.isName_of_mem_location
    -- The names of the directory are the outer ones of the target, and so of where it would lie.
    rcases Path.parent_of_isAbsolute habsolute with
      ⟨hparent, hname, -⟩ | ⟨up, hparent, ⟨name, hname, hlegal, hfolded⟩ | ⟨hname, hfolded⟩⟩
    · rw [hparent, Option.getD_none] at hthere
      rw [hthere] at hwithin
      rw [hname, Path.startsWith_path]
      exact (List.suffix_map_iff_of_injective FileName.bytes_injective).1 hwithin
    · rw [hparent, Option.getD_some] at hthere
      rw [hfolded, hthere] at hwithin
      simp only [hname]
      rw [← Path.ofNames_location, ← Path.ofNames_location,
        Path.join_ofNames hlegal fun _ => Path.isName_of_mem_location]
      refine (Path.startsWith_ofNames ?_ hbase).2 hwithin
      simpa using ⟨hlegal, fun other _ => Path.isName_of_legal other.legal⟩
    · rw [hparent, Option.getD_some] at hthere
      rw [hfolded, hthere] at hwithin
      rw [hname, Path.startsWith_path]
      exact (List.suffix_map_iff_of_injective FileName.bytes_injective).1
        (hwithin.trans (List.tail_suffix _))

/-- Making the target of a tree ends well or with a refused call. -/
theorem fault_of_makeTarget {fault : Fault} {made : Disk}
    (h : d.makeTarget target = (.error fault, made)) :
    ∃ attempt p refusal, fault = .refused attempt p refusal := by
  unfold makeTarget at h
  split at h
  · cases h
  · split at h
    · cases h
    · cases h
      exact ⟨_, _, _, rfl⟩

/-- Copying entries ends well or with a refused call. -/
theorem fault_of_copyEntries {names : List FileName} {fault : Fault} {copied : Disk}
    (h : d.copyEntries source target names host = (.error fault, copied)) :
    ∃ attempt p refusal, fault = .refused attempt p refusal := by
  fun_induction copyEntries d source target names host with
  | case1 => cases h
  | case2 _ _ _ _ _ _ _ _ hmade =>
    cases h
    exact fault_of_makeTarget hmade
  | case3 | case6 =>
    cases h
    exact ⟨_, _, _, rfl⟩
  | case4 _ _ _ _ _ _ _ _ _ _ _ _ hcopied ih =>
    cases h
    exact ih hcopied
  | case5 _ _ _ _ _ _ _ _ _ _ _ _ _ ih => exact ih h
  | case7 _ _ _ _ _ _ _ _ _ ih => exact ih h

/-- Only the guard tells that a tree would be copied into itself. -/
theorem fault_of_copyTree {origin : Path} {fault : Fault} {copied : Disk}
    (horigin : d.canonical source = .ok origin) (hinside : d.isInside origin target = false)
    (h : d.copyTree source target host = (.error fault, copied)) :
    ∃ attempt p refusal, fault = .refused attempt p refusal := by
  unfold copyTree at h
  split at h
  · cases h
    exact ⟨_, _, _, rfl⟩
  · split at h
    · cases h
      exact ⟨_, _, _, rfl⟩
    · simp only [horigin, hinside, Bool.false_eq_true, if_false] at h
      split at h
      · next hmade =>
        cases h
        exact fault_of_makeTarget hmade
      · split at h
        · cases h
          exact ⟨_, _, _, rfl⟩
        · exact fault_of_copyEntries h

/-- A directory that is made for a copy stays, however the copying ends. -/
theorem get?_copyTree_of_made {origin : Path} {location : Location}
    (hlook : d.lookAt source = .ok .directory) (horigin : d.canonical source = .ok origin)
    (hinside : d.isInside origin target = false)
    (hmade : (d.makeTarget target).2.get? location = some .directory) :
    (d.copyTree source target host).2.get? location = some .directory := by
  unfold copyTree
  simp only [hlook, ne_eq, not_true_eq_false, if_false, horigin, hinside, Bool.false_eq_true]
  rcases hready : d.makeTarget target with ⟨fault | _, made⟩
  · rwa [hready] at hmade
  · rw [hready] at hmade
    simp only
    split
    · exact hmade
    · -- Copying makes directories and writes files, so no directory is lost.
      refine copyEntries_induction (fun now changed => now.get? location = some .directory →
          changed.get? location = some .directory)
        (fun _ => id) (fun h hmore => hmore ∘ h) (fun _ => True) (fun _ => id) (fun _ => ?_)
        (fun {now source target} _ => ?_) trivial _ hmade
      · exact (grows_makeDirectories _ _).get?
      · exact (now.keepsLinks_copyFile source target host).directory

/-- On a plain disk a directory is not copied to a place at or below it, and everything stays as it
is, exactly when the directory that the place lies in can be resolved. Where that one is missing,
the copying begins. -/
theorem answer_copyTree_into_itself_iff (hplain : d.Plain) {origin : Path}
    (hlook : d.lookAt source = .ok .directory) (horigin : d.canonical source = .ok origin)
    (habsolute : target.isAbsolute = true) (hwithin : target.isWithin origin = true) :
    d.answer (.copyTree source target) host format =
        (.error (.failed (.file (.intoItself source target))), d) ↔
      ∃ above, d.canonical (target.parent.getD target) = .ok above := by
  rw [← hplain.isInside_iff horigin habsolute hwithin]
  constructor
  · intro h
    rw [← Bool.not_eq_false]
    intro hinside
    rcases hcopy : d.copyTree source target host with ⟨fault | _, copied⟩
    · obtain ⟨attempt, p, refusal, rfl⟩ := fault_of_copyTree horigin hinside hcopy
      simp [answer, hcopy, Fault.refused] at h
    · simp [answer, hcopy] at h
  · intro hinside
    have hcopy : d.copyTree source target host =
        (.error (.file (.intoItself source target)), d) := by
      simp [copyTree, hlook, horigin, hinside]
    rw [answer, hcopy]

/-- A new directory in the tree that is copied is found to be in it, however it is written. -/
theorem answer_copyTree_into_itself_existing :
    let tree : Location := [.ofString "s"]
    let d := Disk.empty.put tree .directory
    let target : Path := .ofString "/s/.//copy/"
    (d.Plain ∧ d.lookAt tree.path = .ok .directory ∧ target.isWithin tree.path = true) ∧
      d.answer (.copyTree tree.path target) =
        (.error (.failed (.file (.intoItself tree.path target))), d) := by
  intro tree d target
  have hplain : d.Plain := plain_of_entries (by decide)
  have hlook : d.lookAt tree.path = .ok .directory :=
    hplain.lookAt_path.2 ⟨by decide +kernel, by decide⟩
  have horigin : d.canonical tree.path = .ok tree.path :=
    hplain.canonical_path (by decide) (by decide +kernel)
  have hwithin : target.isWithin tree.path = true := by decide +kernel
  have hparent : target.parent.getD target = tree.path := by decide +kernel
  refine ⟨⟨hplain, hlook, hwithin⟩, ?_⟩
  exact (answer_copyTree_into_itself_iff hplain hlook horigin (by decide +kernel) hwithin).2
    ⟨tree.path, by rw [hparent, horigin]⟩

/-- A place that lies two missing levels deep in the tree that is copied is not found to be in it:
the first of them is made, and it stays. -/
theorem copyTree_into_itself_unnoticed :
    let tree : Location := [.ofString "s"]
    let inner : Location := .ofString "a" :: tree
    let d := Disk.empty.put tree .directory
    let target : Path := .ofString "/s/a/b"
    (d.Plain ∧ d.lookAt tree.path = .ok .directory ∧ d.canonical tree.path = .ok tree.path ∧
        target.isAbsolute = true ∧ target.isWithin tree.path = true) ∧
      (d.answer (.copyTree tree.path target)).1 ≠
        .error (.failed (.file (.intoItself tree.path target))) ∧
      d.get? inner = none ∧
      (d.answer (.copyTree tree.path target)).2.get? inner = some .directory := by
  intro tree inner d target
  have hplain : d.Plain := plain_of_entries (by decide)
  have hlook : d.lookAt tree.path = .ok .directory :=
    hplain.lookAt_path.2 ⟨by decide +kernel, by decide⟩
  have horigin : d.canonical tree.path = .ok tree.path :=
    hplain.canonical_path (by decide) (by decide +kernel)
  have hinside : d.isInside tree.path target = false := by decide +kernel
  refine ⟨⟨hplain, hlook, horigin, by decide +kernel, by decide +kernel⟩, ?_, by decide, ?_⟩
  · rcases hcopy : d.copyTree tree.path target with ⟨fault | _, copied⟩
    · obtain ⟨attempt, p, refusal, rfl⟩ := fault_of_copyTree horigin hinside hcopy
      simp [answer, hcopy, Fault.refused]
    · simp [answer, hcopy]
  · rw [held_answer_copyTree]
    exact get?_copyTree_of_made hlook horigin hinside (by decide +kernel)

/-! ## Places below a location -/

/-- However files and directories are added, the path leads to places at or below a location. -/
def LeadsBelow (d : Disk) (base : Location) (p : Path) : Prop :=
  ∀ {now : Disk} {spot : Spot}, d.KeepsLinks now →
    now.walkSteps .use (Step.dropSlash p.steps) = .ok spot → base <:+ spot.location

/-- A walk along a path that ends in a separator ends where it ends without the separator. -/
theorem walkSteps_dropSlash {p : Path} {spot : Spot} (h : d.walkSteps .use p.steps = .ok spot) :
    d.walkSteps .use (Step.dropSlash p.steps) = .ok spot := by
  rw [Step.dropSlash]
  split
  · next hlast =>
    obtain ⟨front, hfront⟩ := List.getLast?_eq_some_iff.1 hlast
    rw [hfront] at h
    rw [hfront, List.dropLast_concat]
    obtain ⟨used, hused, there, hleads, hends⟩ := (ends_of_walkLinks h).leads (.inr (by simp))
    -- What is left to go is the separator, which leads nowhere else.
    generalize linkLimit - used = left at hends
    cases hends with
    | pass _ hpast hdone =>
      cases hpast
      cases hdone
      exact walkLinks_use_iff.2 ⟨used, hused, hleads⟩
  · exact h

/-- Where a path leads, there it leads however files and directories are added. -/
theorem leadsBelow_of_find {p : Path} {base : Location} (h : d.find .use p = .ok base) :
    d.LeadsBelow base p := by
  intro now spot hkeeps hwalk
  have hbase := walkSteps_dropSlash (walk_eq_ok (find_eq_ok.1 h)).2
  obtain ⟨used, hused, hleads⟩ := walkLinks_use_iff.1 hbase
  have hnow : now.walkSteps .use (Step.dropSlash p.steps) = .ok (.found base) :=
    walkLinks_use_iff.2 ⟨used, hused, hleads.keepLinks hkeeps⟩
  obtain rfl := Except.ok.inj (hnow.symm.trans hwalk)
  exact List.suffix_refl base

/-- The last name of a way is the name of its end, unless a link lies there that is not itself
meant. -/
theorem Ends.location_of_name {purpose : Purpose} {links : Nat} {here : Location} {name : FileName}
    {spot : Spot} (h : Ends d purpose links here [.name name.bytes] spot)
    (hlink : purpose ≠ .useLink → ∀ target, d.get? (name :: here) ≠ some (.link target)) :
    spot.location = name :: here := by
  generalize hstep : [Step.name name.bytes] = steps at h
  cases h with
  | done => cases hstep
  | pass _ hpast _ =>
    cases hstep
    cases hpast
  | vacant | atLink =>
    obtain rfl := FileName.bytes_injective (Step.name.inj (List.cons.inj hstep).1)
    rfl
  | enter _ _ hdone =>
    obtain ⟨hname, rfl⟩ := List.cons.inj hstep
    obtain rfl := FileName.bytes_injective (Step.name.inj hname)
    cases hdone
    rfl
  | follow hget hmeant =>
    obtain ⟨hname, rfl⟩ := List.cons.inj hstep
    obtain rfl := FileName.bytes_injective (Step.name.inj hname)
    exact absurd hget (hlink (fun huseLink => hmeant huseLink rfl) _)

/-- The last step of the path of an entry is its name. -/
theorem steps_child (p : Path) (name : FileName) :
    (p.child name).steps = Step.dropSlash p.steps ++ [.name name.bytes] :=
  Step.steps_join_name p (Path.isName_of_legal name.legal)

/-- The path of an entry has no separator at its end. -/
theorem dropSlash_steps_child (p : Path) (name : FileName) :
    Step.dropSlash (p.child name).steps = (p.child name).steps := by
  rw [steps_child, Step.dropSlash, if_neg (by simp)]

/-- The path of an entry can be served when it is short enough and that of the directory can. -/
theorem checkPath_child {p : Path} (h : checkPath p = .ok ()) {name : FileName}
    (hsize : (p.child name).size < pathLimit) : checkPath (p.child name) = .ok () := by
  refine checkPath_eq_ok.2 ⟨?_, hsize, fun hempty => ?_⟩
  · have hnul := (checkPath_eq_ok.1 h).1
    have hname : 0 ∉ name.bytes := name.legal.2.2.2.2.1
    rw [Path.child, Path.join, if_neg (by simp [name.isAbsolute_eq_false])]
    split <;> simp [hnul, hname]
  · have hlonger := p.size_lt_child name
    simp [Path.size, hempty] at hlonger

/-- The path of an entry leads to the directory first. -/
theorem walkSteps_child {p : Path} {here : Location} (purpose : Purpose)
    (h : d.walkSteps .use p.steps = .ok (.found here)) (name : FileName) :
    ∃ links, d.walkSteps purpose (p.child name).steps =
      d.walkLinks purpose links here [.name name.bytes] := by
  obtain ⟨used, hused, hleads⟩ := walkLinks_use_iff.1 (walkSteps_dropSlash h)
  refine ⟨linkLimit - used, ?_⟩
  rw [steps_child, walkSteps, walkLinks_of_leads hleads hused (.inr (by simp))]

/-- Behind a path to places below a location a name leads to places below it, unless a link lies
there. -/
theorem LeadsBelow.child {base : Location} {p : Path} (h : d.LeadsBelow base p)
    (hlink : ∀ location target, base <:+ location → d.get? location ≠ some (.link target))
    (name : FileName) : d.LeadsBelow base (p.child name) := by
  intro now spot hkeeps hwalk
  rw [dropSlash_steps_child, steps_child] at hwalk
  obtain ⟨used, hused, above, hleads, hends⟩ := (ends_of_walkLinks hwalk).leads (.inr (by simp))
  have habove : base <:+ above := h hkeeps (walkLinks_use_iff.2 ⟨used, hused, hleads⟩)
  have hbelow : base <:+ name :: above := habove.trans (List.suffix_cons _ _)
  rwa [hends.location_of_name fun _ target hget => hlink _ target hbelow (hkeeps.link.1 hget)]

/-- A file that is opened by such a path lies below the location. -/
theorem LeadsBelow.suffix_of_opens {base location : Location} {p : Path} {now : Disk}
    (h : d.LeadsBelow base p) (hkeeps : d.KeepsLinks now) (hopens : now.Opens p location) :
    base <:+ location := by
  obtain ⟨spot, hwalk, rfl⟩ := hopens
  have huse := (ends_of_walkLinks (walk_eq_ok hwalk).2).walkLinks_use (by simp)
  exact h hkeeps (walkSteps_dropSlash huse)

/-! ## Clear of the source -/

/-- A place for a copy, once it is made, lies neither in a directory nor around it, and no link lies
in it. -/
def ClearOf (d : Disk) (origin : Location) (place : Path) : Prop :=
  (d.makeTarget place).1 = .ok () →
    ∃ there, (d.makeTarget place).2.find .use place = .ok there ∧
      ¬origin <:+ there ∧ ¬there <:+ origin ∧
        ∀ location target, there <:+ location → d.get? location ≠ some (.link target)

/-- Making the target of a tree adds directories at most. -/
theorem grows_makeTarget (d : Disk) (target : Path) : d.Grows (d.makeTarget target).2 := by
  rcases d.makeTarget_eq target with he | he
  · rw [he]
    exact .refl d
  · rw [he]
    exact d.grows_makeDirectories target

/-- Links and directories stay when the target of a tree is made. -/
theorem keepsLinks_of_makeTarget {target : Path} {result : Except Fault Unit} {made : Disk}
    (h : d.makeTarget target = (result, made)) : d.KeepsLinks made := by
  have hgrows := d.grows_makeTarget target
  rw [h] at hgrows
  exact hgrows.keepsLinks

/-- Copying entries to places below a location without links keeps the files that lie elsewhere. -/
theorem get?_copyEntries_of_leadsBelow {base location : Location} {bytes : Bytes}
    (h : d.LeadsBelow base target)
    (hlink : ∀ location target, base <:+ location → d.get? location ≠ some (.link target))
    (hbase : ¬base <:+ location) (hget : d.get? location = some (.file bytes))
    (names : List FileName) :
    (d.copyEntries source target names host).2.get? location = some (.file bytes) := by
  -- What stays besides the file are the links, so that the targets lead below the location still.
  suffices hkept : d.KeepsLinks (d.copyEntries source target names host).2 ∧
      (d.get? location = some (.file bytes) →
        (d.copyEntries source target names host).2.get? location = some (.file bytes)) from
    hkept.2 hget
  refine copyEntries_induction (fun now changed => d.KeepsLinks now → d.KeepsLinks changed ∧
      (now.get? location = some (.file bytes) → changed.get? location = some (.file bytes)))
    (fun _ hnow => ⟨hnow, id⟩) (fun hfirst hmore hnow => ?_) (d.LeadsBelow base)
    (fun name hbelow => hbelow.child hlink name) (fun {now place} _ hnow => ?_)
    (fun {now origin place} hbelow hnow => ?_) h names (.refl d)
  · obtain ⟨hmiddle, hkept⟩ := hfirst hnow
    obtain ⟨hlast, hstill⟩ := hmore hmiddle
    exact ⟨hlast, hstill ∘ hkept⟩
  · have hgrows := now.grows_makeDirectories place
    exact ⟨hnow.trans hgrows.keepsLinks, hgrows.get?⟩
  · refine ⟨hnow.trans (now.keepsLinks_copyFile _ place host), fun hfile => ?_⟩
    exact ((spares_copyFile _ place).entry hfile (by simp)).resolve_left fun hopens =>
      hbase (hbelow.suffix_of_opens hnow hopens)

/-- Of a single entry that is no directory the file is copied. -/
theorem held_copyEntries_file {name : FileName} (h : d.isDirectory (source.child name) = false) :
    (d.copyEntries source target [name] host).2 =
      (d.copyFile (source.child name) (target.child name) host).2 := by
  rw [copyEntries.eq_def]
  simp only [h, Bool.false_eq_true, dite_false]
  rcases d.copyFile (source.child name) (target.child name) host with ⟨refusal | count, copied⟩
  · rfl
  · simp only
    rw [copyEntries.eq_def]

/-- Copying a directory to a place that is clear of it keeps every file in the directory. -/
theorem get?_copyTree_of_clearOf {origin location : Location} {bytes : Bytes}
    (hclear : d.ClearOf origin target) (hbelow : origin <:+ location)
    (hget : d.get? location = some (.file bytes)) :
    (d.copyTree source target host).2.get? location = some (.file bytes) := by
  have hgrows := d.grows_makeTarget target
  rcases d.held_copyTree source target with he | he | ⟨made, names, hmade, he⟩ <;> rw [he]
  · exact hget
  · exact hgrows.get? hget
  · rw [ClearOf, hmade] at hclear
    rw [hmade] at hgrows
    obtain ⟨there, hfind, hinside, haround, hlink⟩ := hclear rfl
    refine get?_copyEntries_of_leadsBelow (leadsBelow_of_find hfind) ?_ ?_ (hgrows.get? hget) names
    · intro location target hthere hlater
      exact hlink location target hthere (hgrows.keepsLinks.link.1 hlater)
    · -- Two locations with something below both lie one in the other.
      intro hthere
      rcases List.suffix_or_suffix_of_suffix hbelow hthere with hsuffix | hsuffix
      · exact hinside hsuffix
      · exact haround hsuffix

end Disk

namespace Builtin

open ShellM

/-! ## The command -/

section Command

variable {w : World Disk} {source target : String}

/-- There is one place for a copy into a directory. -/
theorem Places.eq_of_isDirectory {d : Disk} {source target place origin : Path} {name : Bytes}
    (h : Places d source target place) (hdir : d.isDirectory target = true)
    (hsource : d.canonical source = .ok origin) (hname : origin.fileName = some name) :
    place = target.join ⟨name⟩ := by
  cases h with
  | itself hnot => simp [hdir] at hnot
  | inside _ horigin hlast =>
    obtain rfl := Except.ok.inj (hsource.symm.trans horigin)
    obtain rfl := Option.some.inj (hname.symm.trans hlast)
    rfl

/-- A directory is copied to the place that is found for it, and when none is found, nothing
changes. -/
theorem held_runCp_directory
    (hlook : w.held.lookAt (w.session.resolve source) = .ok .directory) :
    ((runCp (Disk.files host format) ["-r", source, target]).perform w).2.held =
      match ((placement (Disk.files host format) (w.session.resolve source)
        (w.session.resolve target)).perform w).1 with
      | .ok place => (w.held.copyTree (w.session.resolve source) place host).2
      | .error _ => w.held := by
  have hargs : takeRecursive ["-r", source, target] = (true, [source, target]) := rfl
  obtain ⟨hheld, -⟩ := (alike_placement (Disk.files host format) (Disk.files host format)
    (w.session.resolve source) (w.session.resolve target)).unchanged_of_looking w
  simp only [runCp, hargs, perform_bind, perform_resolve, perform_request, Disk.answer_kindOf,
    hlook, Except.map, Disk.kindOfEntry, Disk.looking]
  rw [if_neg (by simp)]
  simp only [perform_bind, perform_resolve]
  rcases hplace : (placement (Disk.files host format) (w.session.resolve source)
    (w.session.resolve target)).perform w with ⟨stop | place, after⟩ <;> rw [hplace] at hheld
  · exact hheld
  · rw [← show after.held = w.held from hheld]
    exact after.held.held_answer_copyTree (w.session.resolve source) place host format

/-- What `cp -r` does to a disk is copying the directory to the place where it goes, or nothing. -/
theorem held_runCp_cases {origin : Location} (target : String)
    (hsource : w.held.canonical (w.session.resolve source) = .ok origin.path)
    (hdirectory : w.held.get? origin = some .directory) :
    ((runCp (Disk.files host format) ["-r", source, target]).perform w).2.held = w.held ∨
      ∃ place, Places w.held (w.session.resolve source) (w.session.resolve target) place ∧
        ((runCp (Disk.files host format) ["-r", source, target]).perform w).2.held =
          (w.held.copyTree (w.session.resolve source) place host).2 := by
  cases hlook : w.held.lookAt (w.session.resolve source) with
  | error refusal =>
    -- What is to be copied is looked at first.
    have hargs : takeRecursive ["-r", source, target] = (true, [source, target]) := rfl
    left
    simp only [runCp, hargs, perform_bind, perform_resolve, perform_request, Disk.answer_kindOf,
      hlook, Except.map, Disk.looking]
  | ok entry =>
    obtain rfl : entry = .directory :=
      Option.some.inj ((Disk.get?_of_canonical hlook hsource).symm.trans hdirectory)
    rw [held_runCp_directory hlook]
    rcases hplace : (placement (Disk.files host format) (w.session.resolve source)
      (w.session.resolve target)).perform w with ⟨stop | place, after⟩
    · exact .inl rfl
    · exact .inr ⟨place, places_of_placement hplace, rfl⟩

end Command

end Builtin

/-- Without a redirection a line with `cp` leaves what its command leaves. -/
theorem held_dispatch_cp (args : List String) (w : World Disk) :
    ((dispatch (Disk.files host format) ⟨"cp", args, none⟩).perform w).2.held =
      ((Builtin.runCp (Disk.files host format) args).perform w).2.held := by
  have hname : Builtin.ofName? "cp" = some .cp := rfl
  rw [perform_dispatch_plain (Disk.files host format) args hname, held_invoke]
  rfl

/-! ## The source -/

/-- The normal form of neither path begins with that of the other. -/
def Path.Apart (p other : Path) : Prop :=
  ¬p.folded <:+ other.folded ∧ ¬other.folded <:+ p.folded

section Source

variable {w : World Disk} {source target : String} {origin location : Location} {bytes : Bytes}

/-- On a disk without links a directory that `cp -r` copies keeps every file when the place of the
copy is neither the directory nor in it nor around it. -/
theorem dispatch_cp_keeps_plain_source (hplain : w.held.Plain)
    (hsource : w.held.canonical (w.session.resolve source) = .ok origin.path)
    (hdirectory : w.held.get? origin = some .directory)
    (hapart : ∀ place, Builtin.Places w.held (w.session.resolve source) (w.session.resolve target)
      place → (w.session.resolve source).Apart place)
    (hbelow : origin <:+ location) (hfile : w.held.get? location = some (.file bytes)) :
    ((dispatch (Disk.files host format)
      ⟨"cp", ["-r", source, target], none⟩).perform w).2.held.get? location =
        some (.file bytes) := by
  rw [held_dispatch_cp]
  rcases Builtin.held_runCp_cases target hsource hdirectory with he | ⟨place, hplace, he⟩
  · rwa [he]
  · rw [he]
    refine ((hplain.spares_copyTree _ place).entry hfile (by simp)).resolve_left fun hwithin => ?_
    -- The file has the names of the source and those of the place outermost.
    have hsuffix := hbelow.map FileName.bytes
    rw [← hplain.folded_of_canonical hsource] at hsuffix
    rcases List.suffix_or_suffix_of_suffix hsuffix (Path.isWithin_iff.1 hwithin) with hin | hin
    · exact (hapart place hplace).1 hin
    · exact (hapart place hplace).2 hin

/-- A directory that `cp -r` copies to a place clear of it keeps every file, whatever links there
are elsewhere, and also when the copying is refused halfway. -/
theorem dispatch_cp_keeps_source
    (hsource : w.held.canonical (w.session.resolve source) = .ok origin.path)
    (hdirectory : w.held.get? origin = some .directory)
    (hclear : ∀ place, Builtin.Places w.held (w.session.resolve source) (w.session.resolve target)
      place → w.held.ClearOf origin place)
    (hbelow : origin <:+ location) (hfile : w.held.get? location = some (.file bytes)) :
    ((dispatch (Disk.files host format)
      ⟨"cp", ["-r", source, target], none⟩).perform w).2.held.get? location =
        some (.file bytes) := by
  rw [held_dispatch_cp]
  rcases Builtin.held_runCp_cases target hsource hdirectory with he | ⟨place, hplace, he⟩
  · rwa [he]
  · rw [he]
    exact Disk.get?_copyTree_of_clearOf (hclear place hplace) hbelow hfile

end Source

/-- A directory. -/
def someTree : Location := [.ofString "s"]

/-- A file in the directory. -/
def someFile : Location := .ofString "f" :: someTree

/-- Another directory. -/
def otherTree : Location := [.ofString "t"]

/-- A disk with both directories and the file. -/
def sideBySide : Disk :=
  ((Disk.empty.put someTree .directory).put someFile (.file [1])).put otherTree .directory

/-- The same disk with a link to the other directory. -/
def linkedBeside : Disk := sideBySide.put [.ofString "l"] (.link (.ofString "t"))

/-- The same disk with a link in the other directory, from where a copy of the file goes to the
file. -/
def linkedBack : Disk :=
  (sideBySide.put (.ofString "s" :: otherTree) .directory).put
    (.ofString "f" :: .ofString "s" :: otherTree) (.link (.ofString "../../s/f"))

/-- The only link lies at the root. -/
theorem eq_of_get?_linkedBeside {location : Location} {target : Path}
    (h : linkedBeside.get? location = some (.link target)) : location = [.ofString "l"] := by
  have hplain : sideBySide.Plain := Disk.plain_of_entries (by decide)
  rw [linkedBeside, Disk.get?_put (by decide)] at h
  split at h
  · assumption
  · exact absurd h (hplain location target)

/-- A copy that goes through a link beside the directories keeps the file. -/
theorem dispatch_cp_keeps_source_beside_link :
    let w : World Disk := ⟨Session.start .root .root, .unlimited, linkedBeside⟩
    (w.held.canonical (w.session.resolve "s") = .ok someTree.path ∧
        w.held.get? someTree = some .directory ∧ w.held.get? someFile = some (.file [1])) ∧
      ((dispatch Disk.files ⟨"cp", ["-r", "s", "l"], none⟩).perform w).2.held.get? someFile =
        some (.file [1]) := by
  intro w
  have hpath : someTree.path = .ofString "/s" := by decide +kernel
  have hresolve : w.session.resolve "s" = .ofString "/s" := by decide +kernel
  have hsource : w.held.canonical (w.session.resolve "s") = .ok someTree.path := by
    rw [hpath, hresolve]
    rfl
  have hdirectory : w.held.get? someTree = some .directory := by decide
  have hfile : w.held.get? someFile = some (.file [1]) := by decide
  refine ⟨⟨hsource, hdirectory, hfile⟩, ?_⟩
  refine dispatch_cp_keeps_source hsource hdirectory (fun place hplace _ => ?_)
    (List.suffix_cons _ _) hfile
  obtain rfl : place = .ofString "/l/s" :=
    (hplace.eq_of_isDirectory (by decide +kernel) hsource
      (Disk.fileName_path_cons (.ofString "s") [])).trans (by decide +kernel)
  -- The copy is made in the other directory, and the only link lies outside.
  refine ⟨.ofString "s" :: otherTree, rfl, by decide, by decide, fun _ _ hthere hlink => ?_⟩
  rw [eq_of_get?_linkedBeside hlink] at hthere
  exact absurd hthere (by decide)

/-- The file is emptied first, and then its copy, which lies in the same place, is empty. -/
theorem Disk.copyTree_linkedBack :
    (linkedBack.copyTree (.ofString "/s") (.ofString "/t/s")).2.get? someFile =
      some (.file []) := by
  have hlook : linkedBack.lookAt (.ofString "/s") = .ok .directory := rfl
  have horigin : linkedBack.canonical (.ofString "/s") = .ok (.ofString "/s") := rfl
  have hinside : linkedBack.isInside (.ofString "/s") (.ofString "/t/s") = false := by
    decide +kernel
  have hmade : linkedBack.makeTarget (.ofString "/t/s") = (.ok (), linkedBack) := rfl
  have hnames : linkedBack.names (.ofString "/s") = .ok [.ofString "f"] := rfl
  have hfile : linkedBack.isDirectory (Path.child (.ofString "/s") (.ofString "f")) = false := by
    decide +kernel
  have hentries : linkedBack.copyTree (.ofString "/s") (.ofString "/t/s") =
      linkedBack.copyEntries (.ofString "/s") (.ofString "/t/s") [.ofString "f"] := by
    simp [copyTree, hlook, horigin, hinside, hmade, hnames]
  rw [hentries, held_copyEntries_file hfile]
  decide +kernel

/-- A link in the place of a copy lets the copying empty the file that it copies. -/
theorem dispatch_cp_empties_source :
    let w : World Disk := ⟨Session.start .root .root, .unlimited, linkedBack⟩
    (w.held.canonical (w.session.resolve "s") = .ok someTree.path ∧
        w.held.get? someTree = some .directory ∧
        ∀ place, Builtin.Places w.held (w.session.resolve "s") (w.session.resolve "t") place →
          (w.session.resolve "s").Apart place) ∧
      w.held.get? someFile = some (.file [1]) ∧
      ((dispatch Disk.files ⟨"cp", ["-r", "s", "t"], none⟩).perform w).2.held.get? someFile =
        some (.file []) := by
  intro w
  have hpath : someTree.path = .ofString "/s" := by decide +kernel
  have hresolve : w.session.resolve "s" = .ofString "/s" := by decide +kernel
  have hsource : w.held.canonical (w.session.resolve "s") = .ok someTree.path := by
    rw [hpath, hresolve]
    rfl
  refine ⟨⟨hsource, by decide, fun place hplace => ?_⟩, by decide, ?_⟩
  · obtain rfl : place = .ofString "/t/s" :=
      (hplace.eq_of_isDirectory (by decide +kernel) hsource
        (Disk.fileName_path_cons (.ofString "s") [])).trans (by decide +kernel)
    unfold Path.Apart
    decide +kernel
  · have htarget : w.session.resolve "t" = .ofString "/t" := by decide +kernel
    have hlook : w.held.lookAt (w.session.resolve "s") = .ok .directory := by
      rw [hresolve]
      rfl
    have hplace : ((Builtin.placement Disk.files (w.session.resolve "s")
        (w.session.resolve "t")).perform w).1 = .ok (.ofString "/t/s") := by
      rw [hresolve, htarget]
      rfl
    rw [held_dispatch_cp, Builtin.held_runCp_directory hlook, hplace, hresolve]
    exact Disk.copyTree_linkedBack

end CommandShell
