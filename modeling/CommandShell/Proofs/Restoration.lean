import CommandShell.Proofs.ArchiveRoundTrip
import CommandShell.Proofs.Extraction

/-!
# Archives restore what they collect

A tree that is stored in an archive and extracted at a place where nothing lies is the tree it was,
wherever the archive itself was written.

## Main definitions

* `World.OperandAt`: the location that an operand leads to;
* `World.OperandsAt`: the locations that operands lead to, in their order;
* `Disk.VacantAt`: a path at which nothing lies, in a directory that exists;
* `World.Restorable` and `World.NamedByTexts`: nothing of the operands is lost on the way through an
  archive;
* `World.Restores`: what a disk holds at a place is what the operands were.

## Main results

* `Builtin.perform_runZip`: what an archive holds that was stored without a fault;
* `dispatch_zip_unzip`: extracting it elsewhere restores every operand, and changes nothing else.
-/

namespace CommandShell

open ShellM

/-- The location that a typed path leads to. -/
def World.OperandAt (w : World Disk) (typed : String) (root : Location) : Prop :=
  w.held.canonical (w.session.resolve typed) = .ok root.path

/-- Nothing lies at a path, and the directory of the place exists. A separator at the end of the
path says nothing. -/
def Disk.VacantAt (d : Disk) (p : Path) (place : Location) : Prop :=
  checkPath p = .ok () ∧ ∃ directory name, place = name :: directory ∧
    d.walkSteps .useLink (Step.dropSlash p.steps) = .ok (.vacant directory name)

/-! ## Operands -/

/-- Something lies where an operand leads to. -/
theorem World.OperandAt.isSome {w : World Disk} {typed : String} {root : Location}
    (h : w.OperandAt typed root) : (w.held.get? root).isSome := by
  obtain ⟨there, hwalk, hpath⟩ := Disk.canonical_eq_ok h
  obtain rfl := Path.path_injective hpath
  obtain ⟨used, -, hleads⟩ := Disk.walkLinks_use_iff.1 hwalk
  exact hleads.isSome rfl

/-- Operands lead to the roots of some trees, one for one. -/
def World.OperandsAt (w : World Disk) (operands : List String)
    (roots : List (FileName × Location)) : Prop :=
  operands.map (fun typed => w.held.canonical (w.session.resolve typed)) =
    roots.map fun root => .ok (Location.path (root.1 :: root.2))

namespace World.OperandsAt

variable {w : World Disk} {operands : List String} {roots : List (FileName × Location)}
  (h : w.OperandsAt operands roots)
include h

/-- Each operand leads to a root. -/
theorem exists_root {typed : String} (htyped : typed ∈ operands) :
    ∃ root ∈ roots, w.OperandAt typed (root.1 :: root.2) := by
  have hmem : w.held.canonical (w.session.resolve typed) ∈
      roots.map fun root => .ok (Location.path (root.1 :: root.2)) := by
    rw [← h]
    exact List.mem_map.2 ⟨typed, htyped, rfl⟩
  obtain ⟨root, hroot, hpath⟩ := List.mem_map.1 hmem
  exact ⟨root, hroot, hpath.symm⟩

/-- An operand leads to each root. -/
theorem exists_operand {root : FileName × Location} (hroot : root ∈ roots) :
    ∃ typed ∈ operands, w.OperandAt typed (root.1 :: root.2) := by
  have hmem : .ok (Location.path (root.1 :: root.2)) ∈
      operands.map fun typed => w.held.canonical (w.session.resolve typed) := by
    rw [h]
    exact List.mem_map.2 ⟨root, hroot, rfl⟩
  exact List.mem_map.1 hmem

/-- The last names of the roots differ when those of the operands do. -/
theorem names_nodup (hdistinct : (operands.map fun typed =>
      (w.held.canonical (w.session.resolve typed)).map Path.fileName).Nodup) :
    (roots.map Prod.fst).Nodup := by
  have hnames : operands.map (fun typed =>
      (w.held.canonical (w.session.resolve typed)).map Path.fileName) =
        (roots.map Prod.fst).map fun name => .ok (some name.bytes) := by
    have hmapped := congrArg (List.map (Except.map Path.fileName)) h
    rw [List.map_map, List.map_map] at hmapped
    rw [List.map_map]
    refine hmapped.trans (List.map_congr_left fun root _ => ?_)
    simp [Except.map, Disk.fileName_path_cons]
  exact (hnames ▸ hdistinct).of_map

end World.OperandsAt

/-! ## Storing -/

namespace Builtin

variable (host : Host) (format : Archive.Format)

/-- The sources of an archive are the locations that the operands lead to, each under what its last
name is shown as. -/
theorem perform_sourcesOf {operands : List String} {sources : List Source} {w after : World Disk}
    (h : (sourcesOf (Disk.files host format) true operands).perform w = (.ok sources, after)) :
    after = w ∧ ∃ roots : List (FileName × Location), sources = roots.map Disk.sourceAt ∧
      w.OperandsAt operands roots := by
  -- The operands are resolved in turn, on a disk that does not change.
  induction operands generalizing sources with
  | nil =>
    cases h
    exact ⟨rfl, [], rfl, rfl⟩
  | cons typed rest ih =>
    have hanswer : (Disk.files host format).answer (.canonical (w.session.resolve typed)) w.held =
      w.held.looking .resolve _ (w.held.canonical (w.session.resolve typed)) := rfl
    simp only [sourcesOf, perform_bind, perform_resolve, perform_request, hanswer] at h
    cases hcanonical : w.held.canonical (w.session.resolve typed) with
    | error refusal => simp [hcanonical, Disk.looking] at h
    | ok place =>
      -- An operand that leads to the root has no last name, and stops the command.
      obtain ⟨location, -, rfl⟩ := Disk.canonical_eq_ok hcanonical
      simp only [hcanonical, Disk.looking] at h
      cases location with
      | nil =>
        rw [Disk.fileName_path_nil] at h
        simp at h
      | cons name above =>
        rw [Disk.fileName_path_cons] at h
        simp only [perform_bind] at h
        rcases hrest : (sourcesOf (Disk.files host format) true rest).perform w with
          ⟨_ | others, after'⟩
        · simp [hrest] at h
        · simp only [hrest, perform_pure, Prod.mk.injEq, Except.ok.injEq] at h
          obtain ⟨rfl, rfl⟩ := h
          obtain ⟨rfl, roots, rfl, hroots⟩ := ih hrest
          refine ⟨rfl, (name, above) :: roots, rfl, ?_⟩
          rw [World.OperandsAt, List.map_cons, List.map_cons, hcanonical, hroots]

/-- An archive that was stored without a fault holds what was collected at the operands. -/
theorem perform_runZip {archive : String} {operands : List String} {w after : World Disk}
    (hstreams : w.streams.NeverFails)
    (h : (runZip (Disk.files host format) ("-r" :: archive :: operands)).perform w =
      (.ok (), after)) :
    ∃ roots : List (FileName × Location), roots ≠ [] ∧ w.OperandsAt operands roots ∧
      ∃ members bytes, w.held.gatherAll (roots.map Disk.sourceAt) format = .ok members ∧
        format.encode members = .ok bytes ∧
        w.held.writeFile (w.session.resolve archive) bytes .truncate host = (.ok (), after.held) ∧
        after.session = w.session := by
  cases operands with
  | nil => simp [runZip, takeRecursive, misused] at h
  | cons first rest =>
    simp only [runZip, takeRecursive, if_true, perform_bind] at h
    rcases hsources : (sourcesOf (Disk.files host format) true (first :: rest)).perform w with
      ⟨_ | sources, w'⟩
    · simp [hsources] at h
    · obtain ⟨rfl, roots, rfl, hroots⟩ := perform_sourcesOf host format hsources
      have hanswer : (Disk.files host format).answer (.store (w'.session.resolve archive)
        (roots.map Disk.sourceAt)) w'.held =
          w'.held.store _ (roots.map Disk.sourceAt) host format := rfl
      simp only [hsources, perform_resolve, perform_request, hanswer] at h
      unfold Disk.store at h
      cases hgather : w'.held.gatherAll (roots.map Disk.sourceAt) format with
      | error fault => simp [hgather] at h
      | ok members =>
        cases hencode : format.encode members with
        | error fault => simp [hgather, hencode] at h
        | ok bytes =>
          rcases hwrite : w'.held.writeFile (w'.session.resolve archive) bytes .truncate host with
            ⟨refusal | _, written⟩
          · simp [hgather, hencode, hwrite] at h
          · simp only [hgather, hencode, hwrite] at h
            -- The lines are printed behind the write and leave the disk alone.
            obtain ⟨printed, hprint, hquiet, hheld⟩ := perform_printEach ("  adding: " ++ ·)
              (members.map Member.name) ((Quiet.refl hstreams).hold written).neverFails
            obtain rfl : printed = after := by
              simpa using (congrArg Prod.snd hprint).symm.trans (congrArg Prod.snd h)
            refine ⟨roots, ?_, hroots, members, bytes, hgather, hencode, ?_, hquiet.session⟩
            · rintro rfl
              cases hroots
            · rw [hheld]
              exact hwrite

end Builtin

/-! ## What is stored -/

/-- The name of a directory in an archive ends in a slash. -/
theorem namesDirectory_append_slash (text : String) : namesDirectory (text ++ "/") = true := by
  simp [namesDirectory, String.toList_append]

/-- The name of a file in an archive ends as the name of the file does. -/
theorem namesDirectory_relativeText {name : FileName} (inner : Location)
    (hname : name.shown.toList.getLast? ≠ some '\\') :
    namesDirectory (Location.relativeText (name :: inner)) = false := by
  have hempty : name.shown.toList ≠ [] := by simpa using name.shown_ne_empty
  obtain ⟨front, htext⟩ : ∃ front : List Char,
      (Location.relativeText (name :: inner)).toList = front ++ name.shown.toList := by
    cases inner with
    | nil => exact ⟨[], by simp [Location.relativeText]⟩
    | cons next inner =>
      rw [Location.relativeText_cons (by simp), String.toList_append]
      exact ⟨_, rfl⟩
  have hlast : (front ++ name.shown.toList).getLast? = name.shown.toList.getLast? := by
    rw [List.getLast?_append, List.getLast?_eq_some_getLast hempty, Option.some_or]
  have hnoSlash : name.shown.toList.getLast? ≠ some '/' := fun he =>
    name.slash_notMem_shown (List.mem_of_getLast? he)
  rw [namesDirectory, htext, hlast]
  simp [hname, hnoSlash]

/-- A collected member is what its name says, unless it is a file whose name ends in a backslash. -/
theorem Member.proper_ofItem {item : Location × Entry} (hentry : item.2.IsStored)
    (hname : ∀ name inner, item.1 = name :: inner → item.2 ≠ .directory →
      name.shown.toList.getLast? ≠ some '\\') (hne : item.1 ≠ []) :
    (Member.ofItem item).Proper := by
  obtain ⟨place, entry⟩ := item
  cases place with
  | nil => exact absurd rfl hne
  | cons name inner =>
    rcases hentry with rfl | ⟨content, rfl⟩
    · exact ⟨by simp [Member.ofItem, namesDirectory_append_slash], fun _ => rfl⟩
    · have hfile := namesDirectory_relativeText inner (hname name inner rfl (by simp))
      exact ⟨by simp [Member.ofItem, hfile], by simp [Member.ofItem]⟩

namespace Disk

variable {d : Disk} {roots : List (FileName × Location)} {items : List (Location × Entry)}

section Roots

variable (hitems : d.Collected (roots.map fun root => (root.1 :: root.2, [root.1])) [[]] items)
include hitems

/-- What is collected at some roots are the entries below them. -/
theorem Collected.mem_roots_iff (item : Location × Entry) :
    item ∈ items ↔ ∃ root ∈ roots, ∃ inner entry,
      d.get? (inner ++ root.1 :: root.2) = some entry ∧
        item = (inner ++ [root.1], entry.stored) := by
  rw [hitems.mem_iff]
  simp only [List.mem_map, exists_exists_and_eq_and]

/-- Where the last names of the roots differ, nothing is collected twice under one place. -/
theorem Collected.places_nodup (hroots : (roots.map Prod.fst).Nodup) :
    (items.map Prod.fst).Nodup := by
  refine hitems.nodup 1 (List.forall_mem_map.2 fun root _ => rfl) ?_
  have hplaces := hroots.map (f := fun name => [name]) fun _ _ he => List.singleton_inj.1 he
  simpa [List.map_map, Function.comp_def] using hplaces

/-- The collected members are what their names say where no file has a name that ends in a
backslash. -/
theorem Collected.proper (hplain : d.Plain)
    (hbackslash : ∀ root ∈ roots, ∀ name above entry, root.1 :: root.2 <:+ name :: above →
      d.get? (name :: above) = some entry → entry ≠ .directory →
        name.shown.toList.getLast? ≠ some '\\') :
    ∀ m ∈ items.map Member.ofItem, m.Proper := by
  intro m hm
  obtain ⟨item, hitem, rfl⟩ := List.mem_map.1 hm
  obtain ⟨root, hroot, inner, entry, hentry, rfl⟩ := (hitems.mem_roots_iff item).1 hitem
  refine Member.proper_ofItem (Entry.isStored_stored (hplain.ne_link hentry)) ?_ (by simp)
  intro name rest hplace hfile
  -- The file that was collected at this place has the same last name.
  have hlocation : inner ++ root.1 :: root.2 = name :: (rest ++ root.2) := by
    rw [← List.cons_append, ← hplace, List.append_assoc, List.singleton_append]
  have hsuffix : root.1 :: root.2 <:+ name :: (rest ++ root.2) :=
    ⟨inner, hlocation⟩
  refine hbackslash root hroot name (rest ++ root.2) entry hsuffix (hlocation ▸ hentry) ?_
  rintro rfl
  exact hfile rfl

/-- What was collected can be extracted to a directory in which nothing lies. -/
theorem Collected.extractable {made : Disk} {place : Location} (hplain : d.Plain)
    (hnodup : (items.map Prod.fst).Nodup) (hdir : made.get? place = some .directory)
    (hvacant : ∀ name inner, made.get? (inner ++ name :: place) = none)
    (htext : ∀ root ∈ roots, ∀ name above, root.1 :: root.2 <:+ name :: above →
      (d.get? (name :: above)).isSome → Utf8.Valid name.bytes)
    (hsize : ∀ root ∈ roots, ∀ inner, (d.get? (inner ++ root.1 :: root.2)).isSome →
      Path.size (Location.path (inner ++ root.1 :: place)) < pathLimit) :
    Builtin.Extractable made place [[]] items := by
  refine ⟨hitems.parentsFirst, ?_, ?_, ?_, ?_, ?_, hnodup⟩
  · intro known hknown
    obtain rfl := List.mem_singleton.1 hknown
    exact hdir
  · intro item hitem
    obtain ⟨root, -, inner, entry, -, rfl⟩ := (hitems.mem_roots_iff item).1 hitem
    rw [List.append_assoc]
    exact hvacant root.1 inner
  · intro item hitem
    obtain ⟨root, -, inner, entry, hentry, rfl⟩ := (hitems.mem_roots_iff item).1 hitem
    exact Entry.isStored_stored (hplain.ne_link hentry)
  · intro item hitem
    obtain ⟨root, hroot, inner, entry, hentry, rfl⟩ := (hitems.mem_roots_iff item).1 hitem
    -- Every name on the way down from a root is that of something below it.
    intro name hname
    obtain ⟨front, back, hplace⟩ := List.append_of_mem hname
    have hlocation : front ++ name :: (back ++ root.2) = inner ++ root.1 :: root.2 := by
      rw [← List.cons_append, ← List.append_assoc, ← hplace, List.append_assoc,
        List.singleton_append]
    have hsome : (d.get? (name :: (back ++ root.2))).isSome :=
      isSome_of_append (by rw [hlocation, hentry]; rfl)
    refine htext root hroot name (back ++ root.2) ?_ hsome
    have hend : [root.1] <:+ name :: back := by
      have hsuffix : [root.1] <:+ front ++ name :: back := hplace ▸ List.suffix_append _ _
      exact List.suffix_of_suffix_length_le hsuffix (List.suffix_append front _) (by simp)
    obtain ⟨middle, hmiddle⟩ := hend
    exact ⟨middle, by rw [← List.cons_append, ← hmiddle, List.append_assoc, List.singleton_append]⟩
  · intro item hitem
    obtain ⟨root, hroot, inner, entry, hentry, rfl⟩ := (hitems.mem_roots_iff item).1 hitem
    rw [List.append_assoc]
    exact hsize root hroot inner (by rw [hentry]; rfl)

/-- Where the entries were put at their places, each root is found under its last name, with
everything in it, and nothing else is. -/
theorem Collected.get?_put_all (hroots : (roots.map Prod.fst).Nodup) {made after : Disk}
    {place : Location} (hput : ∀ item ∈ items, after.get? (item.1 ++ place) = some item.2)
    (hsame : ∀ other, (∀ item ∈ items, other ≠ item.1 ++ place) →
      after.get? other = made.get? other)
    (hvacant : ∀ name inner, made.get? (inner ++ name :: place) = none) :
    (∀ root ∈ roots, ∀ inner, after.get? (inner ++ root.1 :: place) =
      (d.get? (inner ++ root.1 :: root.2)).map Entry.stored) ∧
    ∀ name, (after.get? (name :: place)).isSome → ∃ root ∈ roots, root.1 = name := by
  -- Something is found under a name only where it was collected under that name.
  have hnone : ∀ name inner,
      (∀ root ∈ roots, root.1 = name → d.get? (inner ++ root.1 :: root.2) = none) →
      after.get? (inner ++ name :: place) = none := by
    intro name inner hroot
    rw [hsame, hvacant]
    intro item hitem he
    obtain ⟨root, hmem, inner', entry, hentry, rfl⟩ := (hitems.mem_roots_iff item).1 hitem
    rw [List.append_assoc, List.singleton_append] at he
    obtain ⟨rfl, hname⟩ := List.append_inj' he rfl
    rw [hroot root hmem (List.cons_eq_cons.1 hname).1.symm] at hentry
    cases hentry
  refine ⟨fun root hroot inner => ?_, fun name hsome => ?_⟩
  · cases hentry : d.get? (inner ++ root.1 :: root.2) with
    | some entry =>
      have hitem := (hitems.mem_roots_iff _).2 ⟨root, hroot, inner, entry, hentry, rfl⟩
      simpa using hput _ hitem
    | none =>
      refine hnone root.1 inner fun other hother hname => ?_
      rw [List.inj_on_of_nodup_map hroots hother hroot hname, hentry]
  · by_cases hroot : ∃ root ∈ roots, root.1 = name
    · exact hroot
    · have hnothing : after.get? ([] ++ name :: place) = none :=
        hnone name [] fun root hmem hname => absurd ⟨root, hmem, hname⟩ hroot
      rw [List.nil_append] at hnothing
      rw [hnothing] at hsome
      cases hsome

end Roots

/-! ## The destination -/

namespace VacantAt

variable {p : Path} {place : Location}

/-- Nothing lies at a vacant place, and a directory holds it. -/
theorem spot (h : d.VacantAt p place) : ∃ name above, place = name :: above ∧
    d.get? above = some .directory ∧ d.get? (name :: above) = none := by
  obtain ⟨-, above, name, rfl, hwalk⟩ := h
  obtain ⟨hdir, hnone⟩ := (ends_of_walkLinks hwalk).of_vacant
  exact ⟨name, above, rfl, hdir, hnone⟩

/-- The directory at a vacant place is made, and none else. -/
theorem makeDirectories (h : d.VacantAt p place) :
    d.makeDirectories p = (.ok (), d.put place .directory) := by
  obtain ⟨hcheck, above, name, rfl, hwalk⟩ := h
  have hmake : d.makeDirectory p = .ok (d.put (name :: above) .directory) := by
    simp [makeDirectory, hcheck, hwalk, bind, Except.bind]
  -- The first path that is tried is the given one, and the directory above it exists.
  obtain ⟨paths, hpaths⟩ := Path.ancestors_eq_cons p
  have htext : p.bytes ≠ [] := (checkPath_eq_ok.1 hcheck).2.2
  simp [Disk.makeDirectories, hpaths, makeDirectoriesAlong, htext, hmake]

/-- The directory that was made is found. -/
theorem get?_self (h : d.VacantAt p place) :
    (d.put place .directory).get? place = some .directory := by
  obtain ⟨name, above, rfl, hdir, hnone⟩ := h.spot
  rw [get?_put (accepts_of_vacant hdir hnone _), if_pos rfl]

/-- The path of the directory that was made is canonical. -/
theorem canonical (h : d.VacantAt p place)
    (hsize : Path.size (Location.path place) < pathLimit) :
    (d.put place .directory).canonical p = .ok place.path := by
  have hmade := h.get?_self
  obtain ⟨name, above, rfl, hdir, hnone⟩ := h.spot
  obtain ⟨hcheck, above', name', hspot, hwalk⟩ := h
  obtain ⟨rfl, rfl⟩ := List.cons_eq_cons.1 hspot
  have hfound : (d.put (name :: above) .directory).walkSteps .use p.steps =
      .ok (.found (name :: above)) :=
    walkLinks_of_dropSlash ((ends_of_walkLinks hwalk).keepLinks
      (grows_put hdir hnone).keepsLinks hmade (by simp)) hmade
  obtain ⟨hnul, -, htext⟩ := checkPath_eq_ok.1 hcheck
  rw [Disk.canonical, if_neg hnul, if_neg htext, hfound]
  simp [Nat.not_le.2 hsize]

/-- Nothing lies in the directory that was made. -/
theorem get?_below (h : d.VacantAt p place) (name : FileName) (inner : Location) :
    (d.put place .directory).get? (inner ++ name :: place) = none := by
  obtain ⟨last, above, rfl, hdir, hnone⟩ := h.spot
  have hne : inner ++ name :: last :: above ≠ last :: above := by
    intro he
    have hlength := congrArg List.length he
    simp only [List.length_append, List.length_cons] at hlength
    omega
  rw [get?_put (accepts_of_vacant hdir hnone _), if_neg hne, ← Option.not_isSome_iff_eq_none]
  intro hsome
  -- Whatever lay there would have lain in a directory.
  have hname := isSome_of_append hsome
  obtain ⟨entry, hentry⟩ := Option.isSome_iff_exists.1 hname
  rw [directory_of_get? hentry] at hnone
  cases hnone

end VacantAt

end Disk

/-! ## Restoring -/

namespace Builtin

/-- Extracting collected members to a vacant place makes a directory there and puts every entry in
it, and changes nothing else. -/
theorem perform_runUnzip_vacant (read : Path → Disk → Except Stop (List Member))
    (format : Archive.Format)
    {archive destination : String} {items : List (Location × Entry)} {place : Location}
    {w : World Disk} (hplain : w.held.Plain) (hstreams : w.streams.NeverFails)
    (harchive : archive ≠ "-d")
    (hread : read (w.session.resolve archive) w.held = .ok (items.map Member.ofItem))
    (hvacant : w.held.VacantAt (w.session.resolve destination) place)
    (hsize : Path.size (Location.path place) < pathLimit)
    (hitems : Extractable (w.held.put place .directory) place [[]] items) :
    ∃ after, (runUnzip (Disk.filesReading read .reliable format)
        [archive, "-d", destination]).perform w = (.ok (), after) ∧
      Quiet w after ∧
      (∀ item ∈ items, after.held.get? (item.1 ++ place) = some item.2) ∧
      ∀ other, (∀ item ∈ items, other ≠ item.1 ++ place) →
        after.held.get? other = (w.held.put place .directory).get? other := by
  -- The archive comes first, and what follows `-d` is the destination whatever it is called.
  have hoperands : unzipOperands none none [archive, "-d", destination] =
      some (archive, some destination) := by
    simp [unzipOperands, harchive]
  have hmake := answer_makeDirectories read format hvacant.makeDirectories
  have hcanonical := answer_canonical read format (hvacant.canonical hsize)
  have hquiet := (Quiet.refl hstreams).hold (w.held.put place .directory)
  obtain ⟨after, hextract, hquiet', hput, hsame⟩ :=
    perform_extractAll_ofItem read format (hplain.put (by simp) place) hquiet.neverFails hitems
  refine ⟨after, ?_, hquiet.trans hquiet', hput, hsame⟩
  rw [perform_runUnzip read .reliable format hoperands, hread]
  simp only [perform_bind, perform_request, Session.destination, hmake, hcanonical]
  exact hextract

end Builtin

/-- A place holds what some operands led to, each under its last name with everything in it, and
nothing else. -/
structure World.Restores (w : World Disk) (operands : List String) (restored : Disk)
    (place : Location) : Prop where
  /-- The place is a directory. -/
  directory : restored.get? place = some .directory
  /-- Each operand is in it as it was. -/
  operand : ∀ typed ∈ operands, ∃ name above, w.OperandAt typed (name :: above) ∧
    (w.held.get? (name :: above)).isSome ∧
    ∀ inner, restored.get? (inner ++ name :: place) =
      (w.held.get? (inner ++ name :: above)).map Entry.stored
  /-- Whatever is in it is one of the operands. -/
  child : ∀ name, (restored.get? (name :: place)).isSome →
    ∃ typed ∈ operands, ∃ above, w.OperandAt typed (name :: above)

/-- Operands of which no entry is lost on the way through an archive to a place: no links lie on the
disk, the last names of the operands differ, no file has a name that ends in a backslash, and the
restored paths are short enough. The streams never fail. -/
structure World.Restorable (w : World Disk) (operands : List String) (place : Location) : Prop where
  /-- No links lie on the disk. -/
  plain : w.held.Plain
  /-- The streams never fail. -/
  neverFails : w.streams.NeverFails
  /-- The last names differ. -/
  distinct : (operands.map fun typed =>
    (w.held.canonical (w.session.resolve typed)).map Path.fileName).Nodup
  /-- No name of a file ends in a backslash. -/
  backslash : ∀ typed ∈ operands, ∀ root, w.OperandAt typed root →
    ∀ name above entry, root <:+ name :: above → w.held.get? (name :: above) = some entry →
      entry ≠ .directory → name.shown.toList.getLast? ≠ some '\\'
  /-- The restored paths are short enough. -/
  size : ∀ typed ∈ operands, ∀ name above, w.OperandAt typed (name :: above) →
    ∀ inner, (w.held.get? (inner ++ name :: above)).isSome →
      Path.size (Location.path (inner ++ name :: place)) < pathLimit

/-- The names of some operands, and of everything in them, are texts. -/
def World.NamedByTexts (w : World Disk) (operands : List String) : Prop :=
  ∀ typed ∈ operands, ∀ root, w.OperandAt typed root →
    ∀ name above, root <:+ name :: above → (w.held.get? (name :: above)).isSome →
      Utf8.Valid name.bytes

namespace World.Restorable

variable {w zipped : World Disk} {host : Host} {format : Archive.Format} {archive : String}
  {operands : List String} {place : Location} {roots : List (FileName × Location)}
  {items : List (Location × Entry)} (h : w.Restorable operands place)
include h

/-- An archive of operands that can be restored is read as what was collected at the roots to which
they lead. -/
theorem exists_collected (hformat : format.Faithful)
    (hdevice : ∀ kind, w.held.lookAt (w.session.resolve archive) ≠ .ok (.device kind))
    (hzip : (Builtin.runZip (Disk.files host format) ("-r" :: archive :: operands)).perform w =
      (.ok (), zipped)) :
    ∃ roots items, roots ≠ [] ∧ w.OperandsAt operands roots ∧
      w.held.Collected (roots.map fun root => (root.1 :: root.2, [root.1])) [[]] items ∧
      zipped.held.Plain ∧
      (zipped.held.unpackArchive (zipped.session.resolve archive) format).1 =
        .ok (items.map Member.ofItem) := by
  obtain ⟨roots, hne, hroots, members, bytes, hgather, hencode, hwrite, hsession⟩ :=
    Builtin.perform_runZip host format h.neverFails hzip
  obtain ⟨items, rfl, hitems, haccepts⟩ := Disk.gatherAll_spec h.plain hgather
  have hproper := hitems.proper h.plain fun root hmem => by
    obtain ⟨typed, htyped, hat⟩ := hroots.exists_operand hmem
    exact h.backslash typed htyped _ hat
  have hdecode : format.read bytes = .ok (items.map Member.ofItem) := by
    rw [hformat.read_encode haccepts hencode,
      List.map_congr_left fun m hm => (hproper m hm).asRead_eq, List.map_id']
  obtain ⟨hplain, hlook⟩ := h.plain.lookAt_writeFile hdevice hwrite
  refine ⟨roots, items, hne, hroots, hitems, hplain, ?_⟩
  rw [hsession, Disk.unpackArchive_of_lookAt hlook hdecode]

/-- The path of the place is short enough, too. -/
theorem size_place (hne : roots ≠ []) (hroots : w.OperandsAt operands roots) :
    Path.size (Location.path place) < pathLimit := by
  obtain ⟨root, hmem⟩ := List.exists_mem_of_ne_nil roots hne
  obtain ⟨typed, htyped, hat⟩ := hroots.exists_operand hmem
  have hlonger := h.size typed htyped _ _ hat [] hat.isSome
  exact Nat.lt_of_le_of_lt (Disk.size_path_le root.1 place) hlonger

/-- What was collected at the roots can be extracted to a directory in which nothing lies. -/
theorem extractable {made : Disk} (htexts : w.NamedByTexts operands)
    (hroots : w.OperandsAt operands roots)
    (hitems : w.held.Collected (roots.map fun root => (root.1 :: root.2, [root.1])) [[]] items)
    (hdir : made.get? place = some .directory)
    (hvacant : ∀ name inner, made.get? (inner ++ name :: place) = none) :
    Builtin.Extractable made place [[]] items := by
  have htext : ∀ root ∈ roots, ∀ name above, root.1 :: root.2 <:+ name :: above →
      (w.held.get? (name :: above)).isSome → Utf8.Valid name.bytes := fun root hmem => by
    obtain ⟨typed, htyped, hat⟩ := hroots.exists_operand hmem
    exact htexts typed htyped _ hat
  refine hitems.extractable h.plain (hitems.places_nodup (hroots.names_nodup h.distinct)) hdir
    hvacant htext fun root hmem inner hsome => ?_
  obtain ⟨typed, htyped, hat⟩ := hroots.exists_operand hmem
  exact h.size typed htyped _ _ hat inner hsome

end World.Restorable

/-! ## Worlds with one operand -/

/-- Nothing lies where no name is listed. -/
theorem Disk.eq_nil_of_isSome {d : Disk} {here inner : Location} (hchildren : d.children here = [])
    (h : (d.get? (inner ++ here)).isSome) : inner = [] := by
  rcases List.eq_nil_or_concat inner with rfl | ⟨inner, name, rfl⟩
  · rfl
  · rw [List.concat_eq_append, List.append_assoc, List.singleton_append] at h
    have hmem := (d.mem_children_iff here name).2 (isSome_of_append h)
    rw [hchildren] at hmem
    cases hmem

section Single

variable {w : World Disk} {typed : String} {name : FileName} {above place : Location}
  (hcanonical : w.held.canonical (w.session.resolve typed) = .ok (Location.path (name :: above)))
  (hchildren : w.held.children (name :: above) = [])
include hcanonical hchildren

/-- An operand in which nothing lies is all that lies below it. -/
theorem World.OperandAt.eq_of_suffix {root location : Location} (h : w.OperandAt typed root)
    (hbelow : root <:+ location) (hsome : (w.held.get? location).isSome) :
    root = name :: above ∧ location = name :: above := by
  obtain rfl : root = name :: above :=
    Path.path_injective (Except.ok.inj (h.symm.trans hcanonical))
  obtain ⟨inner, rfl⟩ := hbelow
  obtain rfl := Disk.eq_nil_of_isSome hchildren hsome
  exact ⟨rfl, rfl⟩

/-- An operand in which nothing lies can be restored. -/
theorem World.restorable_single (hplain : w.held.Plain) (hstreams : w.streams.NeverFails)
    (hbackslash : name.shown.toList.getLast? ≠ some '\\')
    (hsize : Path.size (Location.path (name :: place)) < pathLimit) :
    w.Restorable [typed] place where
  plain := hplain
  neverFails := hstreams
  distinct := by simp
  backslash := by
    intro other hother root hroot last rest entry hbelow hget _
    obtain rfl := List.mem_singleton.1 hother
    obtain ⟨-, hlocation⟩ := hroot.eq_of_suffix hcanonical hchildren hbelow (by rw [hget]; rfl)
    obtain ⟨rfl, -⟩ := List.cons_eq_cons.1 hlocation
    exact hbackslash
  size := by
    intro other hother last rest hroot inner hsome
    obtain rfl := List.mem_singleton.1 hother
    obtain ⟨hroot, hlocation⟩ :=
      hroot.eq_of_suffix hcanonical hchildren (List.suffix_append inner _) hsome
    obtain ⟨rfl, rfl⟩ := List.cons_eq_cons.1 hroot
    obtain rfl : inner = [] := List.append_left_eq_self.1 hlocation
    exact hsize

/-- An operand in which nothing lies is named by a text when its last name is one. -/
theorem World.namedByTexts_single (hname : Utf8.Valid name.bytes) : w.NamedByTexts [typed] := by
  intro other hother root hroot last rest hbelow hsome
  obtain rfl := List.mem_singleton.1 hother
  obtain ⟨-, hlocation⟩ := hroot.eq_of_suffix hcanonical hchildren hbelow hsome
  obtain ⟨rfl, -⟩ := List.cons_eq_cons.1 hlocation
  exact hname

end Single

/-- The name of the directory for scratch work. -/
def scratchName : FileName := .ofString "tmp"

/-- The name of the directory of devices. -/
def devicesName : FileName := .ofString "dev"

/-- The name of a device. -/
def nullName : FileName := .ofString "null"

/-- The name of a file. -/
def fileName : FileName := .ofString "x"

/-- The name of a place where nothing lies. -/
def freeName : FileName := .ofString "e"

/-- A disk with one file and one device. -/
def Disk.oneFile : Disk where
  entries :=
    [([scratchName], .directory), ([devicesName], .directory),
      ([nullName, devicesName], .device .null),
      ([fileName, scratchName], .file (Utf8.ofString "hi"))]
  nodup := by decide
  inDirectory := by decide

/-- A world with that disk. -/
def World.oneFile : World Disk where
  session := .start (.ofString "/tmp") (.ofString "/tmp")
  streams := .unlimited
  held := .oneFile

/-- The operand leads to the file. -/
theorem World.canonical_oneFile : oneFile.held.canonical (oneFile.session.resolve "x") =
    .ok (Location.path [fileName, scratchName]) := by decide +kernel

/-- The file can be restored. -/
theorem World.restorable_oneFile : oneFile.Restorable ["x"] [freeName, scratchName] :=
  restorable_single canonical_oneFile (by decide +kernel)
    (Disk.plain_of_entries (by decide +kernel)) Streams.neverFails_unlimited (by decide)
    (by decide)

/-- A disk with an empty directory whose name is no text. -/
def Disk.oddDirectory : Disk where
  entries := [([scratchName], .directory), ([FileName.strayByte, scratchName], .directory)]
  nodup := by decide
  inDirectory := by decide

/-- A world with that disk, in that directory. -/
def World.oddDirectory : World Disk where
  session := .start (Location.path [FileName.strayByte, scratchName]) .root
  streams := .unlimited
  held := .oddDirectory

/-- Storing operands in an archive and extracting it at a place where nothing lies restores the
operands as they were when they were stored, wherever the archive was written, and changes nothing
else. The archive may neither be called `-d` nor be a device, and it must be possible to keep the
names as texts. -/
theorem dispatch_zip_unzip {w : World Disk} {host : Host} {format : Archive.Format}
    {archive destination : String} {operands : List String} {place : Location}
    (hformat : format.Faithful) (h : w.Restorable operands place) (htexts : w.NamedByTexts operands)
    (harchive : archive ≠ "-d")
    (hdevice : ∀ kind, w.held.lookAt (w.session.resolve archive) ≠ .ok (.device kind)) :
    let zipped := ((dispatch (Disk.files host format)
      ⟨"zip", "-r" :: archive :: operands, none⟩).perform w).2
    let unzipped := ((dispatch (Disk.files .reliable format)
      ⟨"unzip", [archive, "-d", destination], none⟩).perform zipped).2
    zipped.streams.bytesOn .err = w.streams.bytesOn .err →
    zipped.held.VacantAt (zipped.session.resolve destination) place →
      unzipped.streams.bytesOn .err = zipped.streams.bytesOn .err ∧
      w.Restores operands unzipped.held place ∧
      ∀ location, ¬place <:+ location →
        unzipped.held.get? location = zipped.held.get? location := by
  intro zipped unzipped hsilent hvacant
  have hzip : (Builtin.runZip (Disk.files host format) ("-r" :: archive :: operands)).perform w =
      (.ok (), zipped) := run_of_silent (Disk.files host format) (b := .zip) h.neverFails hsilent
  obtain ⟨roots, items, hne, hroots, hitems, hplain, hread⟩ :=
    h.exists_collected hformat hdevice hzip
  have hnodup := hroots.names_nodup h.distinct
  -- Nothing lies in the destination, so nothing is in the way.
  have hextractable := h.extractable htexts hroots hitems hvacant.get?_self hvacant.get?_below
  obtain ⟨after, hunzip, hquiet, hput, hsame⟩ := Builtin.perform_runUnzip_vacant
    (fun archive d => (d.unpackArchive archive format).1) format hplain
    (neverFails_dispatch (Disk.files host format) _ h.neverFails) harchive hread hvacant
    (h.size_place hne hroots) hextractable
  rw [Disk.filesReading_unpackArchive] at hunzip
  have hafter : unzipped = after :=
    congrArg Prod.snd (perform_dispatch_of_run (Disk.files .reliable format) (b := .unzip) hunzip)
  obtain ⟨htree, hchild⟩ := hitems.get?_put_all hnodup hput hsame hvacant.get?_below
  rw [hafter]
  refine ⟨hquiet.err, ⟨?_, ?_, ?_⟩, ?_⟩
  -- No entry was put in the place of the destination itself.
  · rw [hsame, hvacant.get?_self]
    intro item hitem he
    have hnone := hextractable.vacant item hitem
    rw [← he, hvacant.get?_self] at hnone
    cases hnone
  · intro typed htyped
    obtain ⟨root, hmem, hat⟩ := hroots.exists_root htyped
    exact ⟨root.1, root.2, hat, hat.isSome, htree root hmem⟩
  · intro name hsome
    obtain ⟨root, hmem, rfl⟩ := hchild name hsome
    obtain ⟨typed, htyped, hat⟩ := hroots.exists_operand hmem
    exact ⟨typed, htyped, root.2, hat⟩
  -- All places of entries lie below the destination.
  · intro location houtside
    rw [hsame, Disk.get?_put_of_ne]
    · rintro rfl
      exact houtside (List.suffix_refl _)
    · rintro item - rfl
      exact houtside (List.suffix_append _ _)

/-- A file is restored from an archive beside it. -/
theorem dispatch_zip_unzip_oneFile :
    let w := World.oneFile
    let zipped := ((dispatch Disk.files ⟨"zip", ["-r", "a", "x"], none⟩).perform w).2
    let unzipped := ((dispatch Disk.files ⟨"unzip", ["a", "-d", "e"], none⟩).perform zipped).2
    let place := [freeName, scratchName]
    Archive.zip.Faithful ∧ w.Restorable ["x"] place ∧ w.NamedByTexts ["x"] ∧
      (∀ kind, w.held.lookAt (w.session.resolve "a") ≠ .ok (.device kind)) ∧
      zipped.streams.bytesOn .err = w.streams.bytesOn .err ∧
      zipped.held.VacantAt (zipped.session.resolve "e") place ∧
      unzipped.streams.bytesOn .err = zipped.streams.bytesOn .err ∧
      w.Restores ["x"] unzipped.held place ∧
      ∀ location, ¬place <:+ location →
        unzipped.held.get? location = zipped.held.get? location := by
  intro w zipped unzipped place
  have htexts : w.NamedByTexts ["x"] :=
    World.namedByTexts_single World.canonical_oneFile (by decide +kernel) (Utf8.valid_encode _)
  have hdevice : ∀ kind, w.held.lookAt (w.session.resolve "a") ≠ .ok (.device kind) := by
    have hnone : w.held.lookAt (w.session.resolve "a") = .error .notFound := by decide +kernel
    simp [hnone]
  have hsilent : zipped.streams.bytesOn .err = w.streams.bytesOn .err := by decide +kernel
  have hvacant : zipped.held.VacantAt (zipped.session.resolve "e") place :=
    ⟨by decide +kernel, [scratchName], freeName, rfl, by decide +kernel⟩
  exact ⟨Archive.zip_faithful, World.restorable_oneFile, htexts, hdevice, hsilent, hvacant,
    dispatch_zip_unzip Archive.zip_faithful World.restorable_oneFile htexts (by decide) hdevice
      hsilent hvacant⟩

/-- Of an empty directory nothing else is stored when everything in it is. -/
theorem perform_zip_of_empty {w : World Disk} {archive typed : String} {name : FileName}
    {above : Location} (harchive : archive ≠ "-r")
    (hcanonical : w.held.canonical (w.session.resolve typed) =
      .ok (Location.path (name :: above)))
    (hempty : w.held.names (Location.path (name :: above)) = .ok []) :
    (dispatch Disk.files ⟨"zip", ["-r", archive, typed], none⟩).perform w =
      (dispatch Disk.files ⟨"zip", [archive, typed], none⟩).perform w := by
  have hsources : ∀ recursive, (Builtin.sourcesOf Disk.files recursive [typed]).perform w =
      (.ok [⟨Location.path (name :: above), name.shown, recursive⟩], w) := by
    intro recursive
    have hanswer : Disk.files.answer (.canonical (w.session.resolve typed)) w.held =
        (.ok (Location.path (name :: above)), w.held) := by
      show w.held.looking .resolve _ (w.held.canonical (w.session.resolve typed)) = _
      rw [hcanonical, Disk.looking]
    simp only [Builtin.sourcesOf, perform_bind, perform_resolve, perform_request, hanswer,
      Disk.fileName_path_cons, perform_pure]
    rfl
  -- The two sources differ in the flag alone, and it is looked at only to list what is not there.
  have hstore : ∀ p, Disk.files.answer
        (.store p [⟨Location.path (name :: above), name.shown, true⟩]) w.held =
      Disk.files.answer (.store p [⟨Location.path (name :: above), name.shown, false⟩]) w.held := by
    intro p
    show w.held.store _ _ = w.held.store _ _
    simp only [Disk.store, Disk.gatherAll, List.foldlM_cons, List.foldlM_nil, Disk.gather, hempty,
      if_true, Disk.sortNames, List.mergeSort_nil, Disk.gatherEntries.eq_1, Bool.false_eq_true,
      if_false]
  have hrun : (Builtin.runZip Disk.files ["-r", archive, typed]).perform w =
      (Builtin.runZip Disk.files [archive, typed]).perform w := by
    have htake : Builtin.takeRecursive ["-r", archive, typed] = (true, [archive, typed]) := rfl
    have hkeep : Builtin.takeRecursive [archive, typed] = (false, [archive, typed]) := by
      simp [Builtin.takeRecursive, harchive]
    simp only [Builtin.runZip, htake, hkeep, perform_bind, hsources, perform_resolve,
      perform_request, hstore]
  rw [perform_dispatch_plain Disk.files _ (b := .zip) rfl,
    perform_dispatch_plain Disk.files _ (b := .zip) rfl]
  simp only [invoke, Builtin.run, hrun]

/-- Nothing can be extracted from a device that an archive was written to, the extraction stops
where its lines do not fit on the output stream, and a name that is no text comes back as what it
is shown as. -/
theorem not_restored_oneFile :
    let w := World.oneFile
    let full := { w with streams := .withRoom (some 12) none }
    let odd := World.oddDirectory
    let place := [freeName, scratchName]
    let zippedTo (w : World Disk) (archive typed : String) :=
      ((dispatch Disk.files ⟨"zip", ["-r", archive, typed], none⟩).perform w).2
    let unzippedFrom (w : World Disk) (archive : String) :=
      ((dispatch Disk.files ⟨"unzip", [archive, "-d", "/tmp/e"], none⟩).perform w).2
    w.Restorable ["x"] place ∧ odd.Restorable ["."] place ∧
      ((zippedTo w "/dev/null" "x").streams.bytesOn .err = w.streams.bytesOn .err ∧
        (zippedTo w "/dev/null" "x").held.VacantAt (w.session.resolve "/tmp/e") place ∧
        (unzippedFrom (zippedTo w "/dev/null" "x") "/dev/null").streams.bytesOn .err ≠
          w.streams.bytesOn .err) ∧
      ((zippedTo full "a" "x").streams.bytesOn .err = full.streams.bytesOn .err ∧
        (zippedTo full "a" "x").held.VacantAt (full.session.resolve "/tmp/e") place ∧
        (unzippedFrom (zippedTo full "a" "x") "a").streams.bytesOn .err ≠
          full.streams.bytesOn .err) ∧
      ((zippedTo odd "/tmp/a" ".").streams.bytesOn .err = odd.streams.bytesOn .err ∧
        (zippedTo odd "/tmp/a" ".").held.VacantAt (odd.session.resolve "/tmp/e") place ∧
        ¬odd.Restores ["."] (unzippedFrom (zippedTo odd "/tmp/a" ".") "/tmp/a").held place) := by
  intro w full odd place zippedTo unzippedFrom
  have hcanonical : odd.held.canonical (odd.session.resolve ".") =
      .ok (Location.path [FileName.strayByte, scratchName]) := by decide +kernel
  have hodd : odd.Restorable ["."] place :=
    World.restorable_single hcanonical (by decide +kernel)
      (Disk.plain_of_entries (by decide +kernel)) Streams.neverFails_unlimited (by decide +kernel)
      (by decide)
  have hdevice : (zippedTo w "/dev/null" "x").held.VacantAt (w.session.resolve "/tmp/e") place :=
    ⟨by decide +kernel, [scratchName], freeName, rfl, by decide +kernel⟩
  have hfull : (zippedTo full "a" "x").held.VacantAt (full.session.resolve "/tmp/e") place :=
    ⟨by decide +kernel, [scratchName], freeName, rfl, by decide +kernel⟩
  -- The directory is empty, so the archive is the same without `-r`.
  have hzip : (dispatch Disk.files ⟨"zip", ["-r", "/tmp/a", "."], none⟩).perform odd =
      (dispatch Disk.files ⟨"zip", ["/tmp/a", "."], none⟩).perform odd :=
    perform_zip_of_empty (by decide) hcanonical (by decide +kernel)
  have hlost : (zippedTo odd "/tmp/a" ".").held.VacantAt (odd.session.resolve "/tmp/e") place := by
    simp only [zippedTo, hzip]
    exact ⟨by decide +kernel, [scratchName], freeName, rfl, by decide +kernel⟩
  refine ⟨World.restorable_oneFile, hodd, ⟨?_, hdevice, ?_⟩, ⟨?_, hfull, ?_⟩, ?_, hlost, ?_⟩
  · decide +kernel
  · decide +kernel
  · decide +kernel
  · decide +kernel
  · simp only [zippedTo, hzip]
    decide +kernel
  · rintro ⟨-, hoperand, -⟩
    obtain ⟨name, above, hat, -, htree⟩ := hoperand "." (by simp)
    obtain ⟨rfl, rfl⟩ := List.cons_eq_cons.1
      (Path.path_injective (Except.ok.inj (hat.symm.trans hcanonical)))
    have hnone : (unzippedFrom (zippedTo odd "/tmp/a" ".") "/tmp/a").held.get?
        (FileName.strayByte :: place) = none := by
      simp only [unzippedFrom, zippedTo, hzip]
      decide +kernel
    have hlost := htree []
    rw [List.nil_append, hnone] at hlost
    exact absurd hlost (by decide +kernel)

end CommandShell
