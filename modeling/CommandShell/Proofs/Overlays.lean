import CommandShell.Proofs.FileCopies

/-!
# Trees laid over trees

Copying the entries of a directory to another directory lays one tree over another. What each
location holds in the end, and whether there is an end, can be told from the two trees alone. It
does not depend on the order in which names are listed, as places that were laid over before or
twice make no difference.

## Main definitions

* `Disk.Clash`: at the same place one tree has a directory and the other one a file.
* `Disk.Overlaid`: some places of a tree were laid over another tree.
* `Disk.Copies`: what comes of copying some places: they are laid over, or one of them clashes.
* `Disk.Ready`: two directories the entries of which can be copied from one to the other.

## Main results

* `Disk.Copies.trans`: places that are copied one after the other;
* `Disk.Ready.copies_makeTarget`, `Disk.Ready.copies_copyFile`: one directory and one file;
* `Disk.Ready.copies_copyEntries`: the entries of a directory are copied, or one of them clashes.
-/

namespace CommandShell

/-- The path of what lies some levels below a directory. -/
def Path.below (p : Path) (inner : Location) : Path :=
  inner.foldr (fun name above => above.child name) p

/-- The first level may be counted to the directory. -/
theorem Path.below_append_singleton (p : Path) (inner : Location) (name : FileName) :
    p.below (inner ++ [name]) = (p.child name).below inner := by
  simp [below, List.foldr_append]

/-- Neither of two locations lies at or below the other. -/
def Location.Apart (origin there : Location) : Prop := ¬origin <:+ there ∧ ¬there <:+ origin

/-- What lies below one of two locations that are apart does not lie below the other. -/
theorem Location.Apart.append_ne {origin there : Location} (h : origin.Apart there)
    (inner other : Location) : inner ++ origin ≠ other ++ there := by
  intro he
  rcases List.suffix_or_suffix_of_suffix (List.suffix_append inner origin)
    (he ▸ List.suffix_append other there) with hsuffix | hsuffix
  · exact h.1 hsuffix
  · exact h.2 hsuffix

namespace Disk

variable {d changed : Disk} {origin there : Location} {chosen more : Location → Prop}

/-! ## Overlays -/

/-- At the same place in two trees one has a directory and the other one a file. -/
def Clash (d : Disk) (origin there inner : Location) : Prop :=
  (d.get? (inner ++ origin) = some .directory ∧
      ∃ bytes, d.get? (inner ++ there) = some (.file bytes)) ∨
    ((∃ bytes, d.get? (inner ++ origin) = some (.file bytes)) ∧
      d.get? (inner ++ there) = some .directory)

/-- A directory clashes with files. -/
theorem clash_iff_of_directory {inner : Location}
    (h : d.get? (inner ++ origin) = some .directory) :
    d.Clash origin there inner ↔ ∃ bytes, d.get? (inner ++ there) = some (.file bytes) := by
  simp [Clash, h]

/-- A file clashes with directories. -/
theorem clash_iff_of_file {inner : Location} {bytes : Bytes}
    (h : d.get? (inner ++ origin) = some (.file bytes)) :
    d.Clash origin there inner ↔ d.get? (inner ++ there) = some .directory := by
  simp [Clash, h]

/-- Some places of a tree were laid over another tree, and nothing else was changed. -/
structure Overlaid (origin there : Location) (chosen : Location → Prop) (d changed : Disk) :
    Prop where
  /-- What the first tree has at a chosen place covers what the second one has there. -/
  inside : ∀ {inner}, chosen inner →
    changed.get? (inner ++ there) = (d.get? (inner ++ origin)).or (d.get? (inner ++ there))
  /-- Other places are left alone. -/
  outside : ∀ {location}, (∀ inner, chosen inner → location ≠ inner ++ there) →
    changed.get? location = d.get? location

namespace Overlaid

/-- The tree that is laid over the other one stays as it is. -/
theorem source (h : Overlaid origin there chosen d changed) (hapart : origin.Apart there)
    (inner : Location) : changed.get? (inner ++ origin) = d.get? (inner ++ origin) :=
  h.outside fun other _ => hapart.append_ne inner other

/-- Places where nothing was chosen stay as they are. -/
theorem unchosen (h : Overlaid origin there chosen d changed) {inner : Location}
    (hnot : ¬chosen inner) : changed.get? (inner ++ there) = d.get? (inner ++ there) :=
  h.outside fun _ hchosen he => hnot (List.append_cancel_right he ▸ hchosen)

/-- Laying no place over leaves everything as it is. -/
theorem refl (d : Disk) : Overlaid origin there (fun _ => False) d d := ⟨False.elim, fun _ => rfl⟩

/-- One place is laid over when it gets what the other tree has there. -/
theorem single {inner : Location} {entry : Entry}
    (hget : ∀ location, changed.get? location =
      if location = inner ++ there then some entry else d.get? location)
    (hsource : d.get? (inner ++ origin) = some entry) :
    Overlaid origin there (· = inner) d changed where
  inside := by
    rintro _ rfl
    rw [hget, if_pos rfl, hsource, Option.some_or]
  outside hnot := (hget _).trans (if_neg (hnot inner rfl))

/-- Laying some places over and then others. -/
theorem trans {last : Disk} (h : Overlaid origin there chosen d changed)
    (hmore : Overlaid origin there more changed last) (hapart : origin.Apart there) :
    Overlaid origin there (fun inner => chosen inner ∨ more inner) d last where
  inside {inner} hchosen := by
    by_cases hlater : more inner
    · rw [hmore.inside hlater, h.source hapart]
      by_cases hfirst : chosen inner
      · rw [h.inside hfirst]
        cases d.get? (inner ++ origin) <;> simp
      · rw [h.unchosen hfirst]
    · rw [hmore.unchosen hlater, h.inside (hchosen.resolve_right hlater)]
  outside hnot := by
    rw [hmore.outside fun inner hlater => hnot inner (.inr hlater),
      h.outside fun inner hfirst => hnot inner (.inl hfirst)]

/-- Only the places matter where the first tree has something. -/
theorem congr (h : Overlaid origin there chosen d changed)
    (hsame : ∀ inner, (d.get? (inner ++ origin)).isSome → (chosen inner ↔ more inner)) :
    Overlaid origin there more d changed where
  inside {inner} hmore := by
    by_cases hchosen : chosen inner
    · exact h.inside hchosen
    · rw [h.unchosen hchosen]
      cases hget : d.get? (inner ++ origin) with
      | none => rfl
      | some entry => exact absurd ((hsame inner (by simp [hget])).2 hmore) hchosen
  outside {location} hnot := by
    by_cases hlocation : ∃ inner, chosen inner ∧ location = inner ++ there
    · obtain ⟨inner, hchosen, rfl⟩ := hlocation
      rw [h.inside hchosen]
      cases hget : d.get? (inner ++ origin) with
      | none => rfl
      | some entry => exact absurd rfl (hnot inner ((hsame inner (by simp [hget])).1 hchosen))
    · exact h.outside fun inner hchosen he => hlocation ⟨inner, hchosen, he⟩

/-- Where something lies in the end, it lay before, there or at the same place of the first tree. -/
theorem exists_get? (h : Overlaid origin there chosen d changed) {location : Location}
    {entry : Entry} (hget : changed.get? location = some entry) :
    ∃ before, d.get? before = some entry := by
  by_cases hlocation : ∃ inner, chosen inner ∧ location = inner ++ there
  · obtain ⟨inner, hchosen, rfl⟩ := hlocation
    rw [h.inside hchosen] at hget
    rcases Option.or_eq_some_iff.1 hget with hsource | ⟨-, htarget⟩
    · exact ⟨_, hsource⟩
    · exact ⟨_, htarget⟩
  · exact ⟨location, (h.outside fun inner hchosen he => hlocation ⟨inner, hchosen, he⟩) ▸ hget⟩

/-- A disk without devices has none after trees were laid over trees. -/
theorem noDevices (h : Overlaid origin there chosen d changed) (hdevices : d.NoDevices) :
    changed.NoDevices := by
  intro location kind hget
  obtain ⟨before, hbefore⟩ := h.exists_get? hget
  exact hdevices before kind hbefore

/-- Places that do not clash do not clash when some of them were laid over, and the others clash as
before. -/
theorem clash_iff (h : Overlaid origin there chosen d changed) (hapart : origin.Apart there)
    (hfree : ∀ inner, chosen inner → ¬d.Clash origin there inner) (inner : Location) :
    changed.Clash origin there inner ↔ d.Clash origin there inner := by
  by_cases hchosen : chosen inner
  · refine iff_of_false ?_ (hfree inner hchosen)
    rw [Clash, h.source hapart, h.inside hchosen]
    cases hget : d.get? (inner ++ origin) with
    | none => simp
    | some entry => cases entry <;> simp
  · rw [Clash, Clash, h.source hapart, h.unchosen hchosen]

end Overlaid

/-! ## Copies -/

/-- What comes of copying the chosen places of a tree to another one: without a clash they are laid
over it, and a fault means that there is a clash. -/
def Copies (origin there : Location) (chosen : Location → Prop) (d : Disk) :
    Except Fault Unit × Disk → Prop
  | (.ok (), changed) => (∀ inner, chosen inner → ¬d.Clash origin there inner) ∧
      Overlaid origin there chosen d changed
  | (.error _, _) => ∃ inner, chosen inner ∧ d.Clash origin there inner

namespace Copies

/-- Some places are copied and then others. -/
theorem trans {outcome : Except Fault Unit × Disk}
    (h : Copies origin there chosen d (.ok (), changed))
    (hmore : Copies origin there more changed outcome) (hapart : origin.Apart there) :
    Copies origin there (fun inner => chosen inner ∨ more inner) d outcome := by
  obtain ⟨hfree, hlaid⟩ := h
  have hclash := hlaid.clash_iff hapart hfree
  rcases outcome with ⟨_ | _, last⟩
  · obtain ⟨inner, hlater, hlast⟩ := hmore
    exact ⟨inner, .inr hlater, (hclash inner).1 hlast⟩
  · obtain ⟨hlater, hlast⟩ := hmore
    refine ⟨fun inner hchosen => ?_, hlaid.trans hlast hapart⟩
    exact hchosen.elim (hfree inner) fun hmore hearlier =>
      hlater inner hmore ((hclash inner).2 hearlier)

/-- Only the places matter where the first tree has something. -/
theorem congr {outcome : Except Fault Unit × Disk} (h : Copies origin there chosen d outcome)
    (hsame : ∀ inner, (d.get? (inner ++ origin)).isSome → (chosen inner ↔ more inner)) :
    Copies origin there more d outcome := by
  have hsome {inner : Location} (hclash : d.Clash origin there inner) :
      (d.get? (inner ++ origin)).isSome := by
    rcases hclash with ⟨hdir, -⟩ | ⟨⟨bytes, hfile⟩, -⟩
    · rw [hdir, Option.isSome_some]
    · rw [hfile, Option.isSome_some]
  rcases outcome with ⟨_ | _, last⟩
  · obtain ⟨inner, hchosen, hclash⟩ := h
    exact ⟨inner, (hsame inner (hsome hclash)).1 hchosen, hclash⟩
  · refine ⟨fun inner hmore hclash => ?_, h.2.congr hsame⟩
    exact h.1 inner ((hsame inner (hsome hclash)).2 hmore) hclash

end Copies

/-! ## Entries of directories -/

/-- Behind a path to a directory a name leads to what has that name in it. -/
theorem Plain.walk_child (hplain : d.Plain) (purpose : Purpose) {p : Path} {here : Location}
    (hfind : d.find .use p = .ok here) (hdir : d.get? here = some .directory) (name : FileName)
    (hsize : (p.child name).size < pathLimit) :
    d.walk purpose (p.child name) = .ok
      (if (d.get? (name :: here)).isSome then .found (name :: here) else .vacant here name) := by
  obtain ⟨hcheck, hwalk⟩ := walk_eq_ok (find_eq_ok.1 hfind)
  obtain ⟨links, hsteps⟩ := walkSteps_child purpose hwalk name
  simp only [walk, checkPath_child hcheck hsize, hsteps]
  cases hget : d.get? (name :: here) with
  | none => simp [walkLinks_eq, walkFrom, hdir, hget]
  | some entry => simp [walkLinks_enter hget (hplain.ne_link hget)]

/-- A file is copied wherever a file can be opened that is another one. -/
theorem exists_copyFile {source target : Path} {place location : Location} {bytes old : Bytes}
    {opened : Disk} (hfind : d.find .use source = .ok place)
    (hfile : d.get? place = some (.file bytes)) (hopen : d.openFile target = .ok (location, opened))
    (hold : opened.get? location = some (.file old))
    (hkept : opened.get? place = some (.file bytes)) (hne : place ≠ location) :
    ∃ count copied, d.copyFile source target = (.ok count, copied) := by
  have hempty : (opened.put location (.file [])).get? location = some (.file []) := by
    rw [get?_put (accepts_of_file hold []), if_pos rfl]
  have hsource := (get?_put_of_ne opened (.file []) hne).trans hkept
  refine ⟨bytes.length, (opened.put location (.file [])).put location (.file bytes), ?_⟩
  simp [copyFile, hfind, hfile, hopen, writeAt, hold, hempty, hsource, WriteMode.apply, isRegular,
    transfer, bytesOf]

/-- Two paths lead to directories at the same place in two trees, and the paths of what the first
tree has below, and those of its copies, are short enough. -/
structure Ready (origin there : Location) (d : Disk) (source target : Path) (above : Location) :
    Prop where
  /-- There are no links. -/
  plain : d.Plain
  /-- There are no devices. -/
  noDevices : d.NoDevices
  /-- The first path leads to the first directory. -/
  findSource : d.find .use source = .ok (above ++ origin)
  /-- The second path leads to the second directory. -/
  findTarget : d.find .use target = .ok (above ++ there)
  /-- The first one is a directory. -/
  sourceDirectory : d.get? (above ++ origin) = some .directory
  /-- The second one is a directory. -/
  targetDirectory : d.get? (above ++ there) = some .directory
  /-- No path is too long. -/
  fits : ∀ inner, (d.get? (inner ++ (above ++ origin))).isSome →
    (source.below inner).size < pathLimit ∧ (target.below inner).size < pathLimit

namespace Ready

variable {source target : Path} {above : Location} {name : FileName}

/-- Whatever lies somewhere is a directory or a file. -/
theorem directory_or_file (h : Ready origin there d source target above) {location : Location}
    {entry : Entry} (hget : d.get? location = some entry) :
    entry = .directory ∨ ∃ bytes, entry = .file bytes := by
  cases entry with
  | directory => exact .inl rfl
  | file bytes => exact .inr ⟨bytes, rfl⟩
  | device kind => exact absurd hget (h.noDevices _ kind)
  | link target => exact absurd hget (h.plain _ target)

/-- Directories stay ready when places are laid over and links and directories stay. -/
theorem overlaid (h : Ready origin there d source target above)
    (hlaid : Overlaid origin there chosen d changed) (hkeeps : d.KeepsLinks changed)
    (hapart : origin.Apart there) : Ready origin there changed source target above where
  plain := hkeeps.plain h.plain
  noDevices := hlaid.noDevices h.noDevices
  findSource := hkeeps.find h.findSource
  findTarget := hkeeps.find h.findTarget
  sourceDirectory := hkeeps.directory h.sourceDirectory
  targetDirectory := hkeeps.directory h.targetDirectory
  fits inner hsome := by
    rw [← List.append_assoc, hlaid.source hapart, List.append_assoc] at hsome
    exact h.fits inner hsome

section Child

variable (h : Ready origin there d source target above)
  (hsome : (d.get? (name :: (above ++ origin))).isSome)
include h hsome

/-- The paths of an entry are short enough. -/
theorem size_child :
    (source.child name).size < pathLimit ∧ (target.child name).size < pathLimit :=
  h.fits [name] hsome

/-- The path of an entry leads to the entry. -/
theorem find_child : d.find .use (source.child name) = .ok (name :: (above ++ origin)) := by
  rw [find_eq_ok,
    h.plain.walk_child .use h.findSource h.sourceDirectory name (h.size_child hsome).1]
  rw [if_pos hsome]

/-- The path of an entry leads to a directory if it is one. -/
theorem isDirectory_child : d.isDirectory (source.child name) = true ↔
    d.get? (name :: (above ++ origin)) = some .directory := by
  rw [isDirectory_eq_true, lookAt_eq_ok]
  simp only [← find_eq_ok, h.find_child hsome, Except.ok.injEq, exists_eq_left']

/-- The path of the copy of an entry leads to the place of the copy. -/
theorem walk_target_child (purpose : Purpose) : d.walk purpose (target.child name) = .ok
    (if (d.get? (name :: (above ++ there))).isSome then .found (name :: (above ++ there))
      else .vacant (above ++ there) name) :=
  h.plain.walk_child purpose h.findTarget h.targetDirectory name (h.size_child hsome).2

end Child

/-- Below directories that are ready lie others at the same place. -/
theorem child (h : Ready origin there d source target above)
    (hsource : d.get? (name :: (above ++ origin)) = some .directory)
    (htarget : d.get? (name :: (above ++ there)) = some .directory) :
    Ready origin there d (source.child name) (target.child name) (name :: above) where
  plain := h.plain
  noDevices := h.noDevices
  findSource := h.find_child (by rw [hsource, Option.isSome_some])
  findTarget := by
    rw [find_eq_ok, h.walk_target_child (by rw [hsource, Option.isSome_some]), htarget]
    rfl
  sourceDirectory := hsource
  targetDirectory := htarget
  fits inner hsome := by
    rw [← Path.below_append_singleton, ← Path.below_append_singleton]
    refine h.fits (inner ++ [name]) ?_
    simpa [List.append_assoc] using hsome

/-- The target of a directory is made where nothing lies, and it is refused where a file lies. -/
theorem copies_makeTarget (h : Ready origin there d source target above)
    (hsource : d.get? (name :: (above ++ origin)) = some .directory) :
    Copies origin there (· = name :: above) d (d.makeTarget (target.child name)) := by
  have hsome : (d.get? (name :: (above ++ origin))).isSome := by rw [hsource, Option.isSome_some]
  have hwalk := h.walk_target_child hsome
  have hclash : d.Clash origin there (name :: above) ↔ _ := clash_iff_of_directory hsource
  rw [List.cons_append] at hclash
  cases hget : d.get? (name :: (above ++ there)) with
  | none =>
    simp only [hget, Option.isSome_none, Bool.false_eq_true, if_false] at hwalk
    have hmissing : d.isDirectory (target.child name) = false := by
      simp [isDirectory, lookAt, find, hwalk, bind, Except.bind]
    -- The path leads to the vacant place, links followed or not, so one directory is made there.
    obtain ⟨hcheck, hvacant⟩ := walk_eq_ok (hwalk .useLink)
    rw [← dropSlash_steps_child] at hvacant
    rw [makeTarget, if_neg (by simp [hmissing]), makeDirectories_of_vacant hcheck hvacant]
    refine ⟨?_, .single (get?_put (accepts_of_vacant h.targetDirectory hget _)) hsource⟩
    rintro _ rfl
    rw [hclash, hget]
    simp
  | some entry =>
    simp only [hget, Option.isSome_some, if_true] at hwalk
    have hdirectory : d.isDirectory (target.child name) = true ↔ entry = .directory := by
      simp [isDirectory_eq_true, lookAt, find, hwalk, hget, bind, Except.bind]
    obtain ⟨hcheck, hfound⟩ := walk_eq_ok (hwalk .useLink)
    rw [← dropSlash_steps_child] at hfound
    rcases h.directory_or_file hget with rfl | ⟨bytes, rfl⟩
    · rw [makeTarget, if_pos (hdirectory.2 rfl)]
      refine ⟨?_, .single (fun location => ?_) hsource⟩
      · rintro _ rfl
        rw [hclash, hget]
        simp
      · split
        · next he => rw [he, List.cons_append, hget]
        · rfl
    · have hnot : ¬d.isDirectory (target.child name) = true := by simp [hdirectory]
      rw [makeTarget, if_neg hnot, makeDirectories_of_found hcheck hfound, if_neg hnot]
      exact ⟨_, rfl, hclash.2 ⟨bytes, hget⟩⟩

/-- A file is copied where nothing or a file lies. -/
theorem copies_copyFile (h : Ready origin there d source target above) {bytes : Bytes}
    (hapart : origin.Apart there)
    (hsource : d.get? (name :: (above ++ origin)) = some (.file bytes)) :
    match d.copyFile (source.child name) (target.child name) with
    | (.ok _, copied) => Copies origin there (· = name :: above) d (.ok (), copied)
    | (.error _, _) => d.Clash origin there (name :: above) := by
  have hsome : (d.get? (name :: (above ++ origin))).isSome := by rw [hsource, Option.isSome_some]
  have hfind := h.find_child hsome
  have hwalk := h.walk_target_child hsome .makeFile
  have hclash : d.Clash origin there (name :: above) ↔ _ := clash_iff_of_file hsource
  rw [List.cons_append] at hclash
  have hne : name :: (above ++ origin) ≠ name :: (above ++ there) :=
    hapart.append_ne (name :: above) (name :: above)
  -- Where a file is opened the copying ends well, and what it leaves is known.
  have hcopies (opened : Disk) (old : Bytes)
      (hopen : d.openFile (target.child name) = .ok (name :: (above ++ there), opened))
      (hold : opened.get? (name :: (above ++ there)) = some (.file old))
      (hnot : d.get? (name :: (above ++ there)) ≠ some .directory) :
      match d.copyFile (source.child name) (target.child name) with
      | (.ok _, copied) => Copies origin there (· = name :: above) d (.ok (), copied)
      | (.error _, _) => d.Clash origin there (name :: above) := by
    obtain ⟨hopens, hopened⟩ := spares_openFile hopen
    have hkept := (hopened.entry hsource (by simp)).resolve_left id
    obtain ⟨count, copied, hcopied⟩ := exists_copyFile hfind hsource hopen hold hkept hne
    rw [hcopied]
    refine ⟨?_, .single (get?_copyFile hsource hfind hopens hne.symm (h.noDevices _) hcopied)
      hsource⟩
    rintro _ rfl
    rwa [hclash]
  cases hget : d.get? (name :: (above ++ there)) with
  | none =>
    rw [hget] at hwalk
    have hput := get?_put (accepts_of_vacant h.targetDirectory hget (.file []))
    refine hcopies (d.put (name :: (above ++ there)) (.file [])) [] ?_ ?_ ?_
    · simp [openFile, hwalk, bind, Except.bind]
    · rw [hput, if_pos rfl]
    · simp [hget]
  | some entry =>
    rw [hget] at hwalk
    rcases h.directory_or_file hget with rfl | ⟨old, rfl⟩
    · have hrefused : d.openFile (target.child name) = .error .isDirectory := by
        simp [openFile, hwalk, hget, bind, Except.bind]
      simp only [copyFile, hfind, hsource, hrefused]
      exact hclash.2 hget
    · exact hcopies d old (by simp [openFile, hwalk, hget, bind, Except.bind]) hget
        (by simp [hget])

/-- The names in the first directory are those of what lies in it. -/
theorem names_source (h : Ready origin there d source target above) :
    d.names source = .ok (d.children (above ++ origin)) := by
  simp [names, h.findSource, h.sourceDirectory, bind, Except.bind]

end Ready

/-- A place at or below an entry is the entry or lies at or below what lies in it. -/
theorem suffix_iff_of_children {above inner : Location} {name : FileName}
    (hsome : (d.get? (inner ++ origin)).isSome) :
    name :: above <:+ inner ↔ inner = name :: above ∨
      ∃ next ∈ d.children (name :: (above ++ origin)), next :: name :: above <:+ inner := by
  constructor
  · rintro ⟨deeper, rfl⟩
    rcases List.eq_nil_or_concat deeper with rfl | ⟨deepest, next, rfl⟩
    · exact .inl rfl
    · have hbelow : (d.get? (deepest ++ next :: name :: (above ++ origin))).isSome := by
        simpa using hsome
      exact .inr ⟨next, (d.mem_children_iff _ _).2 (isSome_of_append hbelow), deepest, by simp⟩
  · rintro (rfl | ⟨next, -, hsuffix⟩)
    · exact List.suffix_refl _
    · exact (List.suffix_cons _ _).trans hsuffix

/-- Nothing lies below a file. -/
theorem eq_of_suffix_of_file {above inner : Location} {name : FileName} {bytes : Bytes}
    (hfile : d.get? (name :: (above ++ origin)) = some (.file bytes))
    (hsome : (d.get? (inner ++ origin)).isSome) (hsuffix : name :: above <:+ inner) :
    inner = name :: above := by
  obtain ⟨deeper, rfl⟩ := hsuffix
  cases deeper with
  | nil => rfl
  | cons next deeper =>
    have hbelow : (d.get? (next :: (deeper ++ name :: (above ++ origin)))).isSome := by
      simpa using hsome
    cases hfile.symm.trans (directory_of_append hbelow)

/-- Copying a file keeps the links and the directories. -/
theorem keepsLinks_of_copyFile {source target : Path} {host : Host} {result : Except Refusal Nat}
    (h : d.copyFile source target host = (result, changed)) : d.KeepsLinks changed := by
  have hkeeps := d.keepsLinks_copyFile source target host
  rwa [h] at hkeeps

/-- Copying entries keeps the links and the directories. -/
theorem keepsLinks_of_copyEntries {source target : Path} {names : List FileName} {host : Host}
    {outcome : Except Fault Unit}
    (h : d.copyEntries source target names host = (outcome, changed)) : d.KeepsLinks changed := by
  have hkeeps : d.KeepsLinks (d.copyEntries source target names host).2 :=
    copyEntries_induction KeepsLinks .refl .trans (fun _ => True) (fun _ => id)
      (fun _ => (grows_makeDirectories _ _).keepsLinks) (fun _ => keepsLinks_copyFile _ _ _ _)
      trivial names
  rwa [h] at hkeeps

section Entries

variable {source target : Path} {above : Location} {name : FileName} {rest : List FileName}
  {outcome : Except Fault Unit × Disk}

/-- The first entry is copied and then the others. -/
theorem Copies.cons (h : Copies origin there (name :: above <:+ ·) d (.ok (), changed))
    (hrest : Copies origin there (fun inner => ∃ name ∈ rest, name :: above <:+ inner) changed
      outcome) (hapart : origin.Apart there) :
    Copies origin there (fun inner => ∃ next ∈ name :: rest, next :: above <:+ inner) d outcome :=
  (h.trans hrest hapart).congr fun inner _ => by simp

/-- A fault with the first entry is the end. -/
theorem Copies.cons_error {fault other : Fault} {last : Disk}
    (h : Copies origin there (name :: above <:+ ·) d (.error fault, changed)) :
    Copies origin there (fun inner => ∃ next ∈ name :: rest, next :: above <:+ inner) d
      (.error other, last) := by
  obtain ⟨inner, hsuffix, hclash⟩ := h
  exact ⟨inner, ⟨name, List.mem_cons_self, hsuffix⟩, hclash⟩

namespace Ready

variable (h : Ready origin there d source target above) (hapart : origin.Apart there)
include h hapart

/-- A file is copied as an entry. -/
theorem copies_file (hsome : (d.get? (name :: (above ++ origin))).isSome)
    (hfile : d.isDirectory (source.child name) = false) :
    match d.copyFile (source.child name) (target.child name) with
    | (.ok _, copied) => Copies origin there (name :: above <:+ ·) d (.ok (), copied)
    | (.error _, _) => d.Clash origin there (name :: above) := by
  obtain ⟨entry, hget⟩ := Option.isSome_iff_exists.1 hsome
  obtain rfl | ⟨bytes, rfl⟩ := h.directory_or_file hget
  · rw [(h.isDirectory_child hsome).2 hget] at hfile
    cases hfile
  · have hcopies := h.copies_copyFile hapart hget
    split at hcopies
    · refine hcopies.congr fun inner hinner => ⟨?_, eq_of_suffix_of_file hget hinner⟩
      rintro rfl
      exact List.suffix_refl _
    · exact hcopies

variable (hsource : d.get? (name :: (above ++ origin)) = some .directory)
  {made : Disk} (hmade : d.makeTarget (target.child name) = (.ok (), made))
include hsource hmade

/-- Once the target of a directory was made, what lies in the directory can be copied. -/
theorem child_of_makeTarget :
    Ready origin there made (source.child name) (target.child name) (name :: above) := by
  have hmaking := h.copies_makeTarget hsource
  rw [hmade] at hmaking
  have hlaid := hmaking.2
  have hready := h.overlaid hlaid (keepsLinks_of_makeTarget hmade) hapart
  refine hready.child ((hlaid.source hapart (name :: above)).trans hsource) ?_
  exact (hlaid.inside rfl).trans (by rw [List.cons_append, hsource, Option.some_or])

/-- A directory is copied by making its target and copying what lies in it. -/
theorem copies_directory
    (hinner : Copies origin there (fun inner => ∃ next ∈ made.children (name :: (above ++ origin)),
      next :: name :: above <:+ inner) made outcome) :
    Copies origin there (name :: above <:+ ·) d outcome := by
  have hmaking := h.copies_makeTarget hsource
  rw [hmade] at hmaking
  refine (hmaking.trans hinner hapart).congr fun inner hsome => ?_
  rw [← hmaking.2.source hapart] at hsome
  exact (suffix_iff_of_children hsome).symm

end Ready

end Entries

/-- The named entries of a directory, with all that is in them, are copied. -/
theorem Ready.copies_copyEntries {source target : Path} {above : Location} {names : List FileName}
    (h : Ready origin there d source target above) (hapart : origin.Apart there)
    (hnames : ∀ name ∈ names, (d.get? (name :: (above ++ origin))).isSome) :
    Copies origin there (fun inner => ∃ name ∈ names, name :: above <:+ inner) d
      (d.copyEntries source target names) := by
  -- Each entry is copied on the disk that the entries before it left, which is ready again because
  -- nothing of the source changes and no link is made.
  fun_induction copyEntries d source target names generalizing above with
  | case1 d source target => exact ⟨by simp, (Overlaid.refl d).congr (by simp)⟩
  | case2 d source target name rest hdir fault made hmade =>
    have hsource := (h.isDirectory_child (hnames name List.mem_cons_self)).1 hdir
    have hmaking := h.copies_makeTarget hsource
    rw [hmade] at hmaking
    obtain ⟨inner, rfl, hclash⟩ := hmaking
    exact ⟨_, ⟨name, List.mem_cons_self, List.suffix_refl _⟩, hclash⟩
  | case3 d source target name rest hdir made hmade refusal hrefused =>
    have hsource := (h.isDirectory_child (hnames name List.mem_cons_self)).1 hdir
    rw [(h.child_of_makeTarget hapart hsource hmade).names_source] at hrefused
    cases hrefused
  | case4 d source target name rest hdir made hmade inner hinner fault copied hcopied ih =>
    have hsource := (h.isDirectory_child (hnames name List.mem_cons_self)).1 hdir
    have hready := h.child_of_makeTarget hapart hsource hmade
    obtain rfl := Except.ok.inj (hready.names_source.symm.trans hinner)
    have hcopies := ih hready fun next hnext => (made.mem_children_iff _ _).1 hnext
    rw [hcopied] at hcopies
    exact (h.copies_directory hapart hsource hmade hcopies).cons_error
  | case5 d source target name rest hdir made hmade inner hinner copied hcopied ihinner ihrest =>
    have hsource := (h.isDirectory_child (hnames name List.mem_cons_self)).1 hdir
    have hready := h.child_of_makeTarget hapart hsource hmade
    obtain rfl := Except.ok.inj (hready.names_source.symm.trans hinner)
    have hcopies := ihinner hready fun next hnext => (made.mem_children_iff _ _).1 hnext
    rw [hcopied] at hcopies
    have hfirst := h.copies_directory hapart hsource hmade hcopies
    have hkeeps := (keepsLinks_of_makeTarget hmade).trans (keepsLinks_of_copyEntries hcopied)
    refine hfirst.cons (ihrest (h.overlaid hfirst.2 hkeeps hapart) fun next hnext => ?_) hapart
    rw [← List.cons_append, hfirst.2.source hapart]
    exact hnames next (List.mem_cons_of_mem _ hnext)
  | case6 d source target name rest hdir refusal left hrefused =>
    have hcopies := h.copies_file hapart (hnames name List.mem_cons_self) (by simpa using hdir)
    rw [hrefused] at hcopies
    exact ⟨_, ⟨name, List.mem_cons_self, List.suffix_refl _⟩, hcopies⟩
  | case7 d source target name rest hdir count copied hcopied ih =>
    have hfirst := h.copies_file hapart (hnames name List.mem_cons_self) (by simpa using hdir)
    rw [hcopied] at hfirst
    have hready := h.overlaid hfirst.2 (keepsLinks_of_copyFile hcopied) hapart
    refine hfirst.cons (ih hready fun next hnext => ?_) hapart
    rw [← List.cons_append, hfirst.2.source hapart]
    exact hnames next (List.mem_cons_of_mem _ hnext)

end Disk

end CommandShell
