import CommandShell.Proofs.PlainDisks
import Mathlib.Data.List.Nodup

/-!
# What an archive collects

A directory is collected with everything in it, each directory before what it holds. What is
collected is described by the places of the entries, read from where the archive will be extracted.

## Main definitions

* `Entry.stored`: an entry as an archive stores it;
* `Member.ofItem`: the member for an entry at a place;
* `ParentsFirst`: every place comes behind the directory it lies in;
* `Disk.Collected`: entries collected at some roots with everything that lies in them;
* `Disk.sourceAt`: the source that an archive is given for a location.

## Main results

* `Disk.gatherEntries_spec`: the entries of a directory are collected, with everything in them;
* `Disk.gatherAll_spec`: the same of all sources of an archive.
-/

namespace CommandShell

/-- An entry as an archive stores it: a device, when it can be read at all, is read as the empty
file. -/
def Entry.stored : Entry → Entry
  | .device _ => .file []
  | entry => entry

/-- An entry that an archive stores as it is: a directory, or a file with some bytes. -/
def Entry.IsStored (entry : Entry) : Prop :=
  entry = .directory ∨ ∃ content, entry = .file content

/-- Without links every entry is stored as one that an archive stores as it is. -/
theorem Entry.isStored_stored {entry : Entry} (h : ∀ target, entry ≠ .link target) :
    entry.stored.IsStored := by
  cases entry with
  | file content => exact .inr ⟨content, rfl⟩
  | directory => exact .inl rfl
  | link target => exact absurd rfl (h target)
  | device kind => exact .inr ⟨[], rfl⟩

/-- The names on the way to a place as one text. -/
def Location.relativeText (place : Location) : String :=
  "/".intercalate (place.reverse.map FileName.shown)

/-- The member for an entry at a place. -/
def Member.ofItem (item : Location × Entry) : Member :=
  match item.2 with
  | .file content => ⟨Location.relativeText item.1, .file, content⟩
  | _ => ⟨Location.relativeText item.1 ++ "/", .directory, []⟩

/-- Every place lies in one of the given ones, or in a directory that comes before it. -/
def ParentsFirst : List Location → List (Location × Entry) → Prop
  | _, [] => True
  | known, (place, entry) :: rest =>
    place.tail ∈ known ∧
      ParentsFirst (if entry = .directory then place :: known else known) rest

namespace ParentsFirst

/-- More places to lie in do no harm. -/
theorem mono {known more : List Location} {items : List (Location × Entry)}
    (h : ParentsFirst known items) (hmore : known ⊆ more) : ParentsFirst more items := by
  -- The induction is on the items; each directory among them is known to those behind it.
  induction items generalizing known more with
  | nil => trivial
  | cons item rest ih =>
    obtain ⟨place, entry⟩ := item
    refine ⟨hmore h.1, ih h.2 ?_⟩
    split
    · exact List.cons_subset_cons place hmore
    · exact hmore

/-- Items one after the other. -/
theorem append {known : List Location} {items others : List (Location × Entry)}
    (h : ParentsFirst known items) (hothers : ParentsFirst known others) :
    ParentsFirst known (items ++ others) := by
  induction items generalizing known with
  | nil => exact hothers
  | cons item rest ih =>
    obtain ⟨place, entry⟩ := item
    refine ⟨h.1, ih h.2 (hothers.mono ?_)⟩
    split
    · exact List.subset_cons_self place known
    · exact List.Subset.refl known

end ParentsFirst

/-! ## Names in an archive -/

namespace FileName

/-- The text that a name is shown as is not empty. -/
theorem shown_ne_empty (name : FileName) : name.shown ≠ "" := fun he =>
  (Path.isName_shown name).1 (by rw [he]; rfl)

/-- The text that a name is shown as holds no slash. -/
theorem slash_notMem_shown (name : FileName) : '/' ∉ name.shown.toList := fun hmem =>
  (Path.isName_shown name).2.2.2 ((Utf8.mem_encode_iff (by decide)).2 hmem)

end FileName

/-- The text of a place with one more name. -/
theorem Location.relativeText_cons {place : Location} (hne : place ≠ []) (name : FileName) :
    Location.relativeText (name :: place) =
      Location.relativeText place ++ "/" ++ name.shown := by
  have hreverse : place.reverse.map FileName.shown ≠ [] := by simpa using hne
  rw [relativeText, List.reverse_cons, List.map_append,
    String.intercalate_append_of_ne_nil hreverse (by simp)]
  simp [relativeText, String.append_assoc]

/-- The name of a directory is stored with one slash behind it. -/
theorem directoryName_append (front : String) (name : FileName) :
    directoryName (front ++ name.shown) = front ++ name.shown ++ "/" := by
  have hreverse : name.shown.toList.reverse ≠ [] := by simpa using name.shown_ne_empty
  have hhead : name.shown.toList.reverse.head hreverse ≠ '/' := fun he =>
    name.slash_notMem_shown (by rw [← he, ← List.mem_reverse]; exact List.head_mem hreverse)
  -- A name ends in no slash, so none is dropped.
  have hkeep : (front ++ name.shown).toList.reverse.dropWhile (· == '/') =
      (front ++ name.shown).toList.reverse := by
    rw [String.toList_append, List.reverse_append]
    cases hname : name.shown.toList.reverse with
    | nil => exact absurd hname hreverse
    | cons last rest =>
      have hlast : last ≠ '/' := by simpa [hname] using hhead
      rw [List.cons_append, List.dropWhile_cons_of_neg (by simpa using hlast)]
  rw [directoryName, hkeep, List.reverse_reverse, ← String.toList_inj]
  simp [String.toList_append]

namespace Disk

variable {d : Disk} {format : Archive.Format}

/-- A directory is added behind the others, when the format has no objection. -/
theorem addDirectory_eq_ok {members out : List Member} {name : String}
    (h : addDirectory members name format = .ok out) :
    out = members ++ [⟨name, .directory, []⟩] ∧ format.refusesName members name = none := by
  unfold addDirectory at h
  split at h
  · cases h
  · next haccepted => exact ⟨(Except.ok.inj h).symm, haccepted⟩

/-- Members that can be stored can still be stored with a directory behind them. -/
theorem accepts_addDirectory {members out : List Member} {name : String}
    (h : addDirectory members name format = .ok out) (hmembers : format.Accepts members) :
    format.Accepts out := by
  obtain ⟨rfl, hname⟩ := addDirectory_eq_ok h
  exact hmembers.concat hname nofun

/-- A file is added behind the others, when the format has no objection. -/
theorem gatherFile_eq_ok {path : Path} {name : String} {members out : List Member}
    (h : d.gatherFile path name members format = .ok out) :
    ∃ entry content, d.lookAt path = .ok entry ∧ bytesOf entry = .ok content ∧
      out = members ++ [⟨name, .file, content⟩] ∧ format.refusesName members name = none ∧
        format.refusesData members ⟨name, .file, content⟩ = none := by
  unfold gatherFile at h
  split at h
  · cases h
  · next entry hlook =>
    split at h
    · cases h
    · next hname =>
      split at h
      · cases h
      · next content hcontent =>
        split at h
        · cases h
        · next hdata =>
          exact ⟨entry, content, hlook, hcontent, (Except.ok.inj h).symm, hname, hdata⟩

/-- Members that can be stored can still be stored with a collected file behind them. -/
theorem accepts_gatherFile {path : Path} {name : String} {members out : List Member}
    (h : d.gatherFile path name members format = .ok out) (hmembers : format.Accepts members) :
    format.Accepts out := by
  obtain ⟨-, content, -, -, rfl, hname, hdata⟩ := gatherFile_eq_ok h
  exact hmembers.concat hname fun _ => hdata

/-- An entry whose bytes can be read is stored as the file with those bytes. -/
theorem stored_of_bytesOf {entry : Entry} {content : Bytes} (h : bytesOf entry = .ok content) :
    entry ≠ .directory ∧ entry.stored = .file content := by
  cases entry with
  | directory => cases h
  | link target => cases h
  | file own => exact ⟨nofun, congrArg Entry.file (Except.ok.inj h)⟩
  | device kind =>
    cases kind with
    | null => exact ⟨nofun, congrArg Entry.file (Except.ok.inj h)⟩
    | full => cases h
    | faulty => cases h

/-- A collected file is what lies at its path. -/
theorem get?_of_gatherFile (hplain : d.Plain) {here : Location} {name : String}
    {members out : List Member} (h : d.gatherFile here.path name members format = .ok out) :
    ∃ entry content, d.get? here = some entry ∧ entry ≠ .directory ∧
      entry.stored = .file content ∧ out = members ++ [⟨name, .file, content⟩] := by
  obtain ⟨entry, content, hlook, hcontent, hout, -, -⟩ := gatherFile_eq_ok h
  obtain ⟨hdir, hstored⟩ := stored_of_bytesOf hcontent
  exact ⟨entry, content, (hplain.lookAt_path.1 hlook).2, hdir, hstored, hout⟩

/-- A path that leads to a directory is that of a directory. -/
theorem get?_of_isDirectory (hplain : d.Plain) {here : Location}
    (h : d.isDirectory here.path = true) : d.get? here = some .directory :=
  (hplain.lookAt_path.1 (isDirectory_eq_true.1 h)).2

/-- The names in a directory are those under which something lies in it. -/
theorem mem_names (hplain : d.Plain) {here : Location} {names : List FileName}
    (hdir : d.isDirectory here.path = true) (h : d.names here.path = .ok names) (name : FileName) :
    name ∈ sortNames names ↔ (d.get? (name :: here)).isSome := by
  have hget := get?_of_isDirectory hplain hdir
  -- The names are listed at the location, which the path leads to.
  have hwalk := hplain.walk_found .use (by rw [hget]; rfl) (size_lt_of_isDirectory hdir)
  simp only [Disk.names, find, hwalk, hget, bind, Except.bind, if_true, Except.ok.injEq] at h
  rw [sortNames, List.mem_mergeSort, ← h, mem_children_iff]

/-- The names are those in the directory that a path leads to. -/
theorem names_eq_ok {p : Path} {names : List FileName} :
    d.names p = .ok names ↔ ∃ location, d.find .use p = .ok location ∧
      d.get? location = some .directory ∧ d.children location = names := by
  unfold Disk.names
  cases d.find .use p with
  | error refusal => simp [bind, Except.bind]
  | ok location =>
    by_cases hdir : d.get? location = some .directory <;> simp [bind, Except.bind, hdir]

/-- The names in a directory differ. -/
theorem nodup_names {p : Path} {names : List FileName} (h : d.names p = .ok names) :
    names.Nodup := by
  obtain ⟨location, -, -, rfl⟩ := names_eq_ok.1 h
  exact d.nodup_children location

/-- Names that differ do so once they are sorted. -/
theorem nodup_sortNames {names : List FileName} (h : names.Nodup) : (sortNames names).Nodup :=
  (List.mergeSort_perm _ _).nodup_iff.2 h

/-! ## What is collected -/

/-- The items of some entries with everything in them. Each entry is given by its location and by
the place it is collected under. -/
structure Collected (d : Disk) (spots : List (Location × Location)) (known : List Location)
    (items : List (Location × Entry)) : Prop where
  /-- The items are the entries. -/
  mem_iff : ∀ item, item ∈ items ↔ ∃ spot ∈ spots, ∃ inner entry,
    d.get? (inner ++ spot.1) = some entry ∧ item = (inner ++ spot.2, entry.stored)
  /-- Directories come before what they hold. -/
  parentsFirst : ParentsFirst known items
  /-- Below places that lie equally deep and differ nothing is collected under one place twice. -/
  nodup : ∀ depth, (∀ spot ∈ spots, spot.2.length = depth) → (spots.map Prod.snd).Nodup →
    (items.map Prod.fst).Nodup

namespace Collected

variable {here place : Location}

/-- Nothing is collected from no entries. -/
theorem nil (known : List Location) : d.Collected [] known [] where
  mem_iff item := by simp
  parentsFirst := trivial
  nodup _ _ _ := List.nodup_nil

/-- Some entries are collected before others. -/
theorem append {spots others : List (Location × Location)} {known : List Location}
    {items more : List (Location × Entry)} (hitems : d.Collected spots known items)
    (hmore : d.Collected others known more) :
    d.Collected (spots ++ others) known (items ++ more) where
  mem_iff item := by
    rw [List.mem_append, hitems.mem_iff, hmore.mem_iff]
    simp only [List.mem_append, or_and_right, exists_or]
  parentsFirst := hitems.parentsFirst.append hmore.parentsFirst
  nodup depth hdepth hspots := by
    rw [List.map_append, List.nodup_append] at hspots
    rw [List.map_append, List.nodup_append]
    refine ⟨hitems.nodup depth (fun spot hspot => hdepth spot (by simp [hspot])) hspots.1,
      hmore.nodup depth (fun spot hspot => hdepth spot (by simp [hspot])) hspots.2.1, ?_⟩
    rintro _ hfirst _ hlater rfl
    obtain ⟨item, hitem, hplace⟩ := List.mem_map.1 hfirst
    obtain ⟨other, hother, hsame⟩ := List.mem_map.1 hlater
    obtain ⟨spot, hspot, inner, entry, -, rfl⟩ := (hitems.mem_iff item).1 hitem
    obtain ⟨beside, hbeside, outer, found, -, rfl⟩ := (hmore.mem_iff other).1 hother
    -- Places that lie equally deep are the same ends of one place.
    have hlength : spot.2.length = beside.2.length := by
      rw [hdepth spot (by simp [hspot]), hdepth beside (by simp [hbeside])]
    have hends := List.append_inj_right' (hplace.trans hsame.symm) hlength
    exact hspots.2.2 _ (List.mem_map_of_mem hspot) _ (List.mem_map_of_mem hbeside) hends

/-- An entry that is no directory is collected alone. -/
theorem single {entry : Entry} (hget : d.get? here = some entry) (hdir : entry ≠ .directory) :
    d.Collected [(here, place)] [place.tail] [(place, entry.stored)] where
  mem_iff item := by
    simp only [List.mem_singleton, exists_eq_left]
    constructor
    · rintro rfl
      exact ⟨[], entry, hget, rfl⟩
    · rintro ⟨inner, found, hfound, rfl⟩
      -- Nothing lies in anything but a directory.
      cases inner with
      | nil => rw [Option.some.inj (hget.symm.trans hfound), List.nil_append]
      | cons name inner =>
        have hhere : d.get? here = some .directory :=
          directory_of_append (by rw [← List.cons_append, hfound]; rfl)
        exact absurd (Option.some.inj (hget.symm.trans hhere)) hdir
  parentsFirst := ⟨List.mem_singleton_self _, trivial⟩
  nodup _ _ _ := List.nodup_singleton _

/-- A directory is collected before everything in it. -/
theorem directory {names : List FileName} {items : List (Location × Entry)}
    (hget : d.get? here = some .directory)
    (hnames : ∀ name, name ∈ names ↔ (d.get? (name :: here)).isSome) (hnodup : names.Nodup)
    (hitems : d.Collected (names.map fun name => (name :: here, name :: place)) [place] items) :
    d.Collected [(here, place)] [place.tail] ((place, .directory) :: items) where
  mem_iff item := by
    rw [List.mem_cons, hitems.mem_iff]
    simp only [List.mem_map, List.mem_singleton, exists_eq_left]
    constructor
    · rintro (rfl | ⟨-, ⟨name, -, rfl⟩, inner, entry, hentry, rfl⟩)
      · exact ⟨[], .directory, hget, rfl⟩
      · exact ⟨inner ++ [name], entry, by simpa using hentry, by simp⟩
    · rintro ⟨inner, entry, hentry, rfl⟩
      rcases List.eq_nil_or_concat inner with rfl | ⟨inner, name, rfl⟩
      · left
        rw [Option.some.inj (hentry.symm.trans hget)]
        rfl
      · right
        rw [List.concat_eq_append, List.append_assoc, List.singleton_append] at hentry
        rw [List.concat_eq_append, List.append_assoc, List.singleton_append]
        have hname : (d.get? (name :: here)).isSome := isSome_of_append (by rw [hentry]; rfl)
        exact ⟨_, ⟨name, (hnames name).2 hname, rfl⟩, inner, entry, hentry, rfl⟩
  parentsFirst := by
    refine ⟨List.mem_singleton_self _, hitems.parentsFirst.mono ?_⟩
    simp
  nodup _ _ _ := by
    have hplaces : ((names.map fun name => (name :: here, name :: place)).map Prod.snd).Nodup := by
      rw [List.map_map]
      exact hnodup.map fun name other he => (List.cons_eq_cons.1 he).1
    refine List.nodup_cons.2 ⟨fun hmem => ?_,
      hitems.nodup (place.length + 1) (by simp) hplaces⟩
    -- What is collected in the directory lies deeper than the directory.
    obtain ⟨item, hitem, hplace⟩ := List.mem_map.1 hmem
    obtain ⟨spot, hspot, inner, entry, -, rfl⟩ := (hitems.mem_iff item).1 hitem
    obtain ⟨name, -, rfl⟩ := List.mem_map.1 hspot
    have hlength := congrArg List.length hplace
    simp only [List.length_append, List.length_cons] at hlength
    omega

end Collected

/-- Collecting entries of a directory collects everything in them, as far as it can be stored. -/
theorem gatherEntries_spec (hplain : d.Plain) {here place : Location} (hplace : place ≠ [])
    {names : List FileName} {members out : List Member}
    (h : d.gatherEntries here.path (Location.relativeText place ++ "/") names members format =
      .ok out) :
    ∃ items, out = members ++ items.map Member.ofItem ∧
      d.Collected (names.map fun name => (name :: here, name :: place)) [place] items ∧
      (format.Accepts members → format.Accepts out) := by
  -- The induction follows the recursion: first everything in the first entry, then the others.
  generalize hpath : here.path = path at h
  generalize habove : Location.relativeText place ++ "/" = above at h
  revert h
  fun_induction gatherEntries d path above names members format generalizing here place out with
  | case1 =>
    intro h
    cases h
    exact ⟨[], by simp, .nil _, id⟩
  | case2 =>
    intro h
    cases h
  | case3 =>
    intro h
    cases h
  | case4 =>
    intro h
    cases h
  | case5 directory above members name rest hdir added hadd inner hinner gathered hgather ih₂ ih₁ =>
    intro h
    subst hpath habove
    rw [child_path] at hdir hinner hgather ih₂
    -- What is put before the names in the directory is the place of the directory itself.
    have hbelow : Location.relativeText (name :: place) ++ "/" =
        directoryName (Location.relativeText place ++ "/" ++ name.shown) := by
      rw [directoryName_append, Location.relativeText_cons hplace]
    obtain ⟨below, rfl, hcollected, haccepts⟩ := ih₂ (by simp) rfl hbelow hgather
    obtain ⟨items, rfl, hitems, haccepts'⟩ := ih₁ hplace rfl rfl h
    have hentry : d.Collected [(name :: here, name :: place)] [place]
        ((name :: place, .directory) :: below) :=
      .directory (get?_of_isDirectory hplain hdir) (mem_names hplain hdir hinner)
        (nodup_sortNames (nodup_names hinner)) hcollected
    refine ⟨(name :: place, .directory) :: below ++ items, ?_, hentry.append hitems, fun hmembers =>
      haccepts' (haccepts (accepts_addDirectory hadd hmembers))⟩
    rw [(addDirectory_eq_ok hadd).1, ← hbelow]
    simp [Member.ofItem]
  | case6 =>
    intro h
    cases h
  | case7 directory above members name rest hdir gathered hgather ih =>
    intro h
    subst hpath habove
    rw [child_path] at hgather
    obtain ⟨entry, content, hget, hentry, hstored, rfl⟩ := get?_of_gatherFile hplain hgather
    obtain ⟨items, rfl, hitems, haccepts⟩ := ih hplace rfl rfl h
    -- A file is collected alone, and the rest behind it.
    have hsingle : d.Collected [(name :: here, name :: place)] [place]
        [(name :: place, entry.stored)] := .single hget hentry
    refine ⟨(name :: place, entry.stored) :: items, ?_, hsingle.append hitems, fun hmembers =>
      haccepts (accepts_gatherFile hgather hmembers)⟩
    rw [hstored]
    simp [Member.ofItem, Location.relativeText_cons hplace]

/-- Collecting one source collects what lies at its path with everything in it. -/
theorem gather_spec (hplain : d.Plain) {name : FileName} {above : Location}
    {members out : List Member}
    (h : d.gather ⟨Location.path (name :: above), name.shown, true⟩ members format = .ok out) :
    ∃ items, out = members ++ items.map Member.ofItem ∧
      d.Collected [(name :: above, [name])] [[]] items ∧
      (format.Accepts members → format.Accepts out) := by
  have hname : Location.relativeText [name] = name.shown := by simp [Location.relativeText]
  have hslash : directoryName name.shown = Location.relativeText [name] ++ "/" := by
    simpa [hname] using directoryName_append "" name
  unfold gather at h
  split at h
  · next hdir =>
    cases hadd : addDirectory members (directoryName name.shown) format with
    | error fault => simp [hadd] at h
    | ok added =>
      cases hinner : d.names (Location.path (name :: above)) with
      | error refusal => simp [hadd, hinner] at h
      | ok inner =>
        simp only [hadd, hinner, if_true] at h
        rw [hslash] at hadd h
        -- The directory is a member of its own in front of its entries, so an empty one is kept.
        obtain ⟨items, rfl, hitems, haccepts⟩ := gatherEntries_spec hplain (by simp) h
        have hentry : d.Collected [(name :: above, [name])] [[]] (([name], .directory) :: items) :=
          .directory (get?_of_isDirectory hplain hdir) (mem_names hplain hdir hinner)
            (nodup_sortNames (nodup_names hinner)) hitems
        refine ⟨_, ?_, hentry, fun hmembers => haccepts (accepts_addDirectory hadd hmembers)⟩
        rw [(addDirectory_eq_ok hadd).1]
        simp [Member.ofItem]
  · obtain ⟨entry, content, hget, hentry, hstored, rfl⟩ := get?_of_gatherFile hplain h
    have hsingle : d.Collected [(name :: above, [name])] [[]] [([name], entry.stored)] :=
      .single hget hentry
    refine ⟨_, ?_, hsingle, accepts_gatherFile h⟩
    rw [hstored]
    simp [Member.ofItem, hname]

/-- Something that is stored with everything in it, under its last name. -/
def sourceAt (root : FileName × Location) : Source :=
  ⟨Location.path (root.1 :: root.2), root.1.shown, true⟩

/-- An archive collects what lies at its sources with everything in them, and all of it can be
stored. -/
theorem gatherAll_spec (hplain : d.Plain) {roots : List (FileName × Location)} {out : List Member}
    (h : d.gatherAll (roots.map sourceAt) format = .ok out) :
    ∃ items, out = items.map Member.ofItem ∧
      d.Collected (roots.map fun root => (root.1 :: root.2, [root.1])) [[]] items ∧
      format.Accepts out := by
  -- The members so far are those of the sources before.
  have hfrom : ∀ members : List Member,
      (roots.map sourceAt).foldlM (fun members source => d.gather source members format) members =
        .ok out →
      ∃ items, out = members ++ items.map Member.ofItem ∧
        d.Collected (roots.map fun root => (root.1 :: root.2, [root.1])) [[]] items ∧
        (format.Accepts members → format.Accepts out) := by
    clear h
    induction roots with
    | nil =>
      intro members h
      cases h
      exact ⟨[], by simp, .nil _, id⟩
    | cons root rest ih =>
      intro members h
      rw [List.map_cons, List.foldlM_cons] at h
      cases hgather : d.gather (sourceAt root) members format with
      | error fault => simp [hgather, bind, Except.bind] at h
      | ok gathered =>
        simp only [hgather, bind, Except.bind] at h
        obtain ⟨first, rfl, hfirst, haccepts⟩ := gather_spec hplain hgather
        obtain ⟨items, rfl, hitems, haccepts'⟩ := ih _ h
        exact ⟨first ++ items, by simp, hfirst.append hitems, fun hmembers =>
          haccepts' (haccepts hmembers)⟩
  obtain ⟨items, hout, hitems, haccepts⟩ := hfrom [] h
  exact ⟨items, by simpa using hout, hitems, haccepts .nil⟩

end Disk

end CommandShell
