import CommandShell.Proofs.Footprints
import CommandShell.Proofs.StoredObjects
import Mathlib.Data.List.Sort

/-!
# The names in an archive

An archive names what it stores in depth-first order: a directory comes before everything in it, and
what lies side by side comes in the order of the bytes of the names. `ls` sorts what it shows, so
both orders are the same where all names are texts. Here everything that can be reached from a
directory, through links as well, is told by the trail of names that leads to it, and the names in
the archive are those of the trails, each once.

## Main definitions

* `Trail`: the names on a way down from a directory.
* `Disk.Descends`: a trail leads down through directories.
* `Disk.Preorder`: some trails are all that lead down from a directory, in depth-first order.
* `Disk.Part`: the names that a source contributes to an archive.

## Main results

* `Disk.Lists.exists_walked`: what the entries of a directory stand for is told by trails;
* `Disk.preorder_of_sorted`: trails in the order of their names are in depth-first order;
* `Disk.map_shown_sortNames`: names that are texts are sorted as what they are shown as;
* `Disk.gatherAll_of_same`: what is collected does not depend on the order in which the host lists
  directories;
* `Disk.store_names`: the names that are stored.
-/

namespace CommandShell

/-! ## Trails -/

/-- The names on a way down from a directory, the outermost first. -/
abbrev Trail := List FileName

/-- The path at the end of a trail. -/
def Path.follow (p : Path) (trail : Trail) : Path :=
  trail.foldl Path.child p

namespace Trail

/-- One trail comes before another when the bytes of its names do, from the outermost on: a trail
comes before those that lead on from it. -/
def Before (first later : Trail) : Prop :=
  first.map FileName.bytes < later.map FileName.bytes

/-- The last name of a trail that leads one step on from another one. -/
def nameIn (above trail : Trail) : Option FileName :=
  match trail.getLast? with
  | some name => if trail.dropLast = above then some name else none
  | none => none

/-- Only a trail that leads one step on has a name there. -/
theorem nameIn_eq_some {above trail : Trail} {name : FileName} :
    nameIn above trail = some name ↔ trail = above ++ [name] := by
  rcases List.eq_nil_or_concat trail with rfl | ⟨front, last, rfl⟩
  · simp [nameIn]
  · simp [nameIn, List.concat_eq_append]

/-- Trails with one name in front of each are in the order of the trails. -/
theorem before_cons {name : FileName} {first later : Trail} :
    Before (name :: first) (name :: later) ↔ Before first later := by
  simp [Before]

/-- Trails whose first names are in order are in order. -/
theorem before_of_lt {name other : FileName} (h : name.bytes < other.bytes) (first later : Trail) :
    Before (name :: first) (other :: later) := by
  rw [Before, List.map_cons, List.map_cons, List.cons_lt_cons_iff]
  exact .inl h

/-- The trail that leads nowhere comes first. -/
theorem before_nil_cons (name : FileName) (trail : Trail) : Before [] (name :: trail) := by
  rw [Before, List.map_cons]
  exact List.nil_lt_cons _ _

/-- A trail that comes later does not lead to where an earlier one leads on from. -/
theorem Before.not_prefix {first later : Trail} (h : Before first later) : ¬later <+: first :=
  fun hwithin => (hwithin.map FileName.bytes).le h

/-- Names in one directory are in the order of the trails that lead to them. -/
theorem before_append {above : Trail} {name other : FileName} :
    Before (above ++ [name]) (above ++ [other]) ↔ name.bytes < other.bytes := by
  induction above with
  | nil => simp [Before, List.cons_lt_cons_iff]
  | cons first above ih => rw [List.cons_append, List.cons_append, before_cons, ih]

end Trail

namespace Disk

variable {d : Disk} {format : Archive.Format}

/-- A trail leads down from a directory: every name on it is one of those in the directory that the
names before it lead to. -/
inductive Descends (d : Disk) : Path → Trail → Prop
  /-- Nowhere. -/
  | here {directory : Path} : Descends d directory []
  /-- Into an entry, and on from there. -/
  | into {directory : Path} {names : List FileName} {name : FileName} {trail : Trail} :
      d.names directory = .ok names → name ∈ names → Descends d (directory.child name) trail →
        Descends d directory (name :: trail)

/-- The text of a trail: its names, with a slash behind each that leads to a directory. -/
def trailText (d : Disk) : Path → Trail → String
  | _, [] => ""
  | directory, name :: trail =>
    name.shown ++ (if d.isDirectory (directory.child name) then "/" else "") ++
      d.trailText (directory.child name) trail

/-- Some trails are all that lead down from a directory, in depth-first order. -/
structure Preorder (d : Disk) (top : Path) (trails : List Trail) : Prop where
  /-- Every trail that leads down is among them, and no other one. -/
  mem_iff : ∀ trail, trail ∈ trails ↔ d.Descends top trail
  /-- They are in the order of their names, from the outermost on. -/
  sorted : trails.Pairwise Trail.Before
  /-- No trail comes again, and a directory comes before everything inside it. -/
  directoriesFirst : trails.Pairwise fun first later => ¬later <+: first
  /-- The entries of a directory come as `ls` prints that directory, when their names are texts. -/
  siblings : ∀ above ∈ trails, d.isDirectory (top.follow above) = true →
    (∀ name ∈ trails.filterMap (Trail.nameIn above), Utf8.Valid name.bytes) →
      ∀ (host : Host) (format : Archive.Format) (w : World Disk) (typed : String), w.held = d →
        w.session.resolve typed = top.follow above →
          (Builtin.runLs (files host format) [typed]).perform w =
            (ShellM.printEach FileName.shown (trails.filterMap (Trail.nameIn above))).perform w

/-- The names that a source contributes to an archive. -/
inductive Part (d : Disk) (source : Source) : List String → Prop
  /-- What is no directory has the given name. -/
  | file : d.isDirectory source.path = false → Part d source [source.name]
  /-- A directory has the given name without the slashes at its end, and with one slash. -/
  | bare : d.isDirectory source.path = true → source.recursive = false →
      Part d source [directoryName source.name]
  /-- A directory that is stored with everything in it has in addition the names of what it holds,
  with its own name in front of them. -/
  | tree {trails : List Trail} :
      d.isDirectory source.path = true → source.recursive = true → d.Preorder source.path trails →
        Part d source
          (trails.map fun trail => directoryName source.name ++ d.trailText source.path trail)

/-! ## The names in a directory -/

/-- Only a directory has names. -/
theorem isDirectory_of_names {p : Path} {names : List FileName} (h : d.names p = .ok names) :
    d.isDirectory p = true := by
  obtain ⟨location, hfind, hdir, -⟩ := names_eq_ok.1 h
  exact isDirectory_eq_true.2 (lookAt_eq_ok.2 ⟨location, find_eq_ok.1 hfind, hdir⟩)

/-- Sorting keeps the names. -/
@[simp]
theorem mem_sortNames {names : List FileName} {name : FileName} :
    name ∈ sortNames names ↔ name ∈ names := by
  rw [sortNames, List.mem_mergeSort]

/-- Names that differ are in strict order once they are sorted. -/
theorem pairwise_sortNames {names : List FileName} (h : names.Nodup) :
    (sortNames names).Pairwise fun name other => name.bytes < other.bytes := by
  have hle : (sortNames names).Pairwise fun name other => name.bytes ≤ other.bytes := by
    refine (List.pairwise_mergeSort (fun a b c => ?_) (fun a b => ?_) names).imp (by simp)
    · simpa using fun hab hbc => List.le_trans hab hbc
    · simpa using List.le_total a.bytes b.bytes
  refine (hle.and (nodup_sortNames h)).imp fun {name other} hboth => ?_
  exact Std.lt_of_le_of_ne hboth.1 fun he => hboth.2 (FileName.bytes_injective he)

/-- Sorting gives the names in strict order, in which they can be in one way only. -/
theorem sortNames_eq_of_perm {names sorted : List FileName} (h : names.Perm sorted)
    (hsorted : sorted.Pairwise fun name other => name.bytes < other.bytes) :
    sortNames names = sorted := by
  have hnodup : names.Nodup := by
    refine h.nodup_iff.2 (hsorted.imp ?_)
    rintro name _ hbefore rfl
    exact List.lt_irrefl _ hbefore
  have hperm : (sortNames names).Perm sorted := (List.mergeSort_perm _ _).trans h
  exact hperm.eq_of_pairwise
    (fun _ _ _ _ hbefore hafter => absurd hafter (List.lt_asymm hbefore))
    (pairwise_sortNames hnodup) hsorted

/-- The order of names that are texts is that of what they are shown as. -/
theorem map_shown_sortNames {names : List FileName} (h : ∀ name ∈ names, Utf8.Valid name.bytes) :
    (sortNames names).map FileName.shown =
      (names.map FileName.shown).mergeSort fun a b => decide (a ≤ b) := by
  refine List.map_mergeSort fun name hname other hother => ?_
  rw [decide_eq_decide]
  exact (not_congr ((h other hother).toStringLossy_lt (h name hname))).symm

/-! ## Descending -/

/-- From what is no directory no trail leads on. -/
theorem descends_of_file {p : Path} (h : d.isDirectory p = false) {trail : Trail} :
    d.Descends p trail ↔ trail = [] := by
  constructor
  · intro hdescends
    cases hdescends with
    | here => rfl
    | into hnames => simp [isDirectory_of_names hnames] at h
  · rintro rfl
    exact .here

/-- A trail leads down from a directory nowhere, or into one of its entries and on from there. -/
theorem descends_cons {p : Path} {names : List FileName} (h : d.names p = .ok names)
    {name : FileName} {trail : Trail} :
    d.Descends p (name :: trail) ↔ name ∈ names ∧ d.Descends (p.child name) trail := by
  constructor
  · intro hdescends
    cases hdescends with
    | into hnames hmem hrest =>
      obtain rfl := Except.ok.inj (h.symm.trans hnames)
      exact ⟨hmem, hrest⟩
  · rintro ⟨hmem, hrest⟩
    exact .into h hmem hrest

/-- A trail leads one step on to the entries of the directory at its end. -/
theorem descends_append {p : Path} {above : Trail} {names : List FileName}
    (h : d.names (p.follow above) = .ok names) (habove : d.Descends p above) {name : FileName} :
    d.Descends p (above ++ [name]) ↔ name ∈ names := by
  induction habove with
  | here =>
    rw [Path.follow, List.foldl_nil] at h
    rw [List.nil_append, descends_cons h]
    exact and_iff_left .here
  | into hnames hmem _ ih =>
    rw [List.cons_append, descends_cons hnames, ih h]
    exact and_iff_right hmem

/-- The trails of what some entries of a directory stand for, in order. -/
structure Walked (d : Disk) (directory : Path) (names : List FileName) (trails : List Trail) :
    Prop where
  /-- They lead into one of the entries, and on from there. -/
  mem_iff : ∀ trail, trail ∈ trails ↔
    ∃ name inner, trail = name :: inner ∧ name ∈ names ∧ d.Descends (directory.child name) inner
  /-- They are in the order of their names. -/
  sorted : trails.Pairwise Trail.Before

namespace Walked

variable {directory : Path} {name : FileName} {rest : List FileName} {others : List Trail}

/-- The trails of one entry come before those of the entries behind it. -/
theorem cons {trails : List Trail} (hname : ∀ other ∈ rest, name.bytes < other.bytes)
    (hmem : ∀ inner, inner ∈ trails ↔ d.Descends (directory.child name) inner)
    (hsorted : trails.Pairwise Trail.Before) (hothers : d.Walked directory rest others) :
    d.Walked directory (name :: rest) (trails.map (name :: ·) ++ others) where
  mem_iff trail := by
    simp only [List.mem_append, List.mem_map, hothers.mem_iff, hmem, List.mem_cons]
    constructor
    · rintro (⟨inner, hinner, rfl⟩ | ⟨other, inner, rfl, hother, hinner⟩)
      · exact ⟨name, inner, rfl, .inl rfl, hinner⟩
      · exact ⟨other, inner, rfl, .inr hother, hinner⟩
    · rintro ⟨other, inner, rfl, rfl | hother, hinner⟩
      · exact .inl ⟨inner, hinner, rfl⟩
      · exact .inr ⟨other, inner, rfl, hother, hinner⟩
  sorted := by
    rw [List.pairwise_append, List.pairwise_map]
    refine ⟨hsorted.imp Trail.before_cons.2, hothers.sorted, fun first hfirst later hlater => ?_⟩
    obtain ⟨inner, -, rfl⟩ := List.mem_map.1 hfirst
    obtain ⟨other, further, rfl, hother, -⟩ := (hothers.mem_iff later).1 hlater
    exact Trail.before_of_lt (hname other hother) inner further

/-- A directory comes before the trails of its entries. -/
theorem descends {names : List FileName} {trails : List Trail} (h : d.names directory = .ok names)
    (hwalked : d.Walked directory (sortNames names) trails) :
    (∀ trail, trail ∈ [] :: trails ↔ d.Descends directory trail) ∧
      ([] :: trails).Pairwise Trail.Before := by
  constructor
  · intro trail
    cases trail with
    | nil => simpa using .here
    | cons name inner => simp [hwalked.mem_iff, descends_cons h]
  · refine List.pairwise_cons.2 ⟨fun trail htrail => ?_, hwalked.sorted⟩
    obtain ⟨name, inner, rfl, -⟩ := (hwalked.mem_iff trail).1 htrail
    exact Trail.before_nil_cons name inner

end Walked

/-- What some entries of a directory stand for is told by the trails that lead into them: each
object has the text of its trail as its name. -/
theorem Lists.exists_walked {directory : Path} {above : String} {names : List FileName}
    {objects : List StoredObject} (h : d.Lists directory above names objects)
    (hsorted : names.Pairwise fun name other => name.bytes < other.bytes) :
    ∃ trails, d.Walked directory names trails ∧
      objects.map StoredObject.name =
        trails.map fun trail => above ++ d.trailText directory trail := by
  induction h with
  | nil => exact ⟨[], ⟨by simp, .nil⟩, rfl⟩
  | @file directory above name rest others hfile _ ih =>
    obtain ⟨hname, hrest⟩ := List.pairwise_cons.1 hsorted
    obtain ⟨trails, hwalked, hnames⟩ := ih hrest
    have halone : ∀ inner, inner ∈ [[]] ↔ d.Descends (directory.child name) inner := fun inner => by
      rw [List.mem_singleton, descends_of_file hfile]
    exact ⟨_, .cons hname halone (List.pairwise_singleton _ _) hwalked,
      by simp [hnames, trailText, hfile]⟩
  | @directory directory above name rest inner below others hdir hinner _ _ ihbelow ihothers =>
    obtain ⟨hname, hrest⟩ := List.pairwise_cons.1 hsorted
    obtain ⟨trails, hwalked, hnames⟩ := ihothers hrest
    -- Below the entry the names are those in its directory, sorted.
    obtain ⟨inside, hinside, hbelow⟩ := ihbelow (pairwise_sortNames (nodup_names hinner))
    obtain ⟨hmem, hordered⟩ := hinside.descends hinner
    refine ⟨_, .cons hname hmem hordered hwalked, ?_⟩
    simp [hnames, hbelow, trailText, hdir, directoryName_append, String.append_assoc]

/-! ## Depth-first order -/

/-- Lines may be found before they are printed or while. -/
theorem printEach_map {σ α β : Type} (lineOf : β → String) (f : α → β) (items : List α) :
    (ShellM.printEach lineOf (items.map f) : ShellM σ Unit) =
      ShellM.printEach (lineOf ∘ f) items := by
  induction items with
  | nil => rfl
  | cons first rest ih => rw [List.map_cons, ShellM.printEach, ShellM.printEach, ih, Function.comp]

/-- What `ls` prints of a directory are its names, sorted by what they are shown as. -/
theorem perform_runLs {p : Path} {names : List FileName} (h : d.names p = .ok names)
    {w : World Disk} {typed : String} (hheld : w.held = d)
    (hresolve : w.session.resolve typed = p) (host : Host) (format : Archive.Format) :
    (Builtin.runLs (files host format) [typed]).perform w =
      (ShellM.printEach id
        ((names.map FileName.shown).mergeSort fun a b => decide (a ≤ b))).perform w := by
  subst hheld hresolve
  let shownAt (name : FileName) : String × Kind :=
    (name.shown, w.held.kindAt ((w.session.resolve typed).child name))
  have hkind : (files host format).answer (.kindOf (w.session.resolve typed)) w.held =
      (.ok .directory, w.held) := by
    rw [answer_kindOf, isDirectory_eq_true.1 (isDirectory_of_names h)]
    rfl
  have hlist : (files host format).answer (.list (w.session.resolve typed)) w.held =
      (.ok ((names.map shownAt).mergeSort fun a b => decide (a.1 ≤ b.1)), w.held) := by
    rw [answer_list, listing, h]
    rfl
  have heach (listed : List (String × Kind)) :
      (ShellM.printEach Prod.fst listed : ShellM Disk Unit) =
        ShellM.printEach id (listed.map Prod.fst) := by
    rw [printEach_map, Function.id_comp]
  -- What is shown beside a name makes no difference for the order.
  have hsorted : ((names.map shownAt).mergeSort fun a b => decide (a.1 ≤ b.1)).map Prod.fst =
      (names.map FileName.shown).mergeSort fun a b => decide (a ≤ b) := by
    rw [List.map_mergeSort (s := fun a b => decide (a ≤ b)) (fun _ _ _ _ => rfl), List.map_map]
    rfl
  rw [Builtin.runLs, ShellM.perform_bind, ShellM.perform_resolve]
  simp only [Builtin.listPath, ShellM.perform_bind, ShellM.perform_request, hkind, hlist, heach,
    hsorted]

/-- Trails in the order of their names are in depth-first order. -/
theorem preorder_of_sorted {top : Path} {trails : List Trail}
    (hmem : ∀ trail, trail ∈ trails ↔ d.Descends top trail)
    (hsorted : trails.Pairwise Trail.Before) : d.Preorder top trails where
  mem_iff := hmem
  sorted := hsorted
  directoriesFirst := hsorted.imp Trail.Before.not_prefix
  siblings above habove hdir hvalid host format w typed hheld hresolve := by
    obtain ⟨names, hnames⟩ := exists_names hdir
    have hlisted : ∀ name, name ∈ names ↔ name ∈ trails.filterMap (Trail.nameIn above) := by
      intro name
      simp [Trail.nameIn_eq_some, hmem, descends_append hnames ((hmem above).1 habove)]
    -- Both lists are in strict order and have the same members.
    have hstrict : (trails.filterMap (Trail.nameIn above)).Pairwise
        fun name other => name.bytes < other.bytes := by
      refine hsorted.filterMap _ fun first later hbefore name hname other hother => ?_
      obtain rfl := Trail.nameIn_eq_some.1 hname
      obtain rfl := Trail.nameIn_eq_some.1 hother
      exact Trail.before_append.1 hbefore
    have hnodup : (trails.filterMap (Trail.nameIn above)).Nodup := by
      refine hstrict.imp ?_
      rintro name _ hbefore rfl
      exact List.lt_irrefl _ hbefore
    have hsort : sortNames names = trails.filterMap (Trail.nameIn above) :=
      sortNames_eq_of_perm ((List.perm_ext_iff_of_nodup (nodup_names hnames) hnodup).2 hlisted)
        hstrict
    rw [perform_runLs hnames hheld hresolve, ← map_shown_sortNames fun name hname =>
      hvalid name ((hlisted name).1 hname), hsort, printEach_map, Function.id_comp]

/-- The names of the objects that a source stands for are those that it contributes. -/
theorem Stores.part {source : Source} {objects : List StoredObject} (h : d.Stores source objects) :
    d.Part source (objects.map StoredObject.name) := by
  cases h with
  | file hfile => exact .file hfile
  | bare hdir hbare => exact .bare hdir hbare
  | tree hdir hrecursive hnames hlists =>
    obtain ⟨trails, hwalked, hbelow⟩ :=
      hlists.exists_walked (pairwise_sortNames (nodup_names hnames))
    obtain ⟨hmem, hsorted⟩ := hwalked.descends hnames
    have hpart := Part.tree hdir hrecursive (preorder_of_sorted hmem hsorted)
    rwa [List.map_cons, trailText, String.append_empty, ← hbelow] at hpart

/-! ## Collecting step by step -/

section Collecting

variable {directory : Path} {above : String} {name : FileName} {rest : List FileName}
  {members gathered : List Member}

/-- Nothing more is collected behind the last entry. -/
theorem gatherEntries_nil :
    d.gatherEntries directory above [] members format = .ok members := by
  rw [gatherEntries.eq_def]

/-- A directory is collected with everything in it, and then the entries behind it. -/
theorem gatherEntries_of_directory {added : List Member} {inner : List FileName}
    (hdir : d.isDirectory (directory.child name) = true)
    (hadd : addDirectory members (directoryName (above ++ name.shown)) format = .ok added)
    (hinner : d.names (directory.child name) = .ok inner)
    (hgather : d.gatherEntries (directory.child name) (directoryName (above ++ name.shown))
      (sortNames inner) added format = .ok gathered) :
    d.gatherEntries directory above (name :: rest) members format =
      d.gatherEntries directory above rest gathered format := by
  rw [gatherEntries.eq_def]
  simp only [hdir, dite_true, hadd, hinner, hgather]

/-- A file is collected, and then the entries behind it. -/
theorem gatherEntries_of_file (hfile : d.isDirectory (directory.child name) = false)
    (hgather : d.gatherFile (directory.child name) (above ++ name.shown) members format =
      .ok gathered) :
    d.gatherEntries directory above (name :: rest) members format =
      d.gatherEntries directory above rest gathered format := by
  rw [gatherEntries.eq_def]
  simp only [hfile, Bool.false_eq_true, dite_false, hgather]

end Collecting

/-! ## Disks that hold the same -/

section Same

variable {other : Disk} (hsame : ∀ location, other.get? location = d.get? location)
include hsame

/-- Walks without links are told by what lies where. -/
theorem walkFrom_congr (purpose : Purpose)
    (follow : Location → List Step → Except Refusal Spot) :
    other.walkFrom purpose follow = d.walkFrom purpose follow := by
  funext here steps
  induction steps generalizing here with
  | nil => rw [walkFrom, walkFrom]
  | cons step rest ih =>
    rw [walkFrom.eq_def, walkFrom.eq_def]
    simp only [hsame, ih]

/-- Walks are told by what lies where. -/
theorem walkLinks_congr (purpose : Purpose) (links : Nat) :
    other.walkLinks purpose links = d.walkLinks purpose links := by
  induction links with
  | zero => exact walkFrom_congr hsame purpose _
  | succ links ih => rw [walkLinks, walkLinks, ih, walkFrom_congr hsame]

/-- Paths lead to the same spots. -/
theorem walk_congr (purpose : Purpose) (p : Path) : other.walk purpose p = d.walk purpose p := by
  rw [walk, walk, walkSteps, walkSteps, walkLinks_congr hsame]

/-- The same lies at every path. -/
theorem lookAt_congr (p : Path) : other.lookAt p = d.lookAt p := by
  simp only [lookAt, find, walk_congr hsame, hsame]

/-- The same paths lead to directories. -/
theorem isDirectory_congr (p : Path) : other.isDirectory p = d.isDirectory p := by
  rw [isDirectory, isDirectory, lookAt_congr hsame]

/-- The names in a directory are the same once they are sorted. -/
theorem exists_names_of_same {p : Path} {names : List FileName} (h : d.names p = .ok names) :
    ∃ others, other.names p = .ok others ∧ sortNames others = sortNames names := by
  obtain ⟨location, hfind, hdir, rfl⟩ := names_eq_ok.1 h
  have hfound : other.find .use p = .ok location := by
    rw [find_eq_ok] at hfind ⊢
    rw [walk_congr hsame, hfind]
  refine ⟨_, names_eq_ok.2 ⟨location, hfound, (hsame location).trans hdir, rfl⟩, ?_⟩
  have hother := other.nodup_children location
  have hchildren := d.nodup_children location
  have hperm : (other.children location).Perm (d.children location) :=
    (List.perm_ext_iff_of_nodup hother hchildren).2 fun name => by
      rw [mem_children_iff, mem_children_iff, hsame]
  exact sortNames_eq_of_perm (hperm.trans (List.mergeSort_perm _ _).symm)
    (pairwise_sortNames hchildren)

/-- The same file is collected. -/
theorem gatherFile_congr (path : Path) (name : String) (members : List Member) :
    other.gatherFile path name members format = d.gatherFile path name members format := by
  rw [gatherFile, gatherFile, lookAt_congr hsame]

/-- The same is collected of the entries of a directory. -/
theorem gatherEntries_of_same {directory : Path} {above : String} {names : List FileName}
    {members out : List Member}
    (h : d.gatherEntries directory above names members format = .ok out) :
    other.gatherEntries directory above names members format = .ok out := by
  revert h
  fun_induction gatherEntries d directory above names members format generalizing out with
  | case1 =>
    intro h
    rw [← h, gatherEntries_nil]
  | case2 => exact fun h => by cases h
  | case3 => exact fun h => by cases h
  | case4 => exact fun h => by cases h
  | case5 directory above members name rest hdir added hadd inner hinner gathered hgather ih₂ ih₁ =>
    intro h
    -- The names may be listed in another order, and are the same once they are sorted.
    obtain ⟨others, hothers, hsorted⟩ := exists_names_of_same hsame hinner
    have hdir' : other.isDirectory (directory.child name) = true := by
      rw [isDirectory_congr hsame, hdir]
    have hbelow := ih₂ hgather
    rw [← hsorted] at hbelow
    rw [gatherEntries_of_directory hdir' hadd hothers hbelow]
    exact ih₁ h
  | case6 => exact fun h => by cases h
  | case7 directory above members name rest hfile gathered hgather ih =>
    intro h
    have hfile' : other.isDirectory (directory.child name) = false := by
      simpa [isDirectory_congr hsame] using hfile
    rw [gatherEntries_of_file hfile' (by rw [gatherFile_congr hsame, hgather])]
    exact ih h

/-- The same is collected of a source. -/
theorem gather_of_same {source : Source} {members out : List Member}
    (h : d.gather source members format = .ok out) :
    other.gather source members format = .ok out := by
  rw [gather] at h ⊢
  rw [isDirectory_congr hsame, gatherFile_congr hsame]
  split at h
  · next hdir =>
    rw [if_pos hdir]
    cases hadd : addDirectory members (directoryName source.name) format with
    | error fault => simp [hadd] at h
    | ok added =>
      simp only [hadd] at h ⊢
      split at h
      · next hrecursive =>
        rw [if_pos hrecursive]
        cases hnames : d.names source.path with
        | error refusal => simp [hnames] at h
        | ok names =>
          simp only [hnames] at h
          obtain ⟨others, hothers, hsorted⟩ := exists_names_of_same hsame hnames
          simp only [hothers, hsorted]
          exact gatherEntries_of_same hsame h
      · next hbare => rwa [if_neg hbare]
  · next hfile => rwa [if_neg hfile]

/-- What is collected does not depend on the order in which the host lists directories. -/
theorem gatherAll_of_same {sources : List Source} {out : List Member}
    (h : d.gatherAll sources format = .ok out) : other.gatherAll sources format = .ok out := by
  rw [gatherAll] at h ⊢
  generalize ([] : List Member) = members at h ⊢
  induction sources generalizing members with
  | nil => exact h
  | cons source rest ih =>
    rw [List.foldlM_cons] at h ⊢
    cases hgather : d.gather source members format with
    | error fault => simp [hgather, bind, Except.bind] at h
    | ok added =>
      simp only [hgather, bind, Except.bind] at h
      simp only [gather_of_same hsame hgather, bind, Except.bind]
      exact ih added h

/-- The same file is opened. -/
theorem openFile_of_same {p : Path} {location : Location} {opened : Disk}
    (h : d.openFile p = .ok (location, opened)) :
    ∃ again, other.openFile p = .ok (location, again) ∧
      ∀ place, again.get? place = opened.get? place := by
  unfold openFile at h ⊢
  rw [walk_congr hsame]
  cases hwalk : d.walk .makeFile p with
  | error refusal => simp [hwalk, bind, Except.bind] at h
  | ok spot =>
    cases spot with
    | vacant above name =>
      obtain ⟨hdir, hnone⟩ := (ends_of_walkLinks (walk_eq_ok hwalk).2).of_vacant
      simp only [hwalk, bind, Except.bind, Except.ok.injEq, Prod.mk.injEq] at h
      obtain ⟨rfl, rfl⟩ := h
      refine ⟨_, rfl, fun place => ?_⟩
      rw [get?_put (accepts_of_vacant hdir hnone _), ← hsame,
        get?_put (accepts_of_vacant ((hsame _).trans hdir) ((hsame _).trans hnone) _)]
    | found there =>
      simp only [hwalk, bind, Except.bind] at h
      simp only [bind, Except.bind, hsame]
      split at h
      · cases h
      · next hdir =>
        obtain ⟨rfl, rfl⟩ := Prod.mk.inj (Except.ok.inj h)
        exact ⟨other, if_neg hdir, hsame⟩

/-- What a file takes on some machine it takes on a reliable one. -/
theorem writeAt_of_same {location : Location} {bytes : Bytes} {mode : WriteMode} {host : Host}
    (h : (d.writeAt location bytes mode host).1 = .ok ()) :
    (other.writeAt location bytes mode).1 = .ok () := by
  unfold writeAt at h ⊢
  rw [hsame]
  split at h
  · rfl
  · exact h
  · rfl

/-- A file that is written on some machine is written on a reliable one. -/
theorem writeFile_of_same {p : Path} {bytes : Bytes} {host : Host}
    (h : (d.writeFile p bytes .truncate host).1 = .ok ()) :
    (other.writeFile p bytes .truncate).1 = .ok () := by
  unfold writeFile at h ⊢
  split at h
  · cases h
  · next location opened hopen =>
    obtain ⟨again, hagain, hboth⟩ := openFile_of_same hsame hopen
    simp only [hagain]
    exact writeAt_of_same hboth h

end Same

/-! ## The names -/

/-- **The names in an archive.** When an archive is stored, its names are those that the sources
contribute, one source after the other, and no name comes twice. They are told by what lies where:
a host that lists its directories in another order stores the same names, and so does every other
archive that is stored of these sources, wherever it lies and whether or not it existed. -/
theorem store_names {archive : Path} {sources : List Source} {host : Host} {names : List String}
    {written : Disk} (hformat : format.StoresOnce)
    (h : d.answer (.store archive sources) host format = (.ok names, written)) :
    (∃ parts, List.Forall₂ d.Part sources parts ∧ names = parts.flatten) ∧ names.Nodup ∧
      ∀ other : Disk, (∀ location, other.get? location = d.get? location) →
        (other.answer (.store archive sources) .reliable format).1 = .ok names ∧
          ∀ elsewhere machine others left,
            other.answer (.store elsewhere sources) machine format = (.ok others, left) →
              others = names := by
  obtain ⟨members, bytes, hgather, hencode, hwrite, rfl⟩ := store_eq_ok h
  obtain ⟨objects, ⟨parts, hparts, rfl⟩, hmembers, haccepts⟩ := gatherAll_stores hgather
  refine ⟨⟨parts.map (·.map StoredObject.name), ?_, ?_⟩, haccepts.nodup hformat,
    fun other hsame => ⟨?_, ?_⟩⟩
  · rw [List.forall₂_map_right_iff]
    exact hparts.imp fun _ _ => Stores.part
  · rw [hmembers, List.map_map, List.map_flatten]
    rfl
  · have hgathered := gatherAll_of_same hsame hgather
    have hagain := writeFile_of_same hsame (congrArg Prod.fst hwrite)
    simp only [answer, store, hgathered, hencode]
    split
    · next hrefused => simp [hrefused] at hagain
    · rfl
  · intro elsewhere machine others left helsewhere
    obtain ⟨members', _, hgather', -, -, rfl⟩ := store_eq_ok helsewhere
    rw [Except.ok.inj (hgather'.symm.trans (gatherAll_of_same hsame hgather))]

/-- The name of a directory. -/
def booksName : FileName := .ofString "books"

/-- The name of another directory. -/
def loansName : FileName := .ofString "loans"

/-- The name of a link. -/
def insideName : FileName := .ofString "inside"

/-- The name of a file that comes behind the link. -/
def lastName : FileName := .ofString "z"

/-- The name of a file in another directory. -/
def furtherName : FileName := .ofString "y"

/-- A disk with a directory that has a file and, made later, a link to another directory. -/
def shelves : Disk where
  entries :=
    [([booksName], .directory), ([lastName, booksName], .file [1]),
      ([loansName], .directory), ([furtherName, loansName], .file [2]),
      ([insideName, booksName], .link (.ofString "../loans"))]
  nodup := by decide
  inDirectory := by decide

/-- What is collected on the shelves. -/
theorem gatherAll_shelves :
    shelves.gatherAll
        [⟨.ofString "/books", "books//", true⟩, ⟨.ofString "/loans", "loans", false⟩] =
      .ok [⟨"books/", .directory, []⟩, ⟨"books/inside/", .directory, []⟩,
        ⟨"books/inside/y", .file, [2]⟩, ⟨"books/z", .file, [1]⟩, ⟨"loans/", .directory, []⟩] := by
  let top : Path := .ofString "/books"
  let inside := top.child insideName
  let first : List Member := [⟨"books/", .directory, []⟩]
  let second := first ++ [⟨"books/inside/", .directory, []⟩]
  let third := second ++ [⟨"books/inside/y", .file, [2]⟩]
  let fourth := third ++ [⟨"books/z", .file, [1]⟩]
  have hinside : shelves.gatherEntries inside (directoryName ("books/" ++ insideName.shown))
      (sortNames [furtherName]) second = .ok third := by
    have hfile : shelves.gatherFile (inside.child furtherName)
        (directoryName ("books/" ++ insideName.shown) ++ furtherName.shown) second = .ok third := by
      decide +kernel
    rw [sortNames, List.mergeSort_singleton, gatherEntries_of_file (by decide +kernel) hfile,
      gatherEntries_nil]
  have htop : shelves.gatherEntries top "books/" (sortNames [lastName, insideName]) first =
      .ok fourth := by
    -- The link was made later and its name comes first.
    have hsorted : sortNames [lastName, insideName] = [insideName, lastName] :=
      sortNames_eq_of_perm (List.Perm.swap _ _ _) (by decide)
    have hadd : addDirectory first (directoryName ("books/" ++ insideName.shown)) = .ok second := by
      decide +kernel
    have hnames : shelves.names inside = .ok [furtherName] := by decide +kernel
    have hfile : shelves.gatherFile (top.child lastName) ("books/" ++ lastName.shown) third =
        .ok fourth := by
      decide +kernel
    rw [hsorted, gatherEntries_of_directory (by decide +kernel) hadd hnames hinside,
      gatherEntries_of_file (by decide +kernel) hfile, gatherEntries_nil]
  have hnames : shelves.names top = .ok [lastName, insideName] := by decide +kernel
  have hfirst : shelves.gather ⟨top, "books//", true⟩ [] = .ok fourth := by
    have hadd : addDirectory [] (directoryName "books//") = .ok first := by decide +kernel
    have hname : directoryName "books//" = "books/" := by decide +kernel
    rw [gather, if_pos (by decide +kernel), hadd]
    simp only [if_true, hnames, hname, htop]
  have hlast : shelves.gather ⟨.ofString "/loans", "loans", false⟩ fourth =
      .ok (fourth ++ [⟨"loans/", .directory, []⟩]) := by
    decide +kernel
  simp only [gatherAll, List.foldlM_cons, List.foldlM_nil, bind, Except.bind]
  rw [hfirst]
  exact hlast

/-- The directory is stored through the link, in an archive that will lie in it. -/
theorem store_names_shelves :
    let archive : Path := .ofString "/books/new"
    let sources : List Source :=
      [⟨.ofString "/books", "books//", true⟩, ⟨.ofString "/loans", "loans", false⟩]
    let names := ["books/", "books/inside/", "books/inside/y", "books/z", "loans/"]
    let written := (shelves.answer (.store archive sources)).2
    Archive.zip.StoresOnce ∧ shelves.answer (.store archive sources) = (.ok names, written) ∧
      (∃ parts, List.Forall₂ shelves.Part sources parts ∧ names = parts.flatten) ∧ names.Nodup ∧
      ∀ other : Disk, (∀ location, other.get? location = shelves.get? location) →
        (other.answer (.store archive sources)).1 = .ok names ∧
          ∀ elsewhere machine others left,
            other.answer (.store elsewhere sources) machine = (.ok others, left) →
              others = names := by
  intro archive sources names written
  have hresult : (shelves.answer (.store archive sources)).1 = .ok names := by
    simp only [answer, store, sources, gatherAll_shelves]
    decide +kernel
  have hstore : shelves.answer (.store archive sources) = (.ok names, written) :=
    Prod.ext hresult rfl
  exact ⟨Archive.zip_storesOnce, hstore, store_names Archive.zip_storesOnce hstore⟩

/-- The name whose only character is U+10000, which takes up four bytes. -/
def wideName : FileName := ⟨[0xF0, 0x90, 0x80, 0x80], by decide⟩

/-- A disk with a directory in which one of two names is no text. -/
def strayBytes : Disk where
  entries :=
    [([booksName], .directory), ([FileName.strayByte, booksName], .file [1]),
      ([wideName, booksName], .file [2])]
  nodup := by decide
  inDirectory := by decide

/-- What is collected there. -/
theorem gatherAll_strayBytes :
    strayBytes.gatherAll [⟨.ofString "/books", "books", true⟩] =
      .ok [⟨"books/", .directory, []⟩, ⟨"books/" ++ wideName.shown, .file, [2]⟩,
        ⟨"books/" ++ FileName.strayByte.shown, .file, [1]⟩] := by
  let top : Path := .ofString "/books"
  let first : List Member := [⟨"books/", .directory, []⟩]
  let second := first ++ [⟨"books/" ++ wideName.shown, .file, [2]⟩]
  let third := second ++ [⟨"books/" ++ FileName.strayByte.shown, .file, [1]⟩]
  have hnames : strayBytes.names top = .ok [FileName.strayByte, wideName] := by decide +kernel
  -- No text has the byte 0xFF, so it comes behind every name that is one.
  have hsorted : sortNames [FileName.strayByte, wideName] = [wideName, FileName.strayByte] :=
    sortNames_eq_of_perm (List.Perm.swap _ _ _) (by decide)
  have hadd : addDirectory [] (directoryName "books") = .ok first := by decide +kernel
  have hname : directoryName "books" = "books/" := by decide +kernel
  have hwide : strayBytes.gatherFile (top.child wideName) ("books/" ++ wideName.shown) first =
      .ok second := by
    decide +kernel
  have hstray : strayBytes.gatherFile (top.child FileName.strayByte)
      ("books/" ++ FileName.strayByte.shown) second = .ok third := by
    decide +kernel
  have hall : strayBytes.gather ⟨top, "books", true⟩ [] = .ok third := by
    rw [gather, if_pos (by decide +kernel), hadd]
    simp only [if_true, hnames, hname, hsorted]
    rw [gatherEntries_of_file (by decide +kernel) hwide,
      gatherEntries_of_file (by decide +kernel) hstray, gatherEntries_nil]
  simp only [gatherAll, List.foldlM_cons, List.foldlM_nil, bind, Except.bind]
  rw [hall]
  rfl

/-- What `ls` prints of it. -/
theorem bytesOn_ls_strayBytes :
    let w : World Disk := ⟨Session.start .root .root, .unlimited, strayBytes⟩
    ((dispatch files ⟨"ls", ["books"], none⟩).perform w).2.streams.bytesOn .out =
      Utf8.ofString (FileName.strayByte.shown ++ "\n" ++ wideName.shown ++ "\n") := by
  intro w
  let top : Path := .ofString "/books"
  have hnames : strayBytes.names top = .ok [FileName.strayByte, wideName] := by decide +kernel
  -- It is shown as U+FFFD, which comes before U+10000.
  have hsorted : ([FileName.strayByte, wideName].map FileName.shown).mergeSort
      (fun a b => decide (a ≤ b)) = [FileName.strayByte.shown, wideName.shown] :=
    List.mergeSort_of_pairwise (by decide +kernel)
  have hrun : (Builtin.ls.run files ["books"]).perform w =
      (ShellM.printEach id [FileName.strayByte.shown, wideName.shown]).perform w := by
    have hresolve : w.session.resolve "books" = top := by decide +kernel
    rw [← hsorted]
    exact perform_runLs hnames rfl hresolve .reliable Archive.zip
  have hls : Builtin.ofName? "ls" = some .ls := Builtin.ofName?_name .ls
  rw [perform_dispatch_plain files ["books"] hls, invoke, hrun]
  decide +kernel

/-- Names that are no texts may be stored in another order than `ls` prints, and where sources
overlap a directory may come behind what is inside it. -/
theorem store_names_unordered :
    let w : World Disk := ⟨Session.start .root .root, .unlimited, strayBytes⟩
    let listed := ((dispatch files ⟨"ls", ["books"], none⟩).perform w).2
    let overlapping : List Source :=
      [⟨.ofString "/books/z", "books/z", false⟩, ⟨.ofString "/books", "books", false⟩]
    ((strayBytes.answer (.store (.ofString "/a") [⟨.ofString "/books", "books", true⟩])).1 =
        .ok ["books/", "books/" ++ wideName.shown, "books/" ++ FileName.strayByte.shown] ∧
      listed.streams.bytesOn .out =
        Utf8.ofString (FileName.strayByte.shown ++ "\n" ++ wideName.shown ++ "\n")) ∧
    (shelves.answer (.store (.ofString "/a") overlapping)).1 = .ok ["books/z", "books/"] := by
  intro w listed overlapping
  refine ⟨⟨?_, bytesOn_ls_strayBytes⟩, by decide +kernel⟩
  rw [answer, store, gatherAll_strayBytes]
  decide +kernel

end Disk

end CommandShell
