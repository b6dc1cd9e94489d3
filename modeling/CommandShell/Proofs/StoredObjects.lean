import CommandShell.Proofs.Restoration

/-!
# What an archive stores

Which objects an archive is made of, said of the disk alone: every source stands for the object at
its path, and a source that is stored with everything in it also for what its directory lists, level
by level, through symbolic links. What is collected is exactly this, and reading the archive gives
it back.

## Main definitions

* `StoredObject`: an object with the name that it is stored under.
* `Disk.Lists`: the objects that the entries of a directory stand for.
* `Disk.Stores`: the objects that a source stands for.
* `Disk.ReadAs`: a member of an archive has the name, the kind and the bytes of an object.

## Main results

* `Disk.exists_storesAll` and `Disk.StoresAll.unique`: any sources stand for one list of objects;
* `Disk.gatherAll_stores`: collecting gives one member for each of the objects, and the format
  accepts all of them;
* `Disk.StoresAll.exists_of_gatherAll`: something lies at the path of each object that is collected;
* `Disk.members_of_store`: a stored archive is read back, one member for each object.
-/

namespace CommandShell

/-- An object that is stored in an archive. -/
structure StoredObject where
  /-- The name that it is stored under. -/
  name : String
  /-- Where it lies. -/
  path : Path

/-! ## Names of directories and files -/

/-- The name of a directory ends in a slash. -/
theorem getLast?_directoryName (name : String) :
    (directoryName name).toList.getLast? = some '/' := by
  simp [directoryName]

/-- The name of an entry does not end in a slash, whatever stands before it. -/
theorem getLast?_append_name (above : String) (name : FileName) :
    (above ++ name.shown).toList.getLast? ≠ some '/' := by
  have hempty : name.shown.toList ≠ [] := by simpa using name.shown_ne_empty
  rw [String.toList_append, List.getLast?_append, List.getLast?_eq_some_getLast hempty,
    Option.some_or]
  exact fun he => name.slash_notMem_shown (Option.some.inj he ▸ List.getLast_mem hempty)

namespace Disk

variable {d : Disk} {format : Archive.Format}

/-! ## Objects -/

/-- The objects that the named entries of a directory stand for, in the order of the names: a
directory comes before what it lists. `above` is put before the names. -/
inductive Lists (d : Disk) : Path → String → List FileName → List StoredObject → Prop
  /-- No entry is left. -/
  | nil {directory : Path} {above : String} : Lists d directory above [] []
  /-- An entry that leads to no directory stands for itself. -/
  | file {directory : Path} {above : String} {name : FileName} {rest : List FileName}
      {others : List StoredObject} :
      d.isDirectory (directory.child name) = false → Lists d directory above rest others →
        Lists d directory above (name :: rest)
          (⟨above ++ name.shown, directory.child name⟩ :: others)
  /-- An entry that leads to a directory stands for it and for everything in it, sorted by name. -/
  | directory {directory : Path} {above : String} {name : FileName} {rest inner : List FileName}
      {below others : List StoredObject} :
      d.isDirectory (directory.child name) = true → d.names (directory.child name) = .ok inner →
        Lists d (directory.child name) (directoryName (above ++ name.shown)) (sortNames inner)
            below →
          Lists d directory above rest others →
            Lists d directory above (name :: rest)
              (⟨directoryName (above ++ name.shown), directory.child name⟩ :: (below ++ others))

/-- The objects that a source stands for. -/
inductive Stores (d : Disk) (source : Source) : List StoredObject → Prop
  /-- What is no directory is stored under the given name. -/
  | file : d.isDirectory source.path = false → Stores d source [⟨source.name, source.path⟩]
  /-- A directory may be stored without what is in it. -/
  | bare : d.isDirectory source.path = true → source.recursive = false →
      Stores d source [⟨directoryName source.name, source.path⟩]
  /-- A directory is stored with everything in it. -/
  | tree {names : List FileName} {below : List StoredObject} :
      d.isDirectory source.path = true → source.recursive = true →
        d.names source.path = .ok names →
          Lists d source.path (directoryName source.name) (sortNames names) below →
            Stores d source (⟨directoryName source.name, source.path⟩ :: below)

/-- The objects that some sources stand for, one source after the other. -/
def StoresAll (d : Disk) (sources : List Source) (objects : List StoredObject) : Prop :=
  ∃ parts, List.Forall₂ d.Stores sources parts ∧ objects = parts.flatten

/-- The name of an object tells whether it is a directory: it ends in a slash. -/
def Slashed (d : Disk) (object : StoredObject) : Prop :=
  object.name.toList.getLast? = some '/' ↔ d.isDirectory object.path = true

/-- A directory is named as one. -/
theorem slashed_directory {path : Path} (h : d.isDirectory path = true) (name : String) :
    d.Slashed ⟨directoryName name, path⟩ :=
  ⟨fun _ => h, fun _ => getLast?_directoryName name⟩

/-- What is no directory is not named as one. -/
theorem slashed_file {path : Path} {name : String} (h : d.isDirectory path = false)
    (hname : name.toList.getLast? ≠ some '/') : d.Slashed ⟨name, path⟩ :=
  ⟨fun hlast => absurd hlast hname, fun hdir => by simp [h] at hdir⟩

/-- The names of listed objects tell which of them are directories. -/
theorem Lists.slashed {directory : Path} {above : String} {names : List FileName}
    {objects : List StoredObject} (h : d.Lists directory above names objects) :
    ∀ object ∈ objects, d.Slashed object := by
  induction h with
  | nil => simp
  | file hfile _ ih =>
    exact List.forall_mem_cons.2 ⟨slashed_file hfile (getLast?_append_name _ _), ih⟩
  | directory hdir _ _ _ ihbelow ihothers =>
    refine List.forall_mem_cons.2 ⟨slashed_directory hdir _, fun object hobject => ?_⟩
    exact (List.mem_append.1 hobject).elim (ihbelow object) (ihothers object)

/-- The names of the objects of a source tell which of them are directories. -/
theorem Stores.slashed {source : Source} {objects : List StoredObject}
    (h : d.Stores source objects) (hname : '/' ∉ source.name.toList) :
    ∀ object ∈ objects, d.Slashed object := by
  cases h with
  | file hfile =>
    refine List.forall_mem_singleton.2 (slashed_file hfile fun hlast => hname ?_)
    exact List.mem_of_getLast? hlast
  | bare hdir => exact List.forall_mem_singleton.2 (slashed_directory hdir _)
  | tree hdir _ _ hlists => exact List.forall_mem_cons.2 ⟨slashed_directory hdir _, hlists.slashed⟩

/-- The names of the objects of some sources tell which of them are directories. -/
theorem StoresAll.slashed {sources : List Source} {objects : List StoredObject}
    (h : d.StoresAll sources objects) (hnames : ∀ source ∈ sources, '/' ∉ source.name.toList) :
    ∀ object ∈ objects, d.Slashed object := by
  obtain ⟨parts, hparts, rfl⟩ := h
  induction hparts with
  | nil => simp
  | cons hfirst _ ih =>
    rw [List.forall_mem_cons] at hnames
    intro object hobject
    rw [List.flatten_cons, List.mem_append] at hobject
    exact hobject.elim (hfirst.slashed hnames.1 object) (ih hnames.2 object)

/-! ## One list of objects -/

/-- The names in a directory are always found. -/
theorem exists_names {p : Path} (h : d.isDirectory p = true) : ∃ names, d.names p = .ok names := by
  obtain ⟨location, hwalk, hget⟩ := lookAt_eq_ok.1 (isDirectory_eq_true.1 h)
  have hfind := find_eq_ok.2 hwalk
  exact ⟨d.children location, by simp [names, hfind, hget, bind, Except.bind]⟩

/-- The entries of a directory stand for some objects. The descent ends because paths are bounded,
also where links lead upwards. -/
theorem exists_lists (d : Disk) (directory : Path) (above : String) (names : List FileName) :
    ∃ objects, d.Lists directory above names objects := by
  match names with
  | [] => exact ⟨[], .nil⟩
  | name :: rest =>
    obtain ⟨others, hothers⟩ := exists_lists d directory above rest
    by_cases hdir : d.isDirectory (directory.child name) = true
    · obtain ⟨inner, hinner⟩ := exists_names hdir
      obtain ⟨below, hbelow⟩ := exists_lists d (directory.child name)
        (directoryName (above ++ name.shown)) (sortNames inner)
      exact ⟨_, .directory hdir hinner hbelow hothers⟩
    · exact ⟨_, .file (by simpa using hdir) hothers⟩
termination_by (pathLimit - directory.size, names.length)
decreasing_by
  · apply Prod.Lex.right
    simp
  · have := size_lt_of_isDirectory hdir
    have := directory.size_lt_child name
    apply Prod.Lex.left
    omega

/-- Every source stands for some objects. -/
theorem exists_stores (d : Disk) (source : Source) : ∃ objects, d.Stores source objects := by
  by_cases hdir : d.isDirectory source.path = true
  · by_cases hrecursive : source.recursive = true
    · obtain ⟨names, hnames⟩ := exists_names hdir
      obtain ⟨below, hbelow⟩ :=
        d.exists_lists source.path (directoryName source.name) (sortNames names)
      exact ⟨_, .tree hdir hrecursive hnames hbelow⟩
    · exact ⟨_, .bare hdir (by simpa using hrecursive)⟩
  · exact ⟨_, .file (by simpa using hdir)⟩

/-- Any sources stand for some objects. -/
theorem exists_storesAll (d : Disk) (sources : List Source) :
    ∃ objects, d.StoresAll sources objects := by
  induction sources with
  | nil => exact ⟨_, [], .nil, rfl⟩
  | cons source rest ih =>
    obtain ⟨objects, hobjects⟩ := d.exists_stores source
    obtain ⟨_, parts, hparts, rfl⟩ := ih
    exact ⟨_, objects :: parts, .cons hobjects hparts, rfl⟩

/-- The entries of a directory stand for one list of objects only. -/
theorem Lists.unique {directory : Path} {above : String} {names : List FileName}
    {objects others : List StoredObject} (h : d.Lists directory above names objects)
    (hothers : d.Lists directory above names others) : objects = others := by
  induction h generalizing others with
  | nil =>
    cases hothers
    rfl
  | file hfile _ ih =>
    cases hothers with
    | file _ hrest => rw [ih hrest]
    | directory hdir => simp [hfile] at hdir
  | directory hdir hinner _ _ ihbelow ihothers =>
    cases hothers with
    | file hfile => simp [hdir] at hfile
    | directory _ hinner' hbelow hrest =>
      obtain rfl := Except.ok.inj (hinner.symm.trans hinner')
      rw [ihbelow hbelow, ihothers hrest]

/-- A source stands for one list of objects only. -/
theorem Stores.unique {source : Source} {objects others : List StoredObject}
    (h : d.Stores source objects) (hothers : d.Stores source others) : objects = others := by
  cases h with
  | file hfile =>
    cases hothers with
    | file => rfl
    | bare hdir => simp [hfile] at hdir
    | tree hdir => simp [hfile] at hdir
  | bare hdir hbare =>
    cases hothers with
    | file hfile => simp [hdir] at hfile
    | bare => rfl
    | tree _ hrecursive => simp [hbare] at hrecursive
  | tree hdir hrecursive hnames hlists =>
    cases hothers with
    | file hfile => simp [hdir] at hfile
    | bare _ hbare => simp [hbare] at hrecursive
    | tree _ _ hnames' hlists' =>
      obtain rfl := Except.ok.inj (hnames.symm.trans hnames')
      rw [hlists.unique hlists']

/-- Sources stand for one list of objects only. -/
theorem StoresAll.unique {sources : List Source} {objects others : List StoredObject}
    (h : d.StoresAll sources objects) (hothers : d.StoresAll sources others) :
    objects = others := by
  obtain ⟨parts, hparts, rfl⟩ := h
  obtain ⟨parts', hparts', rfl⟩ := hothers
  have hunique : Relator.RightUnique d.Stores := fun _ _ _ => Stores.unique
  rw [List.right_unique_forall₂' hunique hparts hparts']

/-! ## Collecting -/

/-- The bytes that are stored of what lies at a path. -/
def bytesAt (d : Disk) (path : Path) : Bytes :=
  match d.content path with
  | .ok bytes => bytes
  | .error _ => []

/-- The member that an object is stored as. -/
def memberOf (d : Disk) (object : StoredObject) : Member :=
  ⟨object.name, d.kindAt object.path, d.bytesAt object.path⟩

/-- A directory is stored without bytes. -/
theorem memberOf_directory {path : Path} (h : d.isDirectory path = true) (name : String) :
    d.memberOf ⟨name, path⟩ = ⟨name, .directory, []⟩ := by
  have hlook := isDirectory_eq_true.1 h
  simp [memberOf, kindAt, h, bytesAt, content, hlook, bytesOf, bind, Except.bind]

/-- A collected file is the member that it is stored as. -/
theorem memberOf_of_gatherFile {path : Path} {name : String} {members out : List Member}
    (hfile : d.isDirectory path = false) (h : d.gatherFile path name members format = .ok out) :
    out = members ++ [d.memberOf ⟨name, path⟩] := by
  obtain ⟨entry, content, hlook, hcontent, rfl, -, -⟩ := gatherFile_eq_ok h
  simp [memberOf, kindAt, hfile, bytesAt, Disk.content, hlook, hcontent, bind, Except.bind]

/-- Members are added for some objects, as far as they can be stored. -/
structure Adds (d : Disk) (format : Archive.Format) (objects : List StoredObject)
    (members out : List Member) : Prop where
  /-- There is a member for each object, in their order. -/
  eq_append : out = members ++ objects.map d.memberOf
  /-- All of them can be stored behind those from before. -/
  accepts : format.Accepts members → format.Accepts out

namespace Adds

variable {objects others : List StoredObject} {members added out : List Member}

/-- No objects add nothing. -/
theorem nil (members : List Member) : d.Adds format [] members members := ⟨by simp, id⟩

/-- A directory adds its member. -/
theorem directory {path : Path} {name : String} (hdir : d.isDirectory path = true)
    (h : addDirectory members (directoryName name) format = .ok out) :
    d.Adds format [⟨directoryName name, path⟩] members out :=
  ⟨by simp [(addDirectory_eq_ok h).1, memberOf_directory hdir], accepts_addDirectory h⟩

/-- A file adds its member. -/
theorem file {path : Path} {name : String} (hfile : d.isDirectory path = false)
    (h : d.gatherFile path name members format = .ok out) :
    d.Adds format [⟨name, path⟩] members out :=
  ⟨memberOf_of_gatherFile hfile h, accepts_gatherFile h⟩

/-- Objects after objects. -/
theorem append (h : d.Adds format objects members added) (hmore : d.Adds format others added out) :
    d.Adds format (objects ++ others) members out :=
  ⟨by rw [hmore.eq_append, h.eq_append, List.map_append, List.append_assoc],
    fun hmembers => hmore.accepts (h.accepts hmembers)⟩

end Adds

/-- Collecting the entries of a directory adds the objects that they stand for. -/
theorem gatherEntries_lists {directory : Path} {above : String} {names : List FileName}
    {members out : List Member}
    (h : d.gatherEntries directory above names members format = .ok out) :
    ∃ objects, d.Lists directory above names objects ∧ d.Adds format objects members out := by
  -- The induction follows the recursion: first everything in the first entry, then the others.
  revert h
  fun_induction gatherEntries d directory above names members format generalizing out with
  | case1 directory above members =>
    intro h
    cases h
    exact ⟨[], .nil, .nil _⟩
  | case2 => exact fun h => by cases h
  | case3 => exact fun h => by cases h
  | case4 => exact fun h => by cases h
  | case5 directory above members name rest hdir added hadd inner hinner gathered hgather ih₂ ih₁ =>
    intro h
    obtain ⟨below, hbelow, haddsBelow⟩ := ih₂ hgather
    obtain ⟨others, hothers, haddsOthers⟩ := ih₁ h
    exact ⟨_, .directory hdir hinner hbelow hothers,
      (Adds.directory hdir hadd).append (haddsBelow.append haddsOthers)⟩
  | case6 => exact fun h => by cases h
  | case7 directory above members name rest hfile gathered hgather ih =>
    intro h
    obtain ⟨others, hothers, haddsOthers⟩ := ih h
    have hfile : d.isDirectory (directory.child name) = false := by simpa using hfile
    exact ⟨_, .file hfile hothers, (Adds.file hfile hgather).append haddsOthers⟩

/-- Collecting a source adds the objects that it stands for. -/
theorem gather_stores {source : Source} {members out : List Member}
    (h : d.gather source members format = .ok out) :
    ∃ objects, d.Stores source objects ∧ d.Adds format objects members out := by
  unfold gather at h
  split at h
  · next hdir =>
    split at h
    · cases h
    · next added hadd =>
      split at h
      · next hrecursive =>
        split at h
        · cases h
        · next names hnames =>
          obtain ⟨below, hbelow, hadds⟩ := gatherEntries_lists h
          exact ⟨_, .tree hdir hrecursive hnames hbelow, (Adds.directory hdir hadd).append hadds⟩
      · next hrecursive =>
        cases h
        exact ⟨_, .bare hdir (by simpa using hrecursive), .directory hdir hadd⟩
  · next hfile =>
    have hfile : d.isDirectory source.path = false := by simpa using hfile
    exact ⟨_, .file hfile, .file hfile h⟩

/-- Collecting some sources gives one member for each object that they stand for, and all of them
can be stored. -/
theorem gatherAll_stores {sources : List Source} {out : List Member}
    (h : d.gatherAll sources format = .ok out) :
    ∃ objects, d.StoresAll sources objects ∧ out = objects.map d.memberOf ∧
      format.Accepts out := by
  have hall : ∀ members,
      sources.foldlM (fun members source => d.gather source members format) members = .ok out →
        ∃ parts, List.Forall₂ d.Stores sources parts ∧
          d.Adds format parts.flatten members out := by
    clear h
    induction sources with
    | nil =>
      intro members h
      cases h
      exact ⟨[], .nil, .nil _⟩
    | cons source sources ih =>
      intro members h
      rw [List.foldlM_cons] at h
      cases hgather : d.gather source members format with
      | error fault => simp [hgather, bind, Except.bind] at h
      | ok added =>
        obtain ⟨objects, hobjects, hadds⟩ := gather_stores hgather
        obtain ⟨parts, hparts, hmore⟩ := ih added (by simpa [hgather, bind, Except.bind] using h)
        exact ⟨objects :: parts, .cons hobjects hparts, hadds.append hmore⟩
  obtain ⟨parts, hparts, hadds⟩ := hall [] h
  exact ⟨_, ⟨parts, hparts, rfl⟩, by simpa using hadds.eq_append, hadds.accepts .nil⟩

/-- When the entries of a directory are collected, something lies at each path that is stored. -/
theorem Lists.exists_of_gather {directory : Path} {above : String} {names : List FileName}
    {objects : List StoredObject} (h : d.Lists directory above names objects)
    {members out : List Member}
    (hgather : d.gatherEntries directory above names members format = .ok out) :
    ∀ object ∈ objects, ∃ entry, d.lookAt object.path = .ok entry := by
  induction h generalizing members out with
  | nil => simp
  | file hfile _ ih =>
    rw [gatherEntries.eq_def] at hgather
    simp only [hfile, Bool.false_eq_true, dite_false] at hgather
    split at hgather
    · cases hgather
    · next hfound =>
      obtain ⟨entry, -, hlook, -⟩ := gatherFile_eq_ok hfound
      exact List.forall_mem_cons.2 ⟨⟨entry, hlook⟩, ih hgather⟩
  | directory hdir hinner _ _ ihbelow ihothers =>
    rw [gatherEntries.eq_def] at hgather
    simp only [hdir, dite_true] at hgather
    split at hgather
    · cases hgather
    · simp only [hinner] at hgather
      split at hgather
      · cases hgather
      · next hbelow =>
        refine List.forall_mem_cons.2 ⟨⟨_, isDirectory_eq_true.1 hdir⟩, fun object hobject => ?_⟩
        exact (List.mem_append.1 hobject).elim (ihbelow hbelow object) (ihothers hgather object)

/-- When a source is collected, something lies at each path that is stored. -/
theorem Stores.exists_of_gather {source : Source} {objects : List StoredObject}
    (h : d.Stores source objects) {members out : List Member}
    (hgather : d.gather source members format = .ok out) :
    ∀ object ∈ objects, ∃ entry, d.lookAt object.path = .ok entry := by
  unfold gather at hgather
  cases h with
  | file hfile =>
    rw [if_neg (by simp [hfile])] at hgather
    obtain ⟨entry, -, hlook, -⟩ := gatherFile_eq_ok hgather
    exact List.forall_mem_singleton.2 ⟨entry, hlook⟩
  | bare hdir => exact List.forall_mem_singleton.2 ⟨_, isDirectory_eq_true.1 hdir⟩
  | tree hdir hrecursive hnames hlists =>
    rw [if_pos hdir] at hgather
    split at hgather
    · cases hgather
    · simp only [hrecursive, hnames, if_true] at hgather
      exact List.forall_mem_cons.2
        ⟨⟨_, isDirectory_eq_true.1 hdir⟩, hlists.exists_of_gather hgather⟩

/-- When sources are collected, something lies at each path that is stored. -/
theorem StoresAll.exists_of_gatherAll {sources : List Source} {objects : List StoredObject}
    (h : d.StoresAll sources objects) {out : List Member}
    (hgather : d.gatherAll sources format = .ok out) :
    ∀ object ∈ objects, ∃ entry, d.lookAt object.path = .ok entry := by
  obtain ⟨parts, hparts, rfl⟩ := h
  unfold gatherAll at hgather
  generalize ([] : List Member) = members at hgather
  induction hparts generalizing members with
  | nil => simp
  | @cons source objects rest parts hfirst _ ih =>
    rw [List.foldlM_cons] at hgather
    cases hsource : d.gather source members format with
    | error fault => simp [hsource, bind, Except.bind] at hgather
    | ok added =>
      simp only [hsource, bind, Except.bind] at hgather
      intro object hobject
      exact (List.mem_append.1 hobject).elim (hfirst.exists_of_gather hsource object)
        (ih added hgather object)

/-! ## Reading back -/

/-- A member has the name of an object and, unless that ends in a backslash, its kind; the member of
a file has the file's bytes. -/
structure ReadAs (d : Disk) (object : StoredObject) (m : Member) : Prop where
  /-- The name is the stored one. -/
  name_eq : m.name = object.name
  /-- The member is a directory when the object is one. -/
  directory_iff : object.name.toList.getLast? ≠ some '\\' →
    (m.kind = .directory ↔ d.isDirectory object.path = true)
  /-- The bytes are those of the file. -/
  data_eq : object.name.toList.getLast? ≠ some '\\' →
    ∀ bytes, d.lookAt object.path = .ok (.file bytes) → m.data = bytes

/-- The member that an object is stored as is read back as that object. -/
theorem readAs_memberOf {object : StoredObject} (h : d.Slashed object) :
    d.ReadAs object (d.memberOf object).asRead := by
  refine ⟨Member.name_asRead _, fun hbackslash => ?_, fun hbackslash bytes hlook => ?_⟩
  · have hnames : namesDirectory object.name = true ↔ d.isDirectory object.path = true := by
      simpa [namesDirectory, hbackslash, Slashed] using h
    by_cases hdir : d.isDirectory object.path = true <;>
      simp [Member.asRead, memberOf, hnames, hdir]
  · have hfile : d.isDirectory object.path = false := by simp [isDirectory, hlook]
    have hlast : object.name.toList.getLast? ≠ some '/' := fun he => by simpa [hfile] using h.1 he
    simp [Member.asRead, memberOf, namesDirectory, hbackslash, hlast, bytesAt, content, hlook,
      bytesOf, bind, Except.bind]

/-- Storing collects, encodes and writes. -/
theorem store_eq_ok {archive : Path} {sources : List Source} {host : Host} {names : List String}
    {written : Disk} (h : d.store archive sources host format = (.ok names, written)) :
    ∃ members bytes, d.gatherAll sources format = .ok members ∧
      format.encode members = .ok bytes ∧
      d.writeFile archive bytes .truncate host = (.ok (), written) ∧
      names = members.map Member.name := by
  unfold store at h
  split at h
  · cases h
  · next members hgather =>
    split at h
    · cases h
    · next bytes hencode =>
      split at h
      · cases h
      · next hwrite =>
        cases h
        exact ⟨members, bytes, hgather, hencode, hwrite, rfl⟩

/-- An archive that was stored in a faithful format is read back, on whatever machine: it has one
member for each object that the sources stand for, in their order, with the name that was reported.
A device keeps no archive, and the names of the sources have no separator. -/
theorem members_of_store {archive : Path} {sources : List Source} {host : Host}
    {names : List String} {written : Disk} (hformat : format.Faithful)
    (hdevice : ∀ kind, d.lookAt archive ≠ .ok (.device kind))
    (hnames : ∀ source ∈ sources, '/' ∉ source.name.toList)
    (hstore : d.answer (.store archive sources) host format = (.ok names, written)) :
    ∃ objects members, d.StoresAll sources objects ∧ names = objects.map StoredObject.name ∧
      written.answer (.members archive) host format = (.ok members, written) ∧
      List.Forall₂ d.ReadAs objects members := by
  obtain ⟨stored, bytes, hgather, hencode, hwrite, rfl⟩ := store_eq_ok hstore
  obtain ⟨objects, hobjects, rfl, haccepts⟩ := gatherAll_stores hgather
  refine ⟨objects, (objects.map d.memberOf).map Member.asRead, hobjects, by simp [memberOf], ?_, ?_⟩
  · exact unpackArchive_of_lookAt (lookAt_writeFile hdevice hwrite)
      (hformat.read_encode haccepts hencode)
  · rw [List.map_map, List.forall₂_map_right_iff, List.forall₂_same]
    exact fun object hobject => readAs_memberOf (hobjects.slashed hnames object hobject)

/-- A file and an empty directory are read back from an archive beside them. -/
theorem members_of_store_oneFile :
    let archive : Path := .ofString "/tmp/a"
    let sources : List Source :=
      [⟨.ofString "/tmp/x", "x", true⟩, ⟨.ofString "/tmp", "tmp", false⟩]
    let written := (oneFile.answer (.store archive sources)).2
    Archive.zip.Faithful ∧ (∀ kind, oneFile.lookAt archive ≠ .ok (.device kind)) ∧
      (∀ source ∈ sources, '/' ∉ source.name.toList) ∧
      oneFile.answer (.store archive sources) = (.ok ["x", "tmp/"], written) ∧
      ∃ objects members, oneFile.StoresAll sources objects ∧
        ["x", "tmp/"] = objects.map StoredObject.name ∧
        written.answer (.members archive) = (.ok members, written) ∧
        List.Forall₂ oneFile.ReadAs objects members := by
  intro archive sources written
  have hdevice : ∀ kind, oneFile.lookAt archive ≠ .ok (.device kind) := by
    have hnone : oneFile.lookAt archive = .error .notFound := by decide +kernel
    simp [hnone]
  have hnames : ∀ source ∈ sources, '/' ∉ source.name.toList := by decide
  have hresult : (oneFile.answer (.store archive sources)).1 = .ok ["x", "tmp/"] := by
    decide +kernel
  have hstore : oneFile.answer (.store archive sources) = (.ok ["x", "tmp/"], written) :=
    Prod.ext hresult rfl
  exact ⟨Archive.zip_faithful, hdevice, hnames, hstore,
    members_of_store Archive.zip_faithful hdevice hnames hstore⟩

/-- A disk with a file whose name ends in a backslash. -/
def backslashFile : Disk where
  entries := [([.ofString "x\\"], .file (Utf8.ofString "hi"))]
  nodup := by decide
  inDirectory := by decide

/-- Nothing is read back from a device that an archive was written to, and a file whose name ends in
a backslash comes back as a directory. -/
theorem not_read_back :
    let null : Path := .ofString "/dev/null"
    let stored := oneFile.answer (.store null [⟨.ofString "/tmp/x", "x", false⟩])
    let backslash : Path := .ofString "/x\\"
    let written := backslashFile.answer (.store (.ofString "/a") [⟨backslash, "x\\", false⟩])
    (stored.1 = .ok ["x"] ∧ ∀ members, (stored.2.answer (.members null)).1 ≠ .ok members) ∧
      (written.1 = .ok ["x\\"] ∧
        backslashFile.lookAt backslash = .ok (.file (Utf8.ofString "hi")) ∧
        (written.2.answer (.members (.ofString "/a"))).1 = .ok [⟨"x\\", .directory, []⟩]) := by
  intro null stored backslash written
  have hgone : (stored.2.answer (.members null)).1 = .error (.failed (.archive .noEndRecord)) := by
    decide +kernel
  refine ⟨⟨by decide +kernel, fun members => by simp [hgone]⟩, by decide +kernel, by decide +kernel,
    by decide +kernel⟩

end Disk

end CommandShell
