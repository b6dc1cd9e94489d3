import CommandShell.Proofs.PlainDisks

/-!
# Walks by the text alone

Without symbolic links a walk ends where folding the text of its path leads, so that what a path
means can be told from its normal form.

## Main definitions

* `Path.folded`: the names that are left of a path when `.` and `..` are folded away.
* `Path.lastSegments`: the segments of an absolute path down to its last component.
* `Path.Names`: a path, read from the root, has the normal form of a location's path.

## Main results

* `Path.normalize_root_join`: the names that are left are those of the normal form;
* `Path.folded_join`: what is read from a directory is folded on top of the directory;
* `Path.parent_of_isAbsolute`: the way up takes back the last name or leads to where `..` came from;
* `Disk.Plain.names_of_walk`: a walk ends at the location that its path names.
-/

namespace CommandShell

/-! ## Folding a path -/

namespace Path

/-- The names that are left of a path when `.` and `..` are folded away, the last one first. -/
def folded (p : Path) : List Bytes :=
  (p.bytes.splitOn separator).foldl foldSegment []

/-- The names that are left of a path are names. -/
theorem isName_of_mem_folded (p : Path) : ∀ name ∈ p.folded, IsName name :=
  isName_foldSegment (fun _ hs => slash_notMem_of_mem_splitOn hs) (by simp)

/-- A relative path is folded on top of the directory that it is read from. -/
theorem folded_join (directory : Path) {p : Path} (h : p.isAbsolute = false) :
    (directory.join p).folded = (p.bytes.splitOn separator).foldl foldSegment directory.folded := by
  rw [join, if_neg (by simp [h])]
  split
  · next hend =>
    rcases hend with hempty | hslash
    · simp [folded, hempty, foldSegment]
    · -- The separator that the directory ends in stands between the two.
      obtain ⟨front, hfront⟩ := List.getLast?_eq_some_iff.1 hslash
      simp only [folded, hfront, List.append_assoc, List.singleton_append,
        List.splitOn_append_cons_self, List.splitOn_nil, List.foldl_append]
      rfl
  · simp only [folded, List.splitOn_append_cons_self, List.foldl_append]

/-- A name is put on top of the directory that it is read from. -/
theorem folded_join_name (directory : Path) {name : Bytes} (h : IsName name) :
    (directory.join ⟨name⟩).folded = name :: directory.folded := by
  have hsplit : name.splitOn separator = [name] :=
    List.splitOn_eq_singleton h.2.2.2
  have ⟨hempty, hcurrent, hparent, _⟩ := h
  rw [folded_join directory h.isAbsolute, hsplit]
  simp [foldSegment, hempty, hcurrent, hparent]

/-- The names that are left of a path are those of its normal form, when it is read from the
root. -/
theorem normalize_root_join (p : Path) : (root.join p).normalize = ofNames p.folded := by
  rw [normalize_of_isAbsolute (isAbsolute_join (by decide) p)]
  show ofNames (root.join p).folded = _
  cases habsolute : p.isAbsolute with
  | true => rw [join, if_pos habsolute]
  | false =>
    rw [folded_join root habsolute]
    rfl

/-- A path, read from the root, has the normal form of a location's path. -/
def Names (p : Path) (location : Location) : Prop :=
  (root.join p).normalize = location.path

/-- A path names the location whose names are left of it. -/
theorem names_of_folded {p : Path} {location : Location}
    (h : p.folded = location.map FileName.bytes) : p.Names location := by
  rw [Names, normalize_root_join, h, ofNames_location]

/-- A path names the location that has the names that are left of it. -/
theorem names_iff {p : Path} {location : Location} :
    p.Names location ↔ p.folded = location.map FileName.bytes := by
  refine ⟨fun h => ?_, names_of_folded⟩
  rw [Names, normalize_root_join, ← ofNames_location] at h
  have hlocation : ∀ bytes ∈ location.map FileName.bytes, IsName bytes :=
    fun _ => isName_of_mem_location
  have hcomponents := congrArg components h
  rw [components_ofNames p.isName_of_mem_folded, components_ofNames hlocation] at hcomponents
  have hreversed := (List.map_inj_right fun _ _ he => Component.normal.inj he).1
    (List.cons.inj hcomponents).2
  exact List.reverse_inj.1 hreversed

/-- A location lies in what a path names when the names that are left of the path are its outer
ones. -/
theorem isWithin_iff {p : Path} {location : Location} :
    location.path.isWithin (root.join p) = true ↔ p.folded <:+ location.map FileName.bytes := by
  have hlocation : ∀ bytes ∈ location.map FileName.bytes, IsName bytes :=
    fun _ => isName_of_mem_location
  rw [isWithin, normalize_root_join, ← ofNames_location, normalize_ofNames hlocation,
    startsWith_ofNames hlocation p.isName_of_mem_folded]

/-! ## Segments -/

/-- An absolute path folds to the path of the names that are left of it. -/
theorem normalize_eq_ofNames {p : Path} (h : p.isAbsolute = true) :
    p.normalize = ofNames p.folded :=
  normalize_of_isAbsolute h

/-- An absolute path lies in a location when the names of the location are its outer names. -/
theorem isWithin_path_iff {p : Path} (h : p.isAbsolute = true) {location : Location} :
    p.isWithin location.path = true ↔ location.map FileName.bytes <:+ p.folded := by
  have hlocation : ∀ bytes ∈ location.map FileName.bytes, IsName bytes :=
    fun _ => isName_of_mem_location
  rw [isWithin, normalize_eq_ofNames h, ← ofNames_location, normalize_ofNames hlocation,
    startsWith_ofNames p.isName_of_mem_folded hlocation]

/-- The segments without those at the end that are no component are the first ones. -/
theorem dropVoidSegments_suffix (relative : Bool) (segments : List Bytes) :
    dropVoidSegments relative segments <:+ segments := by
  induction segments with
  | nil => exact List.suffix_refl _
  | cons segment outer ih =>
    rw [dropVoidSegments]
    split
    · exact ih.trans (List.suffix_cons _ _)
    · exact List.suffix_refl _

/-- The last segment that is left is a component. -/
theorem ne_of_dropVoidSegments {segments outer : List Bytes} {segment : Bytes}
    (h : dropVoidSegments false segments = segment :: outer) : segment ≠ [] ∧ segment ≠ [dot] := by
  induction segments with
  | nil => cases h
  | cons first rest ih =>
    rw [dropVoidSegments] at h
    split at h
    · exact ih h
    · next hkept =>
      obtain ⟨rfl, rfl⟩ := List.cons_eq_cons.1 h
      simpa using hkept

/-- Segments that are no component fold to nothing. -/
theorem foldl_dropVoidSegments (segments : List Bytes) (names : List Bytes) :
    (dropVoidSegments false segments).reverse.foldl foldSegment names =
      segments.reverse.foldl foldSegment names := by
  induction segments with
  | nil => rfl
  | cons segment outer ih =>
    rw [dropVoidSegments]
    split
    · next hvoid =>
      have hfold : ∀ before, foldSegment before segment = before :=
        fun before => if_pos (by simpa using hvoid)
      rw [ih, List.reverse_cons, List.foldl_append, List.foldl_cons, List.foldl_nil, hfold]
    · rfl

/-- Segments that are no component give none. -/
theorem filterMap_dropVoidSegments (segments : List Bytes) :
    (dropVoidSegments false segments).reverse.filterMap Component.ofSegment? =
      segments.reverse.filterMap Component.ofSegment? := by
  induction segments with
  | nil => rfl
  | cons segment outer ih =>
    rw [dropVoidSegments]
    split
    · next hvoid =>
      have hnone : Component.ofSegment? segment = none := if_pos (by simpa using hvoid)
      rw [ih, List.reverse_cons, List.filterMap_append, List.filterMap_cons_none hnone,
        List.filterMap_nil, List.append_nil]
    · rfl

/-- The segments of an absolute path without those at the end that are no component, the last one
first. -/
def lastSegments (p : Path) : List Bytes :=
  dropVoidSegments false (p.bytes.tail.splitOn separator).reverse

/-- The segments that are left are segments. -/
theorem lastSegments_suffix (p : Path) :
    p.lastSegments <:+ (p.bytes.tail.splitOn separator).reverse :=
  dropVoidSegments_suffix _ _

/-- No separator is in a segment. -/
theorem slash_notMem_of_mem_lastSegments {p : Path} {segment : Bytes}
    (h : segment ∈ p.lastSegments) : separator ∉ segment :=
  slash_notMem_of_mem_splitOn (List.mem_reverse.1 (p.lastSegments_suffix.subset h))

section Absolute

variable {p : Path} (h : p.isAbsolute = true)
include h

/-- An absolute path starts with a separator. -/
theorem bytes_of_isAbsolute : p.bytes = separator :: p.bytes.tail := by
  cases hp : p.bytes with
  | nil => simp [isAbsolute, hp] at h
  | cons first rest =>
    obtain rfl : first = separator := by simpa [isAbsolute, hp] using h
    rfl

/-- Nothing stands before the first separator. -/
theorem splitOn_of_isAbsolute :
    p.bytes.splitOn separator = [] :: p.bytes.tail.splitOn separator := by
  rw [bytes_of_isAbsolute h, ← List.nil_append (separator :: _), List.splitOn_append_cons_self,
    List.splitOn_nil]
  rfl

/-- What counts of a path are the segments that are left. -/
theorem components_of_isAbsolute :
    p.components = .root :: p.lastSegments.reverse.filterMap Component.ofSegment? := by
  rw [lastSegments, filterMap_dropVoidSegments, List.reverse_reverse, components,
    bytes_of_isAbsolute h, componentsOfBytes_separator, List.tail_cons]

/-- The segments that are left fold as the path. -/
theorem folded_of_isAbsolute : p.folded = p.lastSegments.reverse.foldl foldSegment [] := by
  rw [lastSegments, foldl_dropVoidSegments, List.reverse_reverse, folded,
    splitOn_of_isAbsolute h]
  rfl

end Absolute

/-- The path that some segments spell. -/
def ofSegments (segments : List Bytes) : Path :=
  ⟨separator :: joinSegments segments⟩

/-- A path that was spelled starts at the root. -/
theorem isAbsolute_ofSegments (segments : List Bytes) :
    (ofSegments segments).isAbsolute = true := by
  rfl

/-- Dropping twice drops no more. -/
theorem dropVoidSegments_idem (relative : Bool) (segments : List Bytes) :
    dropVoidSegments relative (dropVoidSegments relative segments) =
      dropVoidSegments relative segments := by
  induction segments with
  | nil => rfl
  | cons segment outer ih =>
    by_cases hvoid : segment = [] ∨ (segment = [dot] ∧ ¬(relative = true ∧ outer = []))
    · rw [dropVoidSegments, if_pos hvoid, ih]
    · rw [dropVoidSegments, if_neg hvoid, dropVoidSegments, if_neg hvoid]

/-- The segments that a path was spelled with are left of it, but for voids. -/
theorem lastSegments_ofSegments {segments : List Bytes}
    (h : ∀ segment ∈ segments, separator ∉ segment) :
    (ofSegments segments).lastSegments = dropVoidSegments false segments := by
  rw [lastSegments, ofSegments, List.tail_cons, joinSegments]
  by_cases hnil : segments = []
  · subst hnil
    rfl
  · rw [List.splitOn_intercalate separator (by simpa using h) (by simpa using hnil),
      List.reverse_reverse]

/-- Fewer segments spell the beginning of a path. -/
theorem intercalate_prefix (between : Bytes) {segments more : List Bytes}
    (h : segments <+: more) : between.intercalate segments <+: between.intercalate more := by
  obtain ⟨rest, rfl⟩ := h
  induction segments with
  | nil => simp
  | cons segment others ih =>
    cases others with
    | nil =>
      cases rest with
      | nil => simp
      | cons next rest =>
        rw [List.singleton_append, List.intercalate_cons_cons, List.intercalate_singleton,
          List.append_assoc]
        exact List.prefix_append _ _
    | cons next others =>
      rw [List.cons_append, List.cons_append, List.intercalate_cons_cons,
        List.intercalate_cons_cons]
      exact (List.prefix_append_right_inj _).2 ih

/-! ## The way up -/

section Parent

variable {p : Path} (h : p.isAbsolute = true)
include h

/-- A path of which no segment is left has nothing above it. -/
theorem parent_of_lastSegments_nil (hsegments : p.lastSegments = []) :
    p.parent = none ∧ p.fileName = none := by
  have hcomponents := components_of_isAbsolute h
  rw [hsegments] at hcomponents
  exact ⟨by simp [parent, hcomponents], by simp [fileName, hcomponents]⟩

variable {segment : Bytes} {outer : List Bytes}
  (hsegments : p.lastSegments = segment :: outer)
include hsegments

/-- The last component is the one that the last segment stands for. -/
theorem getLast?_components : p.components.getLast? =
    some (if segment = [dot, dot] then .parent else .normal segment) := by
  obtain ⟨hempty, hcurrent⟩ := ne_of_dropVoidSegments hsegments
  rw [components_of_isAbsolute h, hsegments, List.reverse_cons, List.filterMap_append]
  by_cases hup : segment = [dot, dot]
  · simp [hup, Component.ofSegment?, List.getLast?_cons]
  · simp [hup, hempty, hcurrent, Component.ofSegment?, List.getLast?_cons]

/-- Above a path are the segments but the last one. -/
theorem parent_of_lastSegments_cons :
    p.parent = some (ofSegments (dropVoidSegments false outer)) := by
  have hbytes : parentBytes p.bytes =
      separator :: joinSegments (dropVoidSegments false outer) := by
    rw [bytes_of_isAbsolute h, parentBytes_separator, dropLastSegment]
    rw [lastSegments] at hsegments
    rw [hsegments, List.tail_cons]
  rw [parent, getLast?_components h hsegments, hbytes]
  by_cases hup : segment = [dot, dot] <;> simp [hup, ofSegments]

/-- The last segment is the last name, unless it is `..`. -/
theorem fileName_of_lastSegments_cons :
    p.fileName = if segment = [dot, dot] then none else some segment := by
  rw [fileName, getLast?_components h hsegments]
  by_cases hup : segment = [dot, dot] <;> simp [hup]

omit h in
/-- The segments that are left above a path. -/
theorem lastSegments_above :
    (ofSegments (dropVoidSegments false outer)).lastSegments = dropVoidSegments false outer := by
  rw [lastSegments_ofSegments, dropVoidSegments_idem]
  intro other hother
  have hmem := (dropVoidSegments_suffix _ _).subset hother
  exact slash_notMem_of_mem_lastSegments (hsegments ▸ List.mem_cons_of_mem _ hmem)

omit h in
/-- What is above a path folds as the segments but the last one. -/
theorem folded_above :
    (ofSegments (dropVoidSegments false outer)).folded = outer.reverse.foldl foldSegment [] := by
  rw [folded_of_isAbsolute (isAbsolute_ofSegments _), lastSegments_above hsegments,
    foldl_dropVoidSegments]

/-- What is above a path is spelled as the path begins. -/
theorem above_prefix :
    (ofSegments (dropVoidSegments false outer)).bytes <+: p.bytes := by
  have hsuffix : dropVoidSegments false outer <:+ (p.bytes.tail.splitOn separator).reverse :=
    (dropVoidSegments_suffix _ _).trans
      ((List.suffix_cons _ _).trans (hsegments ▸ p.lastSegments_suffix))
  have hprefix := intercalate_prefix [separator] (List.reverse_prefix.2 hsuffix)
  rw [List.reverse_reverse, List.intercalate_splitOn] at hprefix
  rw [ofSegments, bytes_of_isAbsolute h, joinSegments]
  exact List.cons_prefix_cons.2 ⟨rfl, hprefix⟩

end Parent

/-- The way up from an absolute path. The root has none. Otherwise the path ends in a name, which
stands behind what is above it, or in `..`, which takes back a name of what is above it. -/
theorem parent_of_isAbsolute {p : Path} (h : p.isAbsolute = true) :
    (p.parent = none ∧ p.fileName = none ∧ p.folded = []) ∨
      ∃ above, p.parent = some above ∧
        ((∃ name, p.fileName = some name ∧ IsName name ∧ p.folded = name :: above.folded) ∨
          (p.fileName = none ∧ p.folded = above.folded.tail)) := by
  have hfolded := folded_of_isAbsolute h
  cases hsegments : p.lastSegments with
  | nil =>
    obtain ⟨hparent, hname⟩ := parent_of_lastSegments_nil h hsegments
    rw [hsegments] at hfolded
    exact .inl ⟨hparent, hname, hfolded⟩
  | cons segment outer =>
    obtain ⟨hempty, hcurrent⟩ := ne_of_dropVoidSegments hsegments
    have hname := fileName_of_lastSegments_cons h hsegments
    have habove := folded_above hsegments
    rw [hsegments, List.reverse_cons, List.foldl_append, List.foldl_cons, List.foldl_nil,
      ← habove] at hfolded
    refine .inr ⟨_, parent_of_lastSegments_cons h hsegments, ?_⟩
    by_cases hup : segment = [dot, dot]
    · exact .inr ⟨by rw [hname, if_pos hup], by simpa [foldSegment, hup] using hfolded⟩
    · exact .inl ⟨_, by rw [hname, if_neg hup],
        ⟨hempty, hcurrent, hup, slash_notMem_of_mem_lastSegments (hsegments ▸ List.mem_cons_self)⟩,
        by simpa [foldSegment, hempty, hcurrent, hup] using hfolded⟩

end Path

/-! ## Folding steps -/

namespace Step

/-- One step on top of the names before it. -/
def fold (names : List Bytes) : Step → List Bytes
  | .name bytes => bytes :: names
  | .up => names.tail
  | .stay | .slash => names

/-- A separator at the end makes no difference. -/
theorem foldl_fold_dropSlash (steps : List Step) (names : List Bytes) :
    (dropSlash steps).foldl fold names = steps.foldl fold names := by
  rw [dropSlash]
  split
  · next h =>
    obtain ⟨front, rfl⟩ := List.getLast?_eq_some_iff.1 h
    simp [fold]
  · rfl

/-- No segment asks for the step of a separator. -/
theorem ne_slash_of_ofSegment? {segment : Bytes} {step : Step}
    (h : ofSegment? segment = some step) : step ≠ .slash := by
  rintro rfl
  unfold ofSegment? at h
  split at h
  · cases h
  · split at h
    · cases h
    · split at h <;> cases h

/-- Without a separator at their end, the steps of a path are those of its segments. -/
theorem dropSlash_steps (p : Path) :
    dropSlash p.steps = (p.bytes.splitOn separator).filterMap ofSegment? := by
  rw [Path.steps]
  split
  · rw [dropSlash, if_pos (by simp), List.dropLast_concat]
  · rw [dropSlash, if_neg fun hlast => ?_]
    obtain ⟨segment, -, hsegment⟩ := List.mem_filterMap.1 (List.mem_of_getLast? hlast)
    exact ne_slash_of_ofSegment? hsegment rfl

/-- The steps of a name that is read from a directory are those of the directory and the name. -/
theorem steps_join_name (directory : Path) {name : Bytes} (h : Path.IsName name) :
    (directory.join ⟨name⟩).steps = dropSlash directory.steps ++ [.name name] := by
  have ⟨hempty, hcurrent, hparent, hslash⟩ := h
  have hsegment : (name.splitOn separator).filterMap ofSegment? = [.name name] := by
    rw [List.splitOn_eq_singleton hslash]
    simp [ofSegment?, hempty, hcurrent, hparent]
  -- A name has no separator at its end, whatever stands before it.
  have hlast : ∀ front : Bytes, (front ++ name).getLast? ≠ some separator := fun front he => by
    rw [List.getLast?_append, List.getLast?_eq_some_getLast hempty, Option.some_or] at he
    exact hslash (Option.some.inj he ▸ List.getLast_mem hempty)
  rw [dropSlash_steps, Path.join, if_neg (by simp [h.isAbsolute])]
  split
  · next hend =>
    rw [Path.steps, if_neg fun hstep => hlast _ hstep.2]
    rcases hend with hnothing | hseparator
    · simp [hnothing, hsegment, ofSegment?]
    · -- The separator that the directory ends in stands between the two.
      obtain ⟨front, hfront⟩ := List.getLast?_eq_some_iff.1 hseparator
      rw [hfront, List.append_assoc, List.singleton_append, List.splitOn_append_cons_self,
        List.splitOn_append_cons_self, List.filterMap_append, List.filterMap_append, hsegment,
        List.splitOn_nil]
      simp [ofSegment?]
  · rw [Path.steps, if_neg fun hstep =>
        hlast (directory.bytes ++ [separator]) (by simpa using hstep.2),
      List.splitOn_append_cons_self, List.filterMap_append, hsegment]

/-- The steps of segments fold as the segments do. -/
theorem foldl_fold_filterMap (segments : List Bytes) (names : List Bytes) :
    (segments.filterMap ofSegment?).foldl fold names =
      segments.foldl Path.foldSegment names := by
  induction segments generalizing names with
  | nil => rfl
  | cons segment rest ih =>
    rw [List.foldl_cons, ← ih, List.filterMap_cons, Path.foldSegment, ofSegment?]
    by_cases hempty : segment = []
    · simp [hempty]
    · by_cases hcurrent : segment = [dot]
      · simp [hcurrent, fold]
      · by_cases hparent : segment = [dot, dot]
        · simp [hparent, fold]
        · simp [hempty, hcurrent, hparent, fold]

/-- The steps of a path fold to the names that are left of it. -/
theorem foldl_fold_steps (p : Path) : p.steps.foldl fold [] = p.folded := by
  rw [Path.folded, ← foldl_fold_filterMap, Path.steps]
  split
  · rw [List.foldl_append]
    rfl
  · rfl

end Step

/-! ## Walks on plain disks -/

namespace Disk

variable {d : Disk}

/-- Without links a walk ends at the names that its steps leave. -/
theorem Ends.map_bytes {purpose : Purpose} {links : Nat} {here : Location} {steps : List Step}
    {spot : Spot} (h : Ends d purpose links here steps spot) (hplain : d.Plain) :
    spot.location.map FileName.bytes = steps.foldl Step.fold (here.map FileName.bytes) := by
  induction h with
  | done => rfl
  | @pass _ here _ step _ _ _ hpast _ ih =>
    rw [List.foldl_cons, ih]
    cases step with
    | name => cases hpast
    | stay | slash =>
      cases hpast
      rfl
    | up =>
      cases hpast
      rw [Step.fold, List.map_tail]
  | vacant => rfl
  | enter _ _ _ ih => exact ih
  | atLink hget => exact absurd hget (hplain _ _)
  | follow hget => exact absurd hget (hplain _ _)

namespace Plain

/-- Steps from the root end at the names that they leave. -/
theorem map_bytes_of_walkSteps (hplain : d.Plain) {purpose : Purpose} {steps : List Step}
    {spot : Spot} (h : d.walkSteps purpose steps = .ok spot) :
    spot.location.map FileName.bytes = steps.foldl Step.fold [] :=
  (ends_of_walkLinks h).map_bytes hplain

/-- A walk ends at the location that its path names. -/
theorem names_of_walk (hplain : d.Plain) {purpose : Purpose} {p : Path} {spot : Spot}
    (h : d.walk purpose p = .ok spot) : p.Names spot.location := by
  have hnames := hplain.map_bytes_of_walkSteps (walk_eq_ok h).2
  exact Path.names_of_folded (by rw [hnames, Step.foldl_fold_steps])

/-- What a path leads to is what it names. -/
theorem names_of_find (hplain : d.Plain) {purpose : Purpose} {p : Path} {location : Location}
    (h : d.find purpose p = .ok location) : p.Names location :=
  hplain.names_of_walk (find_eq_ok.1 h)

end Plain

end Disk

end CommandShell
