import CommandShell.Proofs.Utf8
import CommandShell.Path.Normal
import CommandShell.Disk.Walk

/-!
# Paths made of names

An absolute path without `.`, `..` and repeated separators is given by the names on it. Such paths
come out of folding and out of resolving symbolic links, and here everything that commands do with
them by the text alone is said in terms of their names.

## Main definitions

* `Path.IsName`: bytes that are a component of their own.
* `Path.ofNames`: the absolute path with the given names, the last one first.
* `Path.foldSegment`: one segment on top of the names before it.

## Main results

* `Path.normalize_of_isAbsolute`: an absolute path folds to the path of the names that are left;
* `Path.components_ofNames`, `Path.steps_ofNames`: the components and the steps of such a path;
* `Path.parent_ofNames_cons` and `Path.ancestors_ofNames_cons`: the way up drops one name after the
  other;
* `Path.startsWith_ofNames`: it begins with another one exactly when that one's names are its outer
  names.
-/

namespace CommandShell

namespace FileName

/-- Names with the same bytes are the same. -/
theorem bytes_injective : Function.Injective FileName.bytes := by
  rintro ⟨bytes, legal⟩ ⟨other, hother⟩ rfl
  rfl

/-- The name that legal bytes are. -/
theorem bytes_of_ofBytes? {bytes : Bytes} {name : FileName}
    (h : FileName.ofBytes? bytes = some name) : name.bytes = bytes := by
  unfold FileName.ofBytes? at h
  split at h
  · cases h
    rfl
  · cases h

/-- The bytes of a name are legal. -/
@[simp]
theorem ofBytes?_bytes (name : FileName) : FileName.ofBytes? name.bytes = some name := by
  simp [FileName.ofBytes?, name.legal]

/-- A name that is a text is read back from what it is shown as. -/
theorem ofString_shown {name : FileName} (h : Utf8.Valid name.bytes) :
    Utf8.ofString name.shown = name.bytes := by
  rw [shown, Utf8.toStringLossy, Utf8.ofString, String.toList_ofList, h.encode_decodeLossy]

/-- A name that is no text: its only byte is never the first one of a character. -/
def strayByte : FileName := ⟨[0xFF], by decide⟩

end FileName

namespace Path

/-! ## Names -/

/-- Bytes that are a component of their own: not empty, not `.` or `..`, and without `/`. -/
def IsName (bytes : Bytes) : Prop :=
  bytes ≠ [] ∧ bytes ≠ [dot] ∧ bytes ≠ [dot, dot] ∧ separator ∉ bytes

/-- The absolute path with the given names, the last one first. -/
def ofNames (names : List Bytes) : Path :=
  ⟨separator :: [separator].intercalate names.reverse⟩

/-- The names of entries are components of their own. -/
theorem isName_of_legal {bytes : Bytes} (h : FileName.Legal bytes) : IsName bytes :=
  ⟨h.1, h.2.1, h.2.2.1, h.2.2.2.1⟩

/-- The names on the way to a location are components of their own. -/
theorem isName_of_mem_location {location : Location} {bytes : Bytes}
    (h : bytes ∈ location.map FileName.bytes) : IsName bytes := by
  obtain ⟨name, -, rfl⟩ := List.mem_map.1 h
  exact isName_of_legal name.legal

/-- The text that a name is shown as is a component of its own. -/
theorem isName_shown (name : FileName) : IsName (Utf8.ofString name.shown) := by
  obtain ⟨hempty, hcurrent, hparent, hslash⟩ := isName_of_legal name.legal
  rw [FileName.shown, Utf8.toStringLossy, Utf8.ofString, String.toList_ofList]
  -- A text of dots could only be read from dots.
  have hdots : ∀ text : List Char, (∀ c ∈ text, c = '.') →
      Utf8.encode (Utf8.decodeLossy name.bytes) = Utf8.encode text →
        name.bytes = Utf8.encode text := by
    intro text htext he
    rw [← he, Utf8.encode_decodeLossy_of_ascii]
    rw [Utf8.encode_injective he]
    exact fun c hc => htext c hc ▸ by decide
  refine ⟨fun he => hempty (hdots [] (by simp) he), fun he => hcurrent (hdots ['.'] (by simp) he),
    fun he => hparent (hdots ['.', '.'] (by simp) he), fun hmem => hslash ?_⟩
  exact Utf8.mem_of_mem_decodeLossy ((Utf8.mem_encode_iff (by decide)).1 hmem) (by decide)

/-- The path of a location is that of its names. -/
theorem ofNames_location (location : Location) :
    ofNames (location.map FileName.bytes) = location.path := by
  rw [ofNames, Location.path, List.map_reverse]

/-! ## The bytes -/

/-- The bytes of the path of some names. -/
theorem bytes_ofNames (names : List Bytes) :
    (ofNames names).bytes = separator :: [separator].intercalate names.reverse := rfl

/-- The segments of the path of some names, behind its first separator. -/
theorem splitOn_ofNames {names : List Bytes} (h : ∀ name ∈ names, IsName name) :
    ([separator].intercalate names.reverse).splitOn separator =
      if names = [] then [[]] else names.reverse := by
  split
  · next he =>
    subst he
    rfl
  · next hne =>
    refine List.splitOn_intercalate separator ?_ (by simpa using hne)
    intro name hname
    exact (h name (by simpa using hname)).2.2.2

/-- A last name comes behind a separator. -/
theorem intercalate_concat {segments : List Bytes} (h : segments ≠ []) (last : Bytes) :
    [separator].intercalate (segments ++ [last]) =
      [separator].intercalate segments ++ separator :: last := by
  induction segments with
  | nil => exact absurd rfl h
  | cons segment rest ih =>
    cases rest with
    | nil => simp [List.intercalate_cons_cons]
    | cons second more =>
      have hrest : second :: more ≠ [] := by simp
      rw [List.cons_append, List.intercalate_cons_of_ne_nil (by simp), ih hrest,
        List.intercalate_cons_of_ne_nil hrest]
      simp only [List.append_assoc]

/-- The bytes of a path with one more name. -/
theorem ofNames_cons (name : Bytes) (names : List Bytes) :
    ofNames (name :: names) =
      ⟨if names = [] then separator :: name else (ofNames names).bytes ++ separator :: name⟩ := by
  split
  · next he => simp [he, ofNames]
  · next hne =>
    have hreverse : names.reverse ≠ [] := by simpa using hne
    rw [ofNames, List.reverse_cons, intercalate_concat hreverse]
    rfl

/-- Only the path of the root ends in a separator. -/
theorem getLast?_ofNames {name : Bytes} (h : IsName name) (names : List Bytes) :
    (ofNames (name :: names)).bytes.getLast? ≠ some separator := by
  -- Whatever stands in front, the last byte is one of the name.
  have hlast : ∀ front : Bytes, (front ++ name).getLast? ≠ some separator := by
    intro front he
    rw [List.getLast?_append, List.getLast?_eq_some_getLast h.1, Option.some_or] at he
    exact h.2.2.2 (Option.some.inj he ▸ List.getLast_mem h.1)
  rw [ofNames_cons]
  split
  · exact hlast [separator]
  · rw [List.append_cons]
    exact hlast _

/-- The path of some names is absolute. -/
@[simp]
theorem isAbsolute_ofNames (names : List Bytes) : (ofNames names).isAbsolute = true := rfl

/-- A name is not an absolute path. -/
theorem IsName.isAbsolute {bytes : Bytes} (h : IsName bytes) : isAbsolute ⟨bytes⟩ = false := by
  have hslash := h.2.2.2
  cases bytes with
  | nil => rfl
  | cons first rest =>
    have : first ≠ separator := fun e => hslash (by simp [e])
    simp [Path.isAbsolute, this]

/-! ## Components and steps -/

/-- The components that the segments of names stand for. -/
theorem filterMap_ofSegment? {names : List Bytes} (h : ∀ name ∈ names, IsName name) :
    names.filterMap Component.ofSegment? = names.map .normal := by
  induction names with
  | nil => rfl
  | cons name rest ih =>
    obtain ⟨hempty, hcurrent, hparent, -⟩ := h name (by simp)
    rw [List.filterMap_cons, ih fun other hother => h other (by simp [hother])]
    simp [Component.ofSegment?, hempty, hcurrent, hparent]

/-- The components of the path of some names. -/
theorem components_ofNames {names : List Bytes} (h : ∀ name ∈ names, IsName name) :
    (ofNames names).components = .root :: names.reverse.map .normal := by
  rw [components, bytes_ofNames, componentsOfBytes_separator, splitOn_ofNames h]
  split
  · next he => simp [he, Component.ofSegment?]
  · rw [filterMap_ofSegment? fun name hname => h name (by simpa using hname)]

/-- The steps that the segments of names ask for. -/
theorem filterMap_step {names : List Bytes} (h : ∀ name ∈ names, IsName name) :
    names.filterMap Step.ofSegment? = names.map .name := by
  induction names with
  | nil => rfl
  | cons name rest ih =>
    obtain ⟨hempty, hcurrent, hparent, -⟩ := h name (by simp)
    rw [List.filterMap_cons, ih fun other hother => h other (by simp [hother])]
    simp [Step.ofSegment?, hempty, hcurrent, hparent]

/-- The steps of the path of some names. -/
theorem steps_ofNames {names : List Bytes} (h : ∀ name ∈ names, IsName name) :
    (ofNames names).steps = names.reverse.map .name := by
  have hsegments : ((ofNames names).bytes.splitOn separator).filterMap Step.ofSegment? =
      names.reverse.map .name := by
    rw [bytes_ofNames, ← List.nil_append (separator :: _), List.splitOn_append_cons_self,
      splitOn_ofNames h, List.splitOn_nil]
    split
    · next he => simp [he, Step.ofSegment?]
    · rw [List.singleton_append, List.filterMap_cons_none rfl,
        filterMap_step fun name hname => h name (List.mem_reverse.1 hname)]
  rw [steps, hsegments]
  cases names with
  | nil => simp
  | cons name rest => simp [getLast?_ofNames (h name (by simp)) rest]

/-! ## Joining -/

/-- A name read from the path of some names comes behind them. -/
theorem join_ofNames {name : Bytes} {names : List Bytes} (hname : IsName name)
    (h : ∀ other ∈ names, IsName other) :
    (ofNames names).join ⟨name⟩ = ofNames (name :: names) := by
  rw [join, hname.isAbsolute, ofNames_cons]
  cases names with
  | nil => simp [ofNames]
  | cons first rest =>
    have hlast := getLast?_ofNames (h first (by simp)) rest
    have hbytes : (ofNames (first :: rest)).bytes ≠ [] := by simp [bytes_ofNames]
    simp [hlast, hbytes]

/-- Bytes behind what is read from a directory stay behind it. -/
theorem join_append {bytes : Bytes} (h : bytes ≠ []) (directory : Path) (more : Bytes) :
    directory.join ⟨bytes ++ more⟩ = ⟨(directory.join ⟨bytes⟩).bytes ++ more⟩ := by
  have habsolute : isAbsolute ⟨bytes ++ more⟩ = isAbsolute ⟨bytes⟩ := by
    cases bytes with
    | nil => exact absurd rfl h
    | cons first rest => rfl
  rw [join, join, habsolute]
  split
  · rfl
  · split <;> simp

/-- The path that the components of names spell. -/
theorem ofComponents_normal {names : List Bytes} (h : ∀ name ∈ names, IsName name) :
    ofComponents (.root :: names.reverse.map .normal) = ofNames names := by
  have hroot : join ⟨[]⟩ ⟨Component.root.bytes⟩ = ofNames [] := by decide
  rw [ofComponents, List.foldl_cons, hroot, List.foldl_map, List.foldl_reverse]
  induction names with
  | nil => rfl
  | cons name rest ih =>
    have hrest : ∀ other ∈ rest, IsName other := fun other hother => h other (by simp [hother])
    rw [List.foldr_cons, ih hrest]
    exact join_ofNames (h name (by simp)) hrest

/-! ## Folding -/

/-- One segment on top of the names before it, the last one first. -/
def foldSegment (names : List Bytes) (segment : Bytes) : List Bytes :=
  if segment = [] ∨ segment = [dot] then names
  else if segment = [dot, dot] then names.tail
  else segment :: names

/-- Folding segments keeps names. -/
theorem isName_foldSegment {segments : List Bytes} (hslash : ∀ s ∈ segments, separator ∉ s)
    {names : List Bytes} (h : ∀ name ∈ names, IsName name) :
    ∀ name ∈ segments.foldl foldSegment names, IsName name := by
  induction segments generalizing names with
  | nil => exact h
  | cons segment rest ih =>
    rw [List.foldl_cons]
    refine ih (fun s hs => hslash s (by simp [hs])) ?_
    intro name hname
    unfold foldSegment at hname
    split at hname
    · exact h name hname
    · next hplain =>
      split at hname
      · exact h name (List.mem_of_mem_tail hname)
      · next hparent =>
        rw [not_or] at hplain
        rcases List.mem_cons.1 hname with rfl | hold
        · exact ⟨hplain.1, hplain.2, hparent, hslash _ (by simp)⟩
        · exact h name hold

/-- Components fold on a stack above the root as their segments fold on the names. -/
theorem foldl_fold_root (segments names : List Bytes) :
    (segments.filterMap Component.ofSegment?).foldl Component.fold
        (names.map .normal ++ [.root]) =
      (segments.foldl foldSegment names).map .normal ++ [.root] := by
  induction segments generalizing names with
  | nil => rfl
  | cons segment rest ih =>
    rw [List.foldl_cons, ← ih, foldSegment, List.filterMap_cons, Component.ofSegment?]
    by_cases hvoid : segment = [] ∨ segment = [dot]
    · simp only [if_pos hvoid]
    · by_cases hparent : segment = [dot, dot]
      · -- Above the root `..` takes the last name back, and at the root it does nothing.
        simp only [if_neg hvoid, if_pos hparent, List.foldl_cons]
        cases names <;> rfl
      · simp only [if_neg hvoid, if_neg hparent, List.foldl_cons]
        cases names <;> rfl

/-- The segments of some bytes have no separator in them. -/
theorem slash_notMem_of_mem_splitOn {bytes segment : Bytes}
    (h : segment ∈ bytes.splitOn separator) : separator ∉ segment := by
  induction bytes generalizing segment with
  | nil => simpa using (List.mem_singleton.1 h) ▸ List.not_mem_nil
  | cons c rest ih =>
    -- A separator starts a new segment, and any other byte goes to the first one.
    rw [List.splitOn_cons_eq_if_modifyHead] at h
    split at h
    · rcases List.mem_cons.1 h with rfl | h
      · exact List.not_mem_nil
      · exact ih h
    · next hne =>
      cases hrest : rest.splitOn separator with
      | nil => exact absurd hrest (List.splitOn_ne_nil _ _)
      | cons first others =>
        rw [hrest, List.modifyHead_cons, List.mem_cons] at h
        rcases h with rfl | h
        · have hfirst : separator ∉ first := ih (by simp [hrest])
          have hc : c ≠ separator := by simpa using hne
          simp [hfirst, hc.symm]
        · exact ih (by simp [hrest, h])

/-- An absolute path folds to the path of the names that its segments leave. -/
theorem normalize_of_isAbsolute {p : Path} (h : p.isAbsolute = true) :
    p.normalize = ofNames ((p.bytes.splitOn separator).foldl foldSegment []) := by
  -- The separator in front is the root, and what follows folds on an empty stack.
  obtain ⟨rest, hbytes⟩ : ∃ rest, p.bytes = separator :: rest := by
    cases hp : p.bytes with
    | nil => simp [isAbsolute, hp] at h
    | cons first rest => exact ⟨rest, by simpa [isAbsolute, hp] using h⟩
  have hsplit : p.bytes.splitOn separator = [] :: rest.splitOn separator := by
    rw [hbytes, ← List.nil_append (separator :: rest), List.splitOn_append_cons_self,
      List.splitOn_nil]
    rfl
  have hnames : ∀ name ∈ (rest.splitOn separator).foldl foldSegment [], IsName name :=
    isName_foldSegment (fun s hs => slash_notMem_of_mem_splitOn hs) (by simp)
  have hfold := foldl_fold_root (rest.splitOn separator) []
  rw [List.map_nil, List.nil_append] at hfold
  rw [hsplit, normalize, components, hbytes, componentsOfBytes_separator, Component.normalize,
    List.foldl_cons]
  show ofComponents (List.foldl Component.fold [.root] _).reverse = _
  rw [hfold, List.foldl_cons, List.reverse_append, ← List.map_reverse]
  exact ofComponents_normal hnames

/-- Whatever is read from an absolute path is absolute. -/
theorem isAbsolute_join {directory : Path} (h : directory.isAbsolute = true) (p : Path) :
    (directory.join p).isAbsolute = true := by
  cases hbytes : directory.bytes with
  | nil => simp [isAbsolute, hbytes] at h
  | cons first rest =>
    simp only [isAbsolute, hbytes, List.head?_cons, beq_iff_eq, Option.some.injEq] at h
    rw [join]
    split
    · assumption
    · split <;> simp [isAbsolute, hbytes, h]

/-- An absolute path folds to a path of names. -/
theorem exists_normalize_eq {p : Path} (h : p.isAbsolute = true) :
    ∃ names, (∀ name ∈ names, IsName name) ∧ p.normalize = ofNames names :=
  ⟨_, isName_foldSegment (fun _ hs => slash_notMem_of_mem_splitOn hs) (by simp),
    normalize_of_isAbsolute h⟩

/-- Names are always put on top of the stack. -/
theorem foldl_fold_names (names : List Bytes) (stack : List Component) :
    (names.map .normal).foldl Component.fold stack = (names.map .normal).reverse ++ stack := by
  induction names generalizing stack with
  | nil => rfl
  | cons name rest ih =>
    have hfold : Component.fold stack (.normal name) = .normal name :: stack := by
      cases stack <;> rfl
    rw [List.map_cons, List.foldl_cons, hfold, ih, List.reverse_cons, List.append_assoc]
    rfl

/-- The path of some names is folded already. -/
theorem normalize_ofNames {names : List Bytes} (h : ∀ name ∈ names, IsName name) :
    (ofNames names).normalize = ofNames names := by
  rw [normalize, components_ofNames h, Component.normalize, List.foldl_cons, foldl_fold_names,
    List.reverse_append, List.reverse_reverse]
  exact ofComponents_normal h

/-- A separator at the end of an absolute path is lost when it is folded. -/
theorem normalize_append_slash {p : Path} (h : p.isAbsolute = true) :
    normalize ⟨p.bytes ++ [separator]⟩ = p.normalize := by
  have habsolute : isAbsolute ⟨p.bytes ++ [separator]⟩ = true := by
    cases hbytes : p.bytes with
    | nil => simp [isAbsolute, hbytes] at h
    | cons first rest => simpa [isAbsolute, hbytes] using h
  -- The separator adds an empty segment, which folds away.
  have hsplit : (p.bytes ++ [separator]).splitOn separator = p.bytes.splitOn separator ++ [[]] := by
    rw [List.splitOn_append_cons_self, List.splitOn_nil]
  rw [normalize_of_isAbsolute habsolute, hsplit, List.foldl_append, normalize_of_isAbsolute h]
  rfl

/-! ## The way up -/

/-- Segments of names have no voids at their end. -/
theorem dropVoidSegments_names (relative : Bool) {names : List Bytes}
    (h : ∀ name ∈ names, IsName name) : dropVoidSegments relative names = names := by
  cases names with
  | nil => rfl
  | cons name rest =>
    obtain ⟨hempty, hcurrent, -, -⟩ := h name (by simp)
    simp [dropVoidSegments, hempty, hcurrent]

/-- The way up from the path of some names drops the last one. -/
theorem parent_ofNames_cons {name : Bytes} {names : List Bytes}
    (h : ∀ other ∈ name :: names, IsName other) :
    (ofNames (name :: names)).parent = some (ofNames names) := by
  have hnames : ∀ other ∈ names, IsName other := fun other hother => h other (by simp [hother])
  -- The bytes without their last segment spell the names above.
  have hbytes : parentBytes (ofNames (name :: names)).bytes = (ofNames names).bytes := by
    rw [bytes_ofNames, parentBytes_separator, splitOn_ofNames h, if_neg (by simp),
      List.reverse_reverse, dropLastSegment, dropVoidSegments_names false h, List.tail_cons,
      dropVoidSegments_names false hnames, joinSegments, bytes_ofNames]
  have hlast : (Component.root :: (name :: names).reverse.map .normal).getLast? =
      some (.normal name) := by
    rw [List.reverse_cons, List.map_append, ← List.cons_append, List.getLast?_append]
    rfl
  rw [parent, components_ofNames h, hlast, hbytes]

/-- The root has no parent. -/
theorem parent_ofNames_nil : (ofNames []).parent = none := by
  decide

/-- The first of the paths above a path is that path itself. -/
theorem ancestors_eq_cons (p : Path) : ∃ above, p.ancestors = p :: above := by
  rw [ancestors]
  cases p.components.length with
  | zero => exact ⟨[], rfl⟩
  | succ n =>
    rw [ancestorsUpTo]
    split
    · exact ⟨[], rfl⟩
    · exact ⟨_, rfl⟩

/-- Above the root there is nothing. -/
theorem ancestors_ofNames_nil : (ofNames []).ancestors = [ofNames []] := by
  decide

/-- Above the path of some names are those with one name less after the other. -/
theorem ancestors_ofNames_cons {name : Bytes} {names : List Bytes}
    (h : ∀ other ∈ name :: names, IsName other) :
    (ofNames (name :: names)).ancestors = ofNames (name :: names) :: (ofNames names).ancestors := by
  have hnames : ∀ other ∈ names, IsName other := fun other hother => h other (by simp [hother])
  rw [ancestors, ancestors, components_ofNames h, components_ofNames hnames]
  simp only [List.length_cons, List.length_map, List.length_reverse]
  rw [ancestorsUpTo, parent_ofNames_cons h]

/-! ## Lying below -/

/-- One path of names begins with another one when its outer names are those of the other. -/
theorem startsWith_ofNames {names base : List Bytes} (h : ∀ name ∈ names, IsName name)
    (hbase : ∀ name ∈ base, IsName name) :
    (ofNames names).startsWith (ofNames base) = true ↔ base <:+ names := by
  have hnormal : Function.Injective Component.normal := fun _ _ he => Component.normal.inj he
  rw [startsWith, components_ofNames h, components_ofNames hbase, List.isPrefixOf_iff_prefix,
    List.cons_prefix_cons, List.prefix_map_iff_of_injective hnormal, List.reverse_prefix]
  simp

/-- One location lies below another when its path begins with that of the other. -/
theorem startsWith_path (location base : Location) :
    location.path.startsWith base.path = true ↔ base <:+ location := by
  rw [← ofNames_location, ← ofNames_location,
    startsWith_ofNames (fun _ => isName_of_mem_location) fun _ => isName_of_mem_location]
  exact List.suffix_map_iff_of_injective FileName.bytes_injective

/-- A path tells its location. -/
theorem path_injective : Function.Injective Location.path := by
  intro location other he
  have hself : ∀ l : Location, l.path.startsWith l.path = true := fun l =>
    (startsWith_path l l).2 (List.suffix_refl l)
  have hleft : location <:+ other := (startsWith_path other location).1 (he ▸ hself location)
  have hright : other <:+ location := (startsWith_path location other).1 (he ▸ hself other)
  exact hleft.eq_of_length_le hright.length_le

end Path

end CommandShell
