import CommandShell.Proofs.LexicalWalks

/-!
# Making the directories that are missing

A directory is made with those above it by trying the path itself first, and the paths above it when
something is missing on the way. On a disk without links a path without `..` leads down, one name
after the other, and what becomes of it depends on what lies at the locations on the way.

## Main definitions

* `Path.LeadsDown`: a path leads from the root down to a location.
* `Path.EndsInPlace`: a path ends in `.`.
* `Disk.Passable`: nothing but directories lies on the way to a location, and there.

## Main results

* `Path.LeadsDown.above`: the path above leads down to the directory above, and ends in a name;
* `Disk.Plain.makeDirectories_iff`: the directories are made when nothing else is in the way, unless
  the path ends in `.` where nothing lies;
* `Disk.Plain.get?_makeDirectories`: what is made then are the directories on the way.
-/

namespace CommandShell

/-! ## Paths that lead down -/

namespace Path

/-- A path leads from the root down to a location: by its names, and by `.` among them. -/
structure LeadsDown (p : Path) (there : Location) : Prop where
  /-- The path starts at the root. -/
  absolute : p.isAbsolute = true
  /-- No step leads up. -/
  down : Step.up ∉ p.steps
  /-- The names are those of the location. -/
  names : p.Names there

/-- A path ends in `.`, be there a separator behind it. -/
def EndsInPlace (p : Path) : Prop :=
  (Step.dropSlash p.steps).getLast? = some .stay

/-- Whether a path ends in `.` is decidable. -/
instance (p : Path) : Decidable p.EndsInPlace :=
  inferInstanceAs (Decidable (_ = _))

/-- A path leads up where `..` stands between separators. -/
theorem up_mem_steps {p : Path} :
    Step.up ∈ p.steps ↔ [dot, dot] ∈ p.bytes.splitOn separator := by
  have hsegment (segment : Bytes) :
      Step.ofSegment? segment = some .up ↔ segment = [dot, dot] := by
    unfold Step.ofSegment?
    by_cases hempty : segment = []
    · simp [hempty]
    · by_cases hcurrent : segment = [dot]
      · simp [hcurrent]
      · by_cases hup : segment = [dot, dot] <;> simp [hempty, hcurrent, hup]
  rw [steps]
  split <;> simp [List.mem_filterMap, hsegment]

/-- No `..` is dropped as void. -/
theorem up_mem_dropVoidSegments {segments : List Bytes} :
    [dot, dot] ∈ dropVoidSegments false segments ↔ [dot, dot] ∈ segments := by
  induction segments with
  | nil => rfl
  | cons segment outer ih =>
    rw [dropVoidSegments]
    split
    · next hvoid =>
      rw [ih, List.mem_cons, or_iff_right]
      rintro rfl
      simp at hvoid
    · rfl

/-- The segments that are left tell whether a path leads up. -/
theorem up_mem_lastSegments {p : Path} (h : p.isAbsolute = true) :
    [dot, dot] ∈ p.lastSegments ↔ Step.up ∈ p.steps := by
  rw [up_mem_steps, lastSegments, up_mem_dropVoidSegments, List.mem_reverse,
    splitOn_of_isAbsolute h]
  simp

/-- What was spelled with a component as its last segment does not end in `.`. -/
theorem not_endsInPlace_ofSegments {segments : List Bytes}
    (hslash : ∀ segment ∈ segments, separator ∉ segment) :
    ¬(ofSegments (dropVoidSegments false segments)).EndsInPlace := by
  have hkept : ∀ segment ∈ dropVoidSegments false segments, separator ∉ segment :=
    fun segment hmem => hslash segment ((dropVoidSegments_suffix _ _).subset hmem)
  rw [EndsInPlace, Step.dropSlash_steps, splitOn_of_isAbsolute (isAbsolute_ofSegments _),
    ofSegments, List.tail_cons, joinSegments]
  cases hsegments : dropVoidSegments false segments with
  | nil => simp [Step.ofSegment?]
  | cons segment outer =>
    obtain ⟨hempty, hcurrent⟩ := ne_of_dropVoidSegments hsegments
    rw [← hsegments, List.splitOn_intercalate separator (by simpa using hkept)
      (by simp [hsegments]), hsegments, List.reverse_cons]
    by_cases hup : segment = [dot, dot] <;>
      simp [Step.ofSegment?, hempty, hcurrent, hup, List.filterMap_append]

/-- The path above one that leads down leads to the directory above, and it ends in a name. -/
theorem LeadsDown.above {p : Path} {name : FileName} {outer : Location}
    (h : p.LeadsDown (name :: outer)) :
    ∃ above, p.parent = some above ∧ p.fileName = some name.bytes ∧
      p.ancestors = p :: above.ancestors ∧ above.LeadsDown outer ∧ ¬above.EndsInPlace ∧
        above.bytes <+: p.bytes := by
  have habsolute := h.absolute
  have hfolded := names_iff.1 h.names
  rw [folded_of_isAbsolute habsolute] at hfolded
  cases hsegments : p.lastSegments with
  | nil =>
    rw [hsegments] at hfolded
    cases hfolded
  | cons segment others =>
    have hnotUp : [dot, dot] ∉ p.lastSegments :=
      fun hmem => h.down ((up_mem_lastSegments habsolute).1 hmem)
    rw [hsegments, List.mem_cons, not_or] at hnotUp
    have hup : segment ≠ [dot, dot] := Ne.symm hnotUp.1
    obtain ⟨hempty, hcurrent⟩ := ne_of_dropVoidSegments hsegments
    -- The last segment is the last name, and the others fold to the names above.
    rw [hsegments, List.reverse_cons, List.foldl_append, ← folded_above hsegments, List.foldl_cons,
      List.foldl_nil, foldSegment, if_neg (by simp [hempty, hcurrent]), if_neg hup, List.map_cons]
      at hfolded
    obtain ⟨hname, houter⟩ := List.cons.inj hfolded
    have hparent := parent_of_lastSegments_cons habsolute hsegments
    refine ⟨_, hparent, ?_, ?_, ?_, ?_, above_prefix habsolute hsegments⟩
    · rw [fileName_of_lastSegments_cons habsolute hsegments, if_neg hup, hname]
    · -- One component is taken away.
      have hcomponent : Component.ofSegment? segment = some (.normal (segment)) := by
        simp [Component.ofSegment?, hempty, hcurrent, hup]
      rw [ancestors, components_of_isAbsolute habsolute, hsegments, List.reverse_cons,
        List.filterMap_append, ancestors, components_of_isAbsolute (isAbsolute_ofSegments _),
        lastSegments_above hsegments, filterMap_dropVoidSegments]
      simp [hcomponent, ancestorsUpTo, hparent]
    · refine ⟨isAbsolute_ofSegments _, fun hmem => hnotUp.2 ?_, names_of_folded houter⟩
      rw [← up_mem_lastSegments (isAbsolute_ofSegments _), lastSegments_above hsegments] at hmem
      exact up_mem_dropVoidSegments.1 hmem
    · refine not_endsInPlace_ofSegments fun other hother => ?_
      exact slash_notMem_of_mem_lastSegments (hsegments ▸ List.mem_cons_of_mem _ hother)

/-- The paths above one that leads down lead down to the directories above. -/
theorem LeadsDown.of_mem_ancestors {p q : Path} {there : Location} (h : p.LeadsDown there)
    (hq : q ∈ p.ancestors) : ∃ outer, outer <:+ there ∧ q.LeadsDown outer := by
  induction there generalizing p with
  | nil =>
    -- No segment is left, as each one that is left is a name.
    have hsegments : p.lastSegments = [] := by
      have hfolded := names_iff.1 h.names
      rw [folded_of_isAbsolute h.absolute] at hfolded
      cases hsegments : p.lastSegments with
      | nil => rfl
      | cons segment others =>
        obtain ⟨hempty, hcurrent⟩ := ne_of_dropVoidSegments hsegments
        have hup : segment ≠ [dot, dot] := by
          rintro rfl
          exact h.down ((up_mem_lastSegments h.absolute).1 (hsegments ▸ List.mem_cons_self))
        rw [hsegments, List.reverse_cons, List.foldl_append] at hfolded
        simp [foldSegment, hempty, hcurrent, hup] at hfolded
    have hparent := (parent_of_lastSegments_nil h.absolute hsegments).1
    rw [ancestors, components_of_isAbsolute h.absolute, hsegments] at hq
    obtain rfl : q = p := by simpa [ancestorsUpTo, hparent] using hq
    exact ⟨[], List.suffix_refl _, h⟩
  | cons name outer ih =>
    obtain ⟨above, -, -, hancestors, habove, -⟩ := h.above
    rw [hancestors] at hq
    rcases List.mem_cons.1 hq with rfl | hq
    · exact ⟨_, List.suffix_refl _, h⟩
    · obtain ⟨further, hfurther, hleads⟩ := ih habove hq
      exact ⟨further, hfurther.trans (List.suffix_cons _ _), hleads⟩

/-- What is left of a path that does not lead up are all its names. -/
theorem mem_foldl_foldSegment {segments : List Bytes} (hup : [dot, dot] ∉ segments)
    (names : List Bytes) :
    (∀ name ∈ names, name ∈ segments.foldl foldSegment names) ∧
      ∀ segment ∈ segments, segment ≠ [] → segment ≠ [dot] →
        segment ∈ segments.foldl foldSegment names := by
  induction segments generalizing names with
  | nil => simp
  | cons first rest ih =>
    rw [List.mem_cons, not_or] at hup
    obtain ⟨hkept, hnew⟩ := ih hup.2 (foldSegment names first)
    have hfirst : ∀ name ∈ names, name ∈ foldSegment names first := by
      intro name hname
      unfold foldSegment
      split
      · exact hname
      · exact (if_neg (Ne.symm hup.1)).symm ▸ List.mem_cons_of_mem _ hname
    refine ⟨fun name hname => hkept name (hfirst name hname), fun segment hsegment => ?_⟩
    rcases List.mem_cons.1 hsegment with rfl | hlater
    · intro hempty hcurrent
      refine hkept _ ?_
      rw [foldSegment, if_neg (by simp [hempty, hcurrent]), if_neg (Ne.symm hup.1)]
      exact List.mem_cons_self
    · exact hnew segment hlater

/-- Every byte but the separator is in one of the segments. -/
theorem exists_mem_splitOn {b : UInt8} {bytes : Bytes} (hb : b ≠ separator) (h : b ∈ bytes) :
    ∃ segment ∈ bytes.splitOn separator, b ∈ segment := by
  induction bytes with
  | nil => cases h
  | cons first rest ih =>
    rw [List.splitOn_cons_eq_if_modifyHead]
    obtain ⟨segment, others, hsegments⟩ :=
      List.exists_cons_of_ne_nil (List.splitOn_ne_nil separator rest)
    rw [hsegments] at ih ⊢
    rcases List.mem_cons.1 h with rfl | hrest
    · exact ⟨b :: segment, by simp [hb], List.mem_cons_self⟩
    · obtain ⟨other, hother, hmem⟩ := ih hrest
      split
      · exact ⟨other, List.mem_cons_of_mem _ hother, hmem⟩
      · rcases List.mem_cons.1 hother with rfl | hlater
        · exact ⟨first :: other, by simp, List.mem_cons_of_mem _ hmem⟩
        · exact ⟨other, by simp [hlater], hmem⟩

/-- No NUL is in a path that leads down to a location, as none is in a name. -/
theorem LeadsDown.nul_notMem {p : Path} {there : Location} (h : p.LeadsDown there) :
    0 ∉ p.bytes := by
  intro hnul
  have hup : [dot, dot] ∉ p.bytes.splitOn separator := fun hmem => h.down (up_mem_steps.2 hmem)
  -- The NUL would be in one of the segments, and that one would be a name of the location.
  obtain ⟨segment, hsegment, hmem⟩ := exists_mem_splitOn (by decide) hnul
  have hname := (mem_foldl_foldSegment hup []).2 segment hsegment
    (by rintro rfl; cases hmem) (by rintro rfl; simp [dot] at hmem)
  have hfolded : p.folded = there.map FileName.bytes := names_iff.1 h.names
  rw [folded] at hfolded
  rw [hfolded] at hname
  obtain ⟨name, -, hbytes⟩ := List.mem_map.1 hname
  exact name.legal.2.2.2.2.1 (hbytes ▸ hmem)

/-- A path that leads down can be served when the path above it can. -/
theorem checkPath_of_prefix {p above : Path} (h : above.bytes <+: p.bytes)
    (hcheck : Disk.checkPath p = .ok ()) (habsolute : above.isAbsolute = true) :
    Disk.checkPath above = .ok () := by
  obtain ⟨hnul, hsize, -⟩ := Disk.checkPath_eq_ok.1 hcheck
  refine Disk.checkPath_eq_ok.2 ⟨fun hmem => hnul (h.subset hmem), ?_, ?_⟩
  · exact h.length_le.trans_lt hsize
  · intro hempty
    simp [isAbsolute, hempty] at habsolute

end Path

/-! ## Ways down -/

namespace Disk

variable {d : Disk}

/-- Nothing but directories lies on the way to a location, and there. -/
def Passable (d : Disk) (there : Location) : Prop :=
  ∀ above, above <:+ there → ∀ entry, d.get? above = some entry → entry = .directory

/-- Steps that only stay or go down, and so end below where they start. -/
theorem suffix_of_fold {steps : List Step} {names outer : List Bytes} (hup : Step.up ∉ steps)
    (h : steps.foldl Step.fold names = outer) : names <:+ outer := by
  induction steps generalizing names with
  | nil => exact h ▸ List.suffix_refl _
  | cons step rest ih =>
    have hinner := ih (fun hmem => hup (List.mem_cons_of_mem _ hmem)) h
    cases step with
    | name text => exact (List.suffix_cons _ _).trans hinner
    | up => exact absurd List.mem_cons_self hup
    | stay | slash => exact hinner

/-- On the way to a directory lie directories. -/
theorem directory_of_suffix {above there : Location} (habove : above <:+ there)
    (hdir : d.get? there = some .directory) : d.get? above = some .directory := by
  obtain ⟨inner, rfl⟩ := habove
  cases inner with
  | nil => exact hdir
  | cons name inner =>
    exact directory_of_append (by rw [← List.cons_append, hdir, Option.isSome_some])

/-- Steps lead down to a location. -/
def Descend (steps : List Step) (here there : Location) : Prop :=
  Step.up ∉ steps ∧ steps.foldl Step.fold (here.map FileName.bytes) = there.map FileName.bytes

namespace Descend

variable {steps rest : List Step} {here there : Location}

/-- Without a step the location is reached. -/
theorem eq_of_nil (h : Descend [] here there) : here = there :=
  (List.map_inj_right fun _ _ he => FileName.bytes_injective he).1 h.2

/-- Steps lead down from a location around the one they lead to. -/
theorem suffix (h : Descend steps here there) : here <:+ there :=
  (List.suffix_map_iff_of_injective FileName.bytes_injective).1 (suffix_of_fold h.1 h.2)

/-- A step that does not lead down may be left out. -/
theorem of_pass {step : Step} (h : Descend (step :: rest) here there)
    (hname : ∀ text, step ≠ .name text) :
    step.past here = some here ∧ Descend rest here there := by
  obtain ⟨hup, hfold⟩ := h
  rw [List.mem_cons, not_or] at hup
  cases step with
  | name text => exact absurd rfl (hname text)
  | up => exact absurd rfl hup.1
  | stay | slash => exact ⟨rfl, hup.2, hfold⟩

/-- A name leads to what has that name on the way. -/
theorem of_name {bytes : Bytes} (h : Descend (.name bytes :: rest) here there) :
    ∃ name : FileName, bytes = name.bytes ∧ Descend rest (name :: here) there := by
  obtain ⟨hup, hfold⟩ := h
  have hrest : Step.up ∉ rest := fun hmem => hup (List.mem_cons_of_mem _ hmem)
  obtain ⟨inner, hinner⟩ := suffix_of_fold hrest hfold
  obtain ⟨_, outer, -, -, houter⟩ := List.map_eq_append_iff.1 hinner.symm
  obtain ⟨name, tail, rfl, rfl, htail⟩ := List.map_eq_cons_iff.1 houter
  exact ⟨name, rfl, hrest, hfold⟩

end Descend

/-- The steps of a path that leads down lead down. -/
theorem descend_dropSlash {p : Path} {there : Location} (h : p.LeadsDown there) :
    Descend (Step.dropSlash p.steps) [] there := by
  refine ⟨fun hmem => h.down ?_, ?_⟩
  · rw [Step.dropSlash] at hmem
    split at hmem
    · exact List.dropLast_subset _ hmem
    · exact hmem
  · rw [Step.foldl_fold_dropSlash, List.map_nil, Step.foldl_fold_steps, Path.names_iff.1 h.names]

/-- Where a directory lies, the steps on the way lead to it. -/
theorem Descend.leads {steps : List Step} {here there : Location} (h : Descend steps here there)
    (hdir : d.get? there = some .directory) : Leads d 0 here steps there := by
  induction steps generalizing here with
  | nil =>
    obtain rfl := h.eq_of_nil
    exact .done
  | cons step rest ih =>
    cases step with
    | name text =>
      obtain ⟨name, rfl, hrest⟩ := h.of_name
      exact .enter (directory_of_suffix hrest.suffix hdir) (by simp) (ih hrest)
    | up | stay | slash =>
      obtain ⟨hpast, hrest⟩ := h.of_pass (by simp)
      exact .pass (directory_of_suffix hrest.suffix hdir) hpast (ih hrest)

/-- Where more than the last directory is missing, the steps on the way end at nothing. -/
theorem walkLinks_of_missing {steps : List Step} {here outer : Location} {name : FileName}
    {links : Nat} (h : Descend steps here (name :: outer)) (hpassable : d.Passable (name :: outer))
    (hhere : d.get? here = some .directory) (hmissing : d.get? outer = none) :
    d.walkLinks .useLink links here steps = .error .notFound := by
  induction steps generalizing here with
  | nil =>
    obtain rfl := h.eq_of_nil
    rw [directory_of_get? hhere] at hmissing
    cases hmissing
  | cons step rest ih =>
    cases step with
    | name text =>
      obtain ⟨next, rfl, hrest⟩ := h.of_name
      cases hget : d.get? (next :: here) with
      | none =>
        -- Were this the last step, the directory here would be the one that is missing.
        have hmore : rest ≠ [] := by
          rintro rfl
          obtain ⟨-, rfl⟩ := List.cons.inj hrest.eq_of_nil
          rw [hhere] at hmissing
          cases hmissing
        simp [walkLinks_eq, walkFrom, hhere, hget, hmore]
      | some entry =>
        obtain rfl := hpassable _ hrest.suffix entry hget
        rw [walkLinks_enter hget (by simp) (by simp), ih hrest hget]
    | up | stay | slash =>
      obtain ⟨hpast, hrest⟩ := h.of_pass (by simp)
      rw [walkLinks_pass hhere hpast, ih hrest hhere]

/-- Where only the last directory is missing, the steps on the way end at the vacant place, unless
the last one is `.`. -/
theorem walkSteps_of_vacant {p : Path} {outer : Location} {name : FileName}
    (h : p.LeadsDown (name :: outer)) (hend : ¬p.EndsInPlace)
    (houter : d.get? outer = some .directory) (hnone : d.get? (name :: outer) = none) :
    d.walkSteps .useLink (Step.dropSlash p.steps) = .ok (.vacant outer name) := by
  obtain ⟨hup, hfold⟩ := descend_dropSlash h
  obtain ⟨front, text, hsteps⟩ : ∃ front text, Step.dropSlash p.steps = front ++ [.name text] := by
    rcases List.eq_nil_or_concat (Step.dropSlash p.steps) with hnil | ⟨front, last, hlast⟩
    · rw [hnil] at hfold
      cases hfold
    · cases last with
      | name text => exact ⟨front, text, by simpa using hlast⟩
      | up => exact absurd (by simp [hlast]) hup
      | stay => exact absurd (by simp [Path.EndsInPlace, hlast]) hend
      | slash =>
        rw [Step.dropSlash_steps] at hlast
        have hmem : Step.slash ∈ (p.bytes.splitOn separator).filterMap Step.ofSegment? := by
          simp [hlast]
        obtain ⟨segment, -, hsegment⟩ := List.mem_filterMap.1 hmem
        exact absurd rfl (Step.ne_slash_of_ofSegment? hsegment)
  -- All steps but the last lead to the directory.
  rw [hsteps, List.foldl_append, List.map_cons] at hfold
  obtain ⟨hname, hfront⟩ := List.cons.inj hfold
  rw [hsteps, List.mem_append, not_or] at hup
  have hleads := Descend.leads ⟨hup.1, hfront⟩ houter
  rw [hsteps, walkSteps, walkLinks_of_leads hleads (Nat.zero_le _) (.inr (by simp)), hname]
  simp [walkLinks_eq, walkFrom, houter, hnone]

/-- A path that leads down leads to a directory where one lies. -/
theorem Plain.isDirectory_iff (hplain : d.Plain) {p : Path} {there : Location}
    (h : p.LeadsDown there) (hcheck : checkPath p = .ok ()) :
    d.isDirectory p = true ↔ d.get? there = some .directory := by
  rw [isDirectory_eq_true, lookAt_eq_ok]
  constructor
  · rintro ⟨found, hwalk, hget⟩
    obtain rfl := Path.path_injective ((hplain.names_of_walk hwalk).symm.trans h.names)
    exact hget
  · intro hdir
    have hleads := (descend_dropSlash h).leads hdir
    have hwalk : d.walkSteps .use p.steps = .ok (.found there) :=
      walkLinks_of_dropSlash (walkLinks_use_iff.2 ⟨0, Nat.zero_le _, hleads⟩) hdir
    exact ⟨there, by simp only [walk, hcheck, hwalk], hdir⟩

/-! ## Making directories -/

/-- A directory is made by a path that ends in a name. -/
theorem not_endsInPlace_of_makeDirectory {p : Path} {made : Disk}
    (h : d.makeDirectory p = .ok made) : ¬p.EndsInPlace := by
  obtain ⟨-, above, name, hwalk, -⟩ := makeDirectory_eq_ok h
  rw [Path.EndsInPlace]
  intro hlast
  obtain ⟨front, hfront⟩ := List.getLast?_eq_some_iff.1 hlast
  -- Behind `.` a walk finds what it stands in, and no vacant place.
  have hends := ends_of_walkLinks hwalk
  rw [hfront] at hends
  obtain ⟨used, -, there, -, hend⟩ := hends.leads (.inr (by simp))
  generalize linkLimit - used = links at hend
  generalize hspot : Spot.vacant above name = spot at hend
  cases hend with
  | pass _ _ hdone =>
    cases hdone
    cases hspot

namespace Plain

variable {p : Path} {there : Location}

/-- All that is made lies on the way. -/
theorem get?_makeDirectories_of_not_suffix (hplain : d.Plain) (h : p.LeadsDown there)
    {location : Location} (hlocation : ¬location <:+ there) :
    (d.makeDirectories p).2.get? location = d.get? location := by
  refine (makeDirectoriesAlong_induction
    (fun now made => made.get? location = now.get? location) (fun _ => rfl)
    (fun h hmore => hmore.trans h) fun q hq now made hgrows hmade => ?_).2
  obtain ⟨outer, houter, hq⟩ := h.of_mem_ancestors hq
  obtain ⟨-, above, name, hwalk, -, -, rfl⟩ := makeDirectory_eq_ok hmade
  have hnames := (hgrows.keepsLinks.plain hplain).map_bytes_of_walkSteps hwalk
  rw [Step.foldl_fold_dropSlash, Step.foldl_fold_steps, Path.names_iff.1 hq.names] at hnames
  obtain rfl := (List.map_inj_right fun _ _ he => FileName.bytes_injective he).1 hnames
  exact get?_put_of_ne now _ fun he => hlocation (he ▸ houter)

/-- No directory is made where one lies. -/
theorem makeDirectories_of_directory (hplain : d.Plain) (h : p.LeadsDown there)
    (hcheck : checkPath p = .ok ()) (hdir : d.get? there = some .directory) :
    d.makeDirectories p = (.ok (), d) :=
  makeDirectories_of_isDirectory ((hplain.isDirectory_iff h hcheck).2 hdir)

/-- The directories on the way are made when nothing else is in the way, unless the path ends in `.`
where nothing lies. -/
theorem exists_makeDirectories (hplain : d.Plain) (h : p.LeadsDown there)
    (hcheck : checkPath p = .ok ()) (hpassable : d.Passable there)
    (hend : p.EndsInPlace → d.get? there = some .directory) :
    ∃ made, d.makeDirectories p = (.ok (), made) := by
  -- The induction is on the directories on the way.
  induction there generalizing p with
  | nil => exact ⟨d, hplain.makeDirectories_of_directory h hcheck rfl⟩
  | cons name outer ih =>
    cases hget : d.get? (name :: outer) with
    | some entry =>
      obtain rfl := hpassable _ (List.suffix_refl _) entry hget
      exact ⟨d, hplain.makeDirectories_of_directory h hcheck hget⟩
    | none =>
      have hname : ¬p.EndsInPlace := fun hplace => by cases hget.symm.trans (hend hplace)
      obtain ⟨above, -, -, hancestors, habove, habovename, hprefix⟩ := h.above
      have hbytes : p.bytes ≠ [] := (checkPath_eq_ok.1 hcheck).2.2
      rw [makeDirectories, hancestors, makeDirectoriesAlong, if_neg hbytes]
      have hmake {now : Disk} (hdir : now.get? outer = some .directory)
          (hnone : now.get? (name :: outer) = none) :
          now.makeDirectory p = .ok (now.put (name :: outer) .directory) :=
        makeDirectory_of_vacant hcheck (walkSteps_of_vacant h hname hdir hnone)
      cases houter : d.get? outer with
      | some entry =>
        obtain rfl := hpassable outer (List.suffix_cons _ _) entry houter
        exact ⟨_, by rw [hmake houter hget]⟩
      | none =>
        have hmissing : d.makeDirectory p = .error .notFound := by
          have hwalk : d.walkLinks .useLink linkLimit [] (Step.dropSlash p.steps) =
              .error .notFound :=
            walkLinks_of_missing (descend_dropSlash h) hpassable rfl houter
          simp [makeDirectory, hcheck, walkSteps, hwalk, bind, Except.bind]
        have hcheck' := Path.checkPath_of_prefix hprefix hcheck habove.absolute
        have hpassable' : d.Passable outer :=
          fun further hfurther => hpassable further (hfurther.trans (List.suffix_cons _ _))
        obtain ⟨made, hmade⟩ := ih habove hcheck' hpassable' fun hplace => absurd hplace habovename
        -- By now the directory above exists, and nothing lies in it.
        have hmadeplain := (grows_of_makeDirectories hmade).keepsLinks.plain hplain
        have hmadedir := (hmadeplain.isDirectory_iff habove hcheck').1
          (isDirectory_of_makeDirectories (checkPath_eq_ok.1 hcheck').2.2 hmade)
        have hout : ¬name :: outer <:+ outer := fun h => Nat.not_succ_le_self _ h.length_le
        have hmadenone := hplain.get?_makeDirectories_of_not_suffix habove hout
        rw [hmade, hget] at hmadenone
        rw [makeDirectories] at hmade
        exact ⟨made.put (name :: outer) .directory,
          by simp only [hmissing, hmade, hmake hmadedir hmadenone]⟩

/-- A path that ends in `.` makes no directory where it leads, and is served where one lies. -/
theorem directory_of_endsInPlace (hplain : d.Plain) (h : p.LeadsDown there)
    (hcheck : checkPath p = .ok ()) (hend : p.EndsInPlace)
    (hok : (d.makeDirectories p).1 = .ok ()) : d.get? there = some .directory := by
  cases there with
  | nil => rfl
  | cons name outer =>
    obtain ⟨above, -, -, hancestors, habove, -⟩ := h.above
    have hnever {now made : Disk} : now.makeDirectory p ≠ .ok made :=
      fun hmade => not_endsInPlace_of_makeDirectory hmade hend
    have hout : ¬name :: outer <:+ outer := fun h => Nat.not_succ_le_self _ h.length_le
    have hkept := hplain.get?_makeDirectories_of_not_suffix habove hout
    have hgrows := d.grows_makeDirectories above
    rw [makeDirectories, hancestors, makeDirectoriesAlong, if_neg (checkPath_eq_ok.1 hcheck).2.2]
      at hok
    rw [makeDirectories] at hkept hgrows
    split at hok
    · next hmade => exact absurd hmade hnever
    · -- Only the directories above were made.
      split at hok
      · cases hok
      · next ready hready =>
        rw [hready] at hkept hgrows
        split at hok
        · next hmade => exact absurd hmade hnever
        · split at hok
          · next hdir =>
            exact hkept ▸ ((hgrows.keepsLinks.plain hplain).isDirectory_iff h hcheck).1 hdir
          · cases hok
    · split at hok
      · next hdir => exact (hplain.isDirectory_iff h hcheck).1 hdir
      · cases hok

/-- The directories on the way are made exactly when nothing else is in the way and the path does
not end in `.` where nothing lies. -/
theorem makeDirectories_iff (hplain : d.Plain) (h : p.LeadsDown there)
    (hcheck : checkPath p = .ok ()) :
    (d.makeDirectories p).1 = .ok () ↔
      d.Passable there ∧ (p.EndsInPlace → d.get? there = some .directory) := by
  constructor
  · intro hok
    rcases hmake : d.makeDirectories p with ⟨result, made⟩
    obtain rfl : result = .ok () := by simpa [hmake] using hok
    have hgrows := grows_of_makeDirectories hmake
    have hdir := ((hgrows.keepsLinks.plain hplain).isDirectory_iff h hcheck).1
      (isDirectory_of_makeDirectories (checkPath_eq_ok.1 hcheck).2.2 hmake)
    refine ⟨fun above habove entry hget => ?_, fun hend =>
      hplain.directory_of_endsInPlace h hcheck hend hok⟩
    exact Option.some.inj ((hgrows.get? hget).symm.trans (directory_of_suffix habove hdir))
  · rintro ⟨hpassable, hend⟩
    obtain ⟨made, hmade⟩ := hplain.exists_makeDirectories h hcheck hpassable hend
    rw [hmade]

/-- What is made are the directories on the way. -/
theorem get?_makeDirectories (hplain : d.Plain) (h : p.LeadsDown there)
    (hcheck : checkPath p = .ok ()) {made : Disk} (hmade : d.makeDirectories p = (.ok (), made))
    (location : Location) :
    made.get? location = if location <:+ there then some .directory else d.get? location := by
  split
  · next hsuffix =>
    have hmadeplain := (grows_of_makeDirectories hmade).keepsLinks.plain hplain
    exact directory_of_suffix hsuffix ((hmadeplain.isDirectory_iff h hcheck).1
      (isDirectory_of_makeDirectories (checkPath_eq_ok.1 hcheck).2.2 hmade))
  · next hsuffix =>
    have hkept := hplain.get?_makeDirectories_of_not_suffix h hsuffix
    rwa [hmade] at hkept

end Plain

end Disk

end CommandShell
