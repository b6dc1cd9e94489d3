import CommandShell.Proofs.LexicalWalks
import Mathlib.Data.List.Induction
import Mathlib.Order.Bounds.Basic

/-!
# Normal forms

Folding keeps a stack of components: names on top, and below them the root or, for a relative path,
as many `..` as lead above its start. What comes later in a path is folded on the stack of what
comes before it, and the stack itself is spelled out and read back without change. From this the
laws of normal forms follow for every path, absolute or relative.

## Main definitions

* `Component.excess`: by how much `..` outweighs the names among some components.
* `Path.parts`: the components of a path without its root.
* `Path.stack`: the folded components of a path, the last one first.
* `Path.Below`: a path whose normal form descends from that of another one.

## Main results

* `Path.stack_join`: what is read from a directory is folded on the stack of the directory;
* `Path.components_normalize`: the normal form of a path has the components on its stack;
* `Path.stack_of_isAbsolute` and `Path.exists_climb`: what lies on a stack, and how many `..`;
* `Path.normalize_folds`: normal forms are reached in parts, and what they look like;
* `Path.isWithin_iff_below`: a path that is within another one lies below it, but for bases that
  keep nothing except `..`.
-/

namespace CommandShell

namespace Component

/-! ## Components -/

/-- Whether a component is a name. -/
def isName : Component → Bool
  | normal _ => true
  | _ => false

/-- By how much `..` outweighs the names among some components. -/
def excess (components : List Component) : ℤ :=
  components.count parent - components.countP isName

/-- Nothing outweighs nothing. -/
@[simp]
theorem excess_nil : excess [] = 0 := rfl

/-- The excess of two parts is that of both together. -/
theorem excess_append (front back : List Component) :
    excess (front ++ back) = excess front + excess back := by
  simp only [excess, List.count_append, List.countP_append, Int.natCast_add]
  omega

/-- A `.` weighs nothing. -/
theorem excess_current_cons (components : List Component) :
    excess (current :: components) = excess components := by
  simp [excess, isName]

/-- The excesses of all that some components begin with. -/
def excesses (components : List Component) : Set ℤ :=
  {e | ∃ front, front <+: components ∧ excess front = e}

/-- Without components there is no excess. -/
theorem isGreatest_excesses_nil : IsGreatest (excesses []) 0 := by
  refine ⟨⟨[], List.prefix_rfl, rfl⟩, ?_⟩
  rintro _ ⟨front, hfront, rfl⟩
  rw [List.prefix_nil.1 hfront, excess_nil]

/-- One more component at the end adds the excess of all of them. -/
theorem excesses_concat (components : List Component) (c : Component) :
    excesses (components ++ [c]) = insert (excess (components ++ [c])) (excesses components) := by
  ext e
  constructor
  · rintro ⟨front, hfront, rfl⟩
    rcases List.prefix_concat_iff.1 hfront with rfl | hinner
    · exact .inl rfl
    · exact .inr ⟨front, hinner, rfl⟩
  · rintro (rfl | ⟨front, hfront, rfl⟩)
    · exact ⟨_, List.prefix_rfl, rfl⟩
    · exact ⟨front, hfront.trans (List.prefix_append _ _), rfl⟩

/-- A `.` at the start changes no excess. -/
theorem excesses_current_cons (components : List Component) :
    excesses (current :: components) = excesses components := by
  ext e
  constructor
  · rintro ⟨front, hfront, rfl⟩
    rcases List.prefix_cons_iff.1 hfront with rfl | ⟨inner, rfl, hinner⟩
    · exact ⟨[], List.nil_prefix, rfl⟩
    · exact ⟨inner, hinner, (excess_current_cons inner).symm⟩
  · rintro ⟨front, hfront, rfl⟩
    exact ⟨current :: front, List.cons_prefix_cons.2 ⟨rfl, hfront⟩, excess_current_cons front⟩

/-- A component that the segment with its text stands for. -/
def Spelled (c : Component) : Prop :=
  separator ∉ c.bytes ∧ ofSegment? c.bytes = some c

/-- What a segment stands for is spelled like the segment. -/
theorem spelled_of_ofSegment? {segment : Bytes} {c : Component} (hslash : separator ∉ segment)
    (h : ofSegment? segment = some c) : c.Spelled := by
  have htext : c.bytes = segment := by
    unfold ofSegment? at h
    split at h
    · cases h
    · split at h
      · next hparent =>
        cases h
        exact hparent.symm
      · cases h
        rfl
  exact ⟨htext ▸ hslash, htext ▸ h⟩

/-- A component that is spelled has a text. -/
theorem Spelled.bytes_ne {c : Component} (h : c.Spelled) : c.bytes ≠ [] := by
  intro hempty
  simpa [hempty, ofSegment?] using h.2

/-- The text of a component that is spelled is not `.`. -/
theorem Spelled.bytes_ne_current {c : Component} (h : c.Spelled) : c.bytes ≠ [dot] := by
  intro hcurrent
  simpa [hcurrent, ofSegment?] using h.2

/-- Components that are spelled stand for themselves. -/
theorem filterMap_spelled {components : List Component} (h : ∀ c ∈ components, c.Spelled) :
    (components.map fun c => c.bytes).filterMap ofSegment? = components := by
  induction components with
  | nil => rfl
  | cons c rest ih =>
    rw [List.map_cons, List.filterMap_cons_some (h c (by simp)).2,
      ih fun other hother => h other (by simp [hother])]

/-- What is folded lies on the stack, or it lay there before. -/
theorem mem_foldl_fold {components stack : List Component} {c : Component}
    (h : c ∈ components.foldl fold stack) : c ∈ stack ∨ c ∈ components := by
  induction components generalizing stack with
  | nil => exact .inl h
  | cons first rest ih =>
    rcases ih h with hstack | hrest
    · -- One component at most is put on the stack.
      have hfold : c ∈ stack ∨ c = first := by
        unfold fold at hstack
        split at hstack
        · exact .inl hstack
        · exact .inl (List.mem_cons_of_mem _ hstack)
        · exact .inl hstack
        · exact (List.mem_cons.1 hstack).symm
      exact hfold.imp_right fun hfirst => List.mem_cons.2 (.inl hfirst)
    · exact .inr (List.mem_cons_of_mem _ hrest)

/-- Where only `..` lie they are kept. -/
theorem foldl_fold_replicate (n m : ℕ) :
    (List.replicate n parent).foldl fold (List.replicate m parent) =
      List.replicate (n + m) parent := by
  induction n generalizing m with
  | zero => rw [Nat.zero_add]; rfl
  | succ n ih =>
    have hfold : fold (List.replicate m parent) parent = List.replicate (m + 1) parent := by
      cases m <;> rfl
    rw [List.replicate_succ, List.foldl_cons, hfold, ih, Nat.add_right_comm, Nat.add_assoc]

end Component

namespace Path

open Component

/-! ## Parts -/

/-- The components that the segments of a path stand for, without its root. -/
def parts (p : Path) : List Component :=
  (p.bytes.splitOn separator).filterMap ofSegment?

/-- What a path consists of is spelled. -/
theorem spelled_of_mem_parts {p : Path} {c : Component} (h : c ∈ p.parts) : c.Spelled := by
  obtain ⟨segment, hsegment, hc⟩ := List.mem_filterMap.1 h
  exact spelled_of_ofSegment? (slash_notMem_of_mem_splitOn hsegment) hc

/-- The components of a path are its parts behind the root, behind a `.` at the start, or alone. -/
theorem components_eq (p : Path) :
    p.components = (if p.isAbsolute then [.root] else []) ++ p.parts ∨
      p.isAbsolute = false ∧ (p.bytes.splitOn separator).head? = some [dot] ∧
        p.components = .current :: p.parts := by
  by_cases habsolute : p.isAbsolute = true
  · rw [if_pos habsolute, components_of_isAbsolute habsolute, lastSegments,
      filterMap_dropVoidSegments, List.reverse_reverse, parts, splitOn_of_isAbsolute habsolute]
    exact .inl rfl
  · rw [Bool.not_eq_true] at habsolute
    rw [habsolute, components, componentsOfBytes.eq_def, parts]
    split
    · next hslash => simp [isAbsolute, hslash] at habsolute
    · split
      · next hcurrent =>
        rw [hcurrent]
        exact .inr ⟨rfl, rfl, rfl⟩
      · exact .inl rfl

/-- What is read from a directory comes behind the parts of the directory. -/
theorem parts_join (directory : Path) {p : Path} (h : p.isAbsolute = false) :
    (directory.join p).parts = directory.parts ++ p.parts := by
  rw [join, if_neg (by simp [h])]
  split
  · next hend =>
    rcases hend with hempty | hslash
    · simp [parts, hempty, ofSegment?]
    · -- The separator that the directory ends in stands between the two.
      obtain ⟨front, hfront⟩ := List.getLast?_eq_some_iff.1 hslash
      simp [parts, hfront, List.splitOn_append_cons_self, ofSegment?]
  · simp [parts, List.splitOn_append_cons_self]

/-- What is relative is as absolute as the directory that it is read from. -/
theorem isAbsolute_join_of_relative (directory : Path) {p : Path} (h : p.isAbsolute = false) :
    (directory.join p).isAbsolute = directory.isAbsolute := by
  rw [join, if_neg (by simp [h])]
  cases htext : directory.bytes with
  | nil =>
    rw [if_pos (.inl rfl)]
    simpa [isAbsolute, htext] using h
  | cons first rest =>
    split <;> simp [isAbsolute, htext]

/-! ## Stacks -/

/-- What is left of a path when it is folded, the last component first. -/
def stack (p : Path) : List Component :=
  p.components.foldl fold []

/-- The normal form of a path spells its stack. -/
theorem normalize_eq (p : Path) : p.normalize = ofComponents p.stack.reverse := rfl

/-- The parts of a path are folded on its root, if it has one. -/
theorem stack_eq (p : Path) :
    p.stack = p.parts.foldl fold (if p.isAbsolute then [.root] else []) := by
  rcases p.components_eq with hparts | ⟨hrelative, -, hparts⟩
  · rw [stack, hparts, List.foldl_append]
    split <;> rfl
  · rw [stack, hparts, hrelative]
    rfl

/-- What is read from a directory is folded on the stack of the directory. -/
theorem stack_join (directory : Path) {p : Path} (h : p.isAbsolute = false) :
    (directory.join p).stack = p.parts.foldl fold directory.stack := by
  rw [stack_eq, parts_join directory h, isAbsolute_join_of_relative directory h,
    List.foldl_append, ← stack_eq]

/-- The stack of an absolute path: the names that are left, and the root below them. -/
theorem stack_of_isAbsolute {p : Path} (h : p.isAbsolute = true) :
    p.stack = p.folded.map .normal ++ [.root] := by
  rw [stack_eq, if_pos h, parts, folded, ← foldl_fold_root]
  rfl

/-- One more segment on names that stand on some `..`: there is one `..` more when it outweighs all
that there was before. -/
theorem fold_of_ofSegment? {segment : Bytes} {c : Component} (h : ofSegment? segment = some c)
    (names : List Bytes) (climb : ℕ) :
    ∃ next : ℕ,
      fold (names.map .normal ++ List.replicate climb .parent) c =
          (foldSegment names segment).map .normal ++ List.replicate next .parent ∧
        (next : ℤ) - (foldSegment names segment).length = climb - names.length + excess [c] ∧
        (next : ℤ) = max (climb - names.length + excess [c]) climb := by
  have hvoid : ¬(segment = [] ∨ segment = [dot]) := by
    rintro (rfl | rfl) <;> cases h
  rw [ofSegment?, if_neg hvoid] at h
  rw [foldSegment, if_neg hvoid]
  by_cases hparent : segment = [dot, dot]
  · rw [if_pos hparent] at h ⊢
    obtain rfl := Option.some.inj h
    have hexcess : excess [.parent] = 1 := rfl
    cases names with
    | nil =>
      -- No name is left that could be taken back.
      refine ⟨climb + 1, ?_, ?_, ?_⟩
      · cases climb <;> rfl
      · simp [hexcess]
      · rw [hexcess, List.length_nil]
        omega
    | cons name names =>
      refine ⟨climb, rfl, ?_, ?_⟩
      · rw [hexcess, List.tail_cons, List.length_cons]
        omega
      · rw [hexcess, List.length_cons]
        omega
  · rw [if_neg hparent] at h ⊢
    obtain rfl := Option.some.inj h
    have hexcess : excess [normal segment] = -1 := rfl
    refine ⟨climb, ?_, ?_, ?_⟩
    · cases names with
      | nil => cases climb <;> rfl
      | cons name names => rfl
    · rw [hexcess, List.length_cons]
      omega
    · rw [hexcess]
      omega

/-- Segments that fold on nothing leave names, and below them as many `..` as outweigh the names
before them. -/
theorem exists_foldl_fold (segments : List Bytes) :
    ∃ climb : ℕ,
      (segments.filterMap ofSegment?).foldl fold [] =
          (segments.foldl foldSegment []).map .normal ++ List.replicate climb .parent ∧
        (climb : ℤ) - (segments.foldl foldSegment []).length =
          excess (segments.filterMap ofSegment?) ∧
        IsGreatest (excesses (segments.filterMap ofSegment?)) climb := by
  -- The induction takes the segments from the start; each one changes the stack at its top.
  induction segments using List.reverseRecOn with
  | nil => exact ⟨0, rfl, rfl, isGreatest_excesses_nil⟩
  | append_singleton segments segment ih =>
    obtain ⟨climb, hstack, hexcess, hgreatest⟩ := ih
    rw [List.filterMap_append, List.foldl_append, List.foldl_append, hstack]
    cases hc : ofSegment? segment with
    | none =>
      have hvoid : segment = [] ∨ segment = [dot] := by
        by_contra hnot
        rw [ofSegment?, if_neg hnot] at hc
        split at hc <;> cases hc
      rw [List.filterMap_cons_none hc, List.filterMap_nil, List.append_nil, List.foldl_cons,
        foldSegment, if_pos hvoid]
      exact ⟨climb, rfl, hexcess, hgreatest⟩
    | some c =>
      obtain ⟨next, hfold, hlength, hmax⟩ :=
        fold_of_ofSegment? hc (segments.foldl foldSegment []) climb
      rw [List.filterMap_cons_some hc, List.filterMap_nil, List.foldl_cons, List.foldl_nil,
        List.foldl_cons, List.foldl_nil, excess_append, excesses_concat, ← hexcess]
      rw [hexcess] at hmax
      refine ⟨next, hfold, hlength, ?_⟩
      rw [hmax, excess_append]
      exact hgreatest.insert _

/-- The stack of a relative path: the names that are left, and below them as many `..` as lead above
its start. -/
theorem exists_climb {p : Path} (h : p.isAbsolute = false) :
    ∃ climb : ℕ, p.stack = p.folded.map .normal ++ List.replicate climb .parent ∧
      IsGreatest (excesses p.components) climb := by
  obtain ⟨climb, hstack, -, hgreatest⟩ := exists_foldl_fold (p.bytes.splitOn separator)
  refine ⟨climb, ?_, ?_⟩
  · rw [stack_eq, h]
    exact hstack
  · rcases p.components_eq with hparts | ⟨-, -, hparts⟩
    · rw [h] at hparts
      rw [hparts]
      exact hgreatest
    · rw [hparts, excesses_current_cons]
      exact hgreatest

/-! ## Spelling a stack -/

/-- What lies on the stack of a relative path is spelled. -/
theorem spelled_of_mem_stack {p : Path} (h : p.isAbsolute = false) {c : Component}
    (hc : c ∈ p.stack) : c.Spelled := by
  rw [stack_eq, h] at hc
  rcases mem_foldl_fold hc with hnil | hparts
  · cases hnil
  · exact spelled_of_mem_parts hparts

/-- A component that is spelled is no absolute path. -/
theorem isAbsolute_of_spelled {c : Component} (h : c.Spelled) : isAbsolute ⟨c.bytes⟩ = false := by
  cases htext : c.bytes with
  | nil => rfl
  | cons first rest =>
    have hfirst : first ≠ separator := fun he => h.1 (by simp [htext, he])
    simp [isAbsolute, hfirst]

/-- Components are spelled one after the other. -/
theorem ofComponents_concat (components : List Component) (c : Component) :
    ofComponents (components ++ [c]) = (ofComponents components).join ⟨c.bytes⟩ := by
  rw [ofComponents, List.foldl_append]
  rfl

/-- What ends in a component that is spelled has a text, which does not end in a separator. -/
theorem bytes_ofComponents_ends {components : List Component} (hne : components ≠ [])
    (h : ∀ c ∈ components, c.Spelled) :
    (ofComponents components).bytes ≠ [] ∧
      (ofComponents components).bytes.getLast? ≠ some separator := by
  obtain ⟨front, c, rfl⟩ : ∃ front c, components = front ++ [c] :=
    ⟨_, _, (List.dropLast_concat_getLast hne).symm⟩
  have hc := h c (by simp)
  obtain ⟨before, hbefore⟩ : ∃ before, (ofComponents (front ++ [c])).bytes = before ++ c.bytes := by
    rw [ofComponents_concat, join, isAbsolute_of_spelled hc]
    split
    · contradiction
    · split
      · exact ⟨_, rfl⟩
      · exact ⟨(ofComponents front).bytes ++ [separator], by simp⟩
  have hlast := List.getLast?_eq_some_getLast hc.bytes_ne
  rw [hbefore]
  constructor
  · intro hempty
    exact hc.bytes_ne (List.append_eq_nil_iff.1 hempty).2
  · rw [List.getLast?_append, hlast, Option.some_or]
    intro hslash
    exact hc.1 (Option.some.inj hslash ▸ List.getLast_mem hc.bytes_ne)

/-- Components that are spelled are joined with separators between them. -/
theorem bytes_ofComponents {components : List Component} (h : ∀ c ∈ components, c.Spelled) :
    (ofComponents components).bytes =
      [separator].intercalate (components.map Component.bytes) := by
  induction components using List.reverseRecOn with
  | nil => rfl
  | append_singleton components c ih =>
    have hcomponents : ∀ other ∈ components, other.Spelled := fun other hother =>
      h other (by simp [hother])
    rw [ofComponents_concat, join, isAbsolute_of_spelled (h c (by simp)), List.map_append]
    by_cases hnil : components = []
    · subst hnil
      simp [ofComponents]
    · obtain ⟨htext, hlast⟩ := bytes_ofComponents_ends hnil hcomponents
      rw [List.map_singleton, intercalate_concat (by simpa using hnil), ← ih hcomponents]
      simp [htext, hlast]

/-- Components that are spelled are read back, and make a relative path. -/
theorem components_ofComponents {components : List Component} (h : ∀ c ∈ components, c.Spelled) :
    (ofComponents components).components = components ∧
      (ofComponents components).isAbsolute = false := by
  have hsegments : (ofComponents components).bytes =
      [separator].intercalate (components.map fun c => c.bytes) := bytes_ofComponents h
  cases components with
  | nil => exact ⟨by decide, by decide⟩
  | cons c rest =>
    have hslash : ∀ segment ∈ (c :: rest).map fun c => c.bytes, separator ∉ segment := by
      intro segment hsegment
      obtain ⟨other, hother, rfl⟩ := List.mem_map.1 hsegment
      exact (h other hother).1
    have hsplit := List.splitOn_intercalate separator hslash (by simp)
    rw [← hsegments] at hsplit
    -- The text begins with that of the first component, which is neither empty nor `.`.
    have hfirst := h c (by simp)
    have hrelative : (ofComponents (c :: rest)).isAbsolute = false := by
      by_contra habsolute
      rw [Bool.not_eq_false] at habsolute
      have hroot := splitOn_of_isAbsolute habsolute
      rw [hsplit, List.map_cons] at hroot
      exact hfirst.bytes_ne (List.cons.inj hroot).1
    refine ⟨?_, hrelative⟩
    rcases (ofComponents (c :: rest)).components_eq with hparts | ⟨-, hcurrent, -⟩
    · rw [hparts, hrelative, parts, hsplit, filterMap_spelled h]
      rfl
    · rw [hsplit, List.map_cons, List.head?_cons] at hcurrent
      exact absurd (Option.some.inj hcurrent) hfirst.bytes_ne_current

/-! ## Normal forms -/

/-- The normal form of a path has the components on its stack. -/
theorem components_normalize (p : Path) : p.normalize.components = p.stack.reverse := by
  by_cases habsolute : p.isAbsolute = true
  · rw [normalize_eq_ofNames habsolute, components_ofNames p.isName_of_mem_folded,
      stack_of_isAbsolute habsolute, List.reverse_append, ← List.map_reverse]
    rfl
  · rw [Bool.not_eq_true] at habsolute
    exact (components_ofComponents fun c hc =>
      spelled_of_mem_stack habsolute (List.mem_reverse.1 hc)).1

/-- The normal form of a path is absolute when the path is. -/
theorem isAbsolute_normalize (p : Path) : p.normalize.isAbsolute = p.isAbsolute := by
  by_cases habsolute : p.isAbsolute = true
  · rw [normalize_eq_ofNames habsolute, isAbsolute_ofNames, habsolute]
  · rw [Bool.not_eq_true] at habsolute
    rw [habsolute]
    exact (components_ofComponents fun c hc =>
      spelled_of_mem_stack habsolute (List.mem_reverse.1 hc)).2

/-- What is left of a path is left of it again. -/
theorem stack_normalize (p : Path) : p.normalize.stack = p.stack := by
  rw [stack, components_normalize]
  by_cases habsolute : p.isAbsolute = true
  · rw [stack_of_isAbsolute habsolute, List.reverse_append, List.foldl_append, ← List.map_reverse,
      foldl_fold_names, ← List.map_reverse, List.reverse_reverse]
    rfl
  · rw [Bool.not_eq_true] at habsolute
    obtain ⟨climb, hstack, -⟩ := exists_climb habsolute
    have hclimb := foldl_fold_replicate climb 0
    rw [List.replicate_zero, Nat.add_zero] at hclimb
    rw [hstack, List.reverse_append, List.reverse_replicate, List.foldl_append, hclimb,
      ← List.map_reverse, foldl_fold_names, ← List.map_reverse, List.reverse_reverse]

/-- Folding what is read from a directory may start with the normal form of the directory. -/
theorem normalize_join (directory p : Path) :
    (directory.normalize.join p).normalize = (directory.join p).normalize := by
  by_cases habsolute : p.isAbsolute = true
  · rw [join, join, if_pos habsolute, if_pos habsolute]
  · rw [Bool.not_eq_true] at habsolute
    have hstack : (directory.normalize.join p).stack = (directory.join p).stack := by
      rw [stack_join _ habsolute, stack_join _ habsolute, stack_normalize]
    rw [normalize_eq (directory.normalize.join p), hstack, ← normalize_eq]

/-- A normal form is its own normal form. -/
theorem normalize_normalize (p : Path) : p.normalize.normalize = p.normalize := by
  rw [normalize_eq p.normalize, stack_normalize, ← normalize_eq]

/-- The components of the normal form of an absolute path: the root and names. -/
theorem components_normalize_of_isAbsolute {p : Path} (h : p.isAbsolute = true) :
    p.normalize.components = .root :: p.folded.reverse.map .normal := by
  rw [components_normalize, stack_of_isAbsolute h, List.reverse_append, ← List.map_reverse]
  rfl

/-- The components of the normal form of a relative path: `..`, and then names. -/
theorem exists_components_normalize {p : Path} (h : p.isAbsolute = false) :
    ∃ climb : ℕ, p.normalize.components =
        List.replicate climb .parent ++ p.folded.reverse.map .normal ∧
      IsGreatest (excesses p.components) climb := by
  obtain ⟨climb, hstack, hgreatest⟩ := exists_climb h
  refine ⟨climb, ?_, hgreatest⟩
  rw [components_normalize, hstack, List.reverse_append, List.reverse_replicate, ← List.map_reverse]

/-- **Folding in parts.** The normal form of what is read from a directory depends on the normal
form of the directory only, and a normal form is its own. That of an absolute path is absolute, and
has nothing but names behind the root. That of a relative path is relative and begins with `..`, as
many times as `..` outweighs the names at most where the path is cut off anywhere; behind them it
has nothing but names. -/
theorem normalize_folds (directory p : Path) :
    (directory.join p).normalize = (directory.normalize.join p).normalize ∧
      p.normalize.normalize = p.normalize ∧
      p.normalize.isAbsolute = p.isAbsolute ∧
      if p.isAbsolute then
        ∃ names : List Bytes, p.normalize.components = .root :: names.map .normal
      else
        ∃ (climb : ℕ) (names : List Bytes),
          p.normalize.components = List.replicate climb .parent ++ names.map .normal ∧
            IsGreatest (excesses p.components) climb := by
  refine ⟨(normalize_join directory p).symm, p.normalize_normalize, p.isAbsolute_normalize, ?_⟩
  split
  · next habsolute => exact ⟨_, components_normalize_of_isAbsolute habsolute⟩
  · next hrelative =>
    obtain ⟨climb, hcomponents, hgreatest⟩ :=
      exists_components_normalize (Bool.not_eq_true _ ▸ hrelative)
    exact ⟨climb, _, hcomponents, hgreatest⟩

/-! ## Lying below -/

/-- A path lies below another one, or is that one: its normal form has the components of that of the
other, and behind them names only. -/
def Below (p base : Path) : Prop :=
  ∃ names : List Bytes, p.normalize.components = base.normalize.components ++ names.map .normal

/-- A path leads out of another one that keeps nothing except `..`: it begins with one `..` more, or
at the root when the other one keeps nothing at all. -/
def ClimbsOut (p base : Path) : Prop :=
  ∃ climb : ℕ, base.normalize.components = List.replicate climb .parent ∧
    (List.replicate (climb + 1) .parent <+: p.normalize.components ∨
      climb = 0 ∧ p.isAbsolute = true)

/-- A path is within another one when its normal form begins with the components of the other. -/
theorem isWithin_iff_begins {p base : Path} :
    p.isWithin base = true ↔ base.normalize.components <+: p.normalize.components :=
  List.isPrefixOf_iff_prefix

/-- A normal form begins with what its first components, which are no names, begin with, or it has
more names than what it begins with. -/
theorem below_or_of_begins {p base : Path} {ground : List Component} {names : List Bytes}
    (hp : p.normalize.components = ground ++ names.map .normal)
    (h : base.normalize.components <+: p.normalize.components) :
    p.Below base ∨ ∃ c rest, ground = base.normalize.components ++ c :: rest := by
  obtain ⟨rest, hrest⟩ := h
  rw [hp] at hrest
  rcases List.append_eq_append_iff.1 hrest with ⟨more, hground, hnames⟩ | ⟨front, hbase, hnames⟩
  · cases more with
    | nil => exact .inl ⟨names, by rw [hp, hground, List.append_nil]⟩
    | cons c more => exact .inr ⟨c, more, hground⟩
  · -- The other one has all that is no name, so only names are left.
    obtain ⟨outer, inner, rfl, rfl, rfl⟩ := List.map_eq_append_iff.1 hnames
    exact .inl ⟨inner, by rw [hp, hbase, List.map_append, List.append_assoc]⟩

/-- A path that is within another one lies below it, or leads out of it. -/
theorem below_or_climbsOut {p base : Path}
    (h : base.normalize.components <+: p.normalize.components) :
    p.Below base ∨ p.ClimbsOut base := by
  by_cases habsolute : p.isAbsolute = true
  · have hp := components_normalize_of_isAbsolute habsolute
    rw [← List.singleton_append] at hp
    refine (below_or_of_begins hp h).imp_right fun ⟨c, rest, hground⟩ => ?_
    -- Before the root there is nothing.
    obtain ⟨hbase, -⟩ | ⟨-, hbase⟩ := List.append_eq_singleton_iff.1 hground.symm
    · exact ⟨0, hbase, .inr ⟨rfl, habsolute⟩⟩
    · cases hbase
  · obtain ⟨climb, hp, -⟩ := exists_components_normalize (Bool.not_eq_true _ ▸ habsolute)
    refine (below_or_of_begins hp h).imp_right fun ⟨c, rest, hground⟩ => ?_
    -- Before a `..` there are only others.
    obtain ⟨hlength, hbase, -⟩ := List.append_eq_replicate_iff.1 hground.symm
    refine ⟨base.normalize.components.length, hbase, .inl ?_⟩
    have hclimb : climb = base.normalize.components.length + 1 + rest.length := by
      rw [List.length_cons] at hlength
      omega
    have hparents := List.replicate_append_replicate
      (n := base.normalize.components.length + 1) (m := rest.length) (a := Component.parent)
    rw [hp, hclimb, ← hparents, List.append_assoc]
    exact List.prefix_append _ _

/-- What leads out of a path does not lie below it. -/
theorem ClimbsOut.not_below {p base : Path} (h : p.ClimbsOut base) : ¬p.Below base := by
  rintro ⟨names, hp⟩
  obtain ⟨climb, hbase, hprefix | ⟨rfl, habsolute⟩⟩ := h
  · -- The first component behind those of the base would be a `..` and a name.
    rw [hp, hbase, List.replicate_succ', List.prefix_append_right_inj] at hprefix
    obtain ⟨rest, hrest⟩ := hprefix
    cases names <;> cases hrest
  · rw [hbase, components_normalize_of_isAbsolute habsolute] at hp
    cases names <;> cases hp

/-- **Containment.** A path is within another one exactly when it lies below it or leads out of it,
and it never does both. So a path that is within a base lies below it unless the base keeps nothing
except `..`. -/
theorem isWithin_iff_below (p base : Path) :
    (p.isWithin base = true ↔ p.Below base ∨ p.ClimbsOut base) ∧
      ¬(p.Below base ∧ p.ClimbsOut base) := by
  refine ⟨?_, fun h => h.2.not_below h.1⟩
  rw [isWithin_iff_begins]
  constructor
  · exact below_or_climbsOut
  · rintro (⟨names, hp⟩ | ⟨climb, hbase, hprefix | ⟨rfl, -⟩⟩)
    · exact hp ▸ List.prefix_append _ _
    · rw [hbase]
      rw [List.replicate_succ'] at hprefix
      exact (List.prefix_append _ _).trans hprefix
    · rw [hbase]
      exact List.nil_prefix

/-- The directory above the one above is taken to be within the one above. -/
theorem isWithin_of_climbing :
    isWithin (.ofString "../..") (.ofString "..") = true ∧
      ¬Below (.ofString "../..") (.ofString "..") := by
  refine ⟨by decide +kernel, ?_⟩
  rintro ⟨names, hp⟩
  have hpath : (normalize (.ofString "../..")).components = [.parent, .parent] := by decide +kernel
  have hbase : (normalize (.ofString "..")).components = [.parent] := by decide +kernel
  rw [hpath, hbase] at hp
  cases names <;> cases hp

end Path

end CommandShell
