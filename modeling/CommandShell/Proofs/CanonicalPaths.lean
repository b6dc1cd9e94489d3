import CommandShell.Proofs.Losses
import CommandShell.Proofs.TreeCopies

/-!
# Paths folded by text and paths walked on a disk

Folding `.` and `..` away by the text alone never looks at a disk, while a walk goes through the
directories one by one. On a disk without symbolic links both agree: a canonical path is the normal
form, and whatever a path leads to is what its normal form leads to.

## Main definitions

* `Path.weight`: the number of bytes that some names take up, each with a separator.

## Main results

* `Path.size_normalize_le`: folding makes no absolute path longer, so that the normal form of a path
  that can be served can be served as well;
* `Disk.Plain.walk_normalize`: a walk along an absolute path and one along its normal form end at
  the same spot;
* `Disk.Plain.normalize_agrees`: canonical paths are normal forms, and so what is read from an
  absolute path is reached under its normal form.
-/

namespace CommandShell

/-! ## The length of a normal form -/

namespace Path

/-- The number of bytes that some names take up in a path, each with a separator. -/
def weight : List Bytes → Nat
  | [] => 0
  | name :: names => name.length + 1 + weight names

/-- One more name takes up its bytes and a separator. -/
@[simp]
theorem weight_cons (name : Bytes) (names : List Bytes) :
    weight (name :: names) = name.length + 1 + weight names := rfl

/-- A name less takes up no more. -/
theorem weight_tail_le (names : List Bytes) : weight names.tail ≤ weight names := by
  cases names with
  | nil => exact Nat.le_refl _
  | cons name names =>
    rw [weight_cons, List.tail_cons]
    omega

/-- The path of some names takes up what its names take up; that of no name is a separator. -/
theorem size_ofNames (names : List Bytes) :
    (ofNames names).size = if names = [] then 1 else weight names := by
  induction names with
  | nil => decide
  | cons name names ih =>
    rw [ofNames_cons, if_neg (List.cons_ne_nil _ _), weight_cons]
    by_cases hnil : names = []
    · rw [if_pos hnil, hnil, size, weight, List.length_cons]
    · rw [if_neg hnil, size] at ih
      rw [if_neg hnil, size, List.length_append, List.length_cons, ih]
      omega

/-- Folding segments leaves no more than the names before them and the segments take up. -/
theorem weight_foldl_foldSegment_le (segments names : List Bytes) :
    weight (segments.foldl foldSegment names) ≤ weight names + weight segments := by
  induction segments generalizing names with
  | nil => exact Nat.le_refl _
  | cons segment rest ih =>
    have hfold : weight (foldSegment names segment) ≤ weight names + (segment.length + 1) := by
      unfold foldSegment
      have := weight_tail_le names
      split
      · omega
      · split
        · omega
        · rw [weight_cons]
          omega
    have hrest := ih (foldSegment names segment)
    rw [List.foldl_cons, weight_cons]
    omega

/-- The segments of a text take up its bytes and one separator more. -/
theorem weight_splitOn (bytes : Bytes) :
    weight (bytes.splitOn separator) = bytes.length + 1 := by
  -- Between two segments stands one separator, so one is counted that the text does not have.
  have hjoined : ∀ segments : List Bytes, segments ≠ [] →
      weight segments = ([separator].intercalate segments).length + 1 := by
    intro segments hne
    induction segments with
    | nil => exact absurd rfl hne
    | cons segment rest ih =>
      cases rest with
      | nil => simp [weight]
      | cons next rest =>
        rw [weight_cons, ih (by simp), List.intercalate_cons_cons, List.length_append,
          List.length_append, List.length_singleton]
        omega
  rw [hjoined _ (List.splitOn_ne_nil _ _), List.intercalate_splitOn]

/-- Folding makes no absolute path longer. -/
theorem size_normalize_le {p : Path} (h : p.isAbsolute = true) : p.normalize.size ≤ p.size := by
  have hsize : p.size = p.bytes.tail.length + 1 := by
    rw [size, bytes_of_isAbsolute h, List.length_cons, List.tail_cons]
  -- The first segment is empty, and what stands in front of it is the separator of the root.
  have hfolded : weight p.folded ≤ p.size := by
    have hle := weight_foldl_foldSegment_le (p.bytes.tail.splitOn separator) []
    rw [weight_splitOn, ← hsize, show weight [] = 0 from rfl, Nat.zero_add] at hle
    rwa [folded, splitOn_of_isAbsolute h]
  rw [normalize_eq_ofNames h, size_ofNames]
  split
  · omega
  · exact hfolded

/-- An absolute path is read from the root as it is. -/
theorem root_join_of_isAbsolute {p : Path} (h : p.isAbsolute = true) : root.join p = p :=
  if_pos h

end Path

/-! ## Walks -/

namespace Disk

variable {d : Disk}

/-- Without links a walk that finds something takes the way that its steps lead, whatever it is
for. -/
theorem Ends.leads_of_plain {purpose : Purpose} {links : Nat} {here there : Location}
    {steps : List Step} (h : Ends d purpose links here steps (.found there)) (hplain : d.Plain) :
    Leads d 0 here steps there := by
  generalize hspot : Spot.found there = spot at h
  induction h with
  | done =>
    cases hspot
    exact .done
  | pass hdir hpast _ ih => exact .pass hdir hpast (ih hspot)
  | vacant => cases hspot
  | enter hget hlink _ ih => exact .enter hget hlink (ih hspot)
  | atLink hget => exact absurd hget (hplain _ _)
  | follow hget => exact absurd hget (hplain _ _)

namespace Plain

/-- Whatever a walk is for, it ends at a spot that the path of that spot leads to as well. -/
theorem walk_location (hplain : d.Plain) {purpose : Purpose} {p : Path} {spot : Spot}
    (h : d.walk purpose p = .ok spot) (hsize : spot.location.path.size < pathLimit) :
    d.walk purpose spot.location.path = .ok spot := by
  have hends := ends_of_walkLinks (walk_eq_ok h).2
  cases spot with
  | found there => exact hplain.walk_found purpose ((hends.leads_of_plain hplain).isSome rfl) hsize
  | vacant above name =>
    obtain ⟨hdir, hnone⟩ := hends.of_vacant
    exact hplain.walk_vacant purpose hdir hnone hsize

/-- A walk along an absolute path ends at the spot that has the normal form as its path, and the
normal form leads there too. -/
theorem walk_normalize (hplain : d.Plain) {purpose : Purpose} {p : Path} {spot : Spot}
    (habsolute : p.isAbsolute = true) (h : d.walk purpose p = .ok spot) :
    p.normalize = spot.location.path ∧ d.walk purpose p.normalize = .ok spot := by
  have hnormal : p.normalize = spot.location.path := by
    have hnames := hplain.names_of_walk h
    rwa [Path.Names, Path.root_join_of_isAbsolute habsolute] at hnames
  -- The path could be served, and its normal form is no longer.
  have hsize : p.size < pathLimit := (checkPath_eq_ok.1 (walk_eq_ok h).1).2.1
  have hle := Path.size_normalize_le habsolute
  rw [hnormal] at hle ⊢
  exact ⟨rfl, hplain.walk_location h (by omega)⟩

/-- **Folding agrees with walking.** On a disk without symbolic links the canonical path of an
absolute path, if there is one, is its normal form, however many `.`, `..` and separators it has and
even where `..` leads above the root. So whatever is typed and read from an absolute path, when it
leads to a spot, its normal form is the path of that spot and leads there for the same purpose. -/
theorem normalize_agrees (hplain : d.Plain) :
    (∀ p place : Path, p.isAbsolute = true → d.canonical p = .ok place → place = p.normalize) ∧
      ∀ (base : Path) (typed : String) (purpose : Purpose) (spot : Spot), base.isAbsolute = true →
        d.walk purpose (base.resolve typed) = .ok spot →
          (base.resolve typed).normalize = spot.location.path ∧
            d.walk purpose (base.resolve typed).normalize = .ok spot := by
  constructor
  · intro p place habsolute hcanonical
    rw [← hplain.normalize_of_canonical hcanonical, Path.root_join_of_isAbsolute habsolute]
  · intro base typed purpose spot habsolute hwalk
    exact hplain.walk_normalize (Path.isAbsolute_join habsolute (.ofString typed)) hwalk

/-- A path that leads above the root and one that is typed in a directory, both to one file. -/
theorem normalize_agrees_sideBySide :
    sideBySide.Plain ∧ sideBySide.canonical (.ofString "/../s/.//../s/f") = .ok someFile.path ∧
      Path.normalize (.ofString "/../s/.//../s/f") = someFile.path ∧
      sideBySide.walk .use (someTree.path.resolve "..//./t/../s/f") = .ok (.found someFile) ∧
      (someTree.path.resolve "..//./t/../s/f").normalize = someFile.path ∧
      sideBySide.walk .use (someTree.path.resolve "..//./t/../s/f").normalize =
        .ok (.found someFile) := by
  have hplain : sideBySide.Plain := plain_of_entries (by decide)
  obtain ⟨hnormal, hagrees⟩ := normalize_agrees hplain
  have hcanonical : sideBySide.canonical (.ofString "/../s/.//../s/f") = .ok someFile.path := by rfl
  have hwalk : sideBySide.walk .use (someTree.path.resolve "..//./t/../s/f") =
      .ok (.found someFile) := by rfl
  obtain ⟨hpath, hleads⟩ := hagrees someTree.path "..//./t/../s/f" .use _ (by decide +kernel) hwalk
  exact ⟨hplain, hcanonical, (hnormal _ _ (by decide +kernel) hcanonical).symm, hwalk, hpath,
    hleads⟩

end Plain

end Disk

end CommandShell
