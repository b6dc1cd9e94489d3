import CommandShell.Disk.Entries

/-!
# Disks

A disk is a finite tree of directories, files, symbolic links and devices, kept as a list of
locations with what lies there. The root is always a directory and is not listed.

A disk holds names and contents and nothing else. A file has one name only, there are no hard links;
there are no owners, access rights or times, so no access is denied; the only special files are the
devices; and neither the room for contents and names nor the number of files that are open at once
has a bound. How a machine may still fail with an opened file is said by `Host`.

- `Disk.get?`: what lies at a location; two disks are alike when they agree on it.
- `Disk.put`, `Disk.remove`: the two changes. Both keep the tree a tree: nothing is put where its
  directory is missing, and no directory is replaced or removed while it has entries.
- `Disk.children`: the names in a directory, in the order in which they were put there.
- `get?_put`, `get?_remove`: the changes through the view.
-/

namespace CommandShell

/-- A tree of entries. -/
structure Disk where
  /-- Every location but the root, with what lies there. -/
  entries : List (Location × Entry)
  /-- Nothing lies twice at one location. -/
  nodup : (entries.map Prod.fst).Nodup
  /-- Everything lies in a directory. -/
  inDirectory : ∀ placed ∈ entries, placed.1 ≠ [] ∧ entryAt entries placed.1.tail = some .directory

namespace Disk

/-- What lies at a location. -/
def get? (d : Disk) (location : Location) : Option Entry :=
  entryAt d.entries location

/-- The names in a directory, oldest first. -/
def children (d : Disk) (directory : Location) : List FileName :=
  d.entries.filterMap fun placed =>
    match placed.1 with
    | name :: above => if above = directory then some name else none
    | [] => none

/-- The disk that has only its root. -/
def empty : Disk where
  entries := []
  nodup := by simp
  inDirectory := by simp

/-- The root is a directory. -/
@[simp]
theorem get?_root (d : Disk) : d.get? [] = some .directory := rfl

/-- Away from the root an empty disk has nothing. -/
@[simp]
theorem get?_empty (location : Location) :
    empty.get? location = if location = [] then some .directory else none := rfl

/-! ## Putting -/

/-- An entry may be put where a directory holds the place, and where neither a directory is lost
nor anything but a directory becomes one. -/
def Accepts (d : Disk) (location : Location) (entry : Entry) : Prop :=
  location ≠ [] ∧ d.get? location.tail = some .directory ∧
    (d.get? location = none ∨ (d.get? location ≠ some .directory ∧ entry ≠ .directory))

/-- Whether an entry may be put somewhere can be decided. -/
instance (d : Disk) (location : Location) (entry : Entry) :
    Decidable (d.Accepts location entry) := by
  unfold Accepts
  infer_instance

/-- Putting an entry that is accepted keeps every directory that holds something. -/
theorem entryAt_placeIn {d : Disk} {location : Location} {entry : Entry}
    (h : d.Accepts location entry) (other : Location) :
    entryAt (placeIn d.entries location entry) other =
      if other = location then some entry else d.get? other := by
  by_cases ho : other = []
  · subst ho
    have : ¬([] : Location) = location := fun e => h.1 e.symm
    simp [entryAt, this]
  · simp [entryAt, ho, lookup_placeIn, get?]

/-- The disk with an entry put at a location, in the place of what lies there if it is no directory.
Where the disk does not accept the entry it stays as it is. -/
def put (d : Disk) (location : Location) (entry : Entry) : Disk :=
  if h : d.Accepts location entry then
    { entries := placeIn d.entries location entry
      nodup := by
        rw [map_fst_placeIn]
        split
        · exact d.nodup
        · next hn =>
          rw [List.nodup_append]
          refine ⟨d.nodup, by simp, ?_⟩
          intro a ha b hb
          simp only [List.mem_singleton] at hb
          exact fun e => hn (hb ▸ e ▸ ha)
      inDirectory := by
        intro placed hp
        have keep : ∀ l, d.get? l = some .directory →
            entryAt (placeIn d.entries location entry) l = some .directory := by
          intro l hl
          rw [entryAt_placeIn h]
          split
          · next e =>
            subst e
            rcases h.2.2 with hnone | ⟨hdir, _⟩
            · rw [hnone] at hl
              cases hl
            · exact absurd hl hdir
          · exact hl
        rcases mem_placeIn hp with rfl | hold
        · exact ⟨h.1, keep _ h.2.1⟩
        · exact ⟨(d.inDirectory placed hold).1, keep _ (d.inDirectory placed hold).2⟩ }
  else d

/-- What lies where after an accepted entry was put. -/
theorem get?_put {d : Disk} {location : Location} {entry : Entry} (h : d.Accepts location entry)
    (other : Location) :
    (d.put location entry).get? other = if other = location then some entry else d.get? other := by
  rw [put, dif_pos h]
  exact entryAt_placeIn h other

/-- Only the location itself can change. -/
theorem get?_put_of_ne (d : Disk) {location other : Location} (entry : Entry)
    (h : other ≠ location) : (d.put location entry).get? other = d.get? other := by
  by_cases ha : d.Accepts location entry
  · rw [get?_put ha, if_neg h]
  · rw [put, dif_neg ha]

/-! ## Removing -/

/-- A location can be removed when it is not the root and nothing lies in it. -/
def Removable (d : Disk) (location : Location) : Prop :=
  location ≠ [] ∧ d.children location = []

/-- Whether a location can be removed is decidable. -/
instance (d : Disk) (location : Location) : Decidable (d.Removable location) := by
  unfold Removable
  infer_instance

/-- A name is listed in a directory exactly when something lies there under that name. -/
theorem mem_children_iff (d : Disk) (directory : Location) (name : FileName) :
    name ∈ d.children directory ↔ (d.get? (name :: directory)).isSome := by
  rw [get?, entryAt, if_neg (by simp), lookup_isSome_iff, children, List.mem_filterMap,
    List.mem_map]
  constructor
  · rintro ⟨⟨location, entry⟩, hmem, hname⟩
    refine ⟨_, hmem, ?_⟩
    cases location with
    | nil => simp at hname
    | cons first above =>
      simp only [Option.ite_none_right_eq_some, Option.some.injEq] at hname
      simp [hname]
  · rintro ⟨placed, hmem, hloc⟩
    exact ⟨placed, hmem, by simp [hloc]⟩

/-- No name is twice in a directory. -/
theorem nodup_children (d : Disk) (directory : Location) : (d.children directory).Nodup := by
  rw [children, List.Nodup, List.pairwise_filterMap]
  refine (List.pairwise_map.1 d.nodup).imp ?_
  rintro ⟨_ | ⟨first, above⟩, entry⟩ ⟨_ | ⟨second, beside⟩, other⟩ hne name hname same hsame
  · cases hname
  · cases hname
  · cases hsame
  · -- The name and the directory are the whole location.
    obtain ⟨rfl, ⟨⟩⟩ := Option.ite_none_right_eq_some.1 hname
    obtain ⟨rfl, ⟨⟩⟩ := Option.ite_none_right_eq_some.1 hsame
    rintro rfl
    exact hne rfl

/-- The disk without what lies at a location. Where that is the root or holds entries the disk stays
as it is. -/
def remove (d : Disk) (location : Location) : Disk :=
  if h : d.Removable location then
    { entries := clearIn d.entries location
      nodup := by
        have : ((clearIn d.entries location).map Prod.fst).Sublist (d.entries.map Prod.fst) :=
          List.filter_sublist.map _
        exact this.nodup d.nodup
      inDirectory := by
        intro placed hp
        have hmem : placed ∈ d.entries := (List.mem_filter.1 hp).1
        obtain ⟨hne, hdir⟩ := d.inDirectory placed hmem
        refine ⟨hne, ?_⟩
        by_cases ht : placed.1.tail = []
        · simp [entryAt, ht]
        · have hnot : placed.1.tail ≠ location := by
            intro e
            obtain ⟨place, entry⟩ := placed
            cases place with
            | nil => exact hne rfl
            | cons name above =>
              have : name ∈ d.children location := by
                rw [mem_children_iff, get?, entryAt, if_neg (by simp), lookup_isSome_iff]
                simp only [List.tail_cons] at e
                subst e
                exact List.mem_map_of_mem (f := Prod.fst) hmem
              rw [h.2] at this
              cases this
          rw [entryAt, if_neg ht, lookup_clearIn, if_neg hnot]
          rw [entryAt, if_neg ht] at hdir
          exact hdir }
  else d

/-- What lies where after a removal. -/
theorem get?_remove {d : Disk} {location : Location} (h : d.Removable location)
    (other : Location) :
    (d.remove location).get? other = if other = location then none else d.get? other := by
  rw [remove, dif_pos h]
  by_cases ho : other = []
  · subst ho
    have : ¬([] : Location) = location := fun e => h.1 e.symm
    simp [get?, entryAt, this]
  · simp [get?, entryAt, ho, lookup_clearIn]

end Disk

end CommandShell
