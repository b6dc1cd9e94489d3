import CommandShell.Proofs.Atomicity
import CommandShell.Proofs.DirectoryCopies
import CommandShell.Proofs.StoredNames
import CommandShell.Proofs.WorkingDirectory
import Mathlib.Logic.Relation

/-!
# Trees with cycles

A link may lead back to a directory above it, so that the tree seen through links has no end.
Storing and copying it ends all the same, because each level makes the path longer and a path that
is too long leads nowhere. What they meet there is an error: neither an archive nor a copy of a tree
with a cycle is ever finished.

## Main definitions

* `Disk.Gathers`, `Disk.CopiesAll`: the run of collecting, or of copying, the entries of a
  directory, as the steps that it is made of, at most some number of levels inside each other.
* `Disk.Enters`: a directory is entered from another one by a name in it.
* `Disk.Cyclic`: descending from a directory leads to a cycle of directories.

## Main results

* `Disk.gathers_gatherEntries`, `Disk.copiesAll_copyEntries`: both runs come to their end, and the
  number of levels is bound by the length of a path;
* `Disk.Gathers.eq_gatherEntries`, `Disk.CopiesAll.eq_copyEntries`: neither has another outcome;
* `Disk.Lists.not_cyclic`: when everything is there that an archive stores, it has no cycle;
* `Disk.not_cyclic_of_copyEntries`: entries that were copied have none either;
* `dispatch_ends_on_cycles`: what this means for `zip -r` and `cp -r`.
-/

namespace CommandShell

namespace Disk

variable {d : Disk} {host : Host} {format : Archive.Format}

/-! ## Runs -/

/-- Collecting the named entries of a directory, step by step, with its outcome. There are at most
`levels` directories inside each other below the directory. -/
inductive Gathers (d : Disk) (format : Archive.Format) : Nat → Path → String → List FileName →
    List Member → Except Fault (List Member) → Prop
  /-- No entry is left. -/
  | nil {levels : Nat} {directory : Path} {above : String} {members : List Member} :
      Gathers d format levels directory above [] members (.ok members)
  /-- A file is collected, and then the other entries. -/
  | file {levels : Nat} {directory : Path} {above : String} {name : FileName}
      {rest : List FileName} {members gathered : List Member}
      {outcome : Except Fault (List Member)} :
      d.isDirectory (directory.child name) = false →
        d.gatherFile (directory.child name) (above ++ name.shown) members format = .ok gathered →
          Gathers d format levels directory above rest gathered outcome →
            Gathers d format levels directory above (name :: rest) members outcome
  /-- A file is refused. -/
  | fileRefused {levels : Nat} {directory : Path} {above : String} {name : FileName}
      {rest : List FileName} {members : List Member} {fault : Fault} :
      d.isDirectory (directory.child name) = false →
        d.gatherFile (directory.child name) (above ++ name.shown) members format = .error fault →
          Gathers d format levels directory above (name :: rest) members (.error fault)
  /-- A directory is collected with what lies in it, and then the other entries. -/
  | directory {levels : Nat} {directory : Path} {above : String} {name : FileName}
      {rest inner : List FileName} {members added gathered : List Member}
      {outcome : Except Fault (List Member)} :
      d.isDirectory (directory.child name) = true →
        addDirectory members (directoryName (above ++ name.shown)) format = .ok added →
          d.names (directory.child name) = .ok inner →
            Gathers d format levels (directory.child name) (directoryName (above ++ name.shown))
                (sortNames inner) added (.ok gathered) →
              Gathers d format (levels + 1) directory above rest gathered outcome →
                Gathers d format (levels + 1) directory above (name :: rest) members outcome
  /-- The name of a directory is refused. -/
  | nameRefused {levels : Nat} {directory : Path} {above : String} {name : FileName}
      {rest : List FileName} {members : List Member} {fault : Fault} :
      d.isDirectory (directory.child name) = true →
        addDirectory members (directoryName (above ++ name.shown)) format = .error fault →
          Gathers d format levels directory above (name :: rest) members (.error fault)
  /-- A directory cannot be listed. -/
  | listingRefused {levels : Nat} {directory : Path} {above : String} {name : FileName}
      {rest : List FileName} {members added : List Member} {refusal : Refusal} :
      d.isDirectory (directory.child name) = true →
        addDirectory members (directoryName (above ++ name.shown)) format = .ok added →
          d.names (directory.child name) = .error refusal →
            Gathers d format levels directory above (name :: rest) members
              (.error (.refused .access (directory.child name) refusal))
  /-- Something that lies in a directory is refused. -/
  | innerRefused {levels : Nat} {directory : Path} {above : String} {name : FileName}
      {rest inner : List FileName} {members added : List Member} {fault : Fault} :
      d.isDirectory (directory.child name) = true →
        addDirectory members (directoryName (above ++ name.shown)) format = .ok added →
          d.names (directory.child name) = .ok inner →
            Gathers d format levels (directory.child name) (directoryName (above ++ name.shown))
                (sortNames inner) added (.error fault) →
              Gathers d format (levels + 1) directory above (name :: rest) members (.error fault)

/-- Copying the named entries of a directory, step by step, with its outcome. There are at most
`levels` directories inside each other below the directory. -/
inductive CopiesAll (host : Host) : Nat → Disk → Path → Path → List FileName →
    Except Fault Unit × Disk → Prop
  /-- No entry is left. -/
  | nil {levels : Nat} {d : Disk} {source target : Path} :
      CopiesAll host levels d source target [] (.ok (), d)
  /-- A file is copied, and then the other entries. -/
  | file {levels count : Nat} {d copied : Disk} {source target : Path} {name : FileName}
      {rest : List FileName} {outcome : Except Fault Unit × Disk} :
      d.isDirectory (source.child name) = false →
        d.copyFile (source.child name) (target.child name) host = (.ok count, copied) →
          CopiesAll host levels copied source target rest outcome →
            CopiesAll host levels d source target (name :: rest) outcome
  /-- A file is refused. -/
  | fileRefused {levels : Nat} {d left : Disk} {source target : Path} {name : FileName}
      {rest : List FileName} {refusal : Refusal} :
      d.isDirectory (source.child name) = false →
        d.copyFile (source.child name) (target.child name) host = (.error refusal, left) →
          CopiesAll host levels d source target (name :: rest)
            (.error (.refused .create (target.child name) refusal), left)
  /-- A directory is copied with what lies in it by then, and then the other entries. -/
  | directory {levels : Nat} {d made copied : Disk} {source target : Path} {name : FileName}
      {rest inner : List FileName} {outcome : Except Fault Unit × Disk} :
      d.isDirectory (source.child name) = true →
        d.makeTarget (target.child name) = (.ok (), made) →
          made.names (source.child name) = .ok inner →
            CopiesAll host levels made (source.child name) (target.child name) inner
                (.ok (), copied) →
              CopiesAll host (levels + 1) copied source target rest outcome →
                CopiesAll host (levels + 1) d source target (name :: rest) outcome
  /-- The copy of a directory cannot be made. -/
  | targetRefused {levels : Nat} {d made : Disk} {source target : Path} {name : FileName}
      {rest : List FileName} {fault : Fault} :
      d.isDirectory (source.child name) = true →
        d.makeTarget (target.child name) = (.error fault, made) →
          CopiesAll host levels d source target (name :: rest) (.error fault, made)
  /-- A directory cannot be listed. -/
  | listingRefused {levels : Nat} {d made : Disk} {source target : Path} {name : FileName}
      {rest : List FileName} {refusal : Refusal} :
      d.isDirectory (source.child name) = true →
        d.makeTarget (target.child name) = (.ok (), made) →
          made.names (source.child name) = .error refusal →
            CopiesAll host levels d source target (name :: rest)
              (.error (.refused .access (source.child name) refusal), made)
  /-- Something that lies in a directory is refused. -/
  | innerRefused {levels : Nat} {d made copied : Disk} {source target : Path} {name : FileName}
      {rest inner : List FileName} {fault : Fault} :
      d.isDirectory (source.child name) = true →
        d.makeTarget (target.child name) = (.ok (), made) →
          made.names (source.child name) = .ok inner →
            CopiesAll host levels made (source.child name) (target.child name) inner
                (.error fault, copied) →
              CopiesAll host (levels + 1) d source target (name :: rest) (.error fault, copied)

/-- Below a directory there is a level less for a path to grow. -/
theorem exists_level {directory : Path} {name : FileName} {levels : Nat}
    (hdir : d.isDirectory (directory.child name) = true)
    (h : pathLimit ≤ directory.size + levels) :
    ∃ fewer, levels = fewer + 1 ∧ pathLimit ≤ (directory.child name).size + fewer := by
  have hlonger := directory.size_lt_child name
  have hshort := size_lt_of_isDirectory hdir
  exact ⟨levels - 1, by omega, by omega⟩

/-- Collecting comes to its end within as many levels as a path may still grow. -/
theorem gathers_gatherEntries {directory : Path} {levels : Nat}
    (h : pathLimit ≤ directory.size + levels) (above : String) (names : List FileName)
    (members : List Member) :
    d.Gathers format levels directory above names members
      (d.gatherEntries directory above names members format) := by
  -- The induction follows the recursion; each descent takes one of the levels that are left.
  fun_induction gatherEntries d directory above names members format generalizing levels with
  | case1 => exact .nil
  | case2 _ _ _ _ _ hdir _ hadd => exact .nameRefused hdir hadd
  | case3 _ _ _ _ _ hdir _ hadd _ hnames => exact .listingRefused hdir hadd hnames
  | case4 _ _ _ _ _ hdir _ hadd _ hinner _ hgather ih =>
    obtain ⟨fewer, rfl, hfewer⟩ := exists_level hdir h
    exact .innerRefused hdir hadd hinner (hgather ▸ ih hfewer)
  | case5 _ _ _ _ _ hdir _ hadd _ hinner _ hgather ih₂ ih₁ =>
    obtain ⟨fewer, rfl, hfewer⟩ := exists_level hdir h
    exact .directory hdir hadd hinner (hgather ▸ ih₂ hfewer) (ih₁ h)
  | case6 _ _ _ _ _ hfile _ hgather => exact .fileRefused (by simpa using hfile) hgather
  | case7 _ _ _ _ _ hfile _ hgather ih => exact .file (by simpa using hfile) hgather (ih h)

/-- Copying comes to its end within as many levels as a path may still grow, also where it descends
into what it has made. -/
theorem copiesAll_copyEntries {source : Path} {levels : Nat}
    (h : pathLimit ≤ source.size + levels) (target : Path) (names : List FileName) :
    CopiesAll host levels d source target names (d.copyEntries source target names host) := by
  fun_induction copyEntries d source target names host generalizing levels with
  | case1 => exact .nil
  | case2 _ _ _ _ _ hdir _ _ hmade => exact .targetRefused hdir hmade
  | case3 _ _ _ _ _ hdir _ hmade _ hnames => exact .listingRefused hdir hmade hnames
  | case4 _ _ _ _ _ hdir _ hmade _ hinner _ _ hcopied ih =>
    obtain ⟨fewer, rfl, hfewer⟩ := exists_level hdir h
    exact .innerRefused hdir hmade hinner (hcopied ▸ ih hfewer)
  | case5 _ _ _ _ _ hdir _ hmade _ hinner _ hcopied ih₂ ih₁ =>
    obtain ⟨fewer, rfl, hfewer⟩ := exists_level hdir h
    exact .directory hdir hmade hinner (hcopied ▸ ih₂ hfewer) (ih₁ h)
  | case6 _ _ _ _ _ hfile _ _ hcopy => exact .fileRefused (by simpa using hfile) hcopy
  | case7 _ _ _ _ _ hfile _ _ hcopy ih => exact .file (by simpa using hfile) hcopy (ih h)

/-- Collecting has no other outcome than what it returns. -/
theorem Gathers.eq_gatherEntries {levels : Nat} {directory : Path} {above : String}
    {names : List FileName} {members : List Member} {outcome : Except Fault (List Member)}
    (h : d.Gathers format levels directory above names members outcome) :
    outcome = d.gatherEntries directory above names members format := by
  induction h with
  | nil => rw [gatherEntries_nil]
  | file hfile hgather _ ih => rw [gatherEntries_of_file hfile hgather, ih]
  | fileRefused hfile hgather =>
    rw [gatherEntries.eq_def]
    simp only [hfile, Bool.false_eq_true, dite_false, hgather]
  | directory hdir hadd hinner _ _ ihbelow ihrest =>
    rw [gatherEntries_of_directory hdir hadd hinner ihbelow.symm, ihrest]
  | nameRefused hdir hadd =>
    rw [gatherEntries.eq_def]
    simp only [hdir, dite_true, hadd]
  | listingRefused hdir hadd hinner =>
    rw [gatherEntries.eq_def]
    simp only [hdir, dite_true, hadd, hinner]
  | innerRefused hdir hadd hinner _ ihbelow =>
    rw [gatherEntries.eq_def]
    simp only [hdir, dite_true, hadd, hinner, ← ihbelow]

/-- Copying has no other outcome than what it returns. -/
theorem CopiesAll.eq_copyEntries {levels : Nat} {source target : Path} {names : List FileName}
    {outcome : Except Fault Unit × Disk} (h : CopiesAll host levels d source target names outcome) :
    outcome = d.copyEntries source target names host := by
  induction h with
  | nil => rw [copyEntries.eq_def]
  | file hfile hcopy _ ih =>
    rw [copyEntries.eq_def, ih]
    simp only [hfile, Bool.false_eq_true, dite_false, hcopy]
  | fileRefused hfile hcopy =>
    rw [copyEntries.eq_def]
    simp only [hfile, Bool.false_eq_true, dite_false, hcopy]
  | directory hdir hmade hinner _ _ ihbelow ihrest =>
    rw [copyEntries.eq_def, ihrest]
    simp only [hdir, dite_true, hmade, hinner, ← ihbelow]
  | targetRefused hdir hmade =>
    rw [copyEntries.eq_def]
    simp only [hdir, dite_true, hmade]
  | listingRefused hdir hmade hinner =>
    rw [copyEntries.eq_def]
    simp only [hdir, dite_true, hmade, hinner]
  | innerRefused hdir hmade hinner _ ihbelow =>
    rw [copyEntries.eq_def]
    simp only [hdir, dite_true, hmade, hinner, ← ihbelow]

/-! ## Cycles -/

/-- A directory is entered from another one: a name in that one leads to it, as an entry or through
links. -/
def Enters (d : Disk) (outer : Location) (name : FileName) (inner : Location) : Prop :=
  d.walkLinks .use linkLimit outer [.name name.bytes] = .ok (.found inner) ∧
    d.get? inner = some .directory

/-- A directory is entered from another one by some name. -/
def LeadsDown (d : Disk) (outer inner : Location) : Prop :=
  ∃ name, d.Enters outer name inner

/-- Descending from a directory leads to one from which descending leads back to it. -/
def Cyclic (d : Disk) (start : Location) : Prop :=
  ∃ again, Relation.ReflTransGen d.LeadsDown start again ∧ Relation.TransGen d.LeadsDown again again

section Cycles

variable {outer inner : Location} {name : FileName}

/-- What is entered is entered from a directory. -/
theorem Enters.directory (h : d.Enters outer name inner) : d.get? outer = some .directory := by
  by_contra hnot
  have hwalk := h.1
  rw [walkLinks_of_not_directory hnot] at hwalk
  cases hwalk

/-- The name by which a directory is entered is one of the names there. -/
theorem Enters.mem_children (h : d.Enters outer name inner) : name ∈ d.children outer := by
  obtain ⟨used, -, hleads⟩ := walkLinks_use_iff.1 h.1
  rw [mem_children_iff]
  generalize hstep : [Step.name name.bytes] = steps at hleads
  cases hleads with
  | done => cases hstep
  | pass _ hpast =>
    cases hstep
    cases hpast
  | enter hget | follow hget =>
    obtain rfl := FileName.bytes_injective (Step.name.inj (List.cons.inj hstep).1)
    rw [hget, Option.isSome_some]

/-- A path through the directory leads to what is entered from there, if it leads to anything. -/
theorem Enters.find_child (h : d.Enters outer name inner) {p : Path}
    (hfind : d.find .use p = .ok outer) {found : Location}
    (hfound : d.find .use (p.child name) = .ok found) : found = inner := by
  obtain ⟨links, hsteps⟩ := walkSteps_child .use (walk_eq_ok (find_eq_ok.1 hfind)).2 name
  have hwalk := (walk_eq_ok (find_eq_ok.1 hfound)).2
  rw [hsteps] at hwalk
  obtain ⟨_, -, hleads⟩ := walkLinks_use_iff.1 hwalk
  obtain ⟨_, -, hleads'⟩ := walkLinks_use_iff.1 h.1
  exact (hleads.unique hleads').2

/-- A path through the directory leads to a directory, if it leads to anything. -/
theorem Enters.isDirectory_child (h : d.Enters outer name inner) {p : Path}
    (hfind : d.find .use p = .ok outer) {entry : Entry}
    (hlook : d.lookAt (p.child name) = .ok entry) :
    d.find .use (p.child name) = .ok inner ∧ d.isDirectory (p.child name) = true := by
  obtain ⟨found, hwalk, hget⟩ := lookAt_eq_ok.1 hlook
  obtain rfl := h.find_child hfind (find_eq_ok.2 hwalk)
  obtain rfl := Option.some.inj (hget.symm.trans h.2)
  exact ⟨find_eq_ok.2 hwalk, isDirectory_eq_true.2 hlook⟩

/-- From a directory from which a cycle is reached, one is entered from which it is reached. -/
theorem Cyclic.exists_enters (h : d.Cyclic outer) :
    ∃ name inner, d.Enters outer name inner ∧ d.Cyclic inner := by
  obtain ⟨again, hreach, hcycle⟩ := h
  rcases Relation.ReflTransGen.cases_head hreach with rfl | ⟨inner, ⟨name, henters⟩, hrest⟩
  · -- The directory lies on the cycle, and so does the next one.
    obtain ⟨inner, ⟨name, henters⟩, hback⟩ := Relation.TransGen.head'_iff.1 hcycle
    exact ⟨name, inner, henters, outer, hback, hcycle⟩
  · exact ⟨name, inner, henters, again, hrest, hcycle⟩

/-- What is entered is still entered when links and directories stay. -/
theorem Enters.keepLinks {kept : Disk} (hkeeps : d.KeepsLinks kept)
    (h : d.Enters outer name inner) : kept.Enters outer name inner := by
  obtain ⟨used, hused, hleads⟩ := walkLinks_use_iff.1 h.1
  exact ⟨walkLinks_use_iff.2 ⟨used, hused, hleads.keepLinks hkeeps⟩, hkeeps.directory h.2⟩

/-- A cycle stays one when links and directories stay. -/
theorem Cyclic.keepLinks {kept : Disk} (hkeeps : d.KeepsLinks kept) (h : d.Cyclic outer) :
    kept.Cyclic outer := by
  have hmono : ∀ first next, d.LeadsDown first next → kept.LeadsDown first next :=
    fun _ _ ⟨name, henters⟩ => ⟨name, henters.keepLinks hkeeps⟩
  obtain ⟨again, hreach, hcycle⟩ := h
  exact ⟨again, Relation.ReflTransGen.mono hmono _ _ hreach,
    Relation.TransGen.mono hmono _ _ hcycle⟩

end Cycles

/-- One of some names in a directory leads to a cycle. -/
def LeadsToCycle (d : Disk) (directory : Path) (names : List FileName) : Prop :=
  ∃ outer name inner, d.find .use directory = .ok outer ∧ name ∈ names ∧
    d.Enters outer name inner ∧ d.Cyclic inner

namespace LeadsToCycle

variable {directory : Path} {name : FileName} {rest : List FileName}

/-- A cycle that is reached from a directory is reached by one of the names in it. -/
theorem of_cyclic {outer : Location} {names : List FileName} (h : d.Cyclic outer)
    (hfind : d.find .use directory = .ok outer) (hnames : d.names directory = .ok names) :
    d.LeadsToCycle directory names := by
  obtain ⟨name, inner, henters, hcyclic⟩ := h.exists_enters
  obtain ⟨found, hfound, -, rfl⟩ := names_eq_ok.1 hnames
  obtain rfl := Except.ok.inj (hfind.symm.trans hfound)
  exact ⟨outer, name, inner, hfind, henters.mem_children, henters, hcyclic⟩

/-- The first name leads to a cycle or one of the others. When the first one does, it leads to a
directory, if to anything, and the cycle is reached by the names there. -/
theorem cons (h : d.LeadsToCycle directory (name :: rest)) :
    (∀ entry, d.lookAt (directory.child name) = .ok entry →
        d.isDirectory (directory.child name) = true ∧
          ∀ names, d.names (directory.child name) = .ok names →
            d.LeadsToCycle (directory.child name) names) ∨
      d.LeadsToCycle directory rest := by
  obtain ⟨outer, other, inner, hfind, hother, henters, hcyclic⟩ := h
  rcases List.mem_cons.1 hother with rfl | hrest
  · left
    intro entry hlook
    obtain ⟨hinner, hdir⟩ := henters.isDirectory_child hfind hlook
    exact ⟨hdir, fun names => of_cyclic hcyclic hinner⟩
  · exact .inr ⟨outer, other, inner, hfind, hrest, henters, hcyclic⟩

/-- Names that lead to a cycle still do when links and directories stay. -/
theorem keepLinks {kept : Disk} {names : List FileName} (hkeeps : d.KeepsLinks kept)
    (h : d.LeadsToCycle directory names) : kept.LeadsToCycle directory names := by
  obtain ⟨outer, name, inner, hfind, hname, henters, hcyclic⟩ := h
  exact ⟨outer, name, inner, hkeeps.find hfind, hname, henters.keepLinks hkeeps,
    hcyclic.keepLinks hkeeps⟩

/-- Sorting the names makes no difference. -/
theorem sortNames {names : List FileName} (h : d.LeadsToCycle directory names) :
    d.LeadsToCycle directory (Disk.sortNames names) := by
  obtain ⟨outer, name, inner, hfind, hname, hrest⟩ := h
  exact ⟨outer, name, inner, hfind, mem_sortNames.2 hname, hrest⟩

end LeadsToCycle

/-- When something lies at each path that an archive stores, no name leads to a cycle. -/
theorem Lists.not_cyclic {directory : Path} {above : String} {names : List FileName}
    {objects : List StoredObject} (h : d.Lists directory above names objects)
    (hthere : ∀ object ∈ objects, ∃ entry, d.lookAt object.path = .ok entry) :
    ¬d.LeadsToCycle directory names := by
  induction h with
  | nil =>
    rintro ⟨_, _, _, -, hname, -⟩
    cases hname
  | file hfile _ ih =>
    rw [List.forall_mem_cons] at hthere
    obtain ⟨⟨entry, hlook⟩, hothers⟩ := hthere
    rintro hcycle
    rcases hcycle.cons with hfirst | hrest
    · simp [(hfirst entry hlook).1] at hfile
    · exact ih hothers hrest
  | directory hdir hinner _ _ ihbelow ihothers =>
    rw [List.forall_mem_cons, List.forall_mem_append] at hthere
    obtain ⟨⟨entry, hlook⟩, hbelow, hothers⟩ := hthere
    rintro hcycle
    rcases hcycle.cons with hfirst | hrest
    · exact ihbelow hbelow ((hfirst entry hlook).2 _ hinner).sortNames
    · exact ihothers hothers hrest

/-- When entries were copied, none of their names leads to a cycle. -/
theorem not_cyclic_of_copyEntries {source target : Path} {names : List FileName} {copied : Disk}
    (h : d.copyEntries source target names host = (.ok (), copied)) :
    ¬d.LeadsToCycle source names := by
  revert h
  -- The disk grows on the way, but the cycle stays.
  fun_induction copyEntries d source target names host generalizing copied with
  | case1 =>
    rintro - ⟨_, _, _, -, hname, -⟩
    cases hname
  | case2 => exact fun h => by cases h
  | case3 => exact fun h => by cases h
  | case4 => exact fun h => by cases h
  | case5 d source target name rest hdir made hmade inner hinner done hdone ih₂ ih₁ =>
    intro h hcycle
    have hready : d.KeepsLinks made := keepsLinks_of_makeTarget hmade
    rcases (hcycle.keepLinks hready).cons with hfirst | hrest
    · have hlook := isDirectory_eq_true.1 (hready.isDirectory hdir)
      exact ih₂ hdone ((hfirst _ hlook).2 _ hinner)
    · exact ih₁ h (hrest.keepLinks (keepsLinks_of_copyEntries hdone))
  | case6 => exact fun h => by cases h
  | case7 d source target name rest hfile count done hcopy ih =>
    intro h hcycle
    rcases hcycle.cons with hfirst | hrest
    · -- What is copied is found, and so the name leads to something.
      obtain ⟨_, _, _, _, _, horigin, -⟩ := copyFile_eq_ok hcopy
      obtain ⟨entry, hlook⟩ := exists_lookAt_of_find horigin
      exact hfile (hfirst entry hlook).1
    · exact ih h (hrest.keepLinks (keepsLinks_of_copyFile hcopy))

/-- A directory that is stored with everything in it, all of which is there, has no cycle. -/
theorem Stores.not_cyclic {source : Source} {objects : List StoredObject} {start : Location}
    (h : d.Stores source objects) (hrecursive : source.recursive = true)
    (hthere : ∀ object ∈ objects, ∃ entry, d.lookAt object.path = .ok entry)
    (hfind : d.find .use source.path = .ok start) : ¬d.Cyclic start := by
  intro hcyclic
  obtain ⟨_, _, henters, -⟩ := hcyclic.exists_enters
  have hdirectory : d.isDirectory source.path = true :=
    isDirectory_eq_true.2 (lookAt_eq_ok.2 ⟨start, find_eq_ok.1 hfind, henters.directory⟩)
  cases h with
  | file hfile => simp [hdirectory] at hfile
  | bare _ hbare => simp [hrecursive] at hbare
  | tree _ _ hnames hlists =>
    rw [List.forall_mem_cons] at hthere
    exact hlists.not_cyclic hthere.2 (LeadsToCycle.of_cyclic hcyclic hfind hnames).sortNames

/-- A directory that was copied has no cycle. -/
theorem not_cyclic_of_copyTree {source target : Path} {copied : Disk} {start : Location}
    (h : d.copyTree source target host = (.ok (), copied))
    (hfind : d.find .use source = .ok start) : ¬d.Cyclic start := by
  intro hcyclic
  obtain ⟨made, names, hmade, hnames, hcopy⟩ := copyTree_eq_ok h
  -- Making the target adds directories only, so the cycle is still there.
  have hkeeps := keepsLinks_of_makeTarget hmade
  have hleads : made.LeadsToCycle source names :=
    .of_cyclic (hcyclic.keepLinks hkeeps) (hkeeps.find hfind) hnames
  exact not_cyclic_of_copyEntries hcopy hleads

/-- A canonical path leads to its location. -/
theorem find_path_of_canonical {p : Path} {start : Location}
    (h : d.canonical p = .ok start.path) : d.find .use start.path = .ok start := by
  obtain ⟨there, hwalk, hpath⟩ := canonical_eq_ok h
  obtain rfl := Path.path_injective hpath
  obtain ⟨hclear, hsome⟩ := clear_of_walkSteps hwalk
  have hsteps := hclear.walkSteps hsome []
  rw [List.append_nil, walkLinks_nil] at hsteps
  simp only [find, walk, checkPath_path.2 (size_lt_of_canonical h), hsteps]

end Disk

/-! ## The commands -/

namespace Builtin

open ShellM

variable {w : World Disk} {start : Location} {host : Host} {format : Archive.Format}

/-- What the operands contribute is not collected when one of them leads to a cycle. -/
theorem gatherAll_ne_ok_of_cyclic {typed : String} {operands : List String}
    {sources : List Source} {members : List Member} (htyped : typed ∈ operands)
    (hleads : w.held.walkSteps .use (w.session.resolve typed).steps = .ok (.found start))
    (hcyclic : w.held.Cyclic start)
    (hsources : List.Forall₂ (Contributes w true) operands sources) :
    w.held.gatherAll sources format ≠ .ok members := by
  intro hgather
  obtain ⟨_, ⟨parts, hparts, rfl⟩, -⟩ := Disk.gatherAll_stores hgather
  obtain ⟨source, hsource, hcontributes⟩ := exists_of_mem_of_forall₂ hsources htyped
  obtain ⟨objects, hobjects, hstores⟩ := exists_of_mem_of_forall₂ hparts hsource
  have hthere : ∀ object ∈ objects, ∃ entry, w.held.lookAt object.path = .ok entry :=
    fun object hobject => Disk.StoresAll.exists_of_gatherAll ⟨parts, hparts, rfl⟩ hgather object
      (List.mem_flatten_of_mem hobjects hobject)
  -- The source lies at the canonical path of the operand, so it leads to the same directory.
  have hcanonical := hcontributes.canonical
  obtain ⟨there, hwalk, hpath⟩ := Disk.canonical_eq_ok hcanonical
  obtain rfl := Spot.found.inj (Except.ok.inj (hleads.symm.trans hwalk))
  rw [hpath] at hcanonical
  have hfind := Disk.find_path_of_canonical hcanonical
  rw [← hpath] at hfind
  exact hstores.not_cyclic hcontributes.recursive_eq hthere hfind hcyclic

/-- Storing with everything in it fails and leaves the disk as it is when one of the operands leads
to a cycle. -/
theorem runZip_of_cyclic (archive : String) {typed : String} {operands : List String}
    (htyped : typed ∈ operands)
    (hleads : w.held.walkSteps .use (w.session.resolve typed).steps = .ok (.found start))
    (hcyclic : w.held.Cyclic start) :
    ∃ stop after, (runZip (Disk.files host format) ("-r" :: archive :: operands)).perform w =
      (.error stop, after) ∧ after.held = w.held := by
  have hargs : takeRecursive ("-r" :: archive :: operands) = (true, archive :: operands) := rfl
  cases operands with
  | nil => cases htyped
  | cons first rest =>
    simp only [runZip, hargs, perform_bind]
    rcases hsources : (sourcesOf (Disk.files host format) true (first :: rest)).perform w with
      ⟨stop | sources, last⟩
    · -- An operand that is not found stops the command before it stores anything.
      have hlooks := alike_sourcesOf (Disk.files host format) (Disk.files host format) true
        (first :: rest)
      have hheld := (hlooks.unchanged_of_looking w).1
      rw [hsources] at hheld
      exact ⟨stop, last, rfl, hheld⟩
    · obtain ⟨rfl, hcontributes⟩ := sourcesOf_eq_ok hsources
      have hanswer : (Disk.files host format).answer
        (.store (last.session.resolve archive) sources) last.held =
          last.held.store (last.session.resolve archive) sources host format := rfl
      -- The members cannot be collected, so there is nothing to encode or to write.
      have hnever : ∀ members, last.held.gatherAll sources format ≠ .ok members :=
        fun _ => gatherAll_ne_ok_of_cyclic htyped hleads hcyclic hcontributes
      rcases hstore : last.held.store (last.session.resolve archive) sources host format with
        ⟨stop | names, written⟩
      · obtain hheld | ⟨members, _, hgather, -⟩ := Disk.store_eq_error hstore
        · refine ⟨stop, { last with held := written }, ?_, hheld⟩
          simp only [perform_resolve, perform_request, hanswer, hstore]
        · exact absurd hgather (hnever members)
      · obtain ⟨members, _, hgather, -⟩ := Disk.store_eq_ok hstore
        exact absurd hgather (hnever members)

/-- Nothing is copied with everything in it when the source leads to a cycle. -/
theorem runCp_ne_ok_of_cyclic {source : String} (target : String)
    (hleads : w.held.walkSteps .use (w.session.resolve source).steps = .ok (.found start))
    (hcyclic : w.held.Cyclic start) :
    ((runCp (Disk.files host format) ["-r", source, target]).perform w).1 ≠ .ok () := by
  intro hok
  have hargs : takeRecursive ["-r", source, target] = (true, [source, target]) := rfl
  cases hlook : w.held.lookAt (w.session.resolve source) with
  | error refusal =>
    -- What is to be copied is looked at first.
    simp [runCp, hargs, Disk.answer_kindOf, hlook, Except.map, Disk.looking] at hok
  | ok entry =>
    obtain ⟨found, hwalk, hget⟩ := Disk.lookAt_eq_ok.1 hlook
    obtain rfl := Spot.found.inj (Except.ok.inj (hleads.symm.trans (Disk.walk_eq_ok hwalk).2))
    obtain ⟨_, _, henters, -⟩ := hcyclic.exists_enters
    obtain rfl := Option.some.inj (hget.symm.trans henters.directory)
    rcases hplace : (placement (Disk.files host format) (w.session.resolve source)
      (w.session.resolve target)).perform w with ⟨stop | place, after⟩
    · simp [runCp, hargs, Disk.answer_kindOf, hlook, Except.map, Disk.looking, Disk.kindOfEntry,
        hplace] at hok
    · rw [perform_runCp_directory hlook (places_of_placement hplace)] at hok
      rcases hcopy : w.held.copyTree (w.session.resolve source) place host with
        ⟨fault | _, copied⟩ <;>
        rw [hcopy] at hok
      · cases hok
      · exact Disk.not_cyclic_of_copyTree hcopy (Disk.find_eq_ok.2 hwalk) hcyclic

end Builtin

/-- **Recursive walks end on cyclic trees.** On every disk and machine, and whatever there is for
links, collecting the entries of a directory and copying them come to their end: with as many levels
as a path may have bytes, each has one outcome, and that is what it returns. When an operand of
`zip -r`, or the source of `cp -r`, leads to a directory from which a cycle is reached by descending
through directories and links, the command fails, and reports an error on streams that never fail.
What `zip -r` leaves is the tree as it was, on any streams. -/
theorem dispatch_ends_on_cycles (host : Host) (format : Archive.Format) :
    (∀ (d : Disk) directory above names members outcome,
        d.Gathers format pathLimit directory above names members outcome ↔
          outcome = d.gatherEntries directory above names members format) ∧
      (∀ (d : Disk) source target names outcome,
        Disk.CopiesAll host pathLimit d source target names outcome ↔
          outcome = d.copyEntries source target names host) ∧
      ∀ (w : World Disk) (start : Location), w.held.Cyclic start →
        (∀ archive operands, ∀ typed ∈ operands,
          w.held.walkSteps .use (w.session.resolve typed).steps = .ok (.found start) →
            let args := "-r" :: archive :: operands
            let after := ((dispatch (Disk.files host format) ⟨"zip", args, none⟩).perform w).2
            ((Builtin.zip.run (Disk.files host format) args).perform w).1 ≠ .ok () ∧
              after.held = w.held ∧
              (w.streams.NeverFails →
                after.streams.bytesOn .err ≠ w.streams.bytesOn .err)) ∧
        ∀ source target,
          w.held.walkSteps .use (w.session.resolve source).steps = .ok (.found start) →
            let args := ["-r", source, target]
            let after := ((dispatch (Disk.files host format) ⟨"cp", args, none⟩).perform w).2
            ((Builtin.cp.run (Disk.files host format) args).perform w).1 ≠ .ok () ∧
              (w.streams.NeverFails →
                after.streams.bytesOn .err ≠ w.streams.bytesOn .err) := by
  refine ⟨fun d directory above names members outcome =>
      ⟨fun h => h.eq_gatherEntries, fun h => h ▸ Disk.gathers_gatherEntries ?_ above names members⟩,
    fun d source target names outcome =>
      ⟨fun h => h.eq_copyEntries, fun h => h ▸ Disk.copiesAll_copyEntries ?_ target names⟩,
    fun w start hcyclic => ⟨?_, ?_⟩⟩
  · exact Nat.le_add_left _ _
  · exact Nat.le_add_left _ _
  · intro archive operands typed htyped hleads args after
    obtain ⟨stop, last, hperform, hheld⟩ :=
      Builtin.runZip_of_cyclic archive htyped hleads hcyclic
    have hfails : ((Builtin.zip.run (Disk.files host format) args).perform w).1 ≠ .ok () := by
      rw [show (Builtin.zip.run (Disk.files host format) args).perform w = _ from hperform]
      exact fun h => by cases h
    have hafter : after = invoke (Disk.files host format) .zip args w :=
      congrArg Prod.snd
        (perform_dispatch_plain (Disk.files host format) _ (Builtin.ofName?_name .zip) w)
    -- On streams that never fail only a run that comes to its end reports nothing.
    refine ⟨hfails, ?_, fun hstreams hsilent => hfails ?_⟩
    · rw [hafter, held_invoke]
      exact (congrArg (fun ended => ended.2.held) hperform).trans hheld
    · exact congrArg Prod.fst (run_of_silent (Disk.files host format) (b := .zip) hstreams hsilent)
  · intro source target hleads args after
    have hfails : ((Builtin.runCp (Disk.files host format) args).perform w).1 ≠ .ok () :=
      Builtin.runCp_ne_ok_of_cyclic target hleads hcyclic
    refine ⟨hfails, fun hstreams hsilent => hfails ?_⟩
    exact congrArg Prod.fst (run_of_silent (Disk.files host format) (b := .cp) hstreams hsilent)

/-- The name of a directory. -/
def loopName : FileName := .ofString "loop"

/-- The name of a link. -/
def backName : FileName := .ofString "turn"

/-- A disk with a directory and, in it, a link that leads back to the directory. -/
def Disk.selfLink : Disk where
  entries := [([loopName], .directory), ([backName, loopName], .link (.ofString "."))]
  nodup := by decide
  inDirectory := by decide

/-- Neither is the directory stored nor is it copied next to itself. -/
theorem dispatch_ends_on_self_link :
    let w : World Disk := ⟨Session.start .root .root, .unlimited, Disk.selfLink⟩
    let stored := ((dispatch Disk.files ⟨"zip", ["-r", "archive", "loop"], none⟩).perform w).2
    let copied := ((dispatch Disk.files ⟨"cp", ["-r", "loop", "copy"], none⟩).perform w).2
    (w.held.Cyclic [loopName] ∧ w.streams.NeverFails ∧
        w.held.walkSteps .use (w.session.resolve "loop").steps = .ok (.found [loopName])) ∧
      (stored.streams.bytesOn .err ≠ w.streams.bytesOn .err ∧ stored.held = w.held) ∧
      copied.streams.bytesOn .err ≠ w.streams.bytesOn .err := by
  intro w stored copied
  have hstreams : w.streams.NeverFails := Streams.neverFails_unlimited
  have henters : w.held.Enters [loopName] backName [loopName] :=
    ⟨by decide +kernel, by decide +kernel⟩
  have hcyclic : w.held.Cyclic [loopName] :=
    ⟨_, .refl, .single ⟨backName, henters⟩⟩
  have hleads : w.held.walkSteps .use (w.session.resolve "loop").steps =
      .ok (.found [loopName]) := by
    decide +kernel
  obtain ⟨-, -, hcommands⟩ := dispatch_ends_on_cycles .reliable Archive.zip
  obtain ⟨hzip, hcp⟩ := hcommands w [loopName] hcyclic
  obtain ⟨-, hkept, hreported⟩ := hzip "archive" ["loop"] "loop" List.mem_cons_self hleads
  obtain ⟨-, hrefused⟩ := hcp "loop" "copy" hleads
  exact ⟨⟨hcyclic, hstreams, hleads⟩, ⟨hreported hstreams, hkept⟩, hrefused hstreams⟩

end CommandShell
