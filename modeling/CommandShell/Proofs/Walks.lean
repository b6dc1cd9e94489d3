import CommandShell.Disk.Calls
import CommandShell.Proofs.Paths

/-!
# Where walks lead

A walk is bounded by the number of links it may follow. Here the way of a walk is a relation of its
own, which counts the links on it, so that ways can be cut in two, put together and carried over to
a disk with more directories.

## Main definitions

* `Disk.Leads`: the steps lead from one location to another through a number of links.
* `Disk.Grows`: one disk has what the other has, and maybe more directories.

## Main results

* `Disk.Leads.append` and `Disk.Leads.split`: a way that goes on, and a way cut in two;
* `Disk.Leads.unique`: steps lead to one location only;
* `Disk.Leads.grow`: a way stays the way when directories are added;
* `Disk.walkLinks_of_leads`: a walk takes this way, for whatever it is;
* `Disk.ends_of_walkLinks`: a walk that ends well goes step by step;
* `Disk.walkLinks_use_iff`: using what lies at the end of a way needs nothing else;
* `Disk.Ends.walkLinks_use`: a file is written where it would be read.
-/

namespace CommandShell

/-- Where a step leads that needs nothing but the directory it starts from. -/
def Step.past : Step → Location → Option Location
  | .stay, here => some here
  | .slash, here => some here
  | .up, here => some here.tail
  | .name _, _ => none

namespace Step

/-- The last name is the last step. -/
theorem map_name_reverse_cons (name : Bytes) (names : List Bytes) :
    (name :: names).reverse.map Step.name = names.reverse.map Step.name ++ [.name name] := by
  rw [List.reverse_cons, List.map_append, List.map_singleton]

/-- The last step of a path of names is none of a separator. -/
theorem dropSlash_names (names : List Bytes) :
    dropSlash (names.reverse.map .name) = names.reverse.map .name := by
  cases names with
  | nil => rfl
  | cons name names =>
    rw [map_name_reverse_cons, dropSlash, if_neg (by simp)]

end Step

namespace Disk

/-- Whatever lies somewhere lies in a directory. -/
theorem directory_of_get? {d : Disk} {name : FileName} {above : Location} {entry : Entry}
    (h : d.get? (name :: above) = some entry) : d.get? above = some .directory := by
  rw [get?, entryAt, if_neg (by simp)] at h
  -- The disk lists whatever lies somewhere, and what it lists lies in a directory.
  have hmem : (name :: above) ∈ d.entries.map Prod.fst :=
    (lookup_isSome_iff _ _).1 (by simp [h])
  obtain ⟨placed, hplaced, hloc⟩ := List.mem_map.1 hmem
  have hdir := (d.inDirectory placed hplaced).2
  rwa [hloc] at hdir

/-! ## Ways -/

/-- Steps lead from a location to another through a number of symbolic links. -/
inductive Leads (d : Disk) : Nat → Location → List Step → Location → Prop
  /-- No step leads nowhere else. -/
  | done {here : Location} : Leads d 0 here [] here
  /-- A step without a name. -/
  | pass {links : Nat} {here next there : Location} {step : Step} {rest : List Step} :
      d.get? here = some .directory → step.past here = some next → Leads d links next rest there →
        Leads d links here (step :: rest) there
  /-- Into an entry that is no link. -/
  | enter {links : Nat} {here there : Location} {rest : List Step} {name : FileName}
      {entry : Entry} :
      d.get? (name :: here) = some entry → (∀ target, entry ≠ .link target) →
        Leads d links (name :: here) rest there →
          Leads d links here (.name name.bytes :: rest) there
  /-- Through a link. -/
  | follow {links : Nat} {here there : Location} {rest : List Step} {name : FileName}
      {target : Path} :
      d.get? (name :: here) = some (.link target) →
        Leads d links (if target.isAbsolute then [] else here) (target.steps ++ rest) there →
          Leads d (links + 1) here (.name name.bytes :: rest) there

namespace Leads

variable {d : Disk} {links : Nat} {here there : Location} {steps : List Step}

/-- A way and a way from its end are one way. -/
theorem append {more : Nat} {last : Location} {others : List Step}
    (h : Leads d links here steps there) (hmore : Leads d more there others last) :
    Leads d (links + more) here (steps ++ others) last := by
  induction h with
  | done => simpa using hmore
  | pass hdir hpast _ ih => exact .pass hdir hpast (ih hmore)
  | enter hget hlink _ ih => exact .enter hget hlink (ih hmore)
  | follow hget _ ih =>
    -- Behind a link the text of the link comes first, and then both ways as before.
    have hrest := ih hmore
    rw [List.append_assoc] at hrest
    rw [Nat.add_right_comm]
    exact .follow hget hrest

/-- A way can be cut behind any of its steps. -/
theorem split {first second : List Step} (h : Leads d links here (first ++ second) there) :
    ∃ before after mid, links = before + after ∧ Leads d before here first mid ∧
      Leads d after mid second there := by
  -- The induction follows the way; the cut lies before its first step or somewhere behind it.
  generalize hsteps : first ++ second = steps at h
  induction h generalizing first with
  | done =>
    obtain ⟨rfl, rfl⟩ := List.append_eq_nil_iff.1 hsteps
    exact ⟨0, 0, _, rfl, .done, .done⟩
  | pass hdir hpast hrest ih =>
    rcases List.append_eq_cons_iff.1 hsteps with ⟨rfl, rfl⟩ | ⟨first, rfl, hfirst⟩
    · exact ⟨0, _, _, (Nat.zero_add _).symm, .done, .pass hdir hpast hrest⟩
    · obtain ⟨before, after, mid, hlinks, hbefore, hafter⟩ := ih hfirst.symm
      exact ⟨before, after, mid, hlinks, .pass hdir hpast hbefore, hafter⟩
  | enter hget hlink hrest ih =>
    rcases List.append_eq_cons_iff.1 hsteps with ⟨rfl, rfl⟩ | ⟨first, rfl, hfirst⟩
    · exact ⟨0, _, _, (Nat.zero_add _).symm, .done, .enter hget hlink hrest⟩
    · obtain ⟨before, after, mid, hlinks, hbefore, hafter⟩ := ih hfirst.symm
      exact ⟨before, after, mid, hlinks, .enter hget hlink hbefore, hafter⟩
  | follow hget hrest ih =>
    rcases List.append_eq_cons_iff.1 hsteps with ⟨rfl, rfl⟩ | ⟨first, rfl, rfl⟩
    · exact ⟨0, _, _, (Nat.zero_add _).symm, .done, .follow hget hrest⟩
    · -- The steps of the link's text come before those that are left of the first part.
      obtain ⟨before, after, mid, rfl, hbefore, hafter⟩ := ih (List.append_assoc ..)
      exact ⟨before + 1, after, mid, by omega, .follow hget hbefore, hafter⟩

/-- Where steps lead something lies. -/
theorem isSome (h : Leads d links here steps there) (hhere : (d.get? here).isSome) :
    (d.get? there).isSome := by
  induction h with
  | done => exact hhere
  -- Only `..` leaves a directory, and what it leads to holds that directory.
  | @pass _ here _ _ step _ hdir hpast _ ih =>
    refine ih ?_
    cases step with
    | name => cases hpast
    | stay | slash =>
      cases hpast
      exact hhere
    | up =>
      cases hpast
      cases here with
      | nil => rfl
      | cons name above => rw [List.tail_cons, directory_of_get? hdir, Option.isSome_some]
  | enter hget _ _ ih => exact ih (by rw [hget, Option.isSome_some])
  | follow hget _ ih =>
    refine ih ?_
    split
    · rfl
    · rw [directory_of_get? hget, Option.isSome_some]

/-- A way that does not start at a link does not end at one. -/
theorem ne_link (h : Leads d links here steps there)
    (hhere : ∀ target, d.get? here ≠ some (.link target)) :
    ∀ target, d.get? there ≠ some (.link target) := by
  have hroot : ∀ target, d.get? [] ≠ some (.link target) := by simp
  induction h with
  | done => exact hhere
  | @pass _ here _ _ step _ hdir hpast _ ih =>
    refine ih ?_
    cases step with
    | name => cases hpast
    | stay | slash =>
      cases hpast
      exact hhere
    | up =>
      cases hpast
      cases here with
      | nil => exact hroot
      | cons name above => simp [directory_of_get? hdir]
  | enter hget hlink _ ih =>
    exact ih fun target he => hlink target (Option.some.inj (hget.symm.trans he))
  | follow hget _ ih =>
    refine ih ?_
    split
    · exact hroot
    · simp [directory_of_get? hget]

/-- Steps lead to one location only, and through the same number of links. -/
theorem unique {other : Nat} {elsewhere : Location} (h : Leads d links here steps there)
    (hother : Leads d other here steps elsewhere) : links = other ∧ there = elsewhere := by
  -- Each location and step allow for one of the cases only, so both ways go the same way.
  induction h generalizing other with
  | done =>
    cases hother
    exact ⟨rfl, rfl⟩
  | pass hdir hpast _ ih =>
    cases hother with
    | pass _ hpast' hrest =>
      obtain rfl := Option.some.inj (hpast.symm.trans hpast')
      exact ih hrest
    | enter => cases hpast
    | follow => cases hpast
  | @enter _ here _ _ name _ hget hlink _ ih =>
    generalize hname : Step.name name.bytes = step at hother
    cases hother with
    | pass _ hpast =>
      subst hname
      cases hpast
    | enter hget' hlink' hrest =>
      obtain rfl := FileName.bytes_injective (Step.name.inj hname)
      exact ih hrest
    | follow hget' =>
      obtain rfl := FileName.bytes_injective (Step.name.inj hname)
      exact absurd (Option.some.inj (hget.symm.trans hget')) (hlink _)
  | @follow _ here _ _ name _ hget _ ih =>
    generalize hname : Step.name name.bytes = step at hother
    cases hother with
    | pass _ hpast =>
      subst hname
      cases hpast
    | enter hget' hlink' =>
      obtain rfl := FileName.bytes_injective (Step.name.inj hname)
      exact absurd (Option.some.inj (hget'.symm.trans hget)) (hlink' _)
    | follow hget' hrest =>
      obtain rfl := FileName.bytes_injective (Step.name.inj hname)
      obtain rfl := Entry.link.inj (Option.some.inj (hget.symm.trans hget'))
      obtain ⟨rfl, rfl⟩ := ih hrest
      exact ⟨rfl, rfl⟩

end Leads

/-! ## Growing disks -/

/-- A disk has what another one has, and maybe directories where that one has nothing. -/
def Grows (d grown : Disk) : Prop :=
  ∀ location, grown.get? location = d.get? location ∨
    (d.get? location = none ∧ grown.get? location = some .directory)

namespace Grows

variable {d grown : Disk}

/-- Every disk has what it has. -/
theorem refl (d : Disk) : d.Grows d := fun _ => .inl rfl

/-- Growing twice is growing. -/
theorem trans {more : Disk} (h : d.Grows grown) (hmore : grown.Grows more) : d.Grows more := by
  intro location
  rcases hmore location with hsame | ⟨hnone, hdir⟩
  · rw [hsame]
    exact h location
  · rcases h location with hold | ⟨-, hold⟩
    · exact .inr ⟨hold ▸ hnone, hdir⟩
    · exact absurd (hold.symm.trans hnone) (by simp)

/-- What lies somewhere stays there. -/
theorem get? {location : Location} {entry : Entry} (h : d.Grows grown)
    (hget : d.get? location = some entry) : grown.get? location = some entry := by
  rcases h location with hsame | ⟨hnone, -⟩
  · rw [hsame, hget]
  · simp [hget] at hnone

/-- What is new is a directory. -/
theorem eq_or_directory {location : Location} {entry : Entry} (h : d.Grows grown)
    (hget : grown.get? location = some entry) :
    d.get? location = some entry ∨ (d.get? location = none ∧ entry = .directory) := by
  rcases h location with hsame | ⟨hnone, hdir⟩
  · exact .inl (hsame ▸ hget)
  · exact .inr ⟨hnone, Option.some.inj (hget.symm.trans hdir)⟩

end Grows

/-- A way stays the way when directories are added. -/
theorem Leads.grow {d grown : Disk} {links : Nat} {here there : Location} {steps : List Step}
    (hgrows : d.Grows grown) (h : Leads d links here steps there) :
    Leads grown links here steps there := by
  induction h with
  | done => exact .done
  | pass hdir hpast _ ih => exact .pass (hgrows.get? hdir) hpast ih
  | enter hget hlink _ ih => exact .enter (hgrows.get? hget) hlink ih
  | follow hget _ ih => exact .follow (hgrows.get? hget) ih

/-! ## Walks -/

/-- What a walk does behind a link, by the number of links it may still follow. -/
def behindLink (d : Disk) (purpose : Purpose) :
    Nat → Location → List Step → Except Refusal Spot
  | 0 => fun _ _ => .error .tooManyLinks
  | links + 1 => d.walkLinks purpose links

/-- A walk through a number of links goes on behind each of them with one less. -/
theorem walkLinks_eq (d : Disk) (purpose : Purpose) (links : Nat) :
    d.walkLinks purpose links = d.walkFrom purpose (d.behindLink purpose links) := by
  cases links <;> rfl

section Walk

variable {d : Disk} {purpose : Purpose} {links : Nat} {here : Location} {rest : List Step}

/-- Without steps a walk ends where it stands. -/
@[simp]
theorem walkLinks_nil : d.walkLinks purpose links here [] = .ok (.found here) := by
  rw [walkLinks_eq, walkFrom]

/-- A step without a name. -/
theorem walkLinks_pass {next : Location} {step : Step} (hdir : d.get? here = some .directory)
    (hpast : step.past here = some next) :
    d.walkLinks purpose links here (step :: rest) = d.walkLinks purpose links next rest := by
  cases step <;> cases hpast <;> simp [walkLinks_eq, walkFrom, hdir]

/-- A step needs a directory. -/
theorem walkLinks_of_not_directory {step : Step} (hdir : d.get? here ≠ some .directory) :
    d.walkLinks purpose links here (step :: rest) = .error .notDirectory := by
  rw [walkLinks_eq, walkFrom.eq_def]
  simp [hdir]

/-- A step into an entry that is no link. -/
theorem walkLinks_enter {name : FileName} {entry : Entry}
    (hget : d.get? (name :: here) = some entry) (hlink : ∀ target, entry ≠ .link target)
    (hrest : ¬(purpose = .makeFile ∧ rest = [.slash])) :
    d.walkLinks purpose links here (.name name.bytes :: rest) =
      d.walkLinks purpose links (name :: here) rest := by
  rw [walkLinks_eq, walkFrom]
  simp only [directory_of_get? hget, ne_eq, not_true_eq_false, if_false, if_neg hrest,
    FileName.ofBytes?_bytes, hget]

/-- A step through a link that is not itself meant. -/
theorem walkLinks_behind {name : FileName} {target : Path}
    (hget : d.get? (name :: here) = some (.link target))
    (hslash : ¬(purpose = .makeFile ∧ rest = [.slash]))
    (hmeant : ¬(purpose = .useLink ∧ rest = [])) :
    d.walkLinks purpose (links + 1) here (.name name.bytes :: rest) =
      d.walkLinks purpose links (if target.isAbsolute then [] else here)
        (target.steps ++ rest) := by
  rw [walkLinks_eq, walkFrom]
  simp only [directory_of_get? hget, ne_eq, not_true_eq_false, if_false, if_neg hslash,
    FileName.ofBytes?_bytes, hget, if_neg hmeant, behindLink]

/-- A step through a link. -/
theorem walkLinks_follow {name : FileName} {target : Path}
    (hget : d.get? (name :: here) = some (.link target))
    (hrest : purpose = .use ∨ (rest ≠ [] ∧ rest ≠ [.slash])) :
    d.walkLinks purpose (links + 1) here (.name name.bytes :: rest) =
      d.walkLinks purpose links (if target.isAbsolute then [] else here)
        (target.steps ++ rest) := by
  refine walkLinks_behind hget ?_ ?_
  · rcases hrest with rfl | ⟨-, hslash⟩
    · simp
    · exact fun h => hslash h.2
  -- A link is itself meant only by the last name.
  · rcases hrest with rfl | ⟨hne, -⟩
    · simp
    · exact fun h => hne h.2

/-- A walk that ends well does not make a file where a directory would be. -/
theorem not_slash_of_walkLinks {bytes : Bytes} {spot : Spot}
    (h : d.walkLinks purpose links here (.name bytes :: rest) = .ok spot) :
    ¬(purpose = .makeFile ∧ rest = [.slash]) := by
  intro hslash
  rw [walkLinks_eq, walkFrom, if_pos hslash] at h
  split at h <;> cases h

/-- What a walk does behind a name does not depend on being at the end when more steps follow. -/
theorem append_ne_of_ne {steps : List Step} (hrest : rest ≠ [] ∧ rest ≠ [.slash]) :
    steps ++ rest ≠ [] ∧ steps ++ rest ≠ [.slash] := by
  refine ⟨fun h => hrest.1 (List.append_eq_nil_iff.1 h).2, fun h => ?_⟩
  rcases List.append_eq_singleton_iff.1 h with ⟨-, hslash⟩ | ⟨-, hnil⟩
  · exact hrest.2 hslash
  · exact hrest.1 hnil

/-- A walk takes the way that the steps lead, and goes on from there. Only the last name of a walk
may be treated in another way than by entering it. -/
theorem walkLinks_of_leads {used : Nat} {there : Location} {steps : List Step}
    (h : Leads d used here steps there) (hused : used ≤ links)
    (hrest : purpose = .use ∨ (rest ≠ [] ∧ rest ≠ [.slash])) :
    d.walkLinks purpose links here (steps ++ rest) =
      d.walkLinks purpose (links - used) there rest := by
  -- The induction is on the way; each link on it is one that may not be followed any more.
  induction h generalizing links with
  | done => rw [Nat.sub_zero, List.nil_append]
  | pass hdir hpast _ ih => rw [List.cons_append, walkLinks_pass hdir hpast, ih hused]
  | enter hget hlink _ ih =>
    rw [List.cons_append, walkLinks_enter hget hlink, ih hused]
    rintro ⟨rfl, hslash⟩
    rcases hrest with hpurpose | hrest
    · cases hpurpose
    · exact (append_ne_of_ne hrest).2 hslash
  | @follow used _ _ inner _ _ hget _ ih =>
    obtain ⟨fewer, rfl⟩ : ∃ fewer, links = fewer + 1 := ⟨links - 1, by omega⟩
    rw [List.cons_append, walkLinks_follow hget (hrest.imp_right append_ne_of_ne),
      ← List.append_assoc, ih (by omega), Nat.succ_sub_succ]

/-- How a walk goes that ends well, step by step. -/
inductive Ends (d : Disk) (purpose : Purpose) : Nat → Location → List Step → Spot → Prop
  /-- No step is left. -/
  | done {links : Nat} {here : Location} : Ends d purpose links here [] (.found here)
  /-- A step has no name. -/
  | pass {links : Nat} {here next : Location} {step : Step} {rest : List Step} {spot : Spot} :
      d.get? here = some .directory → step.past here = some next →
        Ends d purpose links next rest spot → Ends d purpose links here (step :: rest) spot
  /-- Nothing has the last name. -/
  | vacant {links : Nat} {here : Location} {name : FileName} :
      d.get? here = some .directory → d.get? (name :: here) = none →
        Ends d purpose links here [.name name.bytes] (.vacant here name)
  /-- A name leads into an entry that is no link. -/
  | enter {links : Nat} {here : Location} {name : FileName} {entry : Entry} {rest : List Step}
      {spot : Spot} :
      d.get? (name :: here) = some entry → (∀ target, entry ≠ .link target) →
        Ends d purpose links (name :: here) rest spot →
          Ends d purpose links here (.name name.bytes :: rest) spot
  /-- The last name is that of a link that is itself meant. -/
  | atLink {links : Nat} {here : Location} {name : FileName} {target : Path} :
      d.get? (name :: here) = some (.link target) → purpose = .useLink →
        Ends d purpose links here [.name name.bytes] (.found (name :: here))
  /-- A name leads through a link, which is not itself meant. -/
  | follow {links : Nat} {here : Location} {name : FileName} {target : Path} {rest : List Step}
      {spot : Spot} :
      d.get? (name :: here) = some (.link target) → (purpose = .useLink → rest ≠ []) →
        Ends d purpose links (if target.isAbsolute then [] else here) (target.steps ++ rest) spot →
          Ends d purpose (links + 1) here (.name name.bytes :: rest) spot

/-- A walk that ends well goes step by step. -/
theorem ends_of_walkLinks {steps : List Step} {spot : Spot}
    (h : d.walkLinks purpose links here steps = .ok spot) :
    Ends d purpose links here steps spot := by
  -- The steps of a link's text may be many, but one link less may be followed behind it.
  induction links using Nat.strongRecOn generalizing here steps with
  | ind links ihlinks =>
    induction steps generalizing here with
    | nil =>
      rw [walkLinks_nil] at h
      cases h
      exact .done
    | cons step steps ihsteps =>
      -- A step that does not start from a directory is refused, whatever it is.
      by_cases hdir : d.get? here = some .directory
      case neg =>
        rw [walkLinks_of_not_directory hdir] at h
        cases h
      cases hstep : step.past here with
      | some next => exact .pass hdir hstep (ihsteps (walkLinks_pass hdir hstep ▸ h))
      | none =>
        cases step with
        | stay | slash | up => cases hstep
        | name bytes =>
          rw [walkLinks_eq, walkFrom.eq_def] at h
          simp only [hdir, ne_eq, not_true_eq_false, if_false] at h
          split at h
          · cases h
          · split at h
            · cases h
            · next name hname =>
              obtain rfl := FileName.bytes_of_ofBytes? hname
              split at h
              · next hnone =>
                split at h
                · next hrest =>
                  cases h
                  subst hrest
                  exact .vacant hdir hnone
                · cases h
              · next target hlink =>
                split at h
                · next hend =>
                  cases h
                  obtain ⟨hpurpose, rfl⟩ := hend
                  exact .atLink hlink hpurpose
                · next hmeant =>
                  cases links with
                  | zero => cases h
                  | succ fewer =>
                    exact .follow hlink (fun hpurpose hend => hmeant ⟨hpurpose, hend⟩)
                      (ihlinks fewer (Nat.lt_succ_self fewer) h)
              · next entry hentry hget =>
                refine .enter hget (fun target he => hentry target he) (ihsteps ?_)
                rw [walkLinks_eq]
                exact h

/-- The first name of a walk that ends well can be the name of an entry. -/
theorem Ends.exists_name {bytes : Bytes} {spot : Spot}
    (h : Ends d purpose links here (.name bytes :: rest) spot) :
    ∃ name : FileName, name.bytes = bytes := by
  generalize hsteps : Step.name bytes :: rest = steps at h
  cases h with
  | done => cases hsteps
  | pass _ hpast _ =>
    obtain rfl := (List.cons.inj hsteps).1
    cases hpast
  | vacant | enter | atLink | follow =>
    exact ⟨_, (Step.name.inj (List.cons.inj hsteps).1).symm⟩

/-- A walk that ends well leads through its first steps, as long as it does not end among them. -/
theorem Ends.leads {steps : List Step} {spot : Spot}
    (h : Ends d purpose links here (steps ++ rest) spot)
    (hrest : (purpose = .use ∧ ∃ there, spot = .found there) ∨ rest ≠ []) :
    ∃ used ≤ links, ∃ there, Leads d used here steps there ∧
      Ends d purpose (links - used) there rest spot := by
  -- The induction follows the walk; its end lies behind the first steps unless there are none.
  generalize hall : steps ++ rest = all at h
  induction h generalizing steps with
  | done =>
    obtain ⟨rfl, rfl⟩ := List.append_eq_nil_iff.1 hall
    exact ⟨0, Nat.zero_le _, _, .done, .done⟩
  | pass hdir hpast hends ih =>
    rcases List.append_eq_cons_iff.1 hall with ⟨rfl, rfl⟩ | ⟨steps, rfl, hsteps⟩
    · exact ⟨0, Nat.zero_le _, _, .done, .pass hdir hpast hends⟩
    · obtain ⟨used, hused, there, hleads, hlast⟩ := ih hrest hsteps.symm
      exact ⟨used, hused, there, .pass hdir hpast hleads, hlast⟩
  | vacant hdir hnone =>
    rcases List.append_eq_cons_iff.1 hall with ⟨rfl, rfl⟩ | ⟨steps, rfl, hsteps⟩
    · exact ⟨0, Nat.zero_le _, _, .done, .vacant hdir hnone⟩
    · -- A place that is vacant is used by nobody, and it is the end of the walk.
      rcases hrest with ⟨-, there, hfound⟩ | hne
      · cases hfound
      · exact absurd (List.append_eq_nil_iff.1 hsteps.symm).2 hne
  | enter hget hlink hends ih =>
    rcases List.append_eq_cons_iff.1 hall with ⟨rfl, rfl⟩ | ⟨steps, rfl, hsteps⟩
    · exact ⟨0, Nat.zero_le _, _, .done, .enter hget hlink hends⟩
    · obtain ⟨used, hused, there, hleads, hlast⟩ := ih hrest hsteps.symm
      exact ⟨used, hused, there, .enter hget hlink hleads, hlast⟩
  | atLink hget hpurpose =>
    rcases List.append_eq_cons_iff.1 hall with ⟨rfl, rfl⟩ | ⟨steps, rfl, hsteps⟩
    · exact ⟨0, Nat.zero_le _, _, .done, .atLink hget hpurpose⟩
    · rcases hrest with ⟨huse, -⟩ | hne
      · cases huse.symm.trans hpurpose
      · exact absurd (List.append_eq_nil_iff.1 hsteps.symm).2 hne
  | follow hget hmeant hends ih =>
    rcases List.append_eq_cons_iff.1 hall with ⟨rfl, rfl⟩ | ⟨steps, rfl, rfl⟩
    · exact ⟨0, Nat.zero_le _, _, .done, .follow hget hmeant hends⟩
    · obtain ⟨used, hused, there, hleads, hlast⟩ := ih hrest (List.append_assoc ..)
      refine ⟨used + 1, by omega, there, .follow hget hleads, ?_⟩
      rwa [Nat.succ_sub_succ]

/-- What lies at the end of a way can be used when the way has few enough links, and else not. -/
theorem walkLinks_use_iff {steps : List Step} {there : Location} :
    d.walkLinks .use links here steps = .ok (.found there) ↔
      ∃ used ≤ links, Leads d used here steps there := by
  constructor
  · intro h
    have hends := ends_of_walkLinks h
    rw [← List.append_nil steps] at hends
    obtain ⟨used, hused, last, hleads, hlast⟩ := hends.leads (.inl ⟨rfl, _, rfl⟩)
    -- Nothing is left to go, so the walk ends where the way leads.
    generalize links - used = left at hlast
    cases hlast
    exact ⟨used, hused, hleads⟩
  · rintro ⟨used, hused, hleads⟩
    have h : d.walkLinks .use links here (steps ++ []) = _ :=
      walkLinks_of_leads hleads hused (.inl rfl)
    rwa [List.append_nil, walkLinks_nil] at h

/-- What a walk finds that does not stop at links is found by using it: a file is written where it
would be read. -/
theorem Ends.walkLinks_use {steps : List Step} {spot : Spot}
    (h : Ends d purpose links here steps spot) (hpurpose : purpose ≠ .useLink) :
    d.walkLinks .use links here steps = .ok spot := by
  induction h with
  | done => exact walkLinks_nil
  | pass hdir hpast _ ih => rw [walkLinks_pass hdir hpast, ih]
  | vacant hdir hnone => simp [walkLinks_eq, walkFrom, hdir, hnone]
  | enter hget hlink _ ih => rw [walkLinks_enter hget hlink (by simp), ih]
  | atLink _ huseLink => exact absurd huseLink hpurpose
  | follow hget _ _ ih => rw [walkLinks_follow hget (.inl rfl), ih]

/-- A vacant place lies in a directory, and nothing lies there. -/
theorem Ends.of_vacant {steps : List Step} {above : Location} {name : FileName}
    (h : Ends d purpose links here steps (.vacant above name)) :
    d.get? above = some .directory ∧ d.get? (name :: above) = none := by
  -- A vacant spot is where the last name leads, and no other case ends there.
  generalize hspot : Spot.vacant above name = spot at h
  induction h with
  | done => cases hspot
  | vacant hdir hnone =>
    cases hspot
    exact ⟨hdir, hnone⟩
  | atLink => cases hspot
  | pass _ _ _ ih | enter _ _ _ ih | follow _ _ _ ih => exact ih hspot

/-- Where steps lead something is found, be it a link at the end. -/
theorem Leads.exists_found {used : Nat} {there : Location} {steps : List Step}
    (h : Leads d used here steps there) (hused : used ≤ links) :
    ∃ found, d.walkLinks .useLink links here steps = .ok (.found found) := by
  induction h generalizing links with
  | done => exact ⟨_, walkLinks_nil⟩
  | pass hdir hpast _ ih =>
    rw [walkLinks_pass hdir hpast]
    exact ih hused
  | enter hget hlink _ ih =>
    rw [walkLinks_enter hget hlink (by simp)]
    exact ih hused
  | @follow used here _ rest name next hget _ ih =>
    by_cases hrest : rest = []
    · -- The link is the last name, and it is what is found.
      refine ⟨name :: here, ?_⟩
      rw [walkLinks_eq, walkFrom]
      simp [directory_of_get? hget, hget, hrest]
    · obtain ⟨fewer, rfl⟩ : ∃ fewer, links = fewer + 1 := ⟨links - 1, by omega⟩
      rw [walkLinks_behind hget (by simp) (by simp [hrest])]
      exact ih (by omega)

/-- A separator at the end of a path leads nowhere else than to the directory. -/
theorem walkLinks_of_dropSlash {there : Location} {steps : List Step}
    (h : d.walkLinks .use links here (Step.dropSlash steps) = .ok (.found there))
    (hdir : d.get? there = some .directory) :
    d.walkLinks .use links here steps = .ok (.found there) := by
  rw [Step.dropSlash] at h
  split at h
  · next hlast =>
    obtain ⟨front, rfl⟩ := List.getLast?_eq_some_iff.1 hlast
    rw [List.dropLast_concat] at h
    obtain ⟨used, hused, hleads⟩ := walkLinks_use_iff.1 h
    rw [walkLinks_of_leads hleads hused (.inl rfl), walkLinks_pass hdir rfl, walkLinks_nil]
  · exact h

/-- What can be used is there also without the separator at the end, be it a link. -/
theorem exists_found_dropSlash {there : Location} {steps : List Step}
    (h : d.walkLinks .use links here steps = .ok (.found there)) :
    ∃ found, d.walkLinks .useLink links here (Step.dropSlash steps) = .ok (.found found) := by
  obtain ⟨used, hused, hleads⟩ := walkLinks_use_iff.1 h
  rw [Step.dropSlash]
  split
  · next hlast =>
    obtain ⟨front, rfl⟩ := List.getLast?_eq_some_iff.1 hlast
    obtain ⟨before, after, mid, rfl, hbefore, -⟩ := hleads.split
    rw [List.dropLast_concat]
    exact hbefore.exists_found (by omega)
  · exact hleads.exists_found hused

end Walk

/-! ## Paths that can be served -/

/-- What a path must be like to be served at all. -/
theorem checkPath_eq_ok {p : Path} :
    checkPath p = .ok () ↔ 0 ∉ p.bytes ∧ p.size < pathLimit ∧ p.bytes ≠ [] := by
  unfold checkPath
  split
  · simp [*]
  · split
    · next hlong => simp [Nat.not_lt.2 hlong]
    · next hnul hlong => simp [hnul, Nat.lt_of_not_le hlong]

/-- A walk that ends well is one along a path that can be served. -/
theorem walk_eq_ok {d : Disk} {purpose : Purpose} {p : Path} {spot : Spot}
    (h : d.walk purpose p = .ok spot) :
    checkPath p = .ok () ∧ d.walkSteps purpose p.steps = .ok spot := by
  unfold walk at h
  split at h
  · cases h
  · next hcheck => exact ⟨hcheck, h⟩

/-- What is found lies where a walk ends. -/
theorem find_eq_ok {d : Disk} {purpose : Purpose} {p : Path} {location : Location} :
    d.find purpose p = .ok location ↔ d.walk purpose p = .ok (.found location) := by
  unfold find
  split
  · next hwalk => simp [hwalk]
  · next hwalk => simp [hwalk]
  · next hwalk => simp [hwalk]

/-- A path leads to what lies where a walk along it ends. -/
theorem lookAt_eq_ok {d : Disk} {p : Path} {entry : Entry} :
    d.lookAt p = .ok entry ↔
      ∃ location, d.walk .use p = .ok (.found location) ∧ d.get? location = some entry := by
  simp only [← find_eq_ok]
  unfold lookAt
  cases hfind : d.find .use p with
  | error refusal => simp [bind, Except.bind]
  | ok location =>
    cases hget : d.get? location <;> simp [bind, Except.bind, hget]

/-- Something lies where a path leads. -/
theorem isSome_of_find {d : Disk} {p : Path} {location : Location}
    (h : d.find .use p = .ok location) : (d.get? location).isSome := by
  obtain ⟨used, -, hleads⟩ := walkLinks_use_iff.1 (walk_eq_ok (find_eq_ok.1 h)).2
  exact hleads.isSome rfl

/-- A path that leads somewhere leads to something. -/
theorem exists_lookAt_of_find {d : Disk} {p : Path} {location : Location}
    (h : d.find .use p = .ok location) : ∃ entry, d.lookAt p = .ok entry := by
  obtain ⟨entry, hget⟩ := Option.isSome_iff_exists.1 (isSome_of_find h)
  exact ⟨entry, lookAt_eq_ok.2 ⟨location, find_eq_ok.1 h, hget⟩⟩

/-- A path leads to a directory when a directory is what it leads to. -/
theorem isDirectory_eq_true {d : Disk} {p : Path} :
    d.isDirectory p = true ↔ d.lookAt p = .ok .directory := by
  unfold isDirectory
  split
  · next hlook => simp [hlook]
  · next hlook => simpa using hlook

/-- What a path leads to is present at the path, behind links of any kind. -/
theorem isPresent_of_find {d : Disk} {p : Path} {location : Location}
    (h : d.find .use p = .ok location) : d.isPresent p = true := by
  obtain ⟨hcheck, hwalk⟩ := walk_eq_ok (find_eq_ok.1 h)
  obtain ⟨used, hused, hleads⟩ := walkLinks_use_iff.1 hwalk
  obtain ⟨found, hfound⟩ := hleads.exists_found hused
  have hfind : d.find .useLink p = .ok found := by
    simp only [find, walk, hcheck, walkSteps, hfound]
  rw [isPresent, hfind]

/-! ## Paths of names -/

/-- The path of some names leads to a location, through links. -/
def Reaches (d : Disk) (names : List Bytes) (there : Location) : Prop :=
  ∃ used ≤ linkLimit, Leads d used [] (names.reverse.map .name) there

section Names

variable {d : Disk} {name : Bytes} {names : List Bytes} {there : Location}

/-- Without names a path leads to the root. -/
@[simp]
theorem reaches_nil : d.Reaches [] there ↔ there = [] := by
  constructor
  · rintro ⟨used, -, hleads⟩
    cases hleads
    rfl
  · rintro rfl
    exact ⟨0, Nat.zero_le _, .done⟩

/-- A path of names leads to one location only. -/
theorem Reaches.unique {elsewhere : Location} (h : d.Reaches names there)
    (hother : d.Reaches names elsewhere) : there = elsewhere := by
  obtain ⟨_, -, hleads⟩ := h
  obtain ⟨_, -, hleads'⟩ := hother
  exact (hleads.unique hleads').2

/-- A path of names leads to the same location when directories are added. -/
theorem Reaches.grow {grown : Disk} (hgrows : d.Grows grown) (h : d.Reaches names there) :
    grown.Reaches names there := by
  obtain ⟨used, hused, hleads⟩ := h
  exact ⟨used, hused, hleads.grow hgrows⟩

/-- Behind a path of names an entry that is no link is reached by its name. -/
theorem Reaches.enter {entry : Entry} {name : FileName} (h : d.Reaches names there)
    (hget : d.get? (name :: there) = some entry) (hlink : ∀ target, entry ≠ .link target) :
    d.Reaches (name.bytes :: names) (name :: there) := by
  obtain ⟨used, hused, hleads⟩ := h
  refine ⟨used, hused, ?_⟩
  rw [Step.map_name_reverse_cons, ← Nat.add_zero used]
  exact hleads.append (.enter hget hlink .done)

/-- A path of names leads through the path of the names above, to an entry there or through a link
there. -/
theorem Reaches.above (h : d.Reaches (name :: names) there) :
    ∃ above last, d.Reaches names above ∧ FileName.bytes last = name ∧
      ((∃ target, d.get? (last :: above) = some (.link target)) ∨
        (there = last :: above ∧ ∃ entry, d.get? (last :: above) = some entry)) := by
  obtain ⟨used, hused, hleads⟩ := h
  -- The way is cut before the last name.
  rw [Step.map_name_reverse_cons] at hleads
  obtain ⟨before, after, above, rfl, hbefore, hafter⟩ := hleads.split
  generalize hstep : [Step.name name] = steps at hafter
  cases hafter with
  | done => cases hstep
  | pass _ hpast _ =>
    cases hstep
    cases hpast
  | enter hget _ hdone =>
    cases hstep
    cases hdone
    exact ⟨above, _, ⟨before, by omega, hbefore⟩, rfl, .inr ⟨rfl, _, hget⟩⟩
  | follow hget _ =>
    cases hstep
    exact ⟨above, _, ⟨before, by omega, hbefore⟩, rfl, .inl ⟨_, hget⟩⟩

/-- Something lies where the path of some names leads, be it a link. -/
def Occupied (d : Disk) (name : Bytes) (names : List Bytes) : Prop :=
  ∃ above last, d.Reaches names above ∧ FileName.bytes last = name ∧
    (d.get? (last :: above)).isSome

/-- What a path of names leads to lies at its end, or behind a link there. -/
theorem Reaches.occupied (h : d.Reaches (name :: names) there) : d.Occupied name names := by
  obtain ⟨above, last, habove, hlast, ⟨target, hget⟩ | ⟨-, entry, hget⟩⟩ := h.above
  · exact ⟨above, last, habove, hlast, by simp [hget]⟩
  · exact ⟨above, last, habove, hlast, by simp [hget]⟩

/-- A walk along a path of names goes through the path of the names above. -/
theorem above_of_walkSteps {purpose : Purpose} {spot : Spot}
    (h : d.walkSteps purpose ((name :: names).reverse.map .name) = .ok spot) :
    ∃ above last, d.Reaches names above ∧ FileName.bytes last = name ∧
      ((d.get? (last :: above) = none ∧ spot = .vacant above last) ∨
        ((∃ target, d.get? (last :: above) = some (.link target)) ∧
          (purpose = .useLink → spot = .found (last :: above))) ∨
        ((∃ entry, d.get? (last :: above) = some entry) ∧ spot = .found (last :: above))) := by
  rw [Step.map_name_reverse_cons] at h
  -- The last name is still to go, so what the walk is for does not matter before it.
  obtain ⟨used, hused, above, hleads, hlast⟩ := (ends_of_walkLinks h).leads (.inr (by simp))
  have habove : d.Reaches names above := ⟨used, hused, hleads⟩
  generalize linkLimit - used = left at hlast
  generalize hstep : [Step.name name] = steps at hlast
  cases hlast with
  | done => cases hstep
  | pass _ hpast _ =>
    cases hstep
    cases hpast
  | vacant hdir hnone =>
    cases hstep
    exact ⟨above, _, habove, rfl, .inl ⟨hnone, rfl⟩⟩
  | enter hget hlink hdone =>
    cases hstep
    cases hdone
    exact ⟨above, _, habove, rfl, .inr (.inr ⟨⟨_, hget⟩, rfl⟩)⟩
  | atLink hget hpurpose =>
    cases hstep
    exact ⟨above, _, habove, rfl, .inr (.inl ⟨⟨_, hget⟩, fun _ => rfl⟩)⟩
  | follow hget hmeant _ =>
    cases hstep
    exact ⟨above, _, habove, rfl, .inr (.inl ⟨⟨_, hget⟩, fun huse => absurd rfl (hmeant huse)⟩)⟩

end Names

end Disk

end CommandShell
