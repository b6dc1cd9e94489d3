import CommandShell.Proofs.Interruptions
import CommandShell.Proofs.TreeCopies

/-!
# Copies of single files

Copying a file empties its target before anything is read, so everything depends on the look that is
taken before: whether the place of the copy leads to the file itself. Here it is shown that this
look misses no way to the file, through links and directories of any kind, and what the copy is
then.

## Main results

* `Builtin.ne_origin_of_sameFile`: a place that is not found to be the file is opened elsewhere;
* `Disk.get?_copyFile`: a copy to another place holds the bytes of the file, and nothing else
  changes;
* `dispatch_cp_file`: what this means for `cp`, with and without `-r`.
-/

namespace CommandShell

open ShellM

variable {host : Host} {format : Archive.Format}

namespace Disk

variable {d : Disk} {source target : Path} {origin location : Location} {bytes : Bytes}

/-! ## Opened files -/

/-- A file that a path opens, and that lies there already, is what the path leads to. -/
theorem Opens.find (h : d.Opens target location) (hsome : (d.get? location).isSome) :
    d.find .use target = .ok location := by
  obtain ⟨spot, hwalk, rfl⟩ := h
  obtain ⟨hcheck, hsteps⟩ := walk_eq_ok hwalk
  have hends := ends_of_walkLinks hsteps
  have huse : d.walkSteps .use target.steps = .ok spot := hends.walkLinks_use (by simp)
  cases spot with
  | found there => simp only [Disk.find, Disk.walk, hcheck, huse, Spot.location]
  | vacant above name =>
    rw [Spot.location, hends.of_vacant.2] at hsome
    cases hsome

/-- A path leads to the file that it opened. -/
theorem Opens.find_kept {kept : Disk} (h : d.Opens target location) (hkeeps : d.KeepsLinks kept)
    (hget : kept.get? location = some (.file bytes)) : kept.find .use target = .ok location := by
  obtain ⟨spot, hwalk, rfl⟩ := h
  obtain ⟨hcheck, hsteps⟩ := walk_eq_ok hwalk
  have hkept : kept.walkSteps .use target.steps = .ok (.found spot.location) :=
    (ends_of_walkLinks hsteps).keepLinks hkeeps hget (by simp)
  simp only [Disk.find, Disk.walk, hcheck, hkept]

/-! ## One copy -/

/-- A copy to a place other than the file, and that is no device, holds the bytes of the file.
Nothing else changes. -/
theorem get?_copyFile {count : Nat} {copied : Disk} (hfile : d.get? origin = some (.file bytes))
    (horigin : d.find .use source = .ok origin) (hopens : d.Opens target location)
    (hne : location ≠ origin) (hdevice : ∀ kind, d.get? location ≠ some (.device kind))
    (h : d.copyFile source target host = (.ok count, copied)) (other : Location) :
    copied.get? other = if other = location then some (.file bytes) else d.get? other := by
  obtain ⟨origin', place, opened, emptied, content, hfrom, hopen, hempty, hcontent, hwrite, -⟩ :=
    copyFile_eq_ok h
  obtain rfl := Except.ok.inj (horigin.symm.trans hfrom)
  obtain ⟨spot, hwalk, rfl, hopened⟩ := openFile_eq_ok hopen
  obtain ⟨spot', hwalk', rfl⟩ := hopens
  obtain rfl := Except.ok.inj (hwalk.symm.trans hwalk')
  rcases get?_openFile hopen with ⟨old, hold, -⟩ | ⟨kind, hkind, -⟩
  · -- What is read is what the file held, as the file that is emptied is another one.
    have hemptied := get?_writeAt_file hold hempty
    have hkept := (hemptied origin).trans ((if_neg hne.symm).trans (hopened origin hne.symm))
    obtain rfl : content = bytes := by
      simpa using (hcontent.symm.trans hkept).trans hfile
    rw [get?_writeAt_file ((hemptied _).trans (if_pos rfl)) hwrite, hemptied]
    split
    · rfl
    · next hother => exact hopened other hother
  · exact absurd hkind (hdevice kind)

/-- A copy of a single file is refused for a directory, or ends as the copying does. -/
theorem copy_eq {result : Except Stop Nat} {copied : Disk}
    (h : d.copy source target host = (result, copied)) :
    ((∀ count, result ≠ .ok count) ∧
        (copied = d ∨ ∃ refusal, d.copyFile source target host = (.error refusal, copied))) ∨
      ∃ count, result = .ok count ∧ d.copyFile source target host = (.ok count, copied) := by
  unfold copy at h
  split at h
  · cases h
    exact .inl ⟨nofun, .inl rfl⟩
  · split at h
    · next hcopied =>
      cases h
      exact .inr ⟨_, rfl, hcopied⟩
    · next hrefused =>
      split at h <;>
      · cases h
        exact .inl ⟨nofun, .inr ⟨_, hrefused⟩⟩

end Disk

/-! ## The command -/

namespace Builtin

variable {w : World Disk} {args : List String} {recursive : Bool} {source target : String}
  {entry : Entry} {origin : Location}

/-- Whatever is present is told by looking. -/
theorem answer_isPresent (d : Disk) (p : Path) :
    (Disk.files host format).answer (.isPresent p) d = (.ok (d.isPresent p), d) := rfl

/-- A place that is not found to be the file is opened elsewhere. -/
theorem ne_origin_of_sameFile {place p : Path} {location : Location} {after : World Disk}
    (h : (sameFile (Disk.files host format) place p).perform w = (.ok false, after))
    (horigin : w.held.find .use p = .ok origin) (hopens : w.held.Opens place location)
    (hsome : (w.held.get? origin).isSome) : location ≠ origin := by
  rintro rfl
  -- Were it the file, it would be present and have the same canonical path.
  have hfind := hopens.find hsome
  have hplace := Disk.canonical_of_find hfind
  have hsource := Disk.canonical_of_find horigin
  simp only [sameFile, perform_bind, perform_request, answer_isPresent,
    Disk.isPresent_of_find hfind, if_true, Disk.answer_canonical] at h
  by_cases hlong : pathLimit ≤ location.path.size
  · rw [if_pos hlong] at hplace
    simp [hplace, Disk.looking] at h
  · rw [if_neg hlong] at hplace hsource
    simp [hplace, hsource, Disk.looking] at h

/-- A copy was begun to the place where a copy goes, and not to the file itself. -/
def Began (w : World Disk) (host : Host) (source target : Path) (result : Except Refusal Nat)
    (left : Disk) : Prop :=
  ∃ place, Places w.held source target place ∧
    (∀ origin location, w.held.find .use source = .ok origin → w.held.Opens place location →
      location ≠ origin) ∧
    w.held.copyFile source place host = (result, left)

/-- A file was copied to the place where a copy goes, and not to itself. -/
def Copied (w : World Disk) (host : Host) (source target : Path) (copied : Disk) : Prop :=
  ∃ count, Began w host source target (.ok count) copied

/-- However a copy ends that was begun, the source keeps its bytes. -/
theorem Began.lookAt_source {source target : Path} {result : Except Refusal Nat} {left : Disk}
    {bytes : Bytes} (h : Began w host source target result left)
    (hsource : w.held.lookAt source = .ok (.file bytes)) :
    left.lookAt source = .ok (.file bytes) := by
  obtain ⟨place, -, hother, hcopy⟩ := h
  obtain ⟨origin, hwalk, hfile⟩ := Disk.lookAt_eq_ok.1 hsource
  have horigin := Disk.find_eq_ok.2 hwalk
  have hspares : Disk.Spares (w.held.Opens place) Disk.nowhere w.held
      (w.held.copyFile source place host).2 := Disk.spares_copyFile source place
  have hkeeps := w.held.keepsLinks_copyFile source place host
  rw [hcopy] at hspares hkeeps
  have hkept := (hspares.entry hfile (by simp)).resolve_left fun hopens =>
    hother origin origin horigin hopens rfl
  exact Disk.lookAt_eq_ok.2 ⟨origin, Disk.find_eq_ok.1 (hkeeps.find horigin), hkept⟩

/-- What `cp` does with what is no directory: it stops, and nothing is changed unless a copy was
begun, or a file is copied. -/
theorem runCp_file {result : Except Stop Unit} {after : World Disk}
    (hargs : takeRecursive args = (recursive, [source, target]))
    (hlook : w.held.lookAt (w.session.resolve source) = .ok entry)
    (hkind : Disk.kindOfEntry entry = .file)
    (h : (runCp (Disk.files host format) args).perform w = (result, after)) :
    (result ≠ .ok () ∧ (after.held = w.held ∨ ∃ refusal,
        Began w host (w.session.resolve source) (w.session.resolve target) (.error refusal)
          after.held)) ∨
      result = .ok () ∧
        Copied w host (w.session.resolve source) (w.session.resolve target) after.held := by
  have hplaced := (alike_placement (Disk.files host format) (Disk.files host format)
    (w.session.resolve source) (w.session.resolve target)).unchanged_of_looking w
  simp only [runCp, hargs, perform_bind, perform_resolve, perform_request, Disk.answer_kindOf,
    hlook, Except.map, hkind, Disk.looking, reduceCtorEq, false_and, if_false] at h
  rcases hplace : (placement (Disk.files host format) (w.session.resolve source)
    (w.session.resolve target)).perform w with ⟨stop | place, ready⟩ <;>
    simp only [hplace] at h hplaced
  · cases h
    exact .inl ⟨by simp, .inl hplaced.1⟩
  have hsames := (alike_sameFile (Disk.files host format) (Disk.files host format) place
    (w.session.resolve source)).unchanged_of_looking ready
  rcases hsame : (sameFile (Disk.files host format) place (w.session.resolve source)).perform
    ready with ⟨stop | _ | _, looked⟩ <;> simp only [hsame] at h hsames
  · cases h
    exact .inl ⟨by simp, .inl (hsames.1.trans hplaced.1)⟩
  · -- Only here a request is made that may change the disk.
    simp only [Bool.false_eq_true, if_false, perform_bind, perform_request] at h
    have hlooked : looked.held = w.held := hsames.1.trans hplaced.1
    have hother : ∀ origin location, w.held.find .use (w.session.resolve source) = .ok origin →
        w.held.Opens place location → location ≠ origin := by
      intro origin location horigin hopens
      have hsome : (w.held.get? origin).isSome := by
        obtain ⟨there, hthere, hget⟩ := Disk.lookAt_eq_ok.1 hlook
        obtain rfl := Except.ok.inj ((Disk.find_eq_ok.2 hthere).symm.trans horigin)
        rw [hget, Option.isSome_some]
      rw [← hplaced.1] at horigin hopens hsome
      exact ne_origin_of_sameFile hsame horigin hopens hsome
    rw [show (Disk.files host format).answer (.copyFile (w.session.resolve source) place)
      looked.held = looked.held.copy (w.session.resolve source) place host from rfl, hlooked] at h
    rcases hcopy : w.held.copy (w.session.resolve source) place host with ⟨stop | count, copied⟩ <;>
      simp only [hcopy] at h
    · obtain ⟨-, rfl | ⟨refusal, hrefused⟩⟩ | ⟨_, hcount, -⟩ := Disk.copy_eq hcopy
      · cases h
        exact .inl ⟨by simp, .inl rfl⟩
      · cases h
        exact .inl ⟨by simp, .inr ⟨refusal, place, places_of_placement hplace, hother, hrefused⟩⟩
      · cases hcount
    · obtain ⟨hnot, -⟩ | ⟨_, hcount, hcopied⟩ := Disk.copy_eq hcopy
      · exact absurd rfl (hnot count)
      · cases h
        cases hcount
        exact .inr ⟨rfl, count, place, places_of_placement hplace, hother, hcopied⟩
  · cases h
    exact .inl ⟨by simp, .inl (hsames.1.trans hplaced.1)⟩

/-- The same with and without `-r`. A file that is itself called `-r` is taken for the option where
it comes first, and then an operand is missing. -/
theorem runCp_of_file {result : Except Stop Unit} {after : World Disk}
    (hargs : args = [source, target] ∨ args = ["-r", source, target])
    (hlook : w.held.lookAt (w.session.resolve source) = .ok entry)
    (hkind : Disk.kindOfEntry entry = .file)
    (h : (runCp (Disk.files host format) args).perform w = (result, after)) :
    (result ≠ .ok () ∧ (after.held = w.held ∨ ∃ refusal,
        Began w host (w.session.resolve source) (w.session.resolve target) (.error refusal)
          after.held)) ∨
      result = .ok () ∧
        Copied w host (w.session.resolve source) (w.session.resolve target) after.held := by
  rcases hargs with rfl | rfl
  · by_cases hoption : source = "-r"
    · subst hoption
      cases h
      exact .inl ⟨by simp, .inl rfl⟩
    · have hargs : takeRecursive [source, target] = (false, [source, target]) := by
        simp [takeRecursive, hoption]
      exact runCp_file hargs hlook hkind h
  · have hargs : takeRecursive ["-r", source, target] = (true, [source, target]) := rfl
    exact runCp_file hargs hlook hkind h

end Builtin

/-- Copying one file keeps its bytes, also when the copying is refused or breaks off. When nothing
is complained about, the place of the copy leads to another file with these bytes, and everything
else is as it was. There may be links of any kind, and no devices. -/
theorem dispatch_cp_file {w : World Disk} {source target : String} {args : List String}
    {bytes : Bytes} (hargs : args = [source, target] ∨ args = ["-r", source, target])
    (hsource : w.held.lookAt (w.session.resolve source) = .ok (.file bytes))
    (hdevices : w.held.NoDevices) (host : Host) (format : Archive.Format) :
    let after := ((dispatch (Disk.files host format) ⟨"cp", args, none⟩).perform w).2
    after.held.lookAt (w.session.resolve source) = .ok (.file bytes) ∧
      (w.streams.NeverFails → after.streams.bytesOn .err = w.streams.bytesOn .err →
        ∃ place origin location,
          Builtin.Places w.held (w.session.resolve source) (w.session.resolve target) place ∧
          after.held.find .use (w.session.resolve source) = .ok origin ∧
          after.held.find .use place = .ok location ∧ location ≠ origin ∧
          after.held.get? location = some (.file bytes) ∧
          ∀ other, other ≠ location → after.held.get? other = w.held.get? other) := by
  intro after
  have hheld : after.held = ((Builtin.runCp (Disk.files host format) args).perform w).2.held :=
    held_dispatch_cp args w
  rcases hperform : (Builtin.runCp (Disk.files host format) args).perform w with ⟨result, last⟩
  rw [hperform] at hheld
  obtain ⟨hstopped, hleft⟩ | ⟨-, count, hbegan⟩ := Builtin.runCp_of_file hargs hsource rfl hperform
  · refine ⟨?_, fun hstreams hsilent => ?_⟩
    · rw [hheld]
      rcases hleft with hsame | ⟨refusal, hbegan⟩
      · rw [hsame, hsource]
      · exact hbegan.lookAt_source hsource
    · -- A command that stopped has complained.
      have hrun := run_of_silent (Disk.files host format) (b := .cp) hstreams hsilent
      exact absurd ((congrArg Prod.fst hperform).symm.trans (congrArg Prod.fst hrun)) hstopped
  · rw [← hheld] at hbegan
    have hkept := hbegan.lookAt_source hsource
    obtain ⟨place, hplaces, hother, hcopied⟩ := hbegan
    obtain ⟨origin, hwalk, hfile⟩ := Disk.lookAt_eq_ok.1 hsource
    have horigin := Disk.find_eq_ok.2 hwalk
    obtain ⟨-, location, opened, emptied, content, -, hopen, -⟩ := Disk.copyFile_eq_ok hcopied
    have hopens := (Disk.spares_openFile hopen).1
    have hne := hother origin location horigin hopens
    have hget := Disk.get?_copyFile hfile horigin hopens hne (hdevices location) hcopied
    have hkeeps : w.held.KeepsLinks after.held := by
      have hlinks := w.held.keepsLinks_copyFile (w.session.resolve source) place host
      rwa [hcopied] at hlinks
    have hcopy := (hget location).trans (if_pos rfl)
    exact ⟨hkept, fun _ _ => ⟨place, origin, location, hplaces, hkeeps.find horigin,
      hopens.find_kept hkeeps hcopy, hne, hcopy, fun other ho => (hget other).trans (if_neg ho)⟩⟩

/-- A file is copied through a link to the other directory. -/
theorem dispatch_cp_file_beside_link :
    let w : World Disk := ⟨Session.start .root .root, .unlimited, linkedBeside⟩
    let after := ((dispatch Disk.files ⟨"cp", ["s/f", "l"], none⟩).perform w).2
    (w.held.lookAt (w.session.resolve "s/f") = .ok (.file [1]) ∧ w.held.NoDevices ∧
        after.streams.bytesOn .err = w.streams.bytesOn .err) ∧
      after.held.lookAt (w.session.resolve "s/f") = .ok (.file [1]) ∧
      ∃ place origin location,
        Builtin.Places w.held (w.session.resolve "s/f") (w.session.resolve "l") place ∧
        after.held.find .use (w.session.resolve "s/f") = .ok origin ∧
        after.held.find .use place = .ok location ∧ location ≠ origin ∧
        after.held.get? location = some (.file [1]) ∧
        ∀ other, other ≠ location → after.held.get? other = w.held.get? other := by
  intro w after
  have hresolve : w.session.resolve "s/f" = .ofString "/s/f" := by decide +kernel
  have hsource : w.held.lookAt (w.session.resolve "s/f") = .ok (.file [1]) := by
    rw [hresolve]
    rfl
  have hdevices : w.held.NoDevices := Disk.noDevices_of_entries (by decide)
  have hsilent : after.streams.bytesOn .err = w.streams.bytesOn .err := by decide +kernel
  obtain ⟨hkept, hcopied⟩ :=
    dispatch_cp_file (.inl rfl) hsource hdevices .reliable Archive.zip
  exact ⟨⟨hsource, hdevices, hsilent⟩, hkept, hcopied Streams.neverFails_unlimited hsilent⟩

end CommandShell
