import CommandShell.Proofs.Channels
import CommandShell.Proofs.FileCopies
import CommandShell.Proofs.StoredObjects

/-!
# Commands that are carried out in full or not at all

A command with a single target looks first and then makes one request that changes anything. When
such a command reports a fault nothing has changed, unless that one request had opened a file and
broke off: only the target is torn then, and what it holds is told by what should have been written
to it. An archive is collected and encoded before it is opened, so whatever keeps it from being
stored leaves an archive that exists alone.

## Main definitions

* `Request.InFull`: a request that is carried out in full or not at all.
* `FailsLeaving`: what an action leaves when it fails.
* `Builtin.SingleTarget`: the commands with a single target.
* `Builtin.Torn`: what they leave of their target when they break off.
* `Builtin.Unstorable`: what keeps operands from being stored in an archive.

## Main results

* `Disk.held_of_answer_error`: a request in full that is refused leaves a disk as it is;
* `Builtin.failsLeaving_run`: a command with a single target that fails leaves everything as it is,
  or its target torn;
* `Builtin.Unstorable.not_gathered`: nothing is collected that cannot be stored;
* `dispatch_fails_cleanly`: what this means for the tree, the session, and an archive that exists.
-/

namespace CommandShell

open ShellM

variable {host : Host} {format : Archive.Format}

/-! ## Requests -/

/-- A request that is carried out in full or not at all, on whatever machine. Those that open a file
may break off. -/
def Request.InFull {α : Type} : Request α → Prop
  | write .. | touch _ | copyFile .. | store .. | makeDirectories _ | copyTree .. => False
  | _ => True

namespace Disk

variable {d : Disk}

/-- A change that is refused leaves a disk as it is. -/
theorem held_changing_error {attempt : Attempt} {p : Path} {result : Except Refusal Disk}
    {stop : Stop} (h : (d.changing attempt p result).1 = .error stop) :
    (d.changing attempt p result).2 = d := by
  cases result with
  | error refusal => rfl
  | ok changed => cases h

/-- A request in full that is refused leaves a disk as it is. -/
theorem held_of_answer_error {α : Type} {r : Request α} (hr : r.InFull) {stop : Stop}
    (h : (d.answer r host format).1 = .error stop) : (d.answer r host format).2 = d := by
  by_cases hlooks : r.Looks
  · exact held_answer_of_looks hlooks d host format
  cases r with
  | list | kindOf | isPresent | read | canonical | members => exact absurd trivial hlooks
  | makeDirectory | removeFile | removeDirectory => exact held_changing_error h
  | write | touch | copyFile | store | makeDirectories | copyTree => cases hr

end Disk

/-! ## Actions -/

/-- When an action fails in some world, the session is as it was, and the disk is as it was or left
in a certain way. -/
def FailsLeaving {α : Type} (P : Disk → Prop) (w : World Disk) (action : ShellM Disk α) : Prop :=
  ∀ stop after, action.perform w = (.error stop, after) →
    (after.held = w.held ∨ P after.held) ∧ after.session = w.session

namespace FailsLeaving

variable {α β : Type} {P : Disk → Prop} {w : World Disk} {first : ShellM Disk α}
  {second : α → ShellM Disk β}

/-- Looking changes nothing at all. -/
theorem of_looking (h : Composed (Disk.files host format) .looking first) :
    FailsLeaving P w first := by
  intro stop after hperform
  have hsame := h.unchanged_of_looking w
  rw [hperform] at hsame
  exact ⟨.inl hsame.1, hsame.2⟩

/-- Stopping changes nothing. -/
theorem fail (fault : Fault) : FailsLeaving P w (fail fault : ShellM Disk α) := by
  intro stop after hperform
  cases hperform
  exact ⟨.inl rfl, rfl⟩

/-- A request leaves what it leaves when it is refused. -/
theorem request {r : Request α} (hr : ∀ stop left,
    w.held.answer r host format = (.error stop, left) → left = w.held ∨ P left) :
    FailsLeaving P w (request (Disk.files host format) r) := by
  intro stop after hperform
  rw [perform_request] at hperform
  obtain ⟨hstop, rfl⟩ := Prod.mk.inj hperform
  exact ⟨hr stop _ (Prod.ext hstop rfl), rfl⟩

/-- A request in full is made or refused. -/
theorem request_of_inFull {r : Request α} (hr : r.InFull) :
    FailsLeaving P w (ShellM.request (Disk.files host format) r) := by
  refine request fun stop left hanswer => .inl ?_
  have hsame := Disk.held_of_answer_error hr (congrArg Prod.fst hanswer)
  rwa [hanswer] at hsame

/-- What follows on looking starts from the same disk and the same session. -/
theorem bind_looking (hlooks : Composed (Disk.files host format) .looking first)
    (hsecond : ∀ a after, first.perform w = (.ok a, after) → after.held = w.held →
      after.session = w.session → after.streams.NeverFails → FailsLeaving P after (second a))
    (hw : w.streams.NeverFails) : FailsLeaving P w (first >>= second) := by
  intro stop after hperform
  rw [perform_bind] at hperform
  obtain ⟨hheld, hsession⟩ := hlooks.unchanged_of_looking w
  have hstreams := hlooks.neverFails hw
  rcases hfirst : first.perform w with ⟨failed | a, middle⟩ <;>
    rw [hfirst] at hperform hheld hsession hstreams
  · cases hperform
    exact ⟨.inl hheld, hsession⟩
  · obtain ⟨hleft, hsame⟩ := hsecond a middle hfirst hheld hsession hstreams stop after hperform
    exact ⟨hleft.imp_left (·.trans hheld), hsame.trans hsession⟩

/-- What cannot fail may follow. -/
theorem bind_ok (hfirst : FailsLeaving P w first)
    (hsecond : ∀ a after, first.perform w = (.ok a, after) →
      ∃ b, ((second a).perform after).1 = .ok b) : FailsLeaving P w (first >>= second) := by
  intro stop after hperform
  rw [perform_bind] at hperform
  rcases hdone : first.perform w with ⟨failed | a, middle⟩ <;> rw [hdone] at hperform
  · cases hperform
    exact hfirst _ _ hdone
  · obtain ⟨b, hb⟩ := hsecond a middle hdone
    rw [show (second a).perform middle = (.error stop, after) from hperform] at hb
    cases hb

end FailsLeaving

/-! ## Commands with a single target -/

namespace Builtin

variable {w : World Disk} {args operands : List String} {recursive : Bool} {archive : String}

/-- The commands that change the session, or one file or directory. Removing all empty directories
and copying a directory with everything in it are none. -/
inductive SingleTarget (w : World Disk) : Builtin → List String → Prop
  /-- Changing the working directory. -/
  | cd (args : List String) : SingleTarget w .cd args
  /-- Making a file. -/
  | touch (args : List String) : SingleTarget w .touch args
  /-- Removing a file. -/
  | rm (args : List String) : SingleTarget w .rm args
  /-- Removing a single directory. -/
  | rmdir {args : List String} : args ≠ ["*"] → SingleTarget w .rmdir args
  /-- Copying, unless the source is a directory that is copied with everything in it. -/
  | cp {args : List String} :
      (∀ source target, takeRecursive args = (true, [source, target]) →
        w.held.isDirectory (w.session.resolve source) = false) → SingleTarget w .cp args
  /-- Storing in an archive. -/
  | zip (args : List String) : SingleTarget w .zip args

/-- What an operand contributes to an archive. -/
structure Contributes (w : World Disk) (recursive : Bool) (typed : String) (source : Source) :
    Prop where
  /-- It lies at the canonical path of the operand. -/
  canonical : w.held.canonical (w.session.resolve typed) = .ok source.path
  /-- It is stored under the text that the last name of that path is shown as. -/
  fileName : source.path.fileName.map Utf8.toStringLossy = some source.name
  /-- Everything in it is stored when that is asked for. -/
  recursive_eq : source.recursive = recursive

/-- An operand contributes one thing only. -/
theorem Contributes.unique {typed : String} {source other : Source}
    (h : Contributes w recursive typed source) (hother : Contributes w recursive typed other) :
    source = other := by
  obtain ⟨path, name, whole⟩ := source
  obtain ⟨path', name', whole'⟩ := other
  obtain ⟨hcanonical, hname, hwhole⟩ := h
  obtain ⟨hcanonical', hname', hwhole'⟩ := hother
  obtain rfl := Except.ok.inj (hcanonical.symm.trans hcanonical')
  obtain rfl := Option.some.inj (hname.symm.trans hname')
  obtain rfl := hwhole.trans hwhole'.symm
  rfl

/-- The sources of an archive are what the operands contribute, in their order. -/
theorem sourcesOf_eq_ok {sources : List Source} {after : World Disk}
    (h : (sourcesOf (Disk.files host format) recursive operands).perform w = (.ok sources, after)) :
    after = w ∧ List.Forall₂ (Contributes w recursive) operands sources := by
  -- The operands are resolved in turn, on a disk that does not change.
  induction operands generalizing sources with
  | nil =>
    cases h
    exact ⟨rfl, .nil⟩
  | cons typed rest ih =>
    simp only [sourcesOf, perform_bind, perform_resolve, perform_request,
      Disk.answer_canonical] at h
    cases hcanonical : w.held.canonical (w.session.resolve typed) with
    | error refusal => simp [hcanonical, Disk.looking] at h
    | ok path =>
      simp only [hcanonical, Disk.looking] at h
      cases hname : path.fileName with
      | none => simp [hname] at h
      | some name =>
        simp only [hname, perform_bind] at h
        rcases hrest : (sourcesOf (Disk.files host format) recursive rest).perform w with
          ⟨_ | others, last⟩
        · simp [hrest] at h
        · simp only [hrest, perform_pure, Prod.mk.injEq, Except.ok.injEq] at h
          obtain ⟨rfl, rfl⟩ := h
          obtain ⟨rfl, hothers⟩ := ih hrest
          exact ⟨rfl, .cons ⟨hcanonical, by simp [hname], rfl⟩ hothers⟩

/-- What a command with a single target leaves of a disk when its one request breaks off. The
target is the only thing that has changed. -/
inductive Torn (w : World Disk) (host : Host) (format : Archive.Format) :
    Builtin → List String → Disk → Prop
  /-- The file that was touched is new, and its time could not be set. -/
  | touch {typed : String} {left : Disk} :
      w.held.Untimed host (w.session.resolve typed) left → Torn w host format .touch [typed] left
  /-- The copy holds the first of the bytes of the source. -/
  | cp {args : List String} {recursive : Bool} {source target : String} {place : Path}
      {bytes : Bytes} {left : Disk} :
      takeRecursive args = (recursive, [source, target]) →
        Places w.held (w.session.resolve source) (w.session.resolve target) place →
          w.held.content (w.session.resolve source) = .ok bytes →
            w.held.BreaksOff host place bytes left → Torn w host format .cp args left
  /-- The copy is empty, as the source is a device that cannot be read. -/
  | cpUnread {args : List String} {recursive : Bool} {source target : String} {place : Path}
      {kind : Device} {left : Disk} :
      takeRecursive args = (recursive, [source, target]) →
        Places w.held (w.session.resolve source) (w.session.resolve target) place →
          w.held.lookAt (w.session.resolve source) = .ok (.device kind) →
            w.held.Emptied place left → Torn w host format .cp args left
  /-- The archive holds the first of the bytes that it should have. -/
  | zip {args operands : List String} {recursive : Bool} {archive : String}
      {sources : List Source} {members : List Member} {bytes : Bytes} {left : Disk} :
      takeRecursive args = (recursive, archive :: operands) →
        List.Forall₂ (Contributes w recursive) operands sources →
          w.held.gatherAll sources format = .ok members → format.encode members = .ok bytes →
            w.held.BreaksOff host (w.session.resolve archive) bytes left →
              Torn w host format .zip args left

/-- On a reliable machine without devices nothing is torn. -/
theorem not_torn {b : Builtin} {left : Disk} (hdevices : w.held.NoDevices) :
    ¬Torn w .reliable format b args left := by
  intro htorn
  cases htorn with
  | touch huntimed => exact Disk.not_untimed_reliable huntimed
  | cp _ _ _ hbreaks => exact Disk.not_breaksOff_reliable hbreaks
  | cpUnread _ _ hdevice _ =>
    obtain ⟨location, -, hget⟩ := Disk.lookAt_eq_ok.1 hdevice
    exact hdevices location _ hget
  | zip _ _ _ _ hbreaks => exact Disk.not_breaksOff_reliable hbreaks

/-! ## What each leaves -/

variable {P : Disk → Prop}

/-- Changing the working directory changes it in the last step. -/
theorem failsLeaving_runCd (hw : w.streams.NeverFails) (args : List String) :
    FailsLeaving P w (runCd (Disk.files host format) args) := by
  refine .bind_looking (.session : Composed (Disk.files host format) .looking _)
    (fun current after _ _ _ hafter => ?_) hw
  cases cdTarget current args with
  | error fault => exact .fail _
  | ok found =>
    refine .bind_looking (.tryRequest _ trivial) (fun kind last _ _ _ _ => ?_) hafter
    match kind with
    | .error _ => exact .fail _
    | .ok .file => exact .fail _
    | .ok .directory => exact .bind_ok (.request_of_inFull trivial) fun _ _ _ => ⟨(), rfl⟩

/-- Removing a single directory makes one request. -/
theorem failsLeaving_runRmdir (hw : w.streams.NeverFails) (hargs : args ≠ ["*"]) :
    FailsLeaving P w (runRmdir (Disk.files host format) args) := by
  match args with
  | [] => exact .fail _
  | [typed] =>
    rw [runRmdir, if_neg (by simpa using hargs)]
    refine .bind_looking (.resolve typed : Composed (Disk.files host format) .looking _)
      (fun target after _ _ _ hafter => ?_) hw
    refine .bind_looking (.request _ trivial) (fun kind last _ _ _ _ => ?_) hafter
    cases kind with
    | file => exact .fail _
    | directory => exact .request_of_inFull trivial
  | _ :: _ :: _ => exact .fail _

/-- Making a file makes one request. -/
theorem failsLeaving_runTouch :
    ∀ args, FailsLeaving (Torn w host format .touch args) w
      (runTouch (Disk.files host format) args)
  | [] => .fail _
  | [typed] => by
    intro stop after hperform
    simp only [runTouch, perform_bind, perform_resolve] at hperform
    refine FailsLeaving.request (fun stop left hanswer => ?_) stop after hperform
    exact (Disk.touch_eq_error hanswer).imp_right .touch
  | _ :: _ :: _ => .fail _

/-- Removing a file makes one request. -/
theorem failsLeaving_runRm (hw : w.streams.NeverFails) :
    ∀ args, FailsLeaving P w (runRm (Disk.files host format) args)
  | [] => .fail _
  | [typed] => .bind_looking (.resolve typed : Composed (Disk.files host format) .looking _)
      (fun _ _ _ _ _ _ => .request_of_inFull trivial) hw
  | _ :: _ :: _ => .fail _

/-- A copy that was begun and refused changed nothing, or left its target torn. -/
theorem Began.eq_or_torn {refusal : Refusal} {left : Disk} {source target : String}
    (hargs : takeRecursive args = (recursive, [source, target]))
    (h : Began w host (w.session.resolve source) (w.session.resolve target) (.error refusal) left) :
    left = w.held ∨ Torn w host format .cp args left := by
  obtain ⟨place, hplaces, hother, hcopy⟩ := h
  rcases Disk.copyFile_eq_error hother hcopy with
    hsame | ⟨bytes, hcontent, hbreaks⟩ | ⟨⟨kind, hdevice⟩, hemptied⟩
  · exact .inl hsame
  · exact .inr (.cp hargs hplaces hcontent hbreaks)
  · exact .inr (.cpUnread hargs hplaces hdevice hemptied)

/-- Copying anything but a whole directory makes one request, after looking at both operands. -/
theorem failsLeaving_runCp
    (hsource : ∀ source target, takeRecursive args = (true, [source, target]) →
      w.held.isDirectory (w.session.resolve source) = false) :
    FailsLeaving (Torn w host format .cp args) w (runCp (Disk.files host format) args) := by
  intro stop after hperform
  have hsession : after.session = w.session := by
    have hsame := (Builtin.cp.composed_run (Disk.files host format) args).session_eq
      (by simp [Builtin.permit]) w
    rwa [Builtin.run, hperform] at hsame
  refine ⟨?_, hsession⟩
  rcases hargs : takeRecursive args with ⟨recursive, _ | ⟨source, _ | ⟨target, _ | ⟨_, _⟩⟩⟩⟩
  case cons.cons.nil =>
    rcases hlook : w.held.lookAt (w.session.resolve source) with refusal | entry
    · -- Nothing lies there.
      simp only [runCp, hargs, perform_bind, perform_resolve, perform_request,
        Disk.answer_kindOf, hlook, Except.map, Disk.looking] at hperform
      cases hperform
      exact .inl rfl
    cases hkind : Disk.kindOfEntry entry with
    | file =>
      rcases runCp_file hargs hlook hkind hperform with
        ⟨-, hsame | ⟨refusal, hbegan⟩⟩ | ⟨hok, -⟩
      · exact .inl hsame
      · exact hbegan.eq_or_torn hargs
      · cases hok
    | directory =>
      -- A directory is copied only with everything in it, and that is excluded.
      obtain rfl : recursive = false := by
        cases recursive with
        | false => rfl
        | true =>
          have hfile := hsource source target hargs
          cases entry <;> simp [Disk.isDirectory, Disk.kindOfEntry, hlook] at hfile hkind
      simp only [runCp, hargs, perform_bind, perform_resolve, perform_request,
        Disk.answer_kindOf, hlook, Except.map, hkind, Disk.looking] at hperform
      cases hperform
      exact .inl rfl
  all_goals
    simp only [runCp, hargs, misused] at hperform
    cases hperform
    exact .inl rfl

/-- Storing in an archive makes one request, and then only prints. -/
theorem failsLeaving_runZip (hw : w.streams.NeverFails) (args : List String) :
    FailsLeaving (Torn w host format .zip args) w (runZip (Disk.files host format) args) := by
  rw [runZip]
  rcases hargs : takeRecursive args with ⟨recursive, _ | ⟨archive, _ | ⟨first, rest⟩⟩⟩
  · exact .fail _
  · exact .fail _
  · refine .bind_looking (alike_sourcesOf (Disk.files host format) (Disk.files host format) _ _)
      (fun sources after hsources _ _ hafter => ?_) hw
    obtain ⟨rfl, hcontributes⟩ := sourcesOf_eq_ok hsources
    refine .bind_looking (.resolve archive : Composed (Disk.files host format) .looking _)
      (fun target last htarget hheld _ hlast => ?_) hafter
    obtain ⟨rfl, rfl⟩ : after.session.resolve archive = target ∧ after = last := by
      simpa using htarget
    refine .bind_ok (.request fun stop left hanswer => ?_) fun stored done hdone => ?_
    -- What cannot be collected or encoded is refused before the archive is opened.
    · obtain hsame | ⟨members, bytes, hgather, hencode, hbreaks⟩ := Disk.store_eq_error hanswer
      · exact .inl hsame
      · exact .inr (.zip hargs hcontributes hgather hencode hbreaks)
    · rw [perform_request] at hdone
      obtain ⟨-, rfl⟩ := Prod.mk.inj hdone
      let written := ((Disk.files host format).answer
        (.store (after.session.resolve archive) sources) after.held).2
      obtain ⟨printed, hprint, -⟩ := perform_printEach (w := { after with held := written })
        ("  adding: " ++ ·) stored hlast
      exact ⟨(), congrArg Prod.fst hprint⟩

/-- A command with a single target that fails changes nothing, or leaves its target torn. -/
theorem failsLeaving_run (hw : w.streams.NeverFails) {b : Builtin} (hb : SingleTarget w b args) :
    FailsLeaving (Torn w host format b args) w (b.run (Disk.files host format) args) := by
  cases hb with
  | cd => exact failsLeaving_runCd hw args
  | touch => exact failsLeaving_runTouch args
  | rm => exact failsLeaving_runRm hw args
  | rmdir hargs => exact failsLeaving_runRmdir hw hargs
  | cp hsource => exact failsLeaving_runCp hsource
  | zip => exact failsLeaving_runZip hw args

/-- A command with a single target says nothing on the error channel itself. -/
theorem mute_run_of_singleTarget {b : Builtin} (hb : SingleTarget w b args) :
    Mute .err (b.run (Disk.files host format) args) := by
  cases hb with
  | cd => exact mute_runCd args
  | touch => exact mute_runTouch args
  | rm => exact mute_runRm args
  | rmdir hargs => exact mute_runRmdir hargs
  | cp => exact mute_runCp args
  | zip => exact mute_runZip args

/-! ## What cannot be stored -/

/-- What keeps operands from being stored in an archive. -/
inductive Unstorable (w : World Disk) (recursive : Bool) (archive : String)
    (operands : List String) : Prop
  /-- An operand leads nowhere. -/
  | missing {typed : String} {refusal : Refusal} :
      typed ∈ operands → w.held.canonical (w.session.resolve typed) = .error refusal →
        Unstorable w recursive archive operands
  /-- An object leads nowhere, such as a dangling link at any depth in an operand. -/
  | dangling {sources : List Source} {objects : List StoredObject} {object : StoredObject}
      {refusal : Refusal} :
      List.Forall₂ (Contributes w recursive) operands sources →
        w.held.StoresAll sources objects → object ∈ objects →
          w.held.lookAt object.path = .error refusal → Unstorable w recursive archive operands
  /-- Two objects have the same stored name. -/
  | sameName {sources : List Source} {objects : List StoredObject} :
      List.Forall₂ (Contributes w recursive) operands sources →
        w.held.StoresAll sources objects → ¬(objects.map StoredObject.name).Nodup →
          Unstorable w recursive archive operands
  /-- The archive cannot be opened. -/
  | archive {refusal : Refusal} :
      w.held.openFile (w.session.resolve archive) = .error refusal →
        Unstorable w recursive archive operands

/-- An archive is stored only when every operand contributes something, and the archive of all of
them can be written. The names in it are shown then. -/
theorem runZip_eq_ok {after : World Disk}
    (hargs : takeRecursive args = (recursive, archive :: operands))
    (h : (runZip (Disk.files host format) args).perform w = (.ok (), after)) :
    ∃ sources names written, List.Forall₂ (Contributes w recursive) operands sources ∧
      w.held.store (w.session.resolve archive) sources host format = (.ok names, written) ∧
      (printEach ("  adding: " ++ ·) names).perform { w with held := written } =
        (.ok (), after) := by
  cases operands with
  | nil => simp [runZip, hargs, misused] at h
  | cons first rest =>
    simp only [runZip, hargs, perform_bind] at h
    rcases hsources : (sourcesOf (Disk.files host format) recursive (first :: rest)).perform w with
      ⟨_ | sources, last⟩
    · simp [hsources] at h
    · obtain ⟨rfl, hcontributes⟩ := sourcesOf_eq_ok hsources
      have hanswer : (Disk.files host format).answer
        (.store (last.session.resolve archive) sources) last.held =
          last.held.store (last.session.resolve archive) sources host format := rfl
      simp only [hsources, perform_resolve, perform_request, hanswer] at h
      rcases hstore : last.held.store (last.session.resolve archive) sources host format with
        ⟨stop | names, written⟩
      · simp [hstore] at h
      · simp only [hstore] at h
        exact ⟨sources, names, written, hcontributes, hstore, h⟩

/-- Whatever stands in a list has its partner. -/
theorem exists_of_mem_of_forall₂ {α β : Type} {R : α → β → Prop} {items : List α}
    {partners : List β} (h : List.Forall₂ R items partners) {item : α} (hitem : item ∈ items) :
    ∃ partner ∈ partners, R item partner := by
  induction h with
  | nil => cases hitem
  | cons hfirst _ ih =>
    rcases List.mem_cons.1 hitem with rfl | hrest
    · exact ⟨_, List.mem_cons_self, hfirst⟩
    · obtain ⟨partner, hpartner, hrelated⟩ := ih hrest
      exact ⟨partner, List.mem_cons_of_mem _ hpartner, hrelated⟩

/-- Nothing is collected that cannot be stored, or else the archive cannot be opened. -/
theorem Unstorable.not_gathered {sources : List Source} {members : List Member}
    (hformat : format.StoresOnce) (h : Unstorable w recursive archive operands)
    (hsources : List.Forall₂ (Contributes w recursive) operands sources)
    (hgather : w.held.gatherAll sources format = .ok members)
    {opened : Location × Disk} :
    w.held.openFile (w.session.resolve archive) ≠ .ok opened := by
  intro hopen
  -- What the operands contribute is told by the relation, so the two lists of sources are the same.
  have hunique : Relator.RightUnique (Contributes w recursive) := fun _ _ _ => Contributes.unique
  cases h with
  | missing htyped hmissing =>
    obtain ⟨source, -, hsource⟩ := exists_of_mem_of_forall₂ hsources htyped
    rw [hsource.canonical] at hmissing
    cases hmissing
  | dangling hcontributes hobjects hobject hnowhere =>
    obtain rfl := List.right_unique_forall₂' hunique hsources hcontributes
    obtain ⟨entry, hlook⟩ := hobjects.exists_of_gatherAll hgather _ hobject
    rw [hlook] at hnowhere
    cases hnowhere
  | sameName hcontributes hobjects hsame =>
    obtain rfl := List.right_unique_forall₂' hunique hsources hcontributes
    obtain ⟨others, hothers, rfl, haccepts⟩ := Disk.gatherAll_stores hgather
    -- The objects that were collected are these, and no name among them was refused.
    obtain rfl := hobjects.unique hothers
    exact hsame (by simpa [Disk.memberOf, Function.comp_def] using haccepts.nodup hformat)
  | archive hrefused =>
    rw [hopen] at hrefused
    cases hrefused

/-- Nothing is stored that cannot be stored. -/
theorem runZip_ne_ok (hformat : format.StoresOnce)
    (hargs : takeRecursive args = (recursive, archive :: operands))
    (hunstorable : Unstorable w recursive archive operands) :
    ((runZip (Disk.files host format) args).perform w).1 ≠ .ok () := by
  intro hok
  obtain ⟨sources, names, written, hsources, hstore, -⟩ := runZip_eq_ok hargs (Prod.ext hok rfl)
  obtain ⟨members, bytes, hgather, -, hwrite, -⟩ := Disk.store_eq_ok hstore
  cases hopen : w.held.openFile (w.session.resolve archive) with
  | error refusal => simp [Disk.writeFile, hopen] at hwrite
  | ok opened => exact hunstorable.not_gathered hformat hsources hgather hopen

/-- An archive is torn only when everything in it can be stored. -/
theorem Torn.not_unstorable {left : Disk} (hformat : format.StoresOnce)
    (hargs : takeRecursive args = (recursive, archive :: operands))
    (h : Torn w host format .zip args left) : ¬Unstorable w recursive archive operands := by
  intro hunstorable
  cases h with
  | zip hsame hsources hgather _ hbreaks =>
    obtain ⟨rfl, rfl, rfl⟩ : recursive = _ ∧ archive = _ ∧ operands = _ := by
      simpa using hargs.symm.trans hsame
    obtain ⟨location, opened, _, _, _, hopen, -⟩ := hbreaks
    exact hunstorable.not_gathered hformat hsources hgather hopen

end Builtin

/-! ## Command lines -/

/-- A command with a single target, run on streams that never fail, reports a fault only when the
session is as before, and the whole tree too, unless the machine broke off behind the opening of the
target: the rest of the tree is as before then, and what the target holds is known. A reliable
machine without devices breaks nothing off. An archive that exists is left alone, on any machine, by
everything that keeps its operands from being stored, all of which is reported. -/
theorem dispatch_fails_cleanly {w : World Disk} (hstreams : w.streams.NeverFails)
    (host : Host) {format : Archive.Format} (hformat : format.StoresOnce) {b : Builtin}
    {args : List String} (hb : b.SingleTarget w args) :
    let after := ((dispatch (Disk.files host format) ⟨b.name, args, none⟩).perform w).2
    (after.streams.bytesOn .err ≠ w.streams.bytesOn .err →
      (after.held = w.held ∨ b.Torn w host format args after.held) ∧
        after.session = w.session ∧
        (host = .reliable → w.held.NoDevices → after.held = w.held)) ∧
    (∀ recursive archive operands, b = .zip →
      Builtin.takeRecursive args = (recursive, archive :: operands) →
        Builtin.Unstorable w recursive archive operands →
          after.streams.bytesOn .err ≠ w.streams.bytesOn .err ∧ after.held = w.held) := by
  intro after
  have hafter : after = invoke (Disk.files host format) b args w := by
    simp only [after,
      perform_dispatch_plain (Disk.files host format) args (Builtin.ofName?_name b)]
  have hclean : after.streams.bytesOn .err ≠ w.streams.bytesOn .err →
      (after.held = w.held ∨ b.Torn w host format args after.held) ∧
        after.session = w.session := by
    intro hreported
    rw [hafter, held_invoke, session_invoke]
    rcases hperform : (b.run (Disk.files host format) args).perform w with ⟨stop | _, last⟩
    · exact Builtin.failsLeaving_run hstreams hb stop last hperform
    · -- A command that comes to its end reports nothing.
      have hmute : Mute .err (b.run (Disk.files host format) args) :=
        Builtin.mute_run_of_singleTarget hb
      have hsilent := hmute w
      rw [hafter, invoke, hperform] at hreported
      rw [hperform] at hsilent
      exact absurd hsilent hreported
  refine ⟨fun hreported => ?_, ?_⟩
  · obtain ⟨hheld, hsession⟩ := hclean hreported
    refine ⟨hheld, hsession, ?_⟩
    rintro rfl hdevices
    exact hheld.resolve_right (Builtin.not_torn hdevices)
  · rintro recursive archive operands rfl hargs hunstorable
    have hreported : after.streams.bytesOn .err ≠ w.streams.bytesOn .err := fun hsilent =>
      Builtin.runZip_ne_ok hformat hargs hunstorable (congrArg Prod.fst
        (run_of_silent (Disk.files host format) (b := .zip) hstreams hsilent))
    exact ⟨hreported, (hclean hreported).1.resolve_right fun htorn =>
      htorn.not_unstorable hformat hargs hunstorable⟩

/-- The name of an archive. -/
def archiveName : FileName := .ofString "old"

/-- The name of a directory. -/
def shelfName : FileName := .ofString "shelf"

/-- The name of a link. -/
def strayName : FileName := .ofString "stray"

/-- A disk with an archive, and a directory that has a link which leads nowhere. -/
def Disk.danglingLink : Disk where
  entries :=
    [([archiveName], .file (Utf8.ofString "kept")), ([shelfName], .directory),
      ([strayName, shelfName], .link (.ofString "/nowhere"))]
  nodup := by decide
  inDirectory := by decide

/-- Storing the directory with everything in it stops at the link, and the archive stays. -/
theorem dispatch_fails_cleanly_at_link :
    let w : World Disk := ⟨Session.start .root .root, .unlimited, Disk.danglingLink⟩
    let args := ["-r", "old", "shelf"]
    let after := ((dispatch Disk.files ⟨"zip", args, none⟩).perform w).2
    (w.streams.NeverFails ∧ Archive.zip.StoresOnce ∧ Builtin.zip.SingleTarget w args ∧
        w.held.NoDevices ∧ Builtin.takeRecursive args = (true, ["old", "shelf"]) ∧
        Builtin.Unstorable w true "old" ["shelf"]) ∧
      after.streams.bytesOn .err ≠ w.streams.bytesOn .err ∧ after.held = w.held ∧
      after.session = w.session := by
  intro w args after
  let shelf : Path := .ofString "/shelf"
  let there : Path := shelf.child strayName
  have hdir : w.held.isDirectory shelf = true := by decide +kernel
  have hnames : w.held.names shelf = .ok [strayName] := by decide +kernel
  have hfile : w.held.isDirectory there = false := by decide +kernel
  have hsorted : Disk.sortNames [strayName] = [strayName] := by simp [Disk.sortNames]
  have hlists : w.held.Lists shelf (directoryName "shelf") (Disk.sortNames [strayName])
      [⟨directoryName "shelf" ++ strayName.shown, there⟩] := by
    rw [hsorted]
    exact .file hfile .nil
  have hunstorable : Builtin.Unstorable w true "old" ["shelf"] := by
    have hcontributes : Builtin.Contributes w true "shelf" ⟨shelf, "shelf", true⟩ :=
      ⟨by decide +kernel, by decide +kernel, rfl⟩
    have hnowhere : w.held.lookAt there = .error .notFound := by decide +kernel
    have hstores : w.held.StoresAll [⟨shelf, "shelf", true⟩]
        [⟨directoryName "shelf", shelf⟩, ⟨directoryName "shelf" ++ strayName.shown, there⟩] :=
      ⟨[_], .cons (.tree hdir rfl hnames hlists) .nil, by rw [List.flatten_singleton]⟩
    exact .dangling (.cons hcontributes .nil) hstores (List.mem_cons_of_mem _ List.mem_cons_self)
      hnowhere
  have hstreams : w.streams.NeverFails := Streams.neverFails_unlimited
  have hdevices : w.held.NoDevices := Disk.noDevices_of_entries (by decide)
  have honce := Archive.zip_storesOnce
  obtain ⟨hclean, hzip⟩ := dispatch_fails_cleanly hstreams .reliable honce (.zip args)
  obtain ⟨hreported, -⟩ := hzip true "old" ["shelf"] rfl rfl hunstorable
  obtain ⟨-, hsession, hheld⟩ := hclean hreported
  exact ⟨⟨hstreams, honce, .zip args, hdevices, rfl, hunstorable⟩, hreported,
    hheld rfl hdevices, hsession⟩

/-- The name of a file that cannot be read. -/
def faultyName : FileName := .ofString "faulty"

/-- A disk with an archive, and a device that cannot be read. -/
def Disk.unreadable : Disk where
  entries := [([archiveName], .file (Utf8.ofString "kept")), ([faultyName], .device .faulty)]
  nodup := by decide
  inDirectory := by decide

/-- A command with a single target can fail behind the opening of its target: on a machine that is
out of room an archive that exists is lost, and on any machine the target of a copy that cannot be
read. -/
theorem dispatch_tears_target :
    let w : World Disk := ⟨Session.start .root .root, .unlimited, Disk.danglingLink⟩
    let stored := ["old", "shelf"]
    let after := ((dispatch (Disk.files .outOfRoom) ⟨"zip", stored, none⟩).perform w).2
    let unread : World Disk := ⟨Session.start .root .root, .unlimited, Disk.unreadable⟩
    let copied := ["faulty", "old"]
    let emptied := ((dispatch Disk.files ⟨"cp", copied, none⟩).perform unread).2
    (w.streams.NeverFails ∧ Builtin.zip.SingleTarget w stored ∧ w.held.NoDevices ∧
        after.streams.bytesOn .err ≠ w.streams.bytesOn .err ∧
        w.held.get? [archiveName] = some (.file (Utf8.ofString "kept")) ∧
        after.held.get? [archiveName] = some (.file [])) ∧
      (unread.streams.NeverFails ∧ Builtin.cp.SingleTarget unread copied ∧
        emptied.streams.bytesOn .err ≠ unread.streams.bytesOn .err ∧
        unread.held.get? [archiveName] = some (.file (Utf8.ofString "kept")) ∧
        emptied.held.get? [archiveName] = some (.file [])) := by
  intro w stored after unread copied emptied
  have hcopied : Builtin.cp.SingleTarget unread copied :=
    .cp (by simp [copied, Builtin.takeRecursive])
  exact ⟨⟨Streams.neverFails_unlimited, .zip _, Disk.noDevices_of_entries (by decide),
      by decide +kernel, by decide +kernel, by decide +kernel⟩,
    Streams.neverFails_unlimited, hcopied, by decide +kernel, by decide +kernel,
    by decide +kernel⟩

end CommandShell
