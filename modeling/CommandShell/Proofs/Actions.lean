import CommandShell.Shell.Dispatch
import CommandShell.Storage.OnDisk

/-!
# What commands are made of

Every command is put together from a few single steps: requests, writes, and looks at the session or
changes of it. What holds of each step and survives putting steps together therefore holds of every
command, and is proved here once by induction on how an action is made.

## Main definitions

* `ShellM.Alike`: two actions, on two file systems, that are made of the same single steps, within a
  permit.
* `ShellM.Composed`: actions that are made of single steps, within a permit.
* `Builtin.permit`: the requests that a command may make, and whether it may change the session.
* `World.behind`: a world whose streams have logged something before.
* `Streams.NeverFails`: streams that take everything.

## Main results

* `Builtin.alike_run` and `Builtin.composed_run`: every command is made of single steps, within its
  permit, and of the same ones on every file system;
* `ShellM.Alike.session_eq`: an action that may not change the session keeps it;
* `ShellM.Alike.held_of_answer`: what every answer to a permitted request keeps, an action keeps;
* `ShellM.Alike.perform_behind`: what was logged before plays no part in what an action does;
* `ShellM.Alike.neverFails`: streams that take everything go on doing so;
* `ShellM.Alike.not_broken`: an action breaks down only where the file system does;
* `invoke_of_neverFails` and `invoke_behind`: the same of commands whose faults are reported;
* `runLine_behind`, `neverFails_runLine` and `runLine_ok`: the same of lines of input;
* `Disk.answer_ne_broken`: no request breaks a disk down.
-/

namespace CommandShell

variable {σ τ : Type}

/-! ## Streams -/

/-- Both channels take everything. -/
def Streams.NeverFails (s : Streams) : Prop :=
  ∀ channel, s.room channel = none

namespace Streams

/-- Streams without limits never fail. -/
theorem neverFails_unlimited : unlimited.NeverFails := by
  intro channel
  cases channel <;> rfl

/-- Streams that never fail are given by their log. -/
theorem NeverFails.eq_mk {s : Streams} (h : s.NeverFails) : s = ⟨s.log, fun _ => none⟩ := by
  have hroom : s.room = fun _ => none := funext h
  rw [← hroom]

/-- A write to streams that never fail succeeds, and logs all bytes. -/
theorem NeverFails.write {s : Streams} (h : s.NeverFails) (channel : Channel) (bytes : Bytes) :
    s.write channel bytes = (.ok (), { s with log := s.log ++ [(channel, bytes)] }) :=
  write_unlimited (h channel) bytes

/-- The streams with a log put before their own. -/
def behind (before : List (Channel × Bytes)) (s : Streams) : Streams :=
  { s with log := before ++ s.log }

/-- A write is added behind everything that was logged before. -/
theorem write_behind (before : List (Channel × Bytes)) (s : Streams) (channel : Channel)
    (bytes : Bytes) :
    (s.behind before).write channel bytes =
      ((s.write channel bytes).1, (s.write channel bytes).2.behind before) :=
  Prod.ext rfl (by simp [Streams.write, behind])

/-- The bytes of a channel of which some were logged before. -/
theorem bytesOn_behind (before : List (Channel × Bytes)) (s : Streams) (channel : Channel) :
    (s.behind before).bytesOn channel =
      bytesOn ⟨before, s.room⟩ channel ++ s.bytesOn channel := by
  simp [bytesOn, behind]

end Streams

/-- The world with a log put before the log of its streams. -/
def World.behind (before : List (Channel × Bytes)) (w : World σ) : World σ :=
  { w with streams := w.streams.behind before }

/-- A world whose streams never fail is one that has nothing logged, with its log put before. -/
theorem World.eq_behind {w : World σ} (h : w.streams.NeverFails) :
    w = World.behind w.streams.log ⟨w.session, .unlimited, w.held⟩ := by
  have hunlimited := Streams.neverFails_unlimited.eq_mk
  have hstreams : w.streams = Streams.behind w.streams.log .unlimited := by
    rw [hunlimited]
    simpa [Streams.behind, Streams.unlimited, Streams.withRoom] using h.eq_mk
  rw [World.behind, ← hstreams]

/-! ## Reports -/

/-- A report is added behind everything that was logged before. -/
theorem report_behind (text : String) (before : List (Channel × Bytes)) (w : World σ) :
    report text (w.behind before) = (report text w).behind before := by
  simp only [report, World.behind, Streams.write_behind]

/-- Reporting to streams that never fail logs the whole line. -/
theorem report_of_neverFails {w : World σ} (h : w.streams.NeverFails) (text : String) :
    report text w =
      { w with streams :=
          { w.streams with
            log := w.streams.log ++ [(.err, Utf8.ofString (text ++ "\n"))] } } := by
  rw [report, h.write]

/-! ## Actions made of single steps -/

/-- A request that only looks. -/
def Request.Looks {α : Type} : Request α → Prop
  | list _ | kindOf _ | isPresent _ | read _ | canonical _ | members _ => True
  | _ => False

namespace ShellM

/-- What an action may do besides writing and looking at the session. -/
structure Permit where
  /-- The requests that it may make. -/
  asks {α : Type} : Request α → Prop
  /-- Whether it may change the session. -/
  settles : Prop

/-- To look, and nothing else. -/
def Permit.looking : Permit where
  asks := Request.Looks
  settles := False

/-- Two actions, each on a file system of its own, that are put together in the same way from single
steps, within a permit. -/
inductive Alike (files : FileSystem σ) (twins : FileSystem τ) (permit : Permit) :
    {α : Type} → ShellM σ α → ShellM τ α → Prop
  /-- Doing nothing. -/
  | pure {α : Type} (a : α) :
      Alike files twins permit (pure a : ShellM σ α) (pure a : ShellM τ α)
  /-- One action after the other. -/
  | bind {α β : Type} {first : ShellM σ α} {second : α → ShellM σ β} {twin : ShellM τ α}
      {next : α → ShellM τ β} :
      Alike files twins permit first twin →
        (∀ a, Alike files twins permit (second a) (next a)) →
          Alike files twins permit (first >>= second) (twin >>= next)
  /-- Stopping with a fault. -/
  | fail {α : Type} (fault : Fault) :
      Alike files twins permit (fail fault : ShellM σ α) (fail fault : ShellM τ α)
  /-- A request. -/
  | request {α : Type} (r : Request α) :
      permit.asks r → Alike files twins permit (request files r) (request twins r)
  /-- A request whose fault is caught. -/
  | tryRequest {α : Type} (r : Request α) :
      permit.asks r → Alike files twins permit (tryRequest files r) (tryRequest twins r)
  /-- A write. -/
  | write (channel : Channel) (bytes : Bytes) :
      Alike files twins permit (write channel bytes) (write channel bytes)
  /-- Looking at the session. -/
  | session : Alike files twins permit session session
  /-- Changing the session. -/
  | setSession (s : Session) :
      permit.settles → Alike files twins permit (setSession s) (setSession s)
  /-- Reading a typed path from the working directory. -/
  | resolve (typed : String) : Alike files twins permit (resolve typed) (resolve typed)
  /-- Reporting, whether or not there is room. -/
  | report (text : String) :
      Alike files twins permit (ofFunction fun w => (.ok (), report text w))
        (ofFunction fun w => (.ok (), report text w))

/-- An action that is put together from single steps, within a permit. -/
abbrev Composed (files : FileSystem σ) (permit : Permit) {α : Type} (action : ShellM σ α) : Prop :=
  Alike files files permit action action

namespace Alike

variable {files : FileSystem σ} {twins : FileSystem τ} {permit : Permit} {α : Type}
  {action : ShellM σ α} {twin : ShellM τ α}

/-- What was logged before an action plays no part in what the action does. -/
theorem perform_behind (h : Alike files twins permit action twin) (before : List (Channel × Bytes))
    (w : World σ) :
    action.perform (w.behind before) =
      ((action.perform w).1, (action.perform w).2.behind before) := by
  -- The induction is on how the action is made; only writing and reporting touch the streams.
  induction h generalizing w with
  | pure => rfl
  | bind _ _ ihfirst ihsecond =>
    rw [perform_bind, perform_bind, ihfirst]
    rename_i first second _ _ _ _
    rcases hfirst : first.perform w with ⟨_ | a, after⟩
    · rfl
    · exact ihsecond a after
  | fail => rfl
  | request => rfl
  | tryRequest => rfl
  | write channel bytes =>
    simp only [perform_write, World.behind, Streams.write_behind]
  | session => rfl
  | setSession => rfl
  | resolve => rfl
  | report text => exact congrArg (Prod.mk _) (report_behind text before w)

/-- Streams that take everything before an action take everything after it. -/
theorem neverFails (h : Alike files twins permit action twin) {w : World σ}
    (hw : w.streams.NeverFails) : (action.perform w).2.streams.NeverFails := by
  -- Each step finds streams that take everything, and leaves such.
  induction h generalizing w with
  | pure => exact hw
  | bind _ _ ihfirst ihsecond =>
    rename_i first second _ _ _ _
    rw [perform_bind]
    have hfirst := ihfirst hw
    rcases hperform : first.perform w with ⟨_ | a, after⟩ <;> rw [hperform] at hfirst
    · exact hfirst
    · exact ihsecond a hfirst
  | fail => exact hw
  | request => exact hw
  | tryRequest => exact hw
  | write channel bytes =>
    rw [perform_write, hw.write]
    exact hw
  | session => exact hw
  | setSession => exact hw
  | resolve => exact hw
  | report text =>
    rw [perform_ofFunction, report_of_neverFails hw]
    exact hw

/-- An action does not break down on a file system that never breaks down. -/
theorem not_broken (h : Alike files twins permit action twin)
    (hfiles : ∀ {β : Type} (r : Request β) held, (files.answer r held).1 ≠ .error .broken)
    (w : World σ) : (action.perform w).1 ≠ .error .broken := by
  -- Only a request can break down, and none of this file system does.
  induction h generalizing w with
  | pure => nofun
  | bind _ _ ihfirst ihsecond =>
    rename_i first second _ _ _ _
    rw [perform_bind]
    have hfirst := ihfirst w
    rcases hperform : first.perform w with ⟨stop | a, after⟩ <;> rw [hperform] at hfirst
    · simpa using hfirst
    · exact ihsecond a after
  | fail => simp
  | request r => exact hfiles r w.held
  | tryRequest r =>
    have hr := hfiles r w.held
    rw [perform_tryRequest]
    rcases hanswer : (files.answer r w.held).1 with (fault | _) | value
    · simp [catchFault]
    · exact absurd hanswer hr
    · simp [catchFault]
  | write channel bytes =>
    rw [perform_write]
    cases (w.streams.write channel bytes).1 <;> simp [ofWrite]
  | session => nofun
  | setSession => nofun
  | resolve => nofun
  | report => nofun

/-- What is within a permit is within a wider one. -/
theorem mono {wider : Permit} (h : Alike files twins permit action twin)
    (hasks : ∀ {β : Type} (r : Request β), permit.asks r → wider.asks r)
    (hsettles : permit.settles → wider.settles) : Alike files twins wider action twin := by
  induction h with
  | pure a => exact .pure a
  | bind _ _ ihfirst ihsecond => exact .bind ihfirst ihsecond
  | fail fault => exact .fail fault
  | request r hr => exact .request r (hasks r hr)
  | tryRequest r hr => exact .tryRequest r (hasks r hr)
  | write channel bytes => exact .write channel bytes
  | session => exact .session
  | setSession s hs => exact .setSession s (hsettles hs)
  | resolve typed => exact .resolve typed
  | report text => exact .report text

/-- An action that may not change the session leaves it as it is. -/
theorem session_eq (h : Alike files twins permit action twin) (hset : ¬permit.settles)
    (w : World σ) :
    (action.perform w).2.session = w.session := by
  induction h generalizing w with
  | bind _ _ ihfirst ihsecond =>
    rename_i first second _ _ _ _
    rw [perform_bind]
    have hfirst := ihfirst w
    rcases hperform : first.perform w with ⟨_ | a, after⟩ <;> rw [hperform] at hfirst
    · exact hfirst
    · exact (ihsecond a after).trans hfirst
  | setSession s hmay => exact absurd hmay hset
  | _ => rfl

/-- What every answer to a permitted request keeps, an action keeps. -/
theorem held_of_answer (h : Alike files twins permit action twin) {R : σ → σ → Prop}
    (hrefl : ∀ held, R held held) (htrans : ∀ {a b c}, R a b → R b c → R a c)
    (hanswer : ∀ {β : Type} (r : Request β), permit.asks r → ∀ held, R held (files.answer r held).2)
    (w : World σ) : R w.held (action.perform w).2.held := by
  -- Only requests reach what the file system holds.
  induction h generalizing w with
  | bind _ _ ihfirst ihsecond =>
    rename_i first second _ _ _ _
    rw [perform_bind]
    have hfirst := ihfirst w
    rcases hperform : first.perform w with ⟨_ | a, after⟩ <;> rw [hperform] at hfirst
    · exact hfirst
    · exact htrans hfirst (ihsecond a after)
  | request r hasks => exact hanswer r hasks w.held
  | tryRequest r hasks => exact hanswer r hasks w.held
  | _ => exact hrefl w.held

/-! ### Lines -/

/-- Writing a line to the output channel. -/
theorem printLine (text : String) : Alike files twins permit (printLine text) (printLine text) :=
  .write .out _

/-- Writing a line to the error channel. -/
theorem complainLine (text : String) :
    Alike files twins permit (complainLine text) (complainLine text) :=
  .write .err _

/-- Writing a line for each of some things. -/
theorem printEach (lineOf : α → String) (items : List α) :
    Alike files twins permit (printEach lineOf items) (printEach lineOf items) := by
  induction items with
  | nil => exact .pure ()
  | cons item rest ih => exact .bind (.printLine _) fun _ => ih

end Alike

end ShellM

/-! ## Commands -/

namespace Builtin

open ShellM

variable (files : FileSystem σ) (twins : FileSystem τ)

/-! ### Permits -/

/-- The requests that a command may make: it may look at everything, and has few ways to change
anything. -/
def Asks : Builtin → {α : Type} → Request α → Prop
  | .mkdir, _, .makeDirectory _ => True
  | .rmdir, _, .removeDirectory _ => True
  | .touch, _, .touch _ => True
  | .rm, _, .removeFile _ => True
  | .cp, _, .copyFile .. => True
  | .cp, _, .copyTree .. => True
  | .zip, _, .store .. => True
  | .unzip, _, .makeDirectories _ => True
  | .unzip, _, .write .. => True
  | _, _, r => r.Looks

/-- What a command may do. -/
def permit (b : Builtin) : Permit where
  asks := b.Asks
  settles := b = .cd ∨ b = .exit

/-- Every command may look. -/
theorem alike_of_looking {files : FileSystem σ} {twins : FileSystem τ} {α : Type}
    {action : ShellM σ α} {twin : ShellM τ α} (b : Builtin)
    (h : Alike files twins .looking action twin) : Alike files twins b.permit action twin := by
  refine h.mono (fun r hr => ?_) False.elim
  cases r with
  | list | kindOf | isPresent | read | canonical | members => cases b <;> trivial
  | _ => cases hr

/-! ### Single commands -/

/-- Stopping with the form of a command. -/
theorem alike_misused {permit : Permit} (b : Builtin) :
    Alike files twins permit (misused b) (misused b) :=
  .fail _

/-- Showing the working directory. -/
theorem alike_runPwd : ∀ args, Alike files twins pwd.permit (runPwd args) (runPwd args)
  | [] => .bind .session fun _ => .printLine _
  | _ :: _ => alike_misused files twins _

/-- Changing the working directory. -/
theorem alike_runCd (args : List String) :
    Alike files twins cd.permit (runCd files args) (runCd twins args) := by
  refine .bind .session fun current => ?_
  cases cdTarget current args with
  | error fault => exact .fail _
  | ok found =>
    refine .bind (.tryRequest _ trivial) fun kind => ?_
    match kind with
    | .error _ => exact .fail _
    | .ok .file => exact .fail _
    | .ok .directory => exact .bind (.request _ trivial) fun _ => .setSession _ (.inl rfl)

/-- Listing what lies at a path. -/
theorem alike_listPath (p : Path) :
    Alike files twins ls.permit (listPath files p) (listPath twins p) := by
  refine .bind (.request _ trivial) fun kind => ?_
  cases kind with
  | file => exact .printLine _
  | directory => exact .bind (.request _ trivial) fun _ => .printEach _ _

/-- Listing a directory or a file. -/
theorem alike_runLs : ∀ args, Alike files twins ls.permit (runLs files args) (runLs twins args)
  | [] => .bind .session fun _ => alike_listPath files twins _
  | [_] => .bind (.resolve _) fun _ => alike_listPath files twins _
  | _ :: _ :: _ => alike_misused files twins _

/-- Making directories in turn. -/
theorem alike_makeEach (operands : List String) :
    Alike files twins mkdir.permit (makeEach files operands) (makeEach twins operands) := by
  induction operands with
  | nil => exact .pure ()
  | cons typed rest ih =>
    refine .bind (.resolve _) fun _ => .bind (.tryRequest _ trivial) fun made => ?_
    cases made with
    | ok => exact ih
    | error => exact .bind (.complainLine _) fun _ => ih

/-- Making directories. -/
theorem alike_runMkdir :
    ∀ args, Alike files twins mkdir.permit (runMkdir files args) (runMkdir twins args)
  | [] => alike_misused files twins _
  | _ :: _ => alike_makeEach files twins _

/-- Looking whether a directory holds anything. -/
theorem alike_holdsNothing (directory : Path) :
    Alike files twins .looking (holdsNothing files directory) (holdsNothing twins directory) := by
  refine .bind (.tryRequest _ trivial) fun names => ?_
  cases names <;> exact .pure _

/-- Removing empty directories in turn. -/
theorem alike_removeEach (directory : Path) (listed : List (String × Kind)) :
    Alike files twins rmdir.permit (removeEach files directory listed)
      (removeEach twins directory listed) := by
  induction listed with
  | nil => exact .pure _
  | cons entry rest ih =>
    obtain ⟨name, kind⟩ := entry
    cases kind with
    | file => exact ih
    | directory =>
      refine .bind (alike_of_looking _ (alike_holdsNothing files twins _)) fun empty => ?_
      split
      · refine .bind (.tryRequest _ trivial) fun removed => ?_
        cases removed with
        | ok => exact .bind ih fun _ => .pure _
        | error => exact .bind (.complainLine _) fun _ => ih
      · exact ih

/-- Removing the empty directories of the working directory. -/
theorem alike_removeEmpty :
    Alike files twins rmdir.permit (removeEmpty files) (removeEmpty twins) := by
  refine .bind .session fun _ => .bind (.request _ trivial) fun _ =>
    .bind (alike_removeEach files twins _ _) fun removed => ?_
  split
  · exact .printLine _
  · exact .pure ()

/-- Removing directories. -/
theorem alike_runRmdir :
    ∀ args, Alike files twins rmdir.permit (runRmdir files args) (runRmdir twins args)
  | [] => alike_misused files twins _
  | [typed] => by
    rw [runRmdir, runRmdir]
    split
    · exact alike_removeEmpty files twins
    · refine .bind (.resolve _) fun _ => .bind (.request _ trivial) fun kind => ?_
      cases kind with
      | file => exact .fail _
      | directory => exact .request _ trivial
  | _ :: _ :: _ => alike_misused files twins _

/-- Making a file. -/
theorem alike_runTouch :
    ∀ args, Alike files twins touch.permit (runTouch files args) (runTouch twins args)
  | [] => alike_misused files twins _
  | [_] => .bind (.resolve _) fun _ => .request _ trivial
  | _ :: _ :: _ => alike_misused files twins _

/-- Removing a file. -/
theorem alike_runRm : ∀ args, Alike files twins rm.permit (runRm files args) (runRm twins args)
  | [] => alike_misused files twins _
  | [_] => .bind (.resolve _) fun _ => .request _ trivial
  | _ :: _ :: _ => alike_misused files twins _

/-- Asking the shell to end. -/
theorem alike_runExit : Alike files twins exit.permit runExit runExit :=
  .bind .session fun _ => .bind (.setSession _ (.inr rfl)) fun _ => .printLine _

/-- Finding the place of a copy. -/
theorem alike_placement (source target : Path) :
    Alike files twins .looking (placement files source target) (placement twins source target) := by
  refine .bind (.tryRequest _ trivial) fun kind => ?_
  match kind with
  | .error _ => exact .pure _
  | .ok .file => exact .pure _
  | .ok .directory =>
    refine .bind (.request _ trivial) fun origin => ?_
    cases origin.fileName with
    | none => exact .fail _
    | some name => exact .pure _

/-- Looking whether two paths lead to one thing. -/
theorem alike_sameFile (target source : Path) :
    Alike files twins .looking (sameFile files target source) (sameFile twins target source) := by
  refine .bind (.request _ trivial) fun present => ?_
  split
  · exact .bind (.request _ trivial) fun _ => .bind (.request _ trivial) fun _ => .pure _
  · exact .pure _

/-- Copying. -/
theorem alike_runCp (args : List String) :
    Alike files twins cp.permit (runCp files args) (runCp twins args) := by
  rw [runCp, runCp]
  rcases takeRecursive args with ⟨recursive, _ | ⟨source, _ | ⟨target, _ | ⟨_, _⟩⟩⟩⟩
  · exact alike_misused files twins _
  · exact alike_misused files twins _
  · refine .bind (.resolve _) fun origin => .bind (.request _ trivial) fun kind => ?_
    split
    · exact .fail _
    · refine .bind (.resolve _) fun _ =>
        .bind (alike_of_looking _ (alike_placement files twins _ _)) fun _ => ?_
      cases kind with
      | directory => exact .request _ trivial
      | file =>
        refine .bind (alike_of_looking _ (alike_sameFile files twins _ _)) fun same => ?_
        split
        · exact .fail _
        · exact .bind (.request _ trivial) fun _ => .pure _
  · exact alike_misused files twins _

/-- Showing files in turn. -/
theorem alike_showEach (operands : List String) :
    Alike files twins cat.permit (showEach files operands) (showEach twins operands) := by
  induction operands with
  | nil => exact .pure ()
  | cons typed rest ih =>
    refine .bind (.resolve _) fun _ => .bind (.tryRequest _ trivial) fun content => ?_
    cases content with
    | ok => exact .bind (.printEach _ _) fun _ => ih
    | error => exact .bind (.complainLine _) fun _ => ih

/-- Showing files. -/
theorem alike_runCat : ∀ args, Alike files twins cat.permit (runCat files args) (runCat twins args)
  | [] => alike_misused files twins _
  | _ :: _ => alike_showEach files twins _

/-- Counting. -/
theorem alike_runWc : ∀ args, Alike files twins wc.permit (runWc files args) (runWc twins args)
  | [] => alike_misused files twins _
  | [_] => .bind (.resolve _) fun _ => .bind (.request _ trivial) fun _ => .printLine _
  | _ :: _ :: _ => alike_misused files twins _

/-- Finding what operands contribute to an archive. -/
theorem alike_sourcesOf (recursive : Bool) (operands : List String) :
    Alike files twins .looking (sourcesOf files recursive operands)
      (sourcesOf twins recursive operands) := by
  induction operands with
  | nil => exact .pure _
  | cons typed rest ih =>
    refine .bind (.resolve _) fun _ => .bind (.request _ trivial) fun path => ?_
    cases path.fileName with
    | none => exact .fail _
    | some name => exact .bind ih fun _ => .pure _

/-- Storing in an archive. -/
theorem alike_runZip (args : List String) :
    Alike files twins zip.permit (runZip files args) (runZip twins args) := by
  rw [runZip, runZip]
  rcases takeRecursive args with ⟨recursive, _ | ⟨archive, _ | ⟨first, rest⟩⟩⟩
  · exact alike_misused files twins _
  · exact alike_misused files twins _
  · exact .bind (alike_of_looking _ (alike_sourcesOf files twins _ _)) fun _ =>
      .bind (.resolve _) fun _ => .bind (.request _ trivial) fun _ => .printEach _ _

/-- Looking whether the deepest path that exists leads below the destination. -/
theorem alike_leadsInside (base : Path) (paths : List Path) :
    Alike files twins .looking (leadsInside files base paths) (leadsInside twins base paths) := by
  induction paths with
  | nil => exact .pure _
  | cons p above ih =>
    refine .bind (.request _ trivial) fun present => ?_
    split
    · exact .bind (.request _ trivial) fun _ => .pure _
    · exact ih

/-- Making the directory of a file. -/
theorem alike_readyParent (base place : Path) :
    Alike files twins unzip.permit (readyParent files base place)
      (readyParent twins base place) := by
  rw [readyParent, readyParent]
  cases place.parent with
  | none => exact .pure _
  | some above =>
    exact .bind (.request _ trivial) fun _ => .bind (.request _ trivial) fun _ => .pure _

/-- Extracting a member. -/
theorem alike_extract (base : Path) (m : Member) :
    Alike files twins unzip.permit (extract files base m) (extract twins base m) := by
  rw [extract, extract]
  split
  · exact .fail _
  · refine .bind (alike_of_looking _ (alike_leadsInside files twins _ _)) fun inside => ?_
    split
    · exact .fail _
    · cases m.kind with
      | directory => exact .bind (.request _ trivial) fun _ => .printLine _
      | file =>
        dsimp only
        split
        · exact .fail _
        · refine .bind (alike_readyParent files twins _ _) fun ready => ?_
          split
          · exact .bind (.request _ trivial) fun _ => .printLine _
          · exact .fail _

/-- Extracting members in turn. -/
theorem alike_extractAll (base : Path) (members : List Member) :
    Alike files twins unzip.permit (extractAll files base members)
      (extractAll twins base members) := by
  induction members with
  | nil => exact .pure ()
  | cons m rest ih => exact .bind (alike_extract files twins base m) fun _ => ih

/-- Extracting an archive. -/
theorem alike_runUnzip (args : List String) :
    Alike files twins unzip.permit (runUnzip files args) (runUnzip twins args) := by
  rw [runUnzip, runUnzip]
  rcases unzipOperands none none args with _ | ⟨archive, directory⟩
  · exact alike_misused files twins _
  · refine .bind (.resolve _) fun _ => .bind (.request _ trivial) fun members => ?_
    have hrest : ∀ destination, Alike files twins unzip.permit (do
        request files (.makeDirectories destination)
        let base ← request files (.canonical destination)
        extractAll files base members) (do
        request twins (.makeDirectories destination)
        let base ← request twins (.canonical destination)
        extractAll twins base members) := fun _ =>
      .bind (.request _ trivial) fun _ => .bind (.request _ trivial) fun _ =>
        alike_extractAll files twins _ _
    cases directory with
    | some typed => exact .bind (.resolve _) hrest
    | none => exact .bind .session fun _ => .bind (.pure _) hrest

/-- On any two file systems a command is made of the same single steps, within its permit. -/
theorem alike_run (b : Builtin) (args : List String) :
    Alike files twins b.permit (b.run files args) (b.run twins args) := by
  cases b with
  | pwd => exact alike_runPwd files twins args
  | cd => exact alike_runCd files twins args
  | ls => exact alike_runLs files twins args
  | mkdir => exact alike_runMkdir files twins args
  | rmdir => exact alike_runRmdir files twins args
  | touch => exact alike_runTouch files twins args
  | rm => exact alike_runRm files twins args
  | exit => exact alike_runExit files twins
  | cp => exact alike_runCp files twins args
  | cat => exact alike_runCat files twins args
  | wc => exact alike_runWc files twins args
  | zip => exact alike_runZip files twins args
  | unzip => exact alike_runUnzip files twins args

/-- Every command is made of single steps, within its permit. -/
theorem composed_run (b : Builtin) (args : List String) :
    Composed files b.permit (b.run files args) :=
  alike_run files files b args

end Builtin

/-! ## Reported faults -/

/-- The line that says why a command stopped; there is none when it did not. -/
def Builtin.faultLine (b : Builtin) : Except Stop Unit → List (Channel × Bytes)
  | .ok () => []
  | .error (.failed fault) => [(.err, Utf8.ofString (b.name ++ ": " ++ fault.message ++ "\n"))]
  | .error .broken => [(.err, Utf8.ofString (b.name ++ ": internal error" ++ "\n"))]

/-- A line is not empty. -/
theorem Utf8.ofString_line_ne_nil (text : String) : Utf8.ofString (text ++ "\n") ≠ [] := by
  rw [Utf8.ofString, String.toList_append, Utf8.encode_append]
  exact List.append_ne_nil_of_right_ne_nil _ (by decide)

/-- The line of a command that stopped is not empty. -/
theorem Builtin.faultLine_ne_nil (b : Builtin) (stop : Stop) :
    (b.faultLine (.error stop)).flatMap
      (fun (c, bytes) => if c = .err then bytes else []) ≠ [] := by
  cases stop <;> simp only [faultLine, List.flatMap_singleton, if_true] <;>
    exact Utf8.ofString_line_ne_nil _

/-- Reporting how a command ends leaves the file system alone. -/
theorem held_invoke (files : FileSystem σ) (b : Builtin) (args : List String) (w : World σ) :
    (invoke files b args w).held = ((b.run files args).perform w).2.held := by
  unfold invoke
  split
  · next hperform => rw [hperform]
  · next hperform => rw [hperform, report]
  · next hperform => rw [hperform, report]

/-- Reporting how a command ends leaves the session alone. -/
theorem session_invoke (files : FileSystem σ) (b : Builtin) (args : List String) (w : World σ) :
    (invoke files b args w).session = ((b.run files args).perform w).2.session := by
  unfold invoke
  split
  · next hperform => rw [hperform]
  · next hperform => rw [hperform, report]
  · next hperform => rw [hperform, report]

/-- On streams that never fail a command logs what it writes, and then why it stopped. -/
theorem invoke_of_neverFails (files : FileSystem σ) (b : Builtin) (args : List String)
    {w : World σ} (h : w.streams.NeverFails) :
    let (result, after) := (b.run files args).perform w
    invoke files b args w =
      { after with streams :=
          { after.streams with log := after.streams.log ++ b.faultLine result } } := by
  have hafter := (b.composed_run files args).neverFails h
  -- What is reported depends on how the command ends: with a fault, broken down, or well.
  rcases hrun : (b.run files args).perform w with ⟨(fault | _) | _, after⟩ <;> rw [hrun] at hafter
  · simp only [invoke, hrun, report_of_neverFails hafter, Builtin.faultLine]
  · simp only [invoke, hrun, report_of_neverFails hafter, Builtin.faultLine]
  · simp only [invoke, hrun, Builtin.faultLine, List.append_nil]

/-- What was logged before a command plays no part in what it does. -/
theorem invoke_behind (files : FileSystem σ) (b : Builtin) (args : List String)
    (before : List (Channel × Bytes)) (w : World σ) :
    invoke files b args (w.behind before) = (invoke files b args w).behind before := by
  rw [invoke, invoke, (b.composed_run files args).perform_behind]
  rcases (b.run files args).perform w with ⟨(fault | _) | _, after⟩
  · exact report_behind _ _ _
  · exact report_behind _ _ _
  · rfl

/-! ## Command lines -/

/-- What delivering may do: make a write. -/
def ShellM.Permit.delivery : ShellM.Permit where
  asks
    | .write .. => True
    | _ => False
  settles := False

/-- Delivering the output of a command is made of single steps. -/
theorem alike_deliver (files : FileSystem σ) (twins : FileSystem τ) (redirection : Redirection)
    (output : Bytes) :
    ShellM.Alike files twins .delivery (deliver files redirection output)
      (deliver twins redirection output) := by
  refine .bind (.resolve _) fun target => .bind (.tryRequest _ trivial) fun written => ?_
  cases written with
  | ok => exact .pure ()
  | error fault => exact .report fault.message

/-- A line that names no command is reported. -/
theorem perform_dispatch_unknown (files : FileSystem σ) {name : String} (args : List String)
    (redirection : Option Redirection) (h : Builtin.ofName? name = none) (w : World σ) :
    (dispatch files ⟨name, args, redirection⟩).perform w =
      (.ok (), report (Fault.unknownCommand name).message w) := by
  simp [dispatch, h]

/-- A line without a redirection runs its command on the streams of the terminal. -/
theorem perform_dispatch_plain (files : FileSystem σ) {name : String} (args : List String)
    {b : Builtin} (h : Builtin.ofName? name = some b) (w : World σ) :
    (dispatch files ⟨name, args, none⟩).perform w = (.ok (), invoke files b args w) := by
  simp [dispatch, h]

/-- A command that comes to its end is the whole of its line. -/
theorem perform_dispatch_of_run (files : FileSystem σ) {b : Builtin} {args : List String}
    {w after : World σ} (h : (b.run files args).perform w = (.ok (), after)) :
    (dispatch files ⟨b.name, args, none⟩).perform w = (.ok (), after) := by
  rw [perform_dispatch_plain files args (Builtin.ofName?_name b), invoke, h]

/-- A command that complains about nothing comes to its end. -/
theorem run_of_silent (files : FileSystem σ) {b : Builtin} {args : List String} {w : World σ}
    (hw : w.streams.NeverFails)
    (h : ((dispatch files ⟨b.name, args, none⟩).perform w).2.streams.bytesOn .err =
      w.streams.bytesOn .err) :
    (b.run files args).perform w =
      (.ok (), ((dispatch files ⟨b.name, args, none⟩).perform w).2) := by
  rw [perform_dispatch_plain files args (Builtin.ofName?_name b)] at h ⊢
  obtain ⟨start, hstart, hsilent, hrun⟩ : ∃ start : World σ, start.streams.NeverFails ∧
      start.streams.bytesOn .err = [] ∧ w = start.behind w.streams.log :=
    ⟨⟨w.session, .unlimited, w.held⟩, Streams.neverFails_unlimited, rfl, World.eq_behind hw⟩
  -- Seen from where nothing is logged, the command is what writes to the error stream.
  generalize w.streams.log = before at hrun
  subst hrun
  have hnothing : (invoke files b args start).streams.bytesOn .err = [] := by
    rw [invoke_behind] at h
    simp only [World.behind, Streams.bytesOn_behind, hsilent] at h
    exact List.append_cancel_left h
  have hinvoke := invoke_of_neverFails files b args hstart
  rw [invoke_behind, (b.composed_run files args).perform_behind]
  -- Had the command stopped, its line would be on the error stream.
  cases hperform : (b.run files args).perform start with
  | mk result after =>
    rw [hperform] at hinvoke
    cases result with
    | ok => simp only [invoke, hperform]
    | error stop =>
      have hline : (b.faultLine (.error stop)).flatMap
          (fun (c, bytes) => if c = .err then bytes else []) = [] := by
        rw [hinvoke, Streams.bytesOn, List.flatMap_append] at hnothing
        exact (List.append_eq_nil_iff.1 hnothing).2
      exact absurd hline (b.faultLine_ne_nil stop)

/-- A line with a redirection runs its command on streams of its own, and delivers their bytes. -/
theorem perform_dispatch_redirected (files : FileSystem σ) {name : String} (args : List String)
    (redirection : Redirection) {b : Builtin} (h : Builtin.ofName? name = some b) (w : World σ) :
    (dispatch files ⟨name, args, some redirection⟩).perform w =
      let after := invoke files b args { w with streams := .unlimited }
      (deliver files redirection after.streams.allBytes).perform
        { after with streams := w.streams } := by
  simp [dispatch, h]

/-- What was logged before a command line plays no part in what it does. -/
theorem dispatch_behind (files : FileSystem σ) (line : CommandLine)
    (before : List (Channel × Bytes)) (w : World σ) :
    (dispatch files line).perform (w.behind before) =
      (((dispatch files line).perform w).1, ((dispatch files line).perform w).2.behind before) := by
  obtain ⟨name, args, redirection⟩ := line
  cases hname : Builtin.ofName? name with
  | none => simp only [perform_dispatch_unknown files _ _ hname, report_behind]
  | some b =>
    cases redirection with
    | none => simp only [perform_dispatch_plain files _ hname, invoke_behind]
    | some redirection =>
      -- The command has streams of its own in both runs; only the delivery sees the terminal.
      rw [perform_dispatch_redirected files _ _ hname, perform_dispatch_redirected files _ _ hname]
      let after := invoke files b args { w with streams := .unlimited }
      exact (alike_deliver files files redirection after.streams.allBytes).perform_behind before
        { after with streams := w.streams }

/-- Streams that take everything before a command line take everything after it. -/
theorem neverFails_dispatch (files : FileSystem σ) (line : CommandLine) {w : World σ}
    (hw : w.streams.NeverFails) : ((dispatch files line).perform w).2.streams.NeverFails := by
  obtain ⟨name, args, redirection⟩ := line
  cases hname : Builtin.ofName? name with
  | none =>
    rw [perform_dispatch_unknown files _ _ hname, report_of_neverFails hw]
    exact hw
  | some b =>
    cases redirection with
    | none =>
      rw [perform_dispatch_plain files _ hname, invoke_of_neverFails files b args hw]
      exact (b.composed_run files args).neverFails hw
    | some redirection =>
      rw [perform_dispatch_redirected files _ _ hname]
      exact (alike_deliver files files redirection _).neverFails hw

/-- Delivering output makes one request, keeps the session, and ends well unless that request breaks
down. -/
theorem perform_deliver (files : FileSystem σ) (redirection : Redirection) (output : Bytes)
    (w : World σ) :
    let write :=
      files.answer (.write (w.session.resolve redirection.target) output redirection.mode) w.held
    ((deliver files redirection output).perform w).2.held = write.2 ∧
      ((deliver files redirection output).perform w).2.session = w.session ∧
      (write.1 ≠ .error .broken → ((deliver files redirection output).perform w).1 = .ok ()) := by
  simp only [deliver, ShellM.perform_bind, ShellM.perform_resolve, ShellM.perform_tryRequest]
  generalize files.answer (.write (w.session.resolve redirection.target) output redirection.mode)
    w.held = write
  rcases write with ⟨(fault | _) | _, kept⟩
  · exact ⟨rfl, rfl, fun _ => rfl⟩
  · exact ⟨rfl, rfl, fun h => absurd rfl h⟩
  · exact ⟨rfl, rfl, fun _ => rfl⟩

/-- A command line leaves the session of its command, and what writing its output, if it is
redirected, makes of what the command leaves. -/
theorem dispatch_leaves (files : FileSystem σ) {name : String} {b : Builtin} (args : List String)
    (redirection : Option Redirection) (h : Builtin.ofName? name = some b) (w : World σ) :
    ∃ streams,
      let command := ((b.run files args).perform { w with streams }).2
      let after := ((dispatch files ⟨name, args, redirection⟩).perform w).2
      after.session = command.session ∧
        match redirection with
        | none => after.held = command.held
        | some r => ∃ output, after.held =
            (files.answer (.write (command.session.resolve r.target) output r.mode)
              command.held).2 := by
  cases redirection with
  | none =>
    refine ⟨w.streams, ?_⟩
    rw [perform_dispatch_plain files args h]
    exact ⟨session_invoke files b args w, held_invoke files b args w⟩
  | some r =>
    refine ⟨.unlimited, ?_⟩
    rw [perform_dispatch_redirected files args r h]
    generalize hcommand : invoke files b args { w with streams := .unlimited } = command
    obtain ⟨hheld, hsession, -⟩ :=
      perform_deliver files r command.streams.allBytes { command with streams := w.streams }
    have hkept := held_invoke files b args { w with streams := .unlimited }
    have hleft := session_invoke files b args { w with streams := .unlimited }
    rw [hcommand] at hkept hleft
    refine ⟨hsession.trans hleft, command.streams.allBytes, ?_⟩
    rw [← hkept, ← hleft]
    exact hheld

/-- A command line stops only where the file system breaks down. -/
theorem dispatch_ok (files : FileSystem σ) (line : CommandLine)
    (hfiles : ∀ {α : Type} (r : Request α) held, (files.answer r held).1 ≠ .error .broken)
    (w : World σ) : ((dispatch files line).perform w).1 = .ok () := by
  obtain ⟨name, args, redirection⟩ := line
  cases hname : Builtin.ofName? name with
  | none => rw [perform_dispatch_unknown files _ _ hname]
  | some b =>
    cases redirection with
    | none => rw [perform_dispatch_plain files _ hname]
    | some redirection =>
      rw [perform_dispatch_redirected files _ _ hname]
      exact (perform_deliver files redirection _ _).2.2 (hfiles _ _)

/-- What was logged before a line of input plays no part in what it does. -/
theorem runLine_behind (files : FileSystem σ) (text : List Char)
    (before : List (Channel × Bytes)) (w : World σ) :
    (runLine files text).perform (w.behind before) =
      (((runLine files text).perform w).1, ((runLine files text).perform w).2.behind before) := by
  rw [runLine]
  rcases CommandLine.parseChars text with fault | _ | line
  · exact congrArg (Prod.mk _) (report_behind _ before w)
  · rfl
  · exact dispatch_behind files line before w

/-- Streams that take everything before a line of input take everything after it. -/
theorem neverFails_runLine (files : FileSystem σ) (text : List Char) {w : World σ}
    (hw : w.streams.NeverFails) : ((runLine files text).perform w).2.streams.NeverFails := by
  rw [runLine]
  rcases CommandLine.parseChars text with fault | _ | line
  · simp only [ShellM.perform_ofFunction, report_of_neverFails hw]
    exact hw
  · exact hw
  · exact neverFails_dispatch files line hw

/-- A line of input stops only where the file system breaks down. -/
theorem runLine_ok (files : FileSystem σ) (text : List Char)
    (hfiles : ∀ {α : Type} (r : Request α) held, (files.answer r held).1 ≠ .error .broken)
    (w : World σ) : ((runLine files text).perform w).1 = .ok () := by
  rw [runLine]
  rcases CommandLine.parseChars text with fault | _ | line
  · rfl
  · rfl
  · exact dispatch_ok files line hfiles w

/-! ## The file system of a disk -/

namespace Disk

/-- Looking does not break a disk down. -/
theorem looking_ne_broken {α : Type} (d : Disk) (attempt : Attempt) (p : Path)
    (result : Except Refusal α) : (d.looking attempt p result).1 ≠ .error .broken := by
  cases result <;> simp [looking]

/-- Changing does not break a disk down. -/
theorem changing_ne_broken (d : Disk) (attempt : Attempt) (p : Path)
    (result : Except Refusal Disk) : (d.changing attempt p result).1 ≠ .error .broken := by
  cases result <;> simp [changing]

/-- What is done to an opened file does not break a disk down. -/
theorem finishing_ne_broken {α : Type} (attempt : Attempt) (p : Path)
    (outcome : Except Refusal α × Disk) : (finishing attempt p outcome).1 ≠ .error .broken := by
  obtain ⟨_ | _, _⟩ := outcome <;> simp [finishing]

/-- No request breaks a disk down. -/
theorem answer_ne_broken (d : Disk) {α : Type} (r : Request α) (host : Host)
    (format : Archive.Format) : (d.answer r host format).1 ≠ .error .broken := by
  -- Whatever the host does, a call that fails ends in a refusal, which is a fault to report.
  cases r with
  | list p => exact looking_ne_broken d _ _ _
  | kindOf p => exact looking_ne_broken d _ _ _
  | isPresent p => nofun
  | read p => exact looking_ne_broken d _ _ _
  | write p bytes mode =>
    simp only [answer, write]
    split
    · simp
    · exact finishing_ne_broken _ _ _
  | touch p =>
    simp only [answer, touch]
    split
    · simp
    · split <;> simp
  | makeDirectory p => exact changing_ne_broken d _ _ _
  | makeDirectories p =>
    simp only [answer]
    split <;> simp
  | removeFile p => exact changing_ne_broken d _ _ _
  | removeDirectory p => exact changing_ne_broken d _ _ _
  | copyFile source target =>
    simp only [answer, copy]
    split
    · simp
    · split
      · simp
      · split <;> simp
  | copyTree source target =>
    simp only [answer]
    split <;> simp
  | canonical p => exact looking_ne_broken d _ _ _
  | store archive sources =>
    simp only [answer, store]
    split
    · simp
    · split
      · simp
      · split <;> simp
  | members archive =>
    simp only [answer, unpackArchive]
    split
    · simp
    · split
      · simp
      · split <;> simp

end Disk

end CommandShell
