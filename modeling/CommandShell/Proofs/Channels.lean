import CommandShell.Proofs.Actions

/-!
# Who writes to which channel

Most commands write to one channel only, if to any: what they find out about files they keep to
themselves, and a fault that ends them is written by the line that they run in.

## Main definitions

* `ShellM.Mute`: an action that writes nothing to a channel.

## Main results

* `Builtin.mute_runCd`, `Builtin.mute_runRmdir`, `Builtin.mute_runTouch`, `Builtin.mute_runRm` and
  `Builtin.mute_runCp`: commands that make a single change write to neither channel;
* `Builtin.mute_runMkdir` and `Builtin.mute_removeEach`: making and removing directories in turn
  complains, and shows nothing;
* `Builtin.mute_runZip`: storing does not complain.
-/

namespace CommandShell

variable {σ : Type} {files : FileSystem σ} {channel : Channel}

namespace ShellM

/-- An action that writes nothing to a channel, however it ends. -/
def Mute {α : Type} (channel : Channel) (action : ShellM σ α) : Prop :=
  ∀ w, (action.perform w).2.streams.bytesOn channel = w.streams.bytesOn channel

namespace Mute

variable {α β : Type}

/-- Doing nothing. -/
theorem pure (a : α) : Mute channel (pure a : ShellM σ α) := fun _ => rfl

/-- One action after the other. -/
theorem bind {first : ShellM σ α} {second : α → ShellM σ β} (hfirst : Mute channel first)
    (hsecond : ∀ a, Mute channel (second a)) : Mute channel (first >>= second) := by
  intro w
  rw [perform_bind]
  have hkept := hfirst w
  rcases hperform : first.perform w with ⟨_ | a, after⟩ <;> rw [hperform] at hkept
  · exact hkept
  · exact (hsecond a after).trans hkept

/-- Stopping with a fault. -/
theorem fail (fault : Fault) : Mute channel (fail fault : ShellM σ α) := fun _ => rfl

/-- A request. -/
theorem request (r : Request α) : Mute channel (request files r) := fun _ => rfl

/-- A request whose fault is caught. -/
theorem tryRequest (r : Request α) : Mute channel (tryRequest files r) := fun _ => rfl

/-- Looking at the session. -/
theorem session : Mute channel (session : ShellM σ Session) := fun _ => rfl

/-- Changing the session. -/
theorem setSession (s : Session) : Mute channel (setSession s : ShellM σ Unit) := fun _ => rfl

/-- Reading a typed path. -/
theorem resolve (typed : String) : Mute channel (resolve typed : ShellM σ Path) := fun _ => rfl

/-- Printing a line says nothing on the error channel. -/
theorem printLine (text : String) : Mute .err (printLine text : ShellM σ Unit) :=
  fun w => by simp [ShellM.printLine]

/-- Complaining says nothing on the output channel. -/
theorem complainLine (text : String) : Mute .out (complainLine text : ShellM σ Unit) :=
  fun w => by simp [ShellM.complainLine]

/-- Printing lines says nothing on the error channel. -/
theorem printEach (lineOf : α → String) (items : List α) :
    Mute .err (printEach lineOf items : ShellM σ Unit) := by
  induction items with
  | nil => exact .pure ()
  | cons item rest ih => exact (printLine _).bind fun _ => ih

end Mute

end ShellM

namespace Builtin

open ShellM

/-! ## Single commands -/

/-- Changing the working directory. -/
theorem mute_runCd (args : List String) : Mute channel (runCd files args) := by
  refine .bind .session fun current => ?_
  cases cdTarget current args with
  | error fault => exact .fail _
  | ok found =>
    refine .bind (.tryRequest _) fun kind => ?_
    match kind with
    | .error _ => exact .fail _
    | .ok .file => exact .fail _
    | .ok .directory => exact .bind (.request _) fun _ => .setSession _

/-- Making directories complains about those that cannot be made. -/
theorem mute_makeEach (operands : List String) : Mute .out (makeEach files operands) := by
  induction operands with
  | nil => exact .pure ()
  | cons typed rest ih =>
    refine .bind (.resolve _) fun _ => .bind (.tryRequest _) fun made => ?_
    cases made with
    | ok => exact ih
    | error => exact .bind (.complainLine _) fun _ => ih

/-- Making directories. -/
theorem mute_runMkdir : ∀ args, Mute .out (runMkdir files args)
  | [] => .fail _
  | _ :: _ => mute_makeEach _

/-- Looking whether a directory holds anything. -/
theorem mute_holdsNothing (directory : Path) : Mute channel (holdsNothing files directory) := by
  refine .bind (.tryRequest _) fun names => ?_
  cases names <;> exact .pure _

/-- Removing empty directories complains about those that cannot be removed. -/
theorem mute_removeEach (directory : Path) (listed : List (String × Kind)) :
    Mute .out (removeEach files directory listed) := by
  induction listed with
  | nil => exact .pure _
  | cons entry rest ih =>
    obtain ⟨name, kind⟩ := entry
    cases kind with
    | file => exact ih
    | directory =>
      refine .bind (mute_holdsNothing _) fun empty => ?_
      split
      · refine .bind (.tryRequest _) fun removed => ?_
        cases removed with
        | ok => exact .bind ih fun _ => .pure _
        | error => exact .bind (.complainLine _) fun _ => ih
      · exact ih

/-- Removing a single directory. -/
theorem mute_runRmdir {args : List String} (h : args ≠ ["*"]) :
    Mute channel (runRmdir files args) := by
  match args with
  | [] => exact .fail _
  | [typed] =>
    rw [runRmdir, if_neg (by simpa using h)]
    refine .bind (.resolve _) fun _ => .bind (.request _) fun kind => ?_
    cases kind with
    | file => exact .fail _
    | directory => exact .request _
  | _ :: _ :: _ => exact .fail _

/-- Making a file. -/
theorem mute_runTouch : ∀ args, Mute channel (runTouch files args)
  | [] => .fail _
  | [_] => .bind (.resolve _) fun _ => .request _
  | _ :: _ :: _ => .fail _

/-- Removing a file. -/
theorem mute_runRm : ∀ args, Mute channel (runRm files args)
  | [] => .fail _
  | [_] => .bind (.resolve _) fun _ => .request _
  | _ :: _ :: _ => .fail _

/-- Finding the place of a copy. -/
theorem mute_placement (source target : Path) :
    Mute channel (placement files source target) := by
  refine .bind (.tryRequest _) fun kind => ?_
  match kind with
  | .error _ => exact .pure _
  | .ok .file => exact .pure _
  | .ok .directory =>
    refine .bind (.request _) fun origin => ?_
    cases origin.fileName with
    | none => exact .fail _
    | some name => exact .pure _

/-- Looking whether two paths lead to one thing. -/
theorem mute_sameFile (target source : Path) : Mute channel (sameFile files target source) := by
  refine .bind (.request _) fun present => ?_
  split
  · exact .bind (.request _) fun _ => .bind (.request _) fun _ => .pure _
  · exact .pure _

/-- Copying. -/
theorem mute_runCp (args : List String) : Mute channel (runCp files args) := by
  rw [runCp]
  rcases takeRecursive args with ⟨recursive, _ | ⟨source, _ | ⟨target, _ | ⟨_, _⟩⟩⟩⟩
  · exact .fail _
  · exact .fail _
  · refine .bind (.resolve _) fun origin => .bind (.request _) fun kind => ?_
    split
    · exact .fail _
    · refine .bind (.resolve _) fun _ => .bind (mute_placement _ _) fun _ => ?_
      cases kind with
      | directory => exact .request _
      | file =>
        refine .bind (mute_sameFile _ _) fun same => ?_
        split
        · exact .fail _
        · exact .bind (.request _) fun _ => .pure _
  · exact .fail _

/-- Finding what operands contribute to an archive. -/
theorem mute_sourcesOf (recursive : Bool) (operands : List String) :
    Mute channel (sourcesOf files recursive operands) := by
  induction operands with
  | nil => exact .pure _
  | cons typed rest ih =>
    refine .bind (.resolve _) fun _ => .bind (.request _) fun path => ?_
    cases path.fileName with
    | none => exact .fail _
    | some name => exact .bind ih fun _ => .pure _

/-- Storing in an archive shows what is stored, and complains about nothing. -/
theorem mute_runZip (args : List String) : Mute .err (runZip files args) := by
  rw [runZip]
  rcases takeRecursive args with ⟨recursive, _ | ⟨archive, _ | ⟨first, rest⟩⟩⟩
  · exact .fail _
  · exact .fail _
  · exact .bind (mute_sourcesOf _ _) fun _ => .bind (.resolve _) fun _ =>
      .bind (.request _) fun _ => .printEach _ _

/-- Looking whether the deepest path that exists leads below the destination. -/
theorem mute_leadsInside (base : Path) (paths : List Path) :
    Mute channel (leadsInside files base paths) := by
  induction paths with
  | nil => exact .pure _
  | cons p above ih =>
    refine .bind (.request _) fun present => ?_
    split
    · exact .bind (.request _) fun _ => .pure _
    · exact ih

/-- Making the directory of a file. -/
theorem mute_readyParent (base place : Path) : Mute channel (readyParent files base place) := by
  rw [readyParent]
  cases place.parent with
  | none => exact .pure _
  | some above => exact .bind (.request _) fun _ => .bind (.request _) fun _ => .pure _

end Builtin

end CommandShell
