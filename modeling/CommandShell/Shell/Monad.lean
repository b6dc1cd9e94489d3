import CommandShell.Path.Normal
import CommandShell.Shell.Streams
import CommandShell.Storage.Request

/-!
# Actions of the shell

An action is what a command does: it makes requests, writes to the streams, changes the session, and
may stop with a fault or by breaking down. Whatever it did before it stopped stays done.

- `Session`: what lasts from one command to the next, besides the files.
- `World`: what an action works on.
- `ShellM`: actions with a result, unless they stop.
- `ShellM.perform`: the world after an action; the lemmas `perform_*` say what each action does.
- `request`, `tryRequest`, `printLine`, `complainLine`: the steps that actions are made of.
-/

namespace CommandShell

/-! ## Sessions and worlds -/

/-- The state of the shell between two commands. -/
structure Session where
  /-- The working directory, from which typed paths are read. -/
  directory : Path
  /-- Where a change of directory without a target leads. -/
  home : Path
  /-- Whether the shell was asked to end. -/
  exitRequested : Bool
  deriving DecidableEq, Repr

namespace Session

/-- A session that starts in a directory. -/
def start (directory home : Path) : Session := ⟨directory, home, false⟩

/-- A typed path read from the working directory. -/
def resolve (session : Session) (typed : String) : Path :=
  session.directory.resolve typed

end Session

/-- What an action works on. -/
structure World (σ : Type) where
  /-- The session. -/
  session : Session
  /-- The streams. -/
  streams : Streams
  /-- What the file system holds. -/
  held : σ

/-- Actions that may stop and keep what they did. -/
abbrev ShellM (σ : Type) := ExceptT Stop (StateM (World σ))

namespace ShellM

variable {σ : Type}

/-! ## Performing -/

/-- The world after an action, with its result. -/
def perform {α : Type} (action : ShellM σ α) (w : World σ) : Except Stop α × World σ :=
  action.run.run w

/-- The action that a function from worlds is. -/
def ofFunction {α : Type} (step : World σ → Except Stop α × World σ) : ShellM σ α :=
  ExceptT.mk step

/-- Performing the action of a function is calling it. -/
@[simp]
theorem perform_ofFunction {α : Type} (step : World σ → Except Stop α × World σ) (w : World σ) :
    (ofFunction step).perform w = step w := rfl

/-- An action that does nothing leaves the world as it is. -/
@[simp]
theorem perform_pure {α : Type} (a : α) (w : World σ) :
    (pure a : ShellM σ α).perform w = (.ok a, w) := rfl

/-- The second of two actions is performed in the world after the first, unless that one stops. -/
@[simp]
theorem perform_bind {α β : Type} (first : ShellM σ α) (second : α → ShellM σ β) (w : World σ) :
    (first >>= second).perform w =
      match first.perform w with
      | (.ok a, w) => (second a).perform w
      | (.error stop, w) => (.error stop, w) := by
  show (ExceptT.bindCont second (first.perform w).1).run (first.perform w).2 = _
  rcases first.perform w with ⟨result, after⟩
  cases result <;> rfl

/-! ## Stopping -/

/-- Stops with a fault. -/
def fail {α : Type} (fault : Fault) : ShellM σ α :=
  ofFunction fun w => (.error (.failed fault), w)

/-- Stopping changes nothing. -/
@[simp]
theorem perform_fail {α : Type} (fault : Fault) (w : World σ) :
    (fail fault : ShellM σ α).perform w = (.error (.failed fault), w) := rfl

/-! ## Requests -/

/-- Makes a request. -/
def request {α : Type} (files : FileSystem σ) (r : Request α) : ShellM σ α :=
  ofFunction fun w =>
    let (result, held) := files.answer r w.held
    (result, { w with held })

/-- A request changes what the file system holds, and stops when the file system does. -/
@[simp]
theorem perform_request {α : Type} (files : FileSystem σ) (r : Request α) (w : World σ) :
    (request files r).perform w =
      ((files.answer r w.held).1, { w with held := (files.answer r w.held).2 }) := rfl

/-- A fault as a result; breaking down is none. -/
def catchFault {α : Type} : Except Stop α → Except Stop (Except Fault α)
  | .ok value => .ok (.ok value)
  | .error (.failed fault) => .ok (.error fault)
  | .error .broken => .error .broken

/-- The answer to a request, or the fault it stops with. Breaking down is not caught. -/
def tryRequest {α : Type} (files : FileSystem σ) (r : Request α) : ShellM σ (Except Fault α) :=
  ofFunction fun w =>
    let (result, held) := files.answer r w.held
    (catchFault result, { w with held })

/-- A request whose fault is caught changes what the file system holds. -/
@[simp]
theorem perform_tryRequest {α : Type} (files : FileSystem σ) (r : Request α) (w : World σ) :
    (tryRequest files r).perform w =
      (catchFault (files.answer r w.held).1, { w with held := (files.answer r w.held).2 }) := rfl

/-! ## Writing -/

/-- The outcome of a write, as the outcome of an action. -/
def ofWrite : Except StreamFault Unit → Except Stop Unit
  | .ok () => .ok ()
  | .error fault => .error (.failed (.stream fault))

/-- Writes bytes to a channel. -/
def write (channel : Channel) (bytes : Bytes) : ShellM σ Unit :=
  ofFunction fun w =>
    let (result, streams) := w.streams.write channel bytes
    (ofWrite result, { w with streams })

/-- A write changes the streams, and stops when there is no room. -/
@[simp]
theorem perform_write (channel : Channel) (bytes : Bytes) (w : World σ) :
    (write channel bytes).perform w =
      (ofWrite (w.streams.write channel bytes).1,
        { w with streams := (w.streams.write channel bytes).2 }) := rfl

/-- Writes a line to the output channel. -/
def printLine (text : String) : ShellM σ Unit :=
  write .out (Utf8.ofString (text ++ "\n"))

/-- Writes a line to the error channel. -/
def complainLine (text : String) : ShellM σ Unit :=
  write .err (Utf8.ofString (text ++ "\n"))

/-- Writes one line for each of some things to the output channel. -/
def printEach {α : Type} (lineOf : α → String) : List α → ShellM σ Unit
  | [] => pure ()
  | a :: rest => do
    printLine (lineOf a)
    printEach lineOf rest

/-! ## The session -/

/-- The session. -/
def session : ShellM σ Session :=
  ofFunction fun w => (.ok w.session, w)

/-- Looking at the session changes nothing. -/
@[simp]
theorem perform_session (w : World σ) :
    (session : ShellM σ Session).perform w = (.ok w.session, w) := rfl

/-- Changes the session. -/
def setSession (session : Session) : ShellM σ Unit :=
  ofFunction fun w => (.ok (), { w with session })

/-- Changing the session changes nothing else. -/
@[simp]
theorem perform_setSession (s : Session) (w : World σ) :
    (setSession s).perform w = (.ok (), { w with session := s }) := rfl

/-- A typed path read from the working directory. -/
def resolve (typed : String) : ShellM σ Path :=
  ofFunction fun w => (.ok (w.session.resolve typed), w)

/-- Reading a typed path changes nothing. -/
@[simp]
theorem perform_resolve (typed : String) (w : World σ) :
    (resolve typed).perform w = (.ok (w.session.resolve typed), w) := rfl

end ShellM

end CommandShell
