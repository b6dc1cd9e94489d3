import CommandShell.Proofs.Redirection

/-!
# Breakdowns

A file system may break down at any request. A command that makes such a request stops there, and
its line says so; the shell goes on with the session it had before. Only the write of a redirected
output is made outside of any command, so a breakdown there is not caught.

## Main definitions

* `FileSystem.noting`: a file system that notes whether it broke down.
* `World.withoutNote`: a world of such a file system, as it is without the note.
* `Builtin.brokenLine`: what is reported for a command that broke down.
* `Streams.Shows`: one channel has got some more bytes, and has so much less room.

## Main results

* `ShellM.Alike.perform_noting` and `dispatch_noting`: noting makes no difference to an action or to
  a command line;
* `ShellM.Alike.noted_iff`: an action breaks down exactly when one of its requests does;
* `Builtin.session_of_broken`: a command that breaks down leaves the session as it is;
* `dispatch_contains_breakdowns`: what is left of a line under which the file system broke down.
-/

namespace CommandShell

open ShellM

variable {σ : Type}

/-! ## Noting breakdowns -/

/-- The file system that answers as before, and notes whether it broke down at some request. -/
def FileSystem.noting (files : FileSystem σ) : FileSystem (σ × Bool) where
  answer r held :=
    let (result, after) := files.answer r held.1
    (result, after, held.2 || (result matches .error .broken))

/-- The world as it is without the note. -/
def World.withoutNote (w : World (σ × Bool)) : World σ :=
  ⟨w.session, w.streams, w.held.1⟩

/-- What is noted at a request: breaking down is, everything else is not. -/
theorem FileSystem.noted_answer {α : Type} (files : FileSystem σ) (r : Request α)
    (held : σ × Bool) :
    (files.noting.answer r held).2.2 = true ↔
      held.2 = true ∨ (files.answer r held.1).1 = .error .broken := by
  rcases hresult : (files.answer r held.1).1 with (fault | _) | _ <;>
    simp [noting, hresult]

/-! ## Streams -/

namespace Streams

/-- A channel has got some more bytes, and has so much less room. -/
def Shows (before after : Streams) (channel : Channel) (shown : Bytes) : Prop :=
  after.bytesOn channel = before.bytesOn channel ++ shown ∧
    after.room channel = left (before.room channel) shown

/-- A channel that got nothing. -/
theorem Shows.refl (s : Streams) (channel : Channel) : s.Shows s channel [] :=
  ⟨by simp, by simp [left]⟩

/-- One piece after the other. -/
theorem Shows.trans {before middle after : Streams} {channel : Channel} {first second : Bytes}
    (hfirst : before.Shows middle channel first) (hsecond : middle.Shows after channel second) :
    before.Shows after channel (first ++ second) := by
  refine ⟨by rw [hsecond.1, hfirst.1, List.append_assoc], ?_⟩
  rw [hsecond.2, hfirst.2]
  cases before.room channel <;> simp [left, Nat.sub_sub]

/-- A write shows what fits on its channel, and nothing on the other one. -/
theorem shows_write (s : Streams) (channel other : Channel) (bytes : Bytes) :
    s.Shows (s.write channel bytes).2 other
      (if channel = other then fitting (s.room channel) bytes else []) := by
  refine ⟨bytesOn_write s channel other bytes, ?_⟩
  by_cases h : channel = other
  · simp [write, h]
  · simp [write, h, Ne.symm h, left]

end Streams

namespace ShellM.Alike

variable {τ : Type} {files : FileSystem σ} {twins : FileSystem τ} {permit : Permit} {α : Type}
  {twin : ShellM τ α}

/-- An action shows some bytes on each channel. -/
theorem shows {action : ShellM σ α} (h : Alike files twins permit action twin) (channel : Channel)
    (w : World σ) : ∃ shown, w.streams.Shows (action.perform w).2.streams channel shown := by
  induction h generalizing w with
  | bind _ _ ihfirst ihsecond =>
    rename_i first second _ _ _ _
    rw [perform_bind]
    obtain ⟨shown, hshown⟩ := ihfirst w
    rcases hperform : first.perform w with ⟨_ | a, after⟩ <;> rw [hperform] at hshown
    · exact ⟨shown, hshown⟩
    · obtain ⟨more, hmore⟩ := ihsecond a after
      exact ⟨_, hshown.trans hmore⟩
  | write other bytes => exact ⟨_, w.streams.shows_write other channel bytes⟩
  | report text => exact ⟨_, w.streams.shows_write .err channel _⟩
  | _ => exact ⟨[], .refl w.streams channel⟩

/-- Noting makes no difference to an action. -/
theorem perform_noting {action : ShellM (σ × Bool) α} {twin : ShellM σ α}
    (h : Alike files.noting files permit action twin) (w : World (σ × Bool)) :
    twin.perform w.withoutNote =
      ((action.perform w).1, (action.perform w).2.withoutNote) := by
  induction h generalizing w with
  | bind _ _ ihfirst ihsecond =>
    rename_i first second _ _ _ _
    rw [perform_bind, perform_bind, ihfirst]
    rcases hperform : first.perform w with ⟨_ | a, after⟩
    · rfl
    · exact ihsecond a after
  | _ => rfl

/-- An action breaks down exactly when the file system notes that it did, provided that nothing was
noted before. -/
theorem noted_iff {action : ShellM (σ × Bool) α} (h : Alike files.noting twins permit action twin)
    {w : World (σ × Bool)} (hw : w.held.2 = false) :
    (action.perform w).2.held.2 = true ↔ (action.perform w).1 = .error .broken := by
  -- A request that breaks down ends the action, so nothing is noted before a further step.
  induction h generalizing w with
  | bind _ _ ihfirst ihsecond =>
    rename_i first second _ _ _ _
    rw [perform_bind]
    have hfirst := ihfirst hw
    rcases hperform : first.perform w with ⟨stop | a, after⟩ <;> rw [hperform] at hfirst
    · simpa using hfirst
    · exact ihsecond a (by simpa using hfirst)
  | request r =>
    rw [perform_request, files.noted_answer]
    simp [hw, FileSystem.noting]
  | tryRequest r =>
    rw [perform_tryRequest, files.noted_answer]
    simp only [FileSystem.noting]
    rcases (files.answer r w.held.1).1 with (fault | _) | value <;> simp [catchFault, hw]
  | write channel bytes =>
    rw [perform_write]
    cases (w.streams.write channel bytes).1 <;> simp [ofWrite, hw]
  | report text => simpa [CommandShell.report] using hw
  | _ => simp [hw]

end ShellM.Alike

/-! ## Commands -/

namespace Builtin

/-- Changing the directory sets the session behind its last request, so the session is as it was
when that breaks down. -/
theorem session_runCd_of_broken (files : FileSystem σ) (args : List String) {w : World σ}
    (h : ((runCd files args).perform w).1 = .error .broken) :
    ((runCd files args).perform w).2.session = w.session := by
  rw [runCd, perform_bind, perform_session] at h ⊢
  simp only at h ⊢
  cases hfound : cdTarget w.session args with
  | error fault => rfl
  | ok found =>
    simp only [hfound, perform_bind, perform_tryRequest] at h ⊢
    rcases hkind : (files.answer (.kindOf found.1) w.held).1 with (fault | _) | _ | _
    · rfl
    · rfl
    · rfl
    · simp only [hkind, catchFault, perform_bind, perform_request, perform_setSession] at h ⊢
      -- With an answer to the last request the command comes to its end.
      rcases hplace : (files.answer (.canonical found.1)
          (files.answer (.kindOf found.1) w.held).2).1 with stop | place
      · rfl
      · simp [hplace] at h

/-- A command that breaks down leaves the session as it is. -/
theorem session_of_broken (files : FileSystem σ) (b : Builtin) (args : List String) {w : World σ}
    (h : ((b.run files args).perform w).1 = .error .broken) :
    ((b.run files args).perform w).2.session = w.session := by
  by_cases hset : b = .cd ∨ b = .exit
  · rcases hset with rfl | rfl
    · exact session_runCd_of_broken files args h
    · -- Asking to end makes no request at all.
      have hwrite : ∀ result, ofWrite result ≠ .error .broken := by
        rintro (fault | _) <;> simp [ofWrite]
      simp only [run, runExit, perform_bind, perform_session, perform_setSession] at h
      exact absurd h (hwrite _)
  · exact (b.composed_run files args).session_eq hset w

/-- What is reported for a command that broke down. -/
def brokenLine (b : Builtin) : Bytes :=
  Utf8.ofString (b.name ++ ": internal error" ++ "\n")

/-- A command under which the file system broke down leaves the session as it is, and its breaking
down is reported. -/
theorem invoke_of_noted (files : FileSystem σ) (b : Builtin) (args : List String)
    {w : World (σ × Bool)} (hw : w.held.2 = false)
    (h : (invoke files.noting b args w).held.2 = true) :
    invoke files.noting b args w =
        report (b.name ++ ": internal error") ((b.run files.noting args).perform w).2 ∧
      ((b.run files.noting args).perform w).2.session = w.session := by
  rw [held_invoke, (b.composed_run files.noting args).noted_iff hw] at h
  refine ⟨?_, session_of_broken files.noting b args h⟩
  rw [invoke]
  rcases hrun : (b.run files.noting args).perform w with ⟨result, after⟩
  rw [hrun] at h
  subst h
  rfl

end Builtin

/-! ## Command lines -/

/-- Noting makes no difference to a command whose faults are reported. -/
theorem invoke_noting (files : FileSystem σ) (b : Builtin) (args : List String)
    (w : World (σ × Bool)) :
    invoke files b args w.withoutNote = (invoke files.noting b args w).withoutNote := by
  rw [invoke, invoke, (Builtin.alike_run files.noting files b args).perform_noting]
  rcases (b.run files.noting args).perform w with ⟨(fault | _) | _, after⟩ <;> rfl

/-- Noting makes no difference to a command line. -/
theorem dispatch_noting (files : FileSystem σ) (line : CommandLine) (w : World (σ × Bool)) :
    (dispatch files line).perform w.withoutNote =
      (((dispatch files.noting line).perform w).1,
        ((dispatch files.noting line).perform w).2.withoutNote) := by
  obtain ⟨name, args, redirection⟩ := line
  cases hname : Builtin.ofName? name with
  | none => rw [perform_dispatch_unknown _ _ _ hname, perform_dispatch_unknown _ _ _ hname]; rfl
  | some b =>
    cases redirection with
    | none =>
      rw [perform_dispatch_plain _ _ hname, perform_dispatch_plain _ _ hname, invoke_noting]
    | some redirection =>
      rw [perform_dispatch_redirected _ _ _ hname, perform_dispatch_redirected _ _ _ hname]
      have hinvoke := invoke_noting files b args { w with streams := .unlimited }
      generalize invoke files.noting b args { w with streams := .unlimited } = command at hinvoke ⊢
      rw [show invoke files b args { w.withoutNote with streams := .unlimited } = _ from hinvoke]
      exact (alike_deliver files.noting files redirection command.streams.allBytes).perform_noting
        { command with streams := w.streams }

/-- What is left of a command line on a file system that may break down at any request. A line that
names no command makes no request. A plain line comes to its end; if the file system broke down
under it, the session is as it was and the last thing on the error channel says so, as far as there
is room. A redirected line comes to its end unless the write to its target breaks down. That write
is made in any case, with the output of the command; if the file system broke down under the
command, the session is as it was and the output ends with the line that says so. -/
theorem dispatch_contains_breakdowns (files : FileSystem σ) (line : CommandLine)
    (session : Session) (terminal : Streams) (held : σ) :
    let (result, after) := (dispatch files line).perform ⟨session, terminal, held⟩
    let noted := ((dispatch files.noting line).perform ⟨session, terminal, held, false⟩).2
    match Builtin.ofName? line.name, line.redirection with
    | none, _ => result = .ok () ∧ after.held = held ∧ noted.held.2 = false
    | some b, none =>
      result = .ok () ∧
        (noted.held.2 = true →
          after.session = session ∧
            ∃ shown, after.streams.bytesOn .err = terminal.bytesOn .err ++
              (shown ++ Streams.fitting (Streams.left (terminal.room .err) shown) b.brokenLine))
    | some b, some redirection =>
      let command := invoke files b line.args ⟨session, .unlimited, held⟩
      let commandNoted := invoke files.noting b line.args ⟨session, .unlimited, held, false⟩
      let write :=
        files.answer (.write (command.session.resolve redirection.target)
          command.streams.allBytes redirection.mode) command.held
      (write.1 ≠ .error .broken → result = .ok ()) ∧ after.held = write.2 ∧
        after.session = command.session ∧
        (commandNoted.held.2 = true →
          command.session = session ∧
            ∃ shown, command.streams.allBytes = shown ++ b.brokenLine) := by
  rw [show (dispatch files line).perform ⟨session, terminal, held⟩ = _ from
    dispatch_noting files line ⟨session, terminal, held, false⟩]
  obtain ⟨name, args, redirection⟩ := line
  rcases hname : Builtin.ofName? name with _ | b
  · simp [perform_dispatch_unknown files.noting args redirection hname, report, World.withoutNote]
  · have hcomposed := b.composed_run files.noting args
    cases redirection with
    | none =>
      simp only [perform_dispatch_plain files.noting args hname, true_and]
      intro hnoted
      obtain ⟨hreport, hsession⟩ := Builtin.invoke_of_noted files b args rfl hnoted
      obtain ⟨shown, hbytes, hroom⟩ := hcomposed.shows .err ⟨session, terminal, held, false⟩
      rw [hreport]
      refine ⟨hsession, shown, ?_⟩
      simp only [World.withoutNote]
      rw [bytesOn_report, hbytes, hroom, if_pos rfl, List.append_assoc]
      rfl
    | some redirection =>
      simp only [perform_dispatch_redirected files.noting args redirection hname]
      rw [show invoke files b args ⟨session, .unlimited, held⟩ = _ from
        invoke_noting files b args ⟨session, .unlimited, held, false⟩]
      generalize hcommand : invoke files.noting b args ⟨session, .unlimited, held, false⟩ = command
      obtain ⟨hheld, hsession, hok⟩ := perform_deliver files.noting redirection
        command.streams.allBytes { command with streams := terminal }
      refine ⟨hok, congrArg Prod.fst hheld, hsession, fun hnoted => ?_⟩
      subst hcommand
      obtain ⟨hreport, hkept⟩ := Builtin.invoke_of_noted files b args rfl hnoted
      -- The streams of the command take all of the line.
      let start : World (σ × Bool) := ⟨session, .unlimited, held, false⟩
      have hnever := hcomposed.neverFails (w := start) Streams.neverFails_unlimited
      rw [hreport, report_of_neverFails hnever]
      refine ⟨hkept, ((b.run files.noting args).perform start).2.streams.allBytes, ?_⟩
      simp [World.withoutNote, Streams.allBytes, Builtin.brokenLine]

/-- Two ways in which breaking down is not reported: an error channel without room gets nothing, and
a redirected line stops where the write to its target breaks down. -/
theorem breakdown_not_reported :
    let files := Disk.files.breakingAt fun p => p.fileName = some (Utf8.ofString "PANIC")
    let session := Session.start .root .root
    let full := Streams.withRoom none (some 0)
    let made := (dispatch files ⟨"mkdir", ["PANIC"], none⟩).perform ⟨session, full, Disk.empty⟩
    let noted := (dispatch files.noting ⟨"mkdir", ["PANIC"], none⟩).perform
      ⟨session, full, Disk.empty, false⟩
    let written := (dispatch files ⟨"pwd", [], some ⟨"PANIC", .truncate⟩⟩).perform
      ⟨session, .unlimited, Disk.empty⟩
    (noted.2.held.2 = true ∧ made.2.streams.bytesOn .err = []) ∧ written.1 = .error .broken :=
  ⟨by decide, rfl⟩

end CommandShell
