import CommandShell.Proofs.Actions

/-!
# Redirected commands

A redirected command does what it does without the redirection, and then its output is written to
the target. The two runs differ in their streams only: the plain one writes to streams that take
everything, the redirected one to streams of its own, and no command looks at them. This holds on
every machine, one that breaks off the write to the target included.

## Main results

* `Disk.perform_deliver`: what is left of the output of a command when it is delivered;
* `dispatch_redirected`: a redirected command line, compared with the plain one.
-/

namespace CommandShell

open ShellM

/-- The bytes of a channel after a report: a line on the error channel, as far as there is room. -/
theorem bytesOn_report {σ : Type} (text : String) (w : World σ) (channel : Channel) :
    (report text w).streams.bytesOn channel =
      w.streams.bytesOn channel ++
        if channel = .err then
          Streams.fitting (w.streams.room .err) (Utf8.ofString (text ++ "\n"))
        else [] := by
  cases channel <;> simp [report]

/-- Delivering output leaves the disk that writing it to the target leaves, with the target read
from the session. The terminal gets the fault of the write, if there is one, and nothing else. -/
theorem Disk.perform_deliver (redirection : Redirection) (output : Bytes) (session : Session)
    (terminal : Streams) (d : Disk) (host : Host) (format : Archive.Format) :
    let delivered := d.write (session.resolve redirection.target) output redirection.mode host
    ∃ shown : Streams,
      (deliver (files host format) redirection output).perform ⟨session, terminal, d⟩ =
        (.ok (), ⟨session, shown, delivered.2⟩) ∧
      shown.bytesOn .out = terminal.bytesOn .out ∧
      ((delivered.1 = .ok () ∧ shown.bytesOn .err = terminal.bytesOn .err) ∨
        ∃ fault, delivered.1 = .error (.failed fault) ∧
          shown.bytesOn .err = terminal.bytesOn .err ++
            Streams.fitting (terminal.room .err) (Utf8.ofString (fault.message ++ "\n"))) := by
  intro delivered
  have hanswer : (files host format).answer (.write (session.resolve redirection.target) output
      redirection.mode) d = delivered := rfl
  have hbroken : delivered.1 ≠ .error .broken :=
    d.answer_ne_broken (.write (session.resolve redirection.target) output redirection.mode) host
      format
  simp only [deliver, perform_bind, perform_resolve, perform_tryRequest, hanswer]
  -- A fault of the write is shown as far as it fits, and is no fault of the delivery.
  rcases hresult : delivered.1 with (fault | _) | _
  · refine ⟨_, rfl, ?_, .inr ⟨fault, rfl, ?_⟩⟩
    · simp
    · simp
  · exact absurd hresult hbroken
  · exact ⟨terminal, rfl, rfl, .inl ⟨rfl, rfl⟩⟩

/-- A redirected command line, compared with the same line run plain on streams that take
everything. The redirected line leaves the session of the plain run, and the disk and the outcome
of writing what the plain run logged, in order and with the line that says why it stopped, to the
target. The target is read from the session of the plain run and opened on the disk of the plain
run. The terminal gets nothing but the fault of that write. A line that names no command runs
nothing and opens no target. -/
theorem dispatch_redirected (name : String) (args : List String) (redirection : Redirection)
    (session : Session) (d : Disk) (log : List (Channel × Bytes)) (terminal : Streams)
    (host : Host) (format : Archive.Format) :
    match Builtin.ofName? name with
    | some b =>
      let (result, after) :=
        (b.run (Disk.files host format) args).perform ⟨session, ⟨log, fun _ => none⟩, d⟩
      ∃ chunks, after.streams.log = log ++ chunks ∧
        (dispatch (Disk.files host format) ⟨name, args, none⟩).perform
            ⟨session, ⟨log, fun _ => none⟩, d⟩ =
          (.ok (), ⟨after.session, ⟨log ++ (chunks ++ b.faultLine result), fun _ => none⟩,
            after.held⟩) ∧
        let delivered :=
          after.held.write (after.session.resolve redirection.target)
            ((chunks ++ b.faultLine result).flatMap Prod.snd) redirection.mode host
        ∃ shown : Streams,
          (dispatch (Disk.files host format) ⟨name, args, some redirection⟩).perform
              ⟨session, terminal, d⟩ =
            (.ok (), ⟨after.session, shown, delivered.2⟩) ∧
          shown.bytesOn .out = terminal.bytesOn .out ∧
          ((delivered.1 = .ok () ∧ shown.bytesOn .err = terminal.bytesOn .err) ∨
            ∃ fault, delivered.1 = .error (.failed fault) ∧
              shown.bytesOn .err = terminal.bytesOn .err ++
                Streams.fitting (terminal.room .err) (Utf8.ofString (fault.message ++ "\n")))
    | none =>
      ∃ shown : Streams,
        (dispatch (Disk.files host format) ⟨name, args, some redirection⟩).perform
            ⟨session, terminal, d⟩ =
          (.ok (), ⟨session, shown, d⟩) ∧
        shown.bytesOn .out = terminal.bytesOn .out ∧
        shown.bytesOn .err = terminal.bytesOn .err ++
          Streams.fitting (terminal.room .err)
            (Utf8.ofString ((Fault.unknownCommand name).message ++ "\n")) := by
  rcases hname : Builtin.ofName? name with _ | b
  · refine ⟨(report (Fault.unknownCommand name).message
      ⟨session, terminal, d⟩ : World Disk).streams, ?_, ?_, ?_⟩
    · simp [dispatch, hname, report]
    · simp [bytesOn_report]
    · simp [bytesOn_report]
  · -- The redirected line runs the command on streams of its own that have logged nothing.
    rcases hown : (b.run (Disk.files host format) args).perform ⟨session, .unlimited, d⟩ with
      ⟨result, session', streams, d'⟩
    have hnever : streams.NeverFails := by
      have h := (b.composed_run (Disk.files host format) args).neverFails
        (w := ⟨session, .unlimited, d⟩) Streams.neverFails_unlimited
      rwa [hown] at h
    obtain ⟨chunks, rfl⟩ : ∃ chunks, streams = ⟨chunks, fun _ => none⟩ := ⟨_, hnever.eq_mk⟩
    have hinvoke : invoke (Disk.files host format) b args ⟨session, .unlimited, d⟩ =
        ⟨session', ⟨chunks ++ b.faultLine result, fun _ => none⟩, d'⟩ := by
      have h := invoke_of_neverFails (Disk.files host format) b args
        (w := ⟨session, .unlimited, d⟩) Streams.neverFails_unlimited
      rwa [hown] at h
    -- The plain run does the same behind what its streams have logged before.
    have hquiet : (⟨session, ⟨log, fun _ => none⟩, d⟩ : World Disk) =
        World.behind log ⟨session, .unlimited, d⟩ :=
      World.eq_behind fun _ => rfl
    have hrun : (b.run (Disk.files host format) args).perform ⟨session, ⟨log, fun _ => none⟩, d⟩ =
        (result, ⟨session', ⟨log ++ chunks, fun _ => none⟩, d'⟩) := by
      rw [hquiet, (b.composed_run (Disk.files host format) args).perform_behind, hown]
      rfl
    have hplain : invoke (Disk.files host format) b args ⟨session, ⟨log, fun _ => none⟩, d⟩ =
        ⟨session', ⟨log ++ (chunks ++ b.faultLine result), fun _ => none⟩, d'⟩ := by
      rw [hquiet, invoke_behind, hinvoke]
      rfl
    have hredirected :
        (dispatch (Disk.files host format) ⟨name, args, some redirection⟩).perform
            ⟨session, terminal, d⟩ =
          (deliver (Disk.files host format) redirection
              ((chunks ++ b.faultLine result).flatMap Prod.snd)).perform
            ⟨session', terminal, d'⟩ := by
      simp only [dispatch, perform_ofFunction, hname, hinvoke, Streams.allBytes]
    simp only [hrun]
    refine ⟨chunks, rfl, by simp only [dispatch, perform_ofFunction, hname, hplain], ?_⟩
    rw [hredirected]
    exact Disk.perform_deliver redirection _ session' terminal d' host format

end CommandShell
