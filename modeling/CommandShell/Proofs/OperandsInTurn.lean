import CommandShell.Proofs.Actions

/-!
# Operands in turn

Directories that are made by one command line are made one after the other, as by command lines of
their own. An operand that cannot be made is complained about, and the next one is tried; when the
complaint does not fit on the error channel, though, the command ends there, and the operands behind
it are not looked at.

## Main definitions

* `Streams.Holds`: there is room for so many bytes.
* `makeInTurn`: one command line for each directory.
* `MadeWithin`: what operands leave behind, given the room for complaints.

## Main results

* `Builtin.held_makeEach`: a run over some operands makes the directories of those before the first
  complaint that does not fit;
* `dispatch_mkdir_in_turn`: what this means for the tree that a command line leaves;
* `dispatch_mkdir_stops`: an operand behind a complaint that does not fit is not made.
-/

namespace CommandShell

open ShellM

/-! ## Room for a complaint -/

namespace Streams

/-- There is room for so many bytes. -/
def Holds (room : Option Nat) (count : Nat) : Prop :=
  ∀ limit ∈ room, count ≤ limit

variable {room : Option Nat} {s : Streams} {channel : Channel} {written bytes : Bytes}

/-- Without a limit there is room for everything. -/
theorem holds_none (count : Nat) : Holds none count := nofun

/-- Bytes fit behind others when there is room for both. -/
theorem holds_left_iff (h : Holds room written.length) :
    Holds (left room written) bytes.length ↔ Holds room (written ++ bytes).length := by
  cases room with
  | none => exact iff_of_true (holds_none _) (holds_none _)
  | some limit =>
    have hlimit := h limit rfl
    simp only [Holds, left, Option.map_some, Option.mem_def, Option.some.injEq, forall_eq',
      List.length_append]
    omega

/-- Room is taken by one piece after the other. -/
theorem left_append (room : Option Nat) (written bytes : Bytes) :
    left room (written ++ bytes) = left (left room written) bytes := by
  cases room <;> simp [left, Nat.sub_sub]

/-- Of two pieces as much fits as of one after the other. -/
theorem fitting_append (room : Option Nat) (first second : Bytes) :
    fitting room (first ++ second) = fitting room first ++ fitting (left room first) second := by
  cases room <;> simp [fitting, left, List.take_append]

/-- Nothing fits behind a piece that does not fit. -/
theorem fitting_left_of_not_holds (h : ¬Holds room written.length) (bytes : Bytes) :
    fitting (left room written) bytes = [] := by
  cases room with
  | none => exact absurd (holds_none _) h
  | some limit =>
    have hlimit : limit < written.length := by simpa [Holds] using h
    simp [left, fitting, Nat.sub_eq_zero_of_le (Nat.le_of_lt hlimit)]

/-- What there is room for fits. -/
theorem fitting_of_holds (h : Holds room bytes.length) : fitting room bytes = bytes := by
  cases room with
  | none => rfl
  | some limit => exact List.take_of_length_le (h limit rfl)

/-- A write succeeds when there is room for it, and takes that room. -/
theorem write_of_holds (h : Holds (s.room channel) bytes.length) :
    (s.write channel bytes).1 = .ok () ∧
      (s.write channel bytes).2.room channel = left (s.room channel) bytes := by
  simp [write, fitting_of_holds h]

/-- A write fails when there is no room for it. -/
theorem write_of_not_holds (h : ¬Holds (s.room channel) bytes.length) :
    (s.write channel bytes).1 = .error .full := by
  cases hroom : s.room channel with
  | none =>
    rw [hroom] at h
    exact absurd (holds_none _) h
  | some limit =>
    have hlimit : limit < bytes.length := by simpa [Holds, hroom] using h
    simp only [write, hroom, fitting, List.length_take]
    rw [if_pos (by omega)]

end Streams

/-! ## One operand -/

namespace Builtin

/-- What is complained about a directory that cannot be made. -/
def makeComplaint (p : Path) (refusal : Refusal) : Bytes :=
  Utf8.ofString (mkdir.name ++ ": " ++ (Fault.refused .makeDirectory p refusal).message ++ "\n")

variable {w : World Disk} {typed : String} {made : Disk} {refusal : Refusal}
  {host : Host} {format : Archive.Format}

/-- A request to make a directory is made or refused. -/
theorem answer_makeDirectory (d : Disk) (p : Path) :
    (Disk.files host format).answer (.makeDirectory p) d =
      d.changing .makeDirectory p (d.makeDirectory p) := rfl

/-- A directory is made, and then the others. -/
theorem perform_makeEach_of_made (rest : List String)
    (h : w.held.makeDirectory (w.session.resolve typed) = .ok made) :
    (makeEach (Disk.files host format) (typed :: rest)).perform w =
      (makeEach (Disk.files host format) rest).perform { w with held := made } := by
  simp only [makeEach, perform_bind, perform_resolve, perform_tryRequest, answer_makeDirectory, h,
    Disk.changing, catchFault]

/-- A directory that cannot be made is complained about. -/
theorem perform_makeEach_of_refused (rest : List String)
    (h : w.held.makeDirectory (w.session.resolve typed) = .error refusal) :
    (makeEach (Disk.files host format) (typed :: rest)).perform w =
      (write .err (makeComplaint (w.session.resolve typed) refusal) >>= fun _ =>
        makeEach (Disk.files host format) rest).perform w := by
  simp only [makeEach, perform_bind, perform_resolve, perform_tryRequest, answer_makeDirectory, h,
    Disk.changing, catchFault, complainLine, makeComplaint]

/-- Behind a complaint that fits the others are tried. -/
theorem perform_makeEach_of_holds (rest : List String)
    (h : w.held.makeDirectory (w.session.resolve typed) = .error refusal)
    (hholds : Streams.Holds (w.streams.room .err)
      (makeComplaint (w.session.resolve typed) refusal).length) :
    (makeEach (Disk.files host format) (typed :: rest)).perform w =
      (makeEach (Disk.files host format) rest).perform
        { w with streams :=
            (w.streams.write .err (makeComplaint (w.session.resolve typed) refusal)).2 } := by
  rw [perform_makeEach_of_refused rest h, perform_bind, perform_write,
    (Streams.write_of_holds hholds).1, ofWrite]

/-- A complaint that does not fit ends the command, and nothing is changed any more. -/
theorem held_makeEach_of_not_holds (rest : List String)
    (h : w.held.makeDirectory (w.session.resolve typed) = .error refusal)
    (hnot : ¬Streams.Holds (w.streams.room .err)
      (makeComplaint (w.session.resolve typed) refusal).length) :
    ((makeEach (Disk.files host format) (typed :: rest)).perform w).2.held = w.held := by
  rw [perform_makeEach_of_refused rest h, perform_bind, perform_write,
    Streams.write_of_not_holds hnot, ofWrite]

end Builtin

/-! ## One command line for each -/

/-- Makes directories by one command line for each. -/
def makeInTurn : List String → World Disk → World Disk
  | [], w => w
  | typed :: rest, w =>
    makeInTurn rest ((dispatch Disk.files ⟨"mkdir", [typed], none⟩).perform w).2

section Single

variable {w : World Disk} {typed : String} {made : Disk} {refusal : Refusal}

/-- A command line with one operand is a run over it, when that comes to its end. -/
theorem perform_dispatch_mkdir {after : World Disk}
    (h : (Builtin.makeEach Disk.files [typed]).perform w = (.ok (), after)) :
    ((dispatch Disk.files ⟨"mkdir", [typed], none⟩).perform w).2 = after := by
  have hdispatch : (dispatch Disk.files ⟨Builtin.name .mkdir, [typed], none⟩).perform w =
      (.ok (), after) := perform_dispatch_of_run Disk.files h
  exact congrArg Prod.snd hdispatch

/-- A command line with one operand makes it. -/
theorem dispatch_mkdir_of_made (h : w.held.makeDirectory (w.session.resolve typed) = .ok made) :
    ((dispatch Disk.files ⟨"mkdir", [typed], none⟩).perform w).2 = { w with held := made } :=
  perform_dispatch_mkdir (Builtin.perform_makeEach_of_made [] h)

/-- A command line with one operand complains about it when it cannot be made. -/
theorem dispatch_mkdir_of_refused (hw : w.streams.NeverFails)
    (h : w.held.makeDirectory (w.session.resolve typed) = .error refusal) :
    ((dispatch Disk.files ⟨"mkdir", [typed], none⟩).perform w).2 =
      { w with streams := (w.streams.write .err
          (Builtin.makeComplaint (w.session.resolve typed) refusal)).2 } := by
  refine perform_dispatch_mkdir (Builtin.perform_makeEach_of_holds [] h ?_)
  rw [hw .err]
  exact Streams.holds_none _

end Single

/-- What operands leave behind, given the room for complaints: all of them are processed, or those
up to the first complaint that does not fit. -/
inductive MadeWithin (room : Option Nat) (w : World Disk) : List String → Disk → Prop
  /-- All complaints fit. -/
  | all {operands : List String} :
      Streams.Holds room ((makeInTurn operands w).streams.bytesOn .err).length →
        MadeWithin room w operands (makeInTurn operands w).held
  /-- The complaint about an operand does not fit behind those about the operands before it. -/
  | stopped {processed rest : List String} {typed : String} :
      Streams.Holds room ((makeInTurn processed w).streams.bytesOn .err).length →
        ¬Streams.Holds room ((makeInTurn (processed ++ [typed]) w).streams.bytesOn .err).length →
          MadeWithin room w (processed ++ typed :: rest) (makeInTurn (processed ++ [typed]) w).held

/-- One more operand in front. -/
theorem MadeWithin.cons {room : Option Nat} {w : World Disk} {typed : String}
    {operands : List String} {left : Disk}
    (h : MadeWithin room ((dispatch Disk.files ⟨"mkdir", [typed], none⟩).perform w).2
      operands left) :
    MadeWithin room w (typed :: operands) left := by
  cases h with
  | all hholds => exact .all hholds
  | @stopped processed rest next hholds hnot =>
    have hstop : MadeWithin room w ((typed :: processed) ++ next :: rest)
        (makeInTurn ((typed :: processed) ++ [next]) w).held := .stopped hholds hnot
    exact hstop

/-- Some operands and then others. -/
theorem makeInTurn_append (operands others : List String) (w : World Disk) :
    makeInTurn (operands ++ others) w = makeInTurn others (makeInTurn operands w) := by
  induction operands generalizing w with
  | nil => rfl
  | cons typed rest ih => exact ih _

/-- Complaints are added behind those before. -/
theorem prefix_makeInTurn {w : World Disk} (hw : w.streams.NeverFails) (operands : List String) :
    w.streams.bytesOn .err <+: (makeInTurn operands w).streams.bytesOn .err := by
  induction operands generalizing w with
  | nil => exact List.prefix_rfl
  | cons typed rest ih =>
    have hrest := ih (neverFails_dispatch Disk.files ⟨"mkdir", [typed], none⟩ hw)
    refine List.IsPrefix.trans ?_ hrest
    rcases hmake : w.held.makeDirectory (w.session.resolve typed) with refusal | made
    · rw [dispatch_mkdir_of_refused hw hmake, Streams.bytesOn_write]
      exact List.prefix_append _ _
    · rewrite [dispatch_mkdir_of_made hmake]
      exact List.prefix_rfl

/-- Streams that never fail go on doing so. -/
theorem neverFails_makeInTurn {w : World Disk} (hw : w.streams.NeverFails)
    (operands : List String) : (makeInTurn operands w).streams.NeverFails := by
  induction operands generalizing w with
  | nil => exact hw
  | cons typed rest ih => exact ih (neverFails_dispatch Disk.files ⟨"mkdir", [typed], none⟩ hw)

/-- With room for all complaints all operands are processed. -/
theorem MadeWithin.eq_of_holds {room : Option Nat} {w : World Disk} {operands : List String}
    {left : Disk} (h : MadeWithin room w operands left) (hw : w.streams.NeverFails)
    (hholds : Streams.Holds room ((makeInTurn operands w).streams.bytesOn .err).length) :
    left = (makeInTurn operands w).held := by
  cases h with
  | all => rfl
  | @stopped processed rest typed _ hnot =>
    refine absurd (fun limit hlimit => Nat.le_trans ?_ (hholds limit hlimit)) hnot
    rw [List.append_cons processed typed rest, makeInTurn_append (processed ++ [typed])]
    exact (prefix_makeInTurn (neverFails_makeInTurn hw _) rest).length_le

/-- A run over operands makes those before the first complaint that does not fit. It starts with as
much room as the complaints of `w` have left. -/
theorem Builtin.held_makeEach {operands : List String} {room : Option Nat} {w limited : World Disk}
    {host : Host} {format : Archive.Format}
    (hw : w.streams.NeverFails) (hsession : limited.session = w.session)
    (hheld : limited.held = w.held)
    (hroom : limited.streams.room .err = Streams.left room (w.streams.bytesOn .err))
    (hholds : Streams.Holds room (w.streams.bytesOn .err).length) :
    MadeWithin room w operands
      ((makeEach (Disk.files host format) operands).perform limited).2.held := by
  -- The induction is on the operands; the two worlds differ in their streams only.
  induction operands generalizing w limited with
  | nil =>
    rw [show ((makeEach (Disk.files host format) []).perform limited).2.held = w.held from hheld]
    exact .all hholds
  | cons typed rest ih =>
    rcases hmake : w.held.makeDirectory (w.session.resolve typed) with refusal | made
    · have hsingle := dispatch_mkdir_of_refused hw hmake
      have hstreams := neverFails_dispatch Disk.files ⟨"mkdir", [typed], none⟩ hw
      rw [← hheld, ← hsession] at hmake
      have hfits : _ → (makeEach (Disk.files host format) (typed :: rest)).perform limited = _ :=
        perform_makeEach_of_holds rest hmake
      have hfull : _ →
          ((makeEach (Disk.files host format) (typed :: rest)).perform limited).2.held = _ :=
        held_makeEach_of_not_holds rest hmake
      rw [hsession] at hfits hfull
      generalize makeComplaint (w.session.resolve typed) refusal = complaint at *
      have herr :
          ((dispatch Disk.files ⟨"mkdir", [typed], none⟩).perform w).2.streams.bytesOn .err =
            w.streams.bytesOn .err ++ complaint := by
        rw [hsingle]
        simp [Streams.fitting, hw .err]
      have hboth : Streams.Holds (limited.streams.room .err) complaint.length ↔
          Streams.Holds room (w.streams.bytesOn .err ++ complaint).length := by
        rw [hroom]
        exact Streams.holds_left_iff hholds
      by_cases hroomLeft : Streams.Holds (limited.streams.room .err) complaint.length
      · -- Both runs go on with the next operand, and the room that is left is kept in step.
        rw [hfits hroomLeft]
        refine .cons (ih hstreams ?_ ?_ ?_ ?_)
        · rw [hsingle]
        · rw [hsingle]
          exact hheld
        · rw [herr, Streams.left_append, ← hroom]
          exact (Streams.write_of_holds hroomLeft).2
        · rw [herr]
          exact hboth.1 hroomLeft
      · -- The run ends here, while the command lines would go on.
        have hstop : MadeWithin room w ([] ++ typed :: rest)
            (makeInTurn ([] ++ [typed]) w).held := by
          refine .stopped hholds fun hmore => hroomLeft (hboth.2 ?_)
          rwa [← herr]
        rw [hfull hroomLeft, hheld]
        rwa [List.nil_append, List.nil_append, makeInTurn, makeInTurn, hsingle] at hstop
    · have hsingle := dispatch_mkdir_of_made hmake
      rw [← hheld, ← hsession] at hmake
      rw [perform_makeEach_of_made rest hmake]
      refine .cons ?_
      rw [hsingle]
      exact ih hw hsession rfl hroom hholds

/-! ## The command line -/

/-- The tree that one command line leaves for some directories is the one that is left by a command
line for each, up to the first complaint that does not fit on the error channel. With room for all
complaints it is the tree that all of them leave, whatever room there is on the output channel. -/
theorem dispatch_mkdir_in_turn (operands : List String) (session : Session) (terminal : Streams)
    (d : Disk) (host : Host) (format : Archive.Format) :
    let after := ((dispatch (Disk.files host format) ⟨"mkdir", operands, none⟩).perform
      ⟨session, terminal, d⟩).2
    let alone : World Disk := ⟨session, .unlimited, d⟩
    MadeWithin (terminal.room .err) alone operands after.held ∧
      (Streams.Holds (terminal.room .err)
          ((makeInTurn operands alone).streams.bytesOn .err).length →
        after.held = (makeInTurn operands alone).held) := by
  intro after alone
  have hname : Builtin.ofName? "mkdir" = some .mkdir := Builtin.ofName?_name .mkdir
  -- Without operands the command complains about its use, and no operand is gone through.
  have hheld : after.held = ((Builtin.makeEach (Disk.files host format) operands).perform
      ⟨session, terminal, d⟩).2.held := by
    simp only [after]
    rw [perform_dispatch_plain (Disk.files host format) operands hname, held_invoke]
    cases operands <;> rfl
  have halone : alone.streams.NeverFails := Streams.neverFails_unlimited
  have hroom : terminal.room .err =
      Streams.left (terminal.room .err) (alone.streams.bytesOn .err) := by
    cases hroom : terminal.room .err <;> rfl
  have hmade : MadeWithin (terminal.room .err) alone operands after.held := by
    rw [hheld]
    exact Builtin.held_makeEach halone rfl rfl hroom fun limit _ => Nat.zero_le limit
  exact ⟨hmade, hmade.eq_of_holds halone⟩

/-- A directory behind a complaint that does not fit is not made, though it would be made by a
command line of its own. -/
theorem dispatch_mkdir_stops :
    let d := Disk.empty.put [.ofString "a"] .directory
    let session := Session.start .root .root
    let after := ((dispatch Disk.files ⟨"mkdir", ["a", "b"], none⟩).perform
      ⟨session, .withRoom none (some 0), d⟩).2
    let alone := makeInTurn ["a", "b"] ⟨session, .unlimited, d⟩
    after.held.get? [.ofString "b"] = none ∧
      alone.held.get? [.ofString "b"] = some .directory := by
  decide +kernel

end CommandShell
