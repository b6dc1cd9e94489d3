import CommandShell.Proofs.Breakdowns
import CommandShell.Proofs.Channels
import CommandShell.Proofs.Losses
import CommandShell.Proofs.PartialExtraction

/-!
# Output that does not fit

A line of input is run twice: on streams that take everything, and on an output channel with room
for so many bytes. As long as everything fits, the two runs are the same. Where the output is cut,
the limited run has shown what fits and stops; it has then changed whatever the other run changes,
as commands print behind what they do. Only an extraction prints in between, a line for each member,
so it ends with the member whose line is cut.

## Main definitions

* `World.limited`: a world with a limit on its output.
* `World.Fits`: the output so far is within a limit.
* `ShellM.Cut`: how an action ends within a limit, when it is known how it ends without.
* `Unhindered`: an action that changes the same with and without a limit.
* `Builtin.ReachedBy`: a disk that is reached by extracting the first members of an archive.

## Main results

* `ShellM.Alike.cut`: every action shows what fits, and is the same when everything fits;
* `Builtin.unhindered_run`: every command but an extraction changes the same when it is cut;
* `Builtin.runUnzip_cut`: an extraction that is cut has extracted some members in full;
* `runLine_limited`: what this means for a line of input.
-/

namespace CommandShell

open ShellM

variable {σ τ : Type} {limit : Nat} {host : Host} {format : Archive.Format}

/-! ## Limits -/

namespace Streams

/-- Streams on which so many bytes of output fit in all, those included that were written before.
The error channel takes everything. -/
def limited (limit : Nat) (s : Streams) : Streams where
  log := s.log
  room
    | .out => some (limit - (s.bytesOn .out).length)
    | .err => none

/-- Streams with room for so many bytes are streams without limits, with that limit. -/
theorem withRoom_eq (limit : Nat) : withRoom (some limit) none = unlimited.limited limit := by
  rw [withRoom, limited, Streams.mk.injEq]
  exact ⟨rfl, rfl⟩

variable {s : Streams} {channel : Channel} {bytes : Bytes}

/-- What is written to streams that take everything is all there. -/
theorem NeverFails.bytesOn_out_write (hs : s.NeverFails) (channel : Channel) (bytes : Bytes) :
    (s.write channel bytes).2.bytesOn .out =
      s.bytesOn .out ++ if channel = .out then bytes else [] := by
  rw [bytesOn_write, hs channel]
  rfl

/-- A write whose output fits is the same as without a limit. -/
theorem write_limited (hs : s.NeverFails)
    (hfits : ((s.write channel bytes).2.bytesOn .out).length ≤ limit) :
    (s.limited limit).write channel bytes =
      (.ok (), (s.write channel bytes).2.limited limit) := by
  cases channel with
  | err =>
    have hout := hs.bytesOn_out_write .err bytes
    rw [if_neg (by decide), List.append_nil] at hout
    rw [write_unlimited rfl, hs.write] at *
    simp only [limited, hout]
  | out =>
    have hout := hs.bytesOn_out_write .out bytes
    rw [if_pos rfl] at hout
    rw [hout, List.length_append] at hfits
    have htake : bytes.take (limit - (s.bytesOn .out).length) = bytes :=
      List.take_of_length_le (by omega)
    rw [limited, limited, hout]
    simp only [write, fitting, hs .out, htake, Nat.lt_irrefl, if_false, Prod.mk.injEq, true_and,
      Streams.mk.injEq]
    funext channel
    cases channel with
    | out => simp [left, Nat.sub_sub]
    | err => rfl

/-- Of a write whose output does not fit, what fits is written. -/
theorem write_cut (hs : s.NeverFails) (hfits : (s.bytesOn .out).length ≤ limit)
    (hcut : limit < ((s.write channel bytes).2.bytesOn .out).length) :
    ((s.limited limit).write channel bytes).1 = .error .full ∧
      ((s.limited limit).write channel bytes).2.bytesOn .out =
        ((s.write channel bytes).2.bytesOn .out).take limit := by
  rw [hs.bytesOn_out_write] at hcut ⊢
  cases channel with
  | err =>
    rw [if_neg (by decide), List.append_nil] at hcut
    exact absurd hfits (Nat.not_le_of_gt hcut)
  | out =>
    rw [if_pos rfl] at hcut ⊢
    rw [List.length_append] at hcut
    constructor
    · simp only [write, limited, fitting, List.length_take]
      rw [if_pos (by omega)]
    · have hsame : (s.limited limit).bytesOn .out = s.bytesOn .out := rfl
      rw [bytesOn_write, if_pos rfl, hsame, List.take_append, List.take_of_length_le hfits]
      rfl

end Streams

namespace World

/-- A world whose streams have a limit on their output. -/
def limited (limit : Nat) (w : World σ) : World σ :=
  { w with streams := w.streams.limited limit }

/-- The output of a world is within a limit. -/
def Fits (limit : Nat) (w : World σ) : Prop :=
  (w.streams.bytesOn .out).length ≤ limit

end World

/-- Reporting is not limited, and adds nothing to the output. -/
theorem report_limited {w : World σ} (hw : w.streams.NeverFails) (hfits : w.Fits limit)
    (text : String) :
    report text (w.limited limit) = (report text w).limited limit ∧
      (report text w).Fits limit := by
  have hout : (report text w).streams.bytesOn .out = w.streams.bytesOn .out := by
    simp [bytesOn_report]
  have hreport : (report text w).Fits limit := by rwa [World.Fits, hout]
  refine ⟨?_, hreport⟩
  simp only [report, World.limited]
  rw [Streams.write_limited hw hreport]

/-! ## Actions within a limit -/

namespace ShellM

variable {α β : Type} {files : FileSystem σ} {twins : FileSystem τ} {permit : Permit}

/-- How an action ends within a limit, when it is known how it ends without: in the same way when
its output fits, and otherwise with a fault, after it has shown what fits. -/
inductive Cut (limit : Nat) (full : Except Stop α × World σ) : Except Stop α × World σ → Prop
  /-- All output fits. -/
  | fits : full.2.Fits limit → Cut limit full (full.1, full.2.limited limit)
  /-- The output is cut. -/
  | cut {after : World σ} :
      ¬full.2.Fits limit →
        after.streams.bytesOn .out = (full.2.streams.bytesOn .out).take limit →
          Cut limit full (.error (.failed (.stream .full)), after)

/-- Writing shows what fits. -/
theorem cut_write {w : World σ} (hw : w.streams.NeverFails) (hfits : w.Fits limit)
    (channel : Channel) (bytes : Bytes) :
    Cut limit ((write channel bytes).perform w)
      ((write channel bytes).perform (w.limited limit)) := by
  by_cases hall : ((write channel bytes).perform w).2.Fits limit
  · have hsame : (write channel bytes).perform (w.limited limit) =
        (((write channel bytes).perform w).1,
          ((write channel bytes).perform w).2.limited limit) := by
      have hlimited : (w.streams.limited limit).write channel bytes =
          (.ok (), (w.streams.write channel bytes).2.limited limit) := Streams.write_limited hw hall
      rw [perform_write, perform_write, hw.write] at *
      simp only [World.limited, hlimited]
    rw [hsame]
    exact .fits hall
  · obtain ⟨hfull, hshown⟩ := Streams.write_cut hw hfits (Nat.lt_of_not_le hall)
    have hstop : ((write channel bytes).perform (w.limited limit)).1 =
        .error (.failed (.stream .full)) := by
      rw [perform_write]
      exact congrArg ofWrite hfull
    rw [← Prod.eta ((write channel bytes).perform (w.limited limit)), hstop]
    exact .cut hall hshown

/-- Every action shows what fits, and is the same as without a limit when everything fits. -/
theorem Alike.cut {action : ShellM σ α} {twin : ShellM τ α}
    (h : Alike files twins permit action twin) {w : World σ} (hw : w.streams.NeverFails)
    (hfits : w.Fits limit) :
    Cut limit (action.perform w) (action.perform (w.limited limit)) := by
  induction h generalizing w with
  | write channel bytes => exact cut_write hw hfits channel bytes
  | report text =>
    obtain ⟨hsame, hreport⟩ := report_limited hw hfits text
    rw [perform_ofFunction, perform_ofFunction, hsame]
    exact .fits hreport
  | bind hfirst hsecond ihfirst ihsecond =>
    rename_i first second _ _
    have hcut := ihfirst hw hfits
    have hmiddle := hfirst.neverFails hw
    rw [perform_bind, perform_bind]
    rcases hperform : first.perform w with ⟨stop | a, middle⟩ <;> rw [hperform] at hcut hmiddle
    · generalize first.perform (w.limited limit) = outcome at hcut
      cases hcut with
      | fits hstill => exact .fits hstill
      | cut hnot hshown => exact .cut hnot hshown
    · generalize first.perform (w.limited limit) = outcome at hcut
      cases hcut with
      | fits hstill => exact ihsecond a hmiddle hstill
      | cut hnot hshown =>
        -- What the second action would show lies behind the limit.
        obtain ⟨more, hmore, -⟩ := (hsecond a).shows .out middle
        have hlimit : limit < (middle.streams.bytesOn .out).length := Nat.lt_of_not_le hnot
        refine .cut ?_ ?_
        · rw [World.Fits, hmore, List.length_append]
          omega
        · rw [hshown, hmore, List.take_append_of_le_length hlimit.le]
  | _ => exact .fits hfits

end ShellM

/-! ## What is changed within a limit -/

/-- An action that leaves the same disk and the same session, whether or not its output is cut. -/
def Unhindered {α : Type} (action : ShellM Disk α) : Prop :=
  ∀ limit w, w.streams.NeverFails → w.Fits limit →
    (action.perform (w.limited limit)).2.held = (action.perform w).2.held ∧
      (action.perform (w.limited limit)).2.session = (action.perform w).2.session

namespace Unhindered

variable {α β : Type} {permit : Permit} {first : ShellM Disk α} {second : α → ShellM Disk β}

/-- Looking changes nothing in any case. -/
theorem of_looking (h : Composed (Disk.files host format) .looking first) : Unhindered first := by
  intro limit w _ _
  obtain ⟨hheld, hsession⟩ := h.unchanged_of_looking w
  obtain ⟨hheld', hsession'⟩ := h.unchanged_of_looking (w.limited limit)
  exact ⟨hheld'.trans hheld.symm, hsession'.trans hsession.symm⟩

/-- An action without output is not cut. -/
theorem perform_of_mute (h : Composed (Disk.files host format) permit first)
    (hmute : Mute .out first) {w : World Disk} (hw : w.streams.NeverFails) (hfits : w.Fits limit) :
    first.perform (w.limited limit) =
        ((first.perform w).1, (first.perform w).2.limited limit) ∧
      (first.perform w).2.Fits limit := by
  have hafter : (first.perform w).2.Fits limit := by rwa [World.Fits, hmute w]
  refine ⟨?_, hafter⟩
  have hcut := h.cut hw hfits
  generalize first.perform (w.limited limit) = outcome at hcut
  cases hcut with
  | fits => rfl
  | cut hnot => exact absurd hafter hnot

/-- Nothing hinders an action without output. -/
theorem of_mute (h : Composed (Disk.files host format) permit first) (hmute : Mute .out first) :
    Unhindered first := by
  intro limit w hw hfits
  rw [(perform_of_mute h hmute hw hfits).1]
  exact ⟨rfl, rfl⟩

/-- An action without output may come first. -/
theorem bind_mute (permit : Permit) (h : Composed (Disk.files host format) permit first)
    (hmute : Mute .out first) (hsecond : ∀ a, Unhindered (second a)) :
    Unhindered (first >>= second) := by
  intro limit w hw hfits
  obtain ⟨hsame, hafter⟩ := perform_of_mute h hmute hw hfits
  have hmiddle := h.neverFails hw
  rw [perform_bind, perform_bind, hsame]
  rcases hperform : first.perform w with ⟨stop | a, middle⟩ <;> rw [hperform] at hafter hmiddle
  · exact ⟨rfl, rfl⟩
  · exact hsecond a limit middle hmiddle hafter

/-! Some steps ask nothing of a file system, so it may be any. -/

/-- Failing. -/
theorem fail (fault : Fault) : Unhindered (ShellM.fail fault : ShellM Disk α) :=
  .of_looking (.fail fault : Composed Disk.files .looking _)

/-- Printing a line. -/
theorem printLine (text : String) : Unhindered (ShellM.printLine text : ShellM Disk Unit) :=
  .of_looking (.printLine text : Composed Disk.files .looking _)

/-- The session may be read first. -/
theorem bind_session {second : Session → ShellM Disk β}
    (hsecond : ∀ current, Unhindered (second current)) : Unhindered (session >>= second) :=
  .bind_mute .looking (.session : Composed Disk.files .looking _) .session hsecond

end Unhindered

namespace Builtin

/-- Names tell commands apart. -/
theorem eq_of_name_eq {b other : Builtin} (h : b.name = other.name) : b = other := by
  have hname := ofName?_name b
  rw [h, ofName?_name] at hname
  exact (Option.some.inj hname).symm

/-- Some commands only look. -/
theorem composed_looking {b : Builtin} (hb : b ∈ [pwd, ls, cat, wc]) (args : List String) :
    Composed (Disk.files host format) .looking (b.run (Disk.files host format) args) := by
  simp only [List.mem_cons, List.not_mem_nil, or_false] at hb
  refine (b.composed_run (Disk.files host format) args).mono (fun r hr => ?_) fun hset => ?_
  · cases r with
    | list | kindOf | isPresent | read | canonical | members => trivial
    | _ => rcases hb with rfl | rfl | rfl | rfl <;> cases hr
  · rcases hb with rfl | rfl | rfl | rfl <;> simp [permit] at hset

/-- Removing all empty directories prints, if at all, in the end. -/
theorem unhindered_removeEmpty : Unhindered (removeEmpty (Disk.files host format)) := by
  refine .bind_session fun current => ?_
  refine .bind_mute rmdir.permit (.request _ trivial) (.request _) fun listed => ?_
  refine .bind_mute _ (alike_removeEach (Disk.files host format) (Disk.files host format) _ _)
    (mute_removeEach _ _) fun removed => ?_
  split
  · exact .printLine _
  · exact fun _ _ _ _ => ⟨rfl, rfl⟩

/-- Removing directories. -/
theorem unhindered_runRmdir (args : List String) :
    Unhindered (runRmdir (Disk.files host format) args) := by
  by_cases hstar : args = ["*"]
  · subst hstar
    rw [runRmdir, if_pos rfl]
    exact unhindered_removeEmpty
  · exact .of_mute (alike_runRmdir (Disk.files host format) (Disk.files host format) args)
      (mute_runRmdir hstar)

/-- Asking the shell to end prints behind that. -/
theorem unhindered_runExit : Unhindered (runExit : ShellM Disk Unit) :=
  .bind_session fun _ =>
    .bind_mute exit.permit (.setSession _ (.inr rfl) : Composed Disk.files exit.permit _)
      (.setSession _) fun _ => .printLine _

/-- Storing in an archive prints what was stored. -/
theorem unhindered_runZip (args : List String) :
    Unhindered (runZip (Disk.files host format) args) := by
  rw [runZip]
  rcases takeRecursive args with ⟨recursive, _ | ⟨archive, _ | ⟨first, rest⟩⟩⟩
  · exact .fail _
  · exact .fail _
  · have hresolve : Composed (Disk.files host format) zip.permit (resolve archive) := .resolve _
    refine .bind_mute _ (alike_sourcesOf (Disk.files host format) (Disk.files host format) _ _)
      (mute_sourcesOf _ _) fun sources => ?_
    refine .bind_mute _ hresolve (.resolve _) fun target => ?_
    exact .bind_mute zip.permit (.request _ trivial) (.request _) fun stored =>
      .of_looking (.printEach _ _ : Composed Disk.files .looking _)

/-- Every command but an extraction changes the same when its output is cut. -/
theorem unhindered_run {b : Builtin} (hb : b ≠ unzip) (args : List String) :
    Unhindered (b.run (Disk.files host format) args) := by
  have hcomposed := b.composed_run (Disk.files host format) args
  cases b with
  | pwd => exact .of_looking (composed_looking (by simp) args)
  | cd => exact .of_mute hcomposed (mute_runCd args)
  | ls => exact .of_looking (composed_looking (by simp) args)
  | mkdir => exact .of_mute hcomposed (mute_runMkdir args)
  | rmdir => exact unhindered_runRmdir args
  | touch => exact .of_mute hcomposed (mute_runTouch args)
  | rm => exact .of_mute hcomposed (mute_runRm args)
  | exit => exact unhindered_runExit
  | cp => exact .of_mute hcomposed (mute_runCp args)
  | cat => exact .of_looking (composed_looking (by simp) args)
  | wc => exact .of_looking (composed_looking (by simp) args)
  | zip => exact unhindered_runZip args
  | unzip => exact absurd rfl hb

/-! ## Extractions -/

/-- Extracting a member prints its line behind everything else. -/
theorem unhindered_extract (host : Host) (format : Archive.Format) (base : Path) (m : Member) :
    Unhindered (extract (Disk.files host format) base m) := by
  rw [extract]
  split
  · exact .fail _
  · refine .bind_mute _ (alike_leadsInside (Disk.files host format) (Disk.files host format) _ _)
      (mute_leadsInside _ _) fun inside => ?_
    split
    · exact .fail _
    · cases m.kind with
      | directory =>
        exact .bind_mute unzip.permit (.request _ trivial) (.request _)
          fun _ => .printLine _
      | file =>
        dsimp only
        split
        · exact .fail _
        · refine .bind_mute _
            (alike_readyParent (Disk.files host format) (Disk.files host format) _ _)
            (mute_readyParent _ _) fun ready => ?_
          split
          · exact .bind_mute unzip.permit (.request _ trivial) (.request _)
              fun _ => .printLine _
          · exact .fail _

section Cut

variable {base : Location} {w : World Disk} {args : List String}

/-- Members are extracted up to the one whose line is cut, and that one is extracted in full. -/
theorem extractAll_cut {members : List Member} (hw : w.streams.NeverFails) (hfits : w.Fits limit)
    (hcut : ¬((extractAll (Disk.files host format) base.path members).perform w).2.Fits limit) :
    ∃ before m rest middle last, members = before ++ m :: rest ∧
      (extractAll (Disk.files host format) base.path before).perform w = (.ok (), middle) ∧
      middle.Fits limit ∧
      (extract (Disk.files host format) base.path m).perform middle = (.ok (), last) ∧
      ¬last.Fits limit ∧
      ((extractAll (Disk.files host format) base.path members).perform
        (w.limited limit)).2.held = last.held := by
  -- The induction is on the members. As long as everything fits the limited run is at the same
  -- place, so the rest starts from the world behind the first member.
  induction members generalizing w with
  | nil => exact absurd hfits hcut
  | cons m rest ih =>
    have hcomposed := alike_extract (Disk.files host format) (Disk.files host format) base.path m
    have hstep := hcomposed.cut hw hfits
    have hchanged := (unhindered_extract host format base.path m limit w hw hfits).1
    have hmiddle := hcomposed.neverFails hw
    rw [extractAll, perform_bind] at hcut
    rw [extractAll, perform_bind]
    rcases hperform : (extract (Disk.files host format) base.path m).perform w with
      ⟨stop | _, middle⟩ <;> rw [hperform] at hstep hchanged hcut hmiddle
    · -- A member that stops the extraction prints nothing, so nothing is cut there.
      have hleaves : Leaves host base m w stop middle := handles_extract hw hperform
      exact absurd (by rwa [World.Fits, hleaves.streams]) hcut
    · generalize (extract (Disk.files host format) base.path m).perform (w.limited limit) = outcome
        at hstep hchanged
      cases hstep with
      | fits hstill =>
        obtain ⟨before, next, others, mid, last, rfl, hbefore, hmid, hnext, hnot, hheld⟩ :=
          ih hmiddle hstill hcut
        refine ⟨m :: before, next, others, mid, last, rfl, ?_, hmid, hnext, hnot, hheld⟩
        rw [extractAll, perform_bind, hperform]
        exact hbefore
      | cut hnot =>
        -- The line of this member is cut, and the limited run stops behind its request.
        exact ⟨[], m, rest, w, middle, rfl, rfl, hfits, hperform, hnot, hchanged⟩

/-- A disk that is reached by extracting the first members of an archive, all of them in full. -/
def ReachedBy (host : Host) (format : Archive.Format) (w : World Disk) (args : List String)
    (before : List Member) (reached : Disk) : Prop :=
  ∃ archive directory made, ∃ base : Location, ∃ rest middle,
    unzipOperands none none args = some (archive, directory) ∧
      (w.held.unpackArchive (w.session.resolve archive) format).1 = .ok (before ++ rest) ∧
      w.held.makeDirectories (w.session.destination directory) = (.ok (), made) ∧
      made.canonical (w.session.destination directory) = .ok base.path ∧
      (extractAll (Disk.files host format) base.path before).perform { w with held := made } =
        (.ok (), middle) ∧ reached = middle.held

/-- An extraction whose output does not fit has come to its members. -/
theorem exists_extractAll_of_cut (hfits : w.Fits limit)
    (hcut : ¬((runUnzip (Disk.files host format) args).perform w).2.Fits limit) :
    ∃ archive directory members made, ∃ base : Location,
      unzipOperands none none args = some (archive, directory) ∧
        (w.held.unpackArchive (w.session.resolve archive) format).1 = .ok members ∧
        w.held.makeDirectories (w.session.destination directory) = (.ok (), made) ∧
        made.canonical (w.session.destination directory) = .ok base.path := by
  rcases hoperands : unzipOperands none none args with _ | ⟨archive, directory⟩
  · rw [runUnzip, hoperands] at hcut
    exact absurd hfits hcut
  rw [perform_runUnzip_files hoperands] at hcut
  rcases hunpack : (w.held.unpackArchive (w.session.resolve archive) format).1 with
    stop | members <;> rw [hunpack] at hcut
  · exact absurd hfits hcut
  simp only [perform_bind, perform_request, Disk.answer_makeDirectories] at hcut
  rcases hmake : w.held.makeDirectories (w.session.destination directory) with
    ⟨refusal | _, made⟩ <;> simp only [hmake] at hcut
  · exact absurd hfits hcut
  simp only [Disk.answer_canonical] at hcut
  rcases hcanonical : made.canonical (w.session.destination directory) with refusal | place <;>
    simp only [hcanonical, Disk.looking] at hcut
  · exact absurd hfits hcut
  · obtain ⟨base, -, rfl⟩ := Disk.canonical_eq_ok hcanonical
    exact ⟨archive, directory, members, made, base, rfl, hunpack, hmake, hcanonical⟩

/-- An extraction that is cut has extracted the first members in full, as many of them as it takes
until their lines do not fit, and no others. -/
theorem runUnzip_cut (hw : w.streams.NeverFails) (hfits : w.Fits limit)
    (hcut : ¬((runUnzip (Disk.files host format) args).perform w).2.Fits limit) :
    ∃ before m,
      ReachedBy host format w args (before ++ [m])
        ((runUnzip (Disk.files host format) args).perform (w.limited limit)).2.held ∧
      (w.streams.bytesOn .out ++ extractedOutput before).length ≤ limit ∧
      limit < (w.streams.bytesOn .out ++ extractedOutput (before ++ [m])).length := by
  obtain ⟨archive, directory, members, made, base, hoperands, hunpack, hmake, hcanonical⟩ :=
    exists_extractAll_of_cut hfits hcut
  rw [perform_runUnzip_extractAll hoperands hunpack hmake hcanonical] at hcut
  have hlimited : (runUnzip (Disk.files host format) args).perform (w.limited limit) = _ :=
    perform_runUnzip_extractAll hoperands hunpack hmake hcanonical
  have hmade : ({ w with held := made } : World Disk).streams.NeverFails := hw
  obtain ⟨before, m, rest, middle, last, rfl, hbefore, hmiddle, hm, hlast, hheld⟩ :=
    extractAll_cut hmade hfits hcut
  -- A line is printed behind the member it is about, so the member whose line is cut is there too.
  have hfull : (extractAll (Disk.files host format) base.path (before ++ [m])).perform
      { w with held := made } = (.ok (), last) := by
    simp only [perform_extractAll_append, hbefore, extractAll, perform_bind, hm, perform_pure]
  refine ⟨before, m, ⟨archive, directory, made, base, rest, last, hoperands, ?_, hmake, hcanonical,
    hfull, ?_⟩, ?_, ?_⟩
  · rw [List.append_assoc]
    exact hunpack
  · rw [hlimited]
    exact hheld
  · have hout := (extractAll_eq_ok hmade hbefore).1.out
    rwa [World.Fits, hout] at hmiddle
  · have hout := (extractAll_eq_ok hmade hfull).1.out
    rw [World.Fits, hout] at hlast
    exact Nat.lt_of_not_le hlast

end Cut

end Builtin

/-! ## Lines -/

/-- Reporting how a command ends adds nothing to its output. -/
theorem bytesOn_out_invoke (files : FileSystem σ) (b : Builtin) (args : List String)
    (w : World σ) :
    (invoke files b args w).streams.bytesOn .out =
      ((b.run files args).perform w).2.streams.bytesOn .out := by
  unfold invoke
  split
  · next hperform => rw [hperform]
  · next hperform => rw [hperform, bytesOn_report, if_neg (by decide), List.append_nil]
  · next hperform => rw [hperform, bytesOn_report, if_neg (by decide), List.append_nil]

/-- A command whose faults are reported shows what fits. -/
theorem bytesOn_out_invoke_limited (files : FileSystem σ) (b : Builtin) (args : List String)
    {w : World σ} (hw : w.streams.NeverFails) (hfits : w.Fits limit) :
    (invoke files b args (w.limited limit)).streams.bytesOn .out =
      ((invoke files b args w).streams.bytesOn .out).take limit := by
  rw [bytesOn_out_invoke, bytesOn_out_invoke]
  have hcut := (b.composed_run files args).cut hw hfits
  generalize (b.run files args).perform (w.limited limit) = outcome at hcut
  cases hcut with
  | fits hall => exact (List.take_of_length_le hall).symm
  | cut _ hshown => exact hshown

/-- A command whose faults are reported is the same as without a limit when its output fits. -/
theorem invoke_limited (files : FileSystem σ) (b : Builtin) (args : List String)
    {w : World σ} (hw : w.streams.NeverFails) (hfits : w.Fits limit)
    (hall : (invoke files b args w).Fits limit) :
    invoke files b args (w.limited limit) = (invoke files b args w).limited limit := by
  rw [World.Fits, bytesOn_out_invoke] at hall
  have hcut := (b.composed_run files args).cut hw hfits
  have hafter := (b.composed_run files args).neverFails hw
  rw [invoke, invoke]
  generalize (b.run files args).perform (w.limited limit) = outcome at hcut
  cases hcut with
  | cut hnot => exact absurd hall hnot
  | fits =>
    -- Only the report is left, and the error channel takes everything.
    rcases hperform : (b.run files args).perform w with ⟨(fault | _) | _, after⟩ <;>
      rw [hperform] at hafter hall
    · exact (report_limited hafter hall _).1
    · exact (report_limited hafter hall _).1

/-- Every command but an extraction leaves the same disk when its output is cut. -/
theorem held_invoke_limited {b : Builtin} (hb : b ≠ .unzip) (args : List String) {w : World Disk}
    (hw : w.streams.NeverFails) (hfits : w.Fits limit) :
    (invoke (Disk.files host format) b args (w.limited limit)).held =
      (invoke (Disk.files host format) b args w).held := by
  rw [held_invoke, held_invoke]
  exact (Builtin.unhindered_run hb args limit w hw hfits).1

/-- Every command leaves the same session when its output is cut. -/
theorem session_invoke_limited (b : Builtin) (args : List String) {w : World Disk}
    (hw : w.streams.NeverFails) (hfits : w.Fits limit) :
    (invoke (Disk.files host format) b args (w.limited limit)).session =
      (invoke (Disk.files host format) b args w).session := by
  rw [session_invoke, session_invoke]
  by_cases hb : b = .unzip
  · have hsession := (b.composed_run (Disk.files host format) args).session_eq
      (by simp [hb, Builtin.permit])
    rw [hsession, hsession]
    rfl
  · exact (Builtin.unhindered_run hb args limit w hw hfits).2

/-- Delivering output writes nothing to the output channel. -/
theorem mute_deliver (files : FileSystem σ) (redirection : Redirection) (output : Bytes) :
    Mute .out (deliver files redirection output) := by
  refine .bind (.resolve _) fun target => .bind (.tryRequest _) fun written => ?_
  cases written with
  | ok => exact .pure ()
  | error fault => exact fun w => by simp [bytesOn_report]

/-- A line of input is the same as without a limit, unless it runs a command on the streams of the
terminal. -/
theorem perform_runLine_limited (text : List Char) {w : World Disk} (hw : w.streams.NeverFails)
    (hfits : w.Fits limit) :
    (((runLine (Disk.files host format) text).perform (w.limited limit)).2 =
        ((runLine (Disk.files host format) text).perform w).2.limited limit ∧
      ((runLine (Disk.files host format) text).perform w).2.Fits limit) ∨
    ∃ b args, CommandLine.parseChars text = .ok (some ⟨Builtin.name b, args, none⟩) ∧
      ∀ w, ((runLine (Disk.files host format) text).perform w).2 =
        invoke (Disk.files host format) b args w := by
  rw [runLine]
  rcases CommandLine.parseChars text with fault | _ | ⟨name, args, redirection⟩
  · exact .inl (report_limited hw hfits _)
  · exact .inl ⟨rfl, hfits⟩
  · simp only
    cases hname : Builtin.ofName? name with
    | none =>
      rw [perform_dispatch_unknown (Disk.files host format) _ _ hname,
        perform_dispatch_unknown (Disk.files host format) _ _ hname]
      exact .inl (report_limited hw hfits _)
    | some b =>
      cases redirection with
      | none =>
        obtain rfl := Builtin.name_of_ofName? hname
        exact .inr ⟨b, args, rfl, fun w =>
          congrArg Prod.snd (perform_dispatch_plain (Disk.files host format) args hname w)⟩
      | some r =>
        -- The command has streams of its own in both runs; only the delivery sees the terminal.
        left
        rw [perform_dispatch_redirected (Disk.files host format) _ _ hname,
          perform_dispatch_redirected (Disk.files host format) _ _ hname]
        let after := invoke (Disk.files host format) b args { w with streams := .unlimited }
        obtain ⟨hsame, hafter⟩ := Unhindered.perform_of_mute
          (alike_deliver (Disk.files host format) (Disk.files host format) r after.streams.allBytes)
          (mute_deliver (Disk.files host format) r after.streams.allBytes)
          (w := { after with streams := w.streams }) hw hfits
        exact ⟨congrArg Prod.snd hsame, hafter⟩

/-- A full output stream only cuts output. A line of input shows the first bytes of what it would
show on streams that take everything, and leaves the same session. It leaves the same files and
directories too, unless it is an extraction whose output is cut: that one leaves what the first
members of the archive make of the disk, extracted in full, as many of them as it takes until their
lines do not fit. -/
theorem runLine_limited (host : Host) (format : Archive.Format) (text : List Char)
    (session : Session) (d : Disk) (limit : Nat) :
    let files := Disk.files host format
    let full := ((runLine files text).perform ⟨session, .unlimited, d⟩).2
    let cut := ((runLine files text).perform ⟨session, .withRoom (some limit) none, d⟩).2
    cut.streams.bytesOn .out = (full.streams.bytesOn .out).take limit ∧
      cut.session = full.session ∧
      ((full.streams.bytesOn .out).length ≤ limit ∨
          (∀ args, CommandLine.parseChars text ≠ .ok (some ⟨"unzip", args, none⟩)) →
        cut.held = full.held) ∧
      ∀ args, CommandLine.parseChars text = .ok (some ⟨"unzip", args, none⟩) →
        limit < (full.streams.bytesOn .out).length →
          ∃ before m, Builtin.ReachedBy host format ⟨session, .unlimited, d⟩ args (before ++ [m])
              cut.held ∧
            (Builtin.extractedOutput before).length ≤ limit ∧
            limit < (Builtin.extractedOutput (before ++ [m])).length := by
  intro files full cut
  let w : World Disk := ⟨session, .unlimited, d⟩
  have hw : w.streams.NeverFails := Streams.neverFails_unlimited
  have hfits : w.Fits limit := Nat.zero_le limit
  have hlimited : cut = ((runLine files text).perform (w.limited limit)).2 := by
    rw [World.limited, ← Streams.withRoom_eq]
  obtain ⟨hsame, hall⟩ | ⟨b, args, hparsed, hinvoke⟩ := perform_runLine_limited text hw hfits
  · rw [hlimited, hsame]
    refine ⟨(List.take_of_length_le hall).symm, rfl, fun _ => rfl, fun _ _ hcut => ?_⟩
    exact absurd hall (Nat.not_le_of_gt hcut)
  · have hfull : full = invoke files b args w := hinvoke w
    rw [hinvoke] at hlimited
    rw [hlimited, hfull]
    refine ⟨bytesOn_out_invoke_limited files b args hw hfits,
      session_invoke_limited b args hw hfits, ?_, ?_⟩
    · rintro (hall | hother)
      · rw [invoke_limited files b args hw hfits hall]
        rfl
      · refine held_invoke_limited ?_ args hw hfits
        rintro rfl
        exact hother args hparsed
    · intro args' hparsed' hcut
      -- The same line is read once, so the command is the extraction.
      obtain ⟨hname, rfl⟩ : b.name = "unzip" ∧ args = args' := by
        simpa using hparsed.symm.trans hparsed'
      obtain rfl : b = .unzip := Builtin.eq_of_name_eq hname
      rw [bytesOn_out_invoke] at hcut
      rw [held_invoke]
      exact Builtin.runUnzip_cut hw hfits (Nat.not_le_of_gt hcut)

end CommandShell
