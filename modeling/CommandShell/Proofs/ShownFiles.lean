import CommandShell.Proofs.OperandsInTurn
import CommandShell.Proofs.OutputLimits
import CommandShell.Proofs.Restoration
import CommandShell.Proofs.TextLines
import Mathlib.Data.List.Forall2

/-!
# Files that are shown

What is shown of a file are the lines of its text, with a line feed behind each. So a file may be
copied by showing it, but only when its bytes are text, end in a line feed and have no carriage
return before one. Whatever the bytes, they have the counts of what is shown of them, and the counts
of several files add up in the file to which they are shown.

## Main definitions

* `shownBytes`: what is shown of the bytes of a file.
* `Counts`: what `wc` says about a file.

## Main results

* `shownBytes_eq_self_iff`: which bytes are shown as they are;
* `dispatch_cat_copies`: what this means for `cat`;
* `dispatch_cat_keeps_counts`: the counts of a file to which other files are shown.
-/

namespace CommandShell

open ShellM

/-! ## The bytes that are shown -/

/-- What is shown of some bytes: the lines of their text, with a line feed behind each. -/
def shownBytes (stored : Bytes) : Bytes :=
  Utf8.encode (shownText (Utf8.decodeLossy stored))

/-- The bytes of a text end in a line feed when the text does. -/
theorem getLast?_encode_iff {text : List Char} :
    (Utf8.encode text).getLast? = some 10 ↔ text.getLast? = some '\n' := by
  constructor
  · intro h
    obtain ⟨front, hfront⟩ := List.getLast?_eq_some_iff.1 h
    rw [← Utf8.decodeLossy_encode text, hfront, Utf8.decodeLossy_append_lineFeed,
      List.getLast?_concat]
  · intro h
    obtain ⟨front, rfl⟩ := List.getLast?_eq_some_iff.1 h
    rw [Utf8.encode_append]
    exact List.getLast?_concat

/-- The bytes of a text have a carriage return before a line feed where the text has them. -/
theorem carriageReturn_infix_encode_iff {text : List Char} :
    [13, 10] <:+: Utf8.encode text ↔ ['\r', '\n'] <:+: text := by
  constructor
  · rintro ⟨front, back, h⟩
    refine ⟨Utf8.decodeLossy front, Utf8.decodeLossy back, ?_⟩
    rw [← Utf8.decodeLossy_encode text, ← h, List.append_assoc, List.append_assoc]
    simp only [List.cons_append, List.nil_append]
    rw [Utf8.decodeLossy_append_ascii (by decide) front (10 :: back),
      ← List.nil_append (10 :: back), Utf8.decodeLossy_append_ascii (by decide) [] back]
    rfl
  · rintro ⟨front, back, rfl⟩
    rw [Utf8.encode_append, Utf8.encode_append]
    exact ⟨Utf8.encode front, Utf8.encode back, rfl⟩

/-- Bytes are shown as they are when they are the bytes of a text, are none or end in a line feed,
and have no carriage return before a line feed. Any other bytes are not. -/
theorem shownBytes_eq_self_iff (stored : Bytes) :
    shownBytes stored = stored ↔
      Utf8.Valid stored ∧ (stored = [] ∨ stored.getLast? = some 10) ∧ ¬[13, 10] <:+: stored := by
  by_cases hvalid : Utf8.Valid stored
  · obtain ⟨text, rfl⟩ := hvalid
    rw [shownBytes, Utf8.decodeLossy_encode, Utf8.encode_injective.eq_iff, shownText_eq_self_iff,
      Utf8.encode_eq_nil_iff, getLast?_encode_iff, carriageReturn_infix_encode_iff]
    exact (and_iff_right (Utf8.valid_encode text)).symm
  · -- What is shown are the bytes of a text in any case.
    exact iff_of_false (fun h => hvalid (h ▸ Utf8.valid_encode _)) fun h => hvalid h.1

/-- The text of what is shown of several files one after the other. -/
theorem decodeLossy_flatMap_shownBytes {α : Type} (bytesOf : α → Bytes) (items : List α) :
    Utf8.decodeLossy (items.flatMap fun item => shownBytes (bytesOf item)) =
      (items.map fun item => Utf8.decodeLossy (bytesOf item)).flatMap shownText := by
  have hencode : (items.flatMap fun item => shownBytes (bytesOf item)) =
      Utf8.encode ((items.map fun item => Utf8.decodeLossy (bytesOf item)).flatMap shownText) := by
    simp [Utf8.encode, shownBytes, List.flatMap_assoc, List.flatMap_map]
  rw [hencode, Utf8.decodeLossy_encode]

/-- What is shown is text, and is nothing or ends in a line feed. -/
theorem valid_shownBytes (stored : Bytes) :
    Utf8.Valid (shownBytes stored) ∧
      (shownBytes stored = [] ∨ (shownBytes stored).getLast? = some 10) := by
  refine ⟨Utf8.valid_encode _, ?_⟩
  rw [shownBytes, Utf8.encode_eq_nil_iff, getLast?_encode_iff]
  exact shownText_ends _

/-! ## Printing lines -/

/-- Lines that are printed are what is shown. -/
theorem flatMap_ofString_textLines (stored : Bytes) :
    ((textLines (Utf8.decodeLossy stored)).flatMap fun line =>
        Utf8.ofString (String.ofList line ++ "\n")) = shownBytes stored := by
  simp [shownBytes, shownText, Utf8.encode, Utf8.ofString, List.flatMap_assoc]

/-- Lines are printed as far as there is room for them. -/
theorem bytesOn_out_printEach {σ α : Type} (lineOf : α → String) (items : List α) (w : World σ) :
    ((printEach lineOf items).perform w).2.streams.bytesOn .out =
      w.streams.bytesOn .out ++
        Streams.fitting (w.streams.room .out)
          (items.flatMap fun item => Utf8.ofString (lineOf item ++ "\n")) := by
  induction items generalizing w with
  | nil => cases hroom : w.streams.room .out <;> simp [printEach, Streams.fitting]
  | cons item rest ih =>
    rw [printEach, perform_bind, printLine, perform_write, List.flatMap_cons,
      Streams.fitting_append, ← List.append_assoc]
    by_cases hholds : Streams.Holds (w.streams.room .out)
        (Utf8.ofString (lineOf item ++ "\n")).length
    · -- The other lines go on with the room that is left.
      obtain ⟨hok, hroom⟩ := Streams.write_of_holds hholds
      rw [hok]
      simp only [ofWrite]
      rw [ih, hroom, Streams.bytesOn_write, if_pos rfl]
    · -- The command stops, and there is no room for the others.
      rw [Streams.write_of_not_holds hholds, Streams.fitting_left_of_not_holds hholds]
      simp [ofWrite]

/-- When printing lines comes to its end, all of them were printed. -/
theorem bytesOn_out_of_printEach {σ α : Type} {lineOf : α → String} {items : List α}
    {w after : World σ} (h : (printEach lineOf items).perform w = (.ok (), after)) :
    after.streams.bytesOn .out =
      w.streams.bytesOn .out ++ items.flatMap fun item => Utf8.ofString (lineOf item ++ "\n") := by
  induction items generalizing w with
  | nil =>
    cases h
    simp
  | cons item rest ih =>
    rw [printEach, perform_bind, printLine, perform_write] at h
    by_cases hholds : Streams.Holds (w.streams.room .out)
        (Utf8.ofString (lineOf item ++ "\n")).length
    · rw [(Streams.write_of_holds hholds).1] at h
      have hrest := ih h
      rw [hrest, Streams.bytesOn_write, if_pos rfl, Streams.fitting_of_holds hholds,
        List.append_assoc, List.flatMap_cons]
    · rw [Streams.write_of_not_holds hholds] at h
      cases h

/-- A world in which some pieces more were written to the output. -/
def World.printed {σ : Type} (pieces : List Bytes) (w : World σ) : World σ :=
  { w with streams := { w.streams with log := w.streams.log ++ pieces.map (Channel.out, ·) } }

/-- Pieces that are written one after the other. -/
theorem World.printed_printed {σ : Type} (first second : List Bytes) (w : World σ) :
    (w.printed first).printed second = w.printed (first ++ second) := by
  simp [printed]

/-- Pieces that are written to empty streams are all that was written. -/
theorem allBytes_printed {σ : Type} (pieces : List Bytes) (session : Session) (held : σ) :
    (World.printed pieces ⟨session, .unlimited, held⟩).streams.allBytes = pieces.flatten := by
  simp [World.printed, Streams.allBytes, Streams.unlimited, Streams.withRoom, List.flatMap_map,
    List.flatMap_id']

/-- Lines are printed in full to streams that never fail. -/
theorem perform_printEach_of_neverFails {σ α : Type} (lineOf : α → String) (items : List α)
    {w : World σ} (hw : w.streams.NeverFails) :
    (printEach lineOf items).perform w =
      (.ok (), w.printed (items.map fun item => Utf8.ofString (lineOf item ++ "\n"))) := by
  induction items generalizing w with
  | nil => simp [printEach, World.printed]
  | cons item rest ih =>
    have hline : (printLine (lineOf item)).perform w =
        (.ok (), w.printed [Utf8.ofString (lineOf item ++ "\n")]) := by
      rw [printLine, perform_write, hw.write]
      rfl
    have hrest := ih (w := w.printed [Utf8.ofString (lineOf item ++ "\n")]) hw
    rw [World.printed_printed] at hrest
    rw [printEach, perform_bind, hline]
    exact hrest

/-! ## Showing one file -/

variable {host : Host} {format : Archive.Format}

/-- A file that can be read is read. -/
theorem Disk.answer_read {d : Disk} {p : Path} {stored : Bytes} (h : d.content p = .ok stored) :
    (files host format).answer (.read p) d = (.ok stored, d) := by
  have hanswer : (files host format).answer (.read p) d = d.looking .read p (d.content p) := rfl
  rw [hanswer, h]
  rfl

/-- A file that can be read is shown line by line, and then the other operands are. -/
theorem Builtin.perform_showEach_of_content {w : World Disk} {typed : String} {stored : Bytes}
    (h : w.held.content (w.session.resolve typed) = .ok stored) (rest : List String) :
    (showEach (Disk.files host format) (typed :: rest)).perform w =
      (printEach String.ofList (textLines (Utf8.decodeLossy stored)) >>= fun _ =>
        showEach (Disk.files host format) rest).perform w := by
  rw [showEach, perform_bind, perform_resolve]
  simp only [perform_bind, perform_tryRequest, Disk.answer_read h, catchFault]

/-- A file that can be read is copied to the output as far as there is room, when its bytes are the
bytes of a text, are none or end in a line feed, and have no carriage return before a line feed.
Other bytes are not copied. In any case a text is shown, which is empty or ends in a line feed. -/
theorem dispatch_cat_copies {w : World Disk} {typed : String} {stored : Bytes}
    (hread : w.held.content (w.session.resolve typed) = .ok stored) :
    let files := Disk.files host format
    let after := ((dispatch files ⟨"cat", [typed], none⟩).perform w).2
    after.streams.bytesOn .out =
        w.streams.bytesOn .out ++ Streams.fitting (w.streams.room .out) (shownBytes stored) ∧
      (shownBytes stored = stored ↔
        Utf8.Valid stored ∧ (stored = [] ∨ stored.getLast? = some 10) ∧ ¬[13, 10] <:+: stored) ∧
      Utf8.Valid (shownBytes stored) ∧
      (shownBytes stored = [] ∨ (shownBytes stored).getLast? = some 10) := by
  intro files after
  refine ⟨?_, shownBytes_eq_self_iff stored, valid_shownBytes stored⟩
  have hname : Builtin.ofName? "cat" = some .cat := Builtin.ofName?_name .cat
  have hrun : Builtin.cat.run files [typed] = Builtin.showEach files [typed] := rfl
  have hprinted := bytesOn_out_printEach String.ofList (textLines (Utf8.decodeLossy stored)) w
  rw [flatMap_ofString_textLines] at hprinted
  simp only [after]
  rw [perform_dispatch_plain files [typed] hname, bytesOn_out_invoke, hrun,
    Builtin.perform_showEach_of_content hread, ← hprinted, perform_bind]
  -- Nothing comes behind the file, whether all its lines were printed or not.
  rcases (printEach String.ofList (textLines (Utf8.decodeLossy stored))).perform w with
    ⟨_ | _, printed⟩ <;> rfl

/-- Of two carriage returns before a line feed one is lost. -/
theorem dispatch_cat_copies_carriageReturns :
    let d := Disk.empty.put [.ofString "f"] (.file [13, 13, 10])
    let w : World Disk := ⟨Session.start .root .root, .unlimited, d⟩
    let after := ((dispatch Disk.files ⟨"cat", ["f"], none⟩).perform w).2
    w.held.content (w.session.resolve "f") = .ok [13, 13, 10] ∧
      after.streams.bytesOn .out = [13, 10] ∧ Utf8.Valid [13, 10] := by
  intro d w after
  have hread : w.held.content (w.session.resolve "f") = .ok [13, 13, 10] := by decide +kernel
  have hshown : shownBytes [13, 13, 10] = [13, 10] := by decide +kernel
  obtain ⟨hout, -, hvalid, -⟩ := dispatch_cat_copies hread
  rw [hshown] at hout hvalid
  exact ⟨hread, hout, hvalid⟩

/-! ## Counting -/

/-- No number is written with a space. -/
theorem space_notMem_digits (n : Nat) : ' ' ∉ (toString n).toList := by
  intro hmem
  have hdigit : ' '.isDigit = true :=
    Nat.isDigit_of_mem_toDigits (by decide) (by decide) (Nat.toList_repr ▸ hmem)
  exact absurd hdigit (by decide)

/-- Different numbers are written differently. -/
theorem toList_toString_injective {m n : Nat} (h : (toString m).toList = (toString n).toList) :
    m = n := by
  have hdigits : Nat.toDigits 10 m = Nat.toDigits 10 n := by
    rw [← Nat.toList_repr, ← Nat.toList_repr]
    exact h
  rw [← Nat.ofDigitChars_toDigits (b := 10) (n := m) (by decide) (by decide), hdigits,
    Nat.ofDigitChars_toDigits (by decide) (by decide)]

namespace Builtin

/-- The three numbers stand between spaces. -/
theorem splitOn_tallyLine (t : Tally) (typed : String) :
    (tallyLine t typed).toList.splitOn ' ' =
      (toString t.lines).toList :: (toString t.words).toList :: (toString t.chars).toList ::
        typed.toList.splitOn ' ' := by
  have hnumber : ∀ (n : Nat) (rest : List Char),
      ((toString n).toList ++ ' ' :: rest).splitOn ' ' =
        (toString n).toList :: rest.splitOn ' ' := by
    intro n rest
    rw [List.splitOn_append_cons_self, List.splitOn_eq_singleton (space_notMem_digits n),
      List.singleton_append]
  have htext : (tallyLine t typed).toList =
      (toString t.lines).toList ++ ' ' :: ((toString t.words).toList ++ ' ' ::
        ((toString t.chars).toList ++ ' ' :: typed.toList)) := by
    simp [tallyLine]
  rw [htext, hnumber, hnumber, hnumber]

/-- Different counts are shown differently. -/
theorem tallyLine_injective (typed : String) : Function.Injective (tallyLine · typed) := by
  intro first second h
  have hpieces := congrArg (fun line => line.toList.splitOn ' ') h
  simp only [splitOn_tallyLine, List.cons.injEq] at hpieces
  obtain ⟨hlines, hwords, hchars, -⟩ := hpieces
  cases first
  cases second
  rw [Tally.mk.injEq]
  exact ⟨toList_toString_injective hlines, toList_toString_injective hwords,
    toList_toString_injective hchars⟩

end Builtin

/-- Lines with the same bytes are the same. -/
theorem eq_of_ofString_line {line other : String}
    (h : Utf8.ofString (line ++ "\n") = Utf8.ofString (other ++ "\n")) : line = other := by
  have htext := congrArg String.toList (Utf8.ofString_injective h)
  rw [String.toList_append, String.toList_append] at htext
  exact String.toList_injective (List.append_cancel_right htext)

/-- What `wc` shows of a file are these counts, and it shows nothing else. -/
def Counts (session : Session) (d : Disk) (typed : String) (t : Tally) : Prop :=
  ((dispatch Disk.files ⟨"wc", [typed], none⟩).perform ⟨session, .unlimited, d⟩).2.streams.log =
    [(.out, Utf8.ofString (Builtin.tallyLine t typed ++ "\n"))]

/-- The counts of a file are those of its text. -/
theorem counts_iff {session : Session} {d : Disk} {typed : String} {stored : Bytes}
    (h : d.content (session.resolve typed) = .ok stored) (t : Tally) :
    Counts session d typed t ↔ t = Tally.ofText (Utf8.decodeLossy stored) := by
  have hname : Builtin.ofName? "wc" = some .wc := Builtin.ofName?_name .wc
  have hlog : ((dispatch Disk.files ⟨"wc", [typed], none⟩).perform
      ⟨session, .unlimited, d⟩).2.streams.log =
        [(.out, Utf8.ofString
          (Builtin.tallyLine (Tally.ofText (Utf8.decodeLossy stored)) typed ++ "\n"))] := by
    rw [perform_dispatch_plain Disk.files [typed] hname]
    simp only [invoke, Builtin.run, Builtin.runWc, perform_bind, perform_resolve, perform_request,
      Disk.answer_read h, printLine, perform_write, Streams.neverFails_unlimited.write, ofWrite]
    rfl
  rw [Counts, hlog]
  constructor
  · intro hsame
    have hbytes := congrArg (List.map Prod.snd) hsame
    simp only [List.map_cons, List.map_nil, List.cons.injEq, and_true] at hbytes
    exact (Builtin.tallyLine_injective typed (eq_of_ofString_line hbytes)).symm
  · rintro rfl
    rfl

/-- Each file has one count. -/
theorem forall₂_counts_iff {session : Session} {d : Disk} {operands : List String}
    {bytesOf : String → Bytes}
    (h : ∀ typed ∈ operands, d.content (session.resolve typed) = .ok (bytesOf typed))
    (tallies : List Tally) :
    List.Forall₂ (Counts session d) operands tallies ↔
      tallies = operands.map fun typed => Tally.ofText (Utf8.decodeLossy (bytesOf typed)) := by
  induction operands generalizing tallies with
  | nil => simp
  | cons typed rest ih =>
    rw [List.forall₂_cons_left_iff, List.map_cons]
    have hfirst := counts_iff (h typed List.mem_cons_self)
    have hrest := ih fun other hother => h other (List.mem_cons_of_mem typed hother)
    simp only [hfirst, hrest]
    constructor
    · rintro ⟨t, others, rfl, rfl, rfl⟩
      rfl
    · rintro rfl
      exact ⟨_, _, rfl, rfl, rfl⟩

/-! ## Showing files to a file -/

/-- Files that can be read are shown in turn to streams that never fail. -/
theorem Builtin.perform_showEach_of_contents {operands : List String} {bytesOf : String → Bytes}
    {w : World Disk} (hw : w.streams.NeverFails)
    (h : ∀ typed ∈ operands, w.held.content (w.session.resolve typed) = .ok (bytesOf typed)) :
    ∃ pieces, (showEach (Disk.files host format) operands).perform w = (.ok (), w.printed pieces) ∧
      pieces.flatten = operands.flatMap fun typed => shownBytes (bytesOf typed) := by
  induction operands generalizing w with
  | nil => exact ⟨[], by simp [showEach, World.printed], rfl⟩
  | cons typed rest ih =>
    let lines := (textLines (Utf8.decodeLossy (bytesOf typed))).map fun line =>
      Utf8.ofString (String.ofList line ++ "\n")
    obtain ⟨pieces, hperform, hpieces⟩ := ih (w := w.printed lines) hw fun other hother =>
      h other (List.mem_cons_of_mem typed hother)
    refine ⟨lines ++ pieces, ?_, ?_⟩
    · rw [perform_showEach_of_content (h typed List.mem_cons_self), perform_bind,
        perform_printEach_of_neverFails _ _ hw]
      rw [World.printed_printed] at hperform
      exact hperform
    · rw [List.flatten_append, hpieces, List.flatMap_cons, ← flatMap_ofString_textLines,
        ← List.flatMap_def]

namespace Disk

variable {d : Disk}

/-- Opening a file and writing to it is writing it. -/
theorem writeFile_of_write {p : Path} {bytes : Bytes} {mode : WriteMode} {written : Disk}
    (h : d.write p bytes mode host = (.ok (), written)) :
    d.writeFile p bytes mode host = (.ok (), written) := by
  rw [write] at h
  rw [writeFile]
  rcases hopen : d.openFile p with refusal | ⟨location, opened⟩ <;> rw [hopen] at h
  · cases h
  · rcases hwrite : opened.writeAt location bytes mode host with ⟨refusal | _, after⟩ <;>
      simp only [finishing, hwrite] at h
    · cases h
    · simpa [hwrite] using h

/-- A file that is not a device holds what was written to it. -/
theorem content_of_write {p : Path} {bytes : Bytes} {written : Disk}
    (hdevice : ∀ kind, d.lookAt p ≠ .ok (.device kind))
    (h : d.write p bytes .truncate host = (.ok (), written)) : written.content p = .ok bytes := by
  rw [content, lookAt_writeFile hdevice (writeFile_of_write h)]
  rfl

/-- A redirection under which nothing is reported has written its target. -/
theorem write_of_deliver {redirection : Redirection} {output : Bytes} {w : World Disk}
    (h : ((deliver (files host format) redirection output).perform w).2.streams.log =
      w.streams.log) :
    w.held.write (w.session.resolve redirection.target) output redirection.mode host =
      (.ok (), ((deliver (files host format) redirection output).perform w).2.held) := by
  have hanswer : (files host format).answer (.write (w.session.resolve redirection.target) output
      redirection.mode) w.held =
        w.held.write (w.session.resolve redirection.target) output redirection.mode host := rfl
  have hbroken : (w.held.write (w.session.resolve redirection.target) output
      redirection.mode host).1 ≠ .error .broken :=
    w.held.answer_ne_broken
      (.write (w.session.resolve redirection.target) output redirection.mode) host format
  simp only [deliver, perform_bind, perform_resolve, perform_tryRequest, hanswer] at h ⊢
  generalize w.held.write (w.session.resolve redirection.target) output redirection.mode host =
    delivered at h hbroken ⊢
  rcases delivered with ⟨(fault | _) | _, written⟩
  · -- The report is logged.
    simp [catchFault, report, Streams.write] at h
  · exact absurd rfl hbroken
  · rfl

end Disk

/-- The counts of a file to which other files were shown without a report are the sums of the counts
that these files had before, unless the file is a device. It may be one of the others. There is at
least one of them, as without operands the command fails and the file holds what it says then. -/
theorem dispatch_cat_keeps_counts {w : World Disk} {operands : List String} {target : String}
    (hne : operands ≠ [])
    (hread : ∀ typed ∈ operands, ∃ stored, w.held.content (w.session.resolve typed) = .ok stored)
    (hdevice : ∀ kind, w.held.lookAt (w.session.resolve target) ≠ .ok (.device kind)) :
    let files := Disk.files host format
    let after := ((dispatch files ⟨"cat", operands, some ⟨target, .truncate⟩⟩).perform w).2
    ∃ tallies,
      (∀ counted, List.Forall₂ (Counts w.session w.held) operands counted ↔ counted = tallies) ∧
      (after.streams.log = w.streams.log →
        ∀ t, Counts after.session after.held target t ↔ t = Tally.total tallies) := by
  intro files after
  choose! bytesOf hbytes using hread
  refine ⟨_, forall₂_counts_iff hbytes, fun hsilent t => ?_⟩
  have hname : Builtin.ofName? "cat" = some .cat := Builtin.ofName?_name .cat
  have hrun : Builtin.cat.run files operands = Builtin.showEach files operands := by
    cases operands with
    | nil => exact absurd rfl hne
    | cons => rfl
  -- The command writes to streams of its own, and what it wrote is delivered.
  obtain ⟨pieces, hshow, hpieces⟩ : ∃ pieces, (Builtin.showEach files operands).perform
      { w with streams := .unlimited } = (.ok (), _) ∧ _ :=
    Builtin.perform_showEach_of_contents Streams.neverFails_unlimited hbytes
  have hdispatch : (dispatch files ⟨"cat", operands, some ⟨target, .truncate⟩⟩).perform w =
      (deliver files ⟨target, .truncate⟩ pieces.flatten).perform w := by
    rw [perform_dispatch_redirected files operands _ hname]
    simp only [invoke, hrun, hshow, allBytes_printed]
    rfl
  simp only [after] at hsilent ⊢
  rw [hdispatch] at hsilent ⊢
  obtain ⟨-, hsession, -⟩ := perform_deliver files ⟨target, .truncate⟩ pieces.flatten w
  have hwrite := Disk.write_of_deliver hsilent
  have hstored := Disk.content_of_write hdevice hwrite
  rw [hsession, counts_iff hstored, hpieces, decodeLossy_flatMap_shownBytes,
    Tally.ofText_flatMap_shownText, List.map_map]
  rfl

/-- A file without a line feed that is shown twice to itself has two lines afterwards. -/
theorem dispatch_cat_keeps_counts_oneFile :
    let w := World.oneFile
    let after := ((dispatch Disk.files ⟨"cat", ["x", "x"], some ⟨"x", .truncate⟩⟩).perform w).2
    (∀ typed ∈ ["x", "x"], ∃ stored, w.held.content (w.session.resolve typed) = .ok stored) ∧
      (∀ kind, w.held.lookAt (w.session.resolve "x") ≠ .ok (.device kind)) ∧
      after.streams.log = w.streams.log ∧ Counts w.session w.held "x" ⟨1, 1, 2⟩ ∧
      Counts after.session after.held "x" ⟨2, 2, 4⟩ := by
  intro w after
  have hstored : w.held.content (w.session.resolve "x") = .ok (Utf8.ofString "hi") := by
    decide +kernel
  have hread : ∀ typed ∈ ["x", "x"],
      ∃ stored, w.held.content (w.session.resolve typed) = .ok stored := by
    simp [hstored]
  have hfile : w.held.lookAt (w.session.resolve "x") = .ok (.file (Utf8.ofString "hi")) := by
    decide +kernel
  have hdevice : ∀ kind, w.held.lookAt (w.session.resolve "x") ≠ .ok (.device kind) := by
    simp [hfile]
  have hsilent : after.streams.log = w.streams.log := by decide +kernel
  have hcounts : Counts w.session w.held "x" ⟨1, 1, 2⟩ := by
    rw [counts_iff hstored]
    decide +kernel
  obtain ⟨tallies, htallies, htotal⟩ :=
    dispatch_cat_keeps_counts (List.cons_ne_nil "x" ["x"]) hread hdevice
  obtain rfl := (htallies _).1 (.cons hcounts (.cons hcounts .nil))
  simp only [after] at hsilent ⊢
  exact ⟨hread, hdevice, hsilent, hcounts, (htotal hsilent ⟨2, 2, 4⟩).2 (by decide)⟩

/-- What is shown to a device without content does not count there. -/
theorem counts_of_device_oneFile :
    let w := World.oneFile
    let after := ((dispatch Disk.files ⟨"cat", ["x"], some ⟨"/dev/null", .truncate⟩⟩).perform w).2
    after.streams.log = w.streams.log ∧ Counts w.session w.held "x" ⟨1, 1, 2⟩ ∧
      Counts after.session after.held "/dev/null" .zero ∧
      ¬Counts after.session after.held "/dev/null" (Tally.total [⟨1, 1, 2⟩]) := by
  intro w after
  have hbefore : w.held.content (w.session.resolve "x") = .ok (Utf8.ofString "hi") := by
    decide +kernel
  have hafter : after.held.content (after.session.resolve "/dev/null") = .ok [] := by
    decide +kernel
  rw [counts_iff hbefore, counts_iff hafter, counts_iff hafter]
  decide +kernel

end CommandShell
