import CommandShell.Proofs.Actions
import CommandShell.Proofs.Utf8
import CommandShell.Shell.Loop
import Mathlib.Data.List.Forall2
import Mathlib.Data.List.TakeWhile

/-!
# The prompt loop as a fold

The loop runs the lines of its input one after the other, up to the first one after which the shell
is asked to end. Each line is run as if it were alone: on streams of its own, from the session and
the disk that the lines before it have left.

## Main definitions

* `cutBehindLineFeeds`: an input, cut behind each line feed;
* `linesRead`: the texts of the lines of an input;
* `lineAlone`, `afterLines`: what one line does on its own, and what lines do one after the other;
* `promptedOutput`, `errorOutput`: what the loop shows of some lines.

## Main results

* `runLine_lineText`: the blanks at the end of a line play no part in what it does;
* `perform_runLine`: a line does the same alone and behind others;
* `perform_runShell`: the loop is the fold of its lines.
-/

namespace CommandShell

open ShellM

/-! ## The end of a line -/

/-- A text is what is left when its end is cut, and the end. -/
theorem dropEndWhile_append (cut : Char → Bool) (text : List Char) :
    dropEndWhile cut text ++ (text.reverse.takeWhile cut).reverse = text := by
  rw [dropEndWhile, ← List.reverse_append, List.takeWhile_append_dropWhile, List.reverse_reverse]

/-- Blanks at the end of a text are cut off with its own. -/
theorem trimAscii_append_blanks (text : List Char) {blanks : List Char}
    (h : ∀ c ∈ blanks, isAsciiBlank c = true) : trimAscii (text ++ blanks) = trimAscii text := by
  -- A text of nothing but blanks is trimmed away whole, with those behind it.
  rw [trimAscii, trimAscii, List.dropWhile_append]
  split
  · next hblank =>
    have htext : text.dropWhile isAsciiBlank = [] := by simpa using hblank
    rw [htext, List.dropWhile_eq_nil_iff.2 h]
  · rw [dropEndWhile, List.reverse_append, List.dropWhile_append_of_pos (by simpa using h),
      dropEndWhile]

/-- Cutting blanks off the end of a text first changes nothing. -/
theorem trimAscii_dropEndWhile {cut : Char → Bool}
    (hcut : ∀ c, cut c = true → isAsciiBlank c = true) (text : List Char) :
    trimAscii (dropEndWhile cut text) = trimAscii text := by
  have hend : ∀ c ∈ (text.reverse.takeWhile cut).reverse, isAsciiBlank c = true := by
    intro c hc
    exact hcut c (List.mem_takeWhile_imp (List.mem_reverse.1 hc))
  rw [← trimAscii_append_blanks (dropEndWhile cut text) hend, dropEndWhile_append]

section Lines

variable {σ : Type} (files : FileSystem σ)

/-- What a line does depends on the trimmed line alone. -/
theorem runLine_congr {first second : List Char} (h : trimAscii first = trimAscii second) :
    runLine files first = runLine files second := by
  have hparse : CommandLine.parseChars first = CommandLine.parseChars second := by
    simp only [CommandLine.parseChars, h]
  rw [runLine, runLine, hparse]

/-- Cutting line feeds and carriage returns off the end of a line changes nothing. -/
theorem runLine_lineText (line : Bytes) :
    runLine files (lineText line) = runLine files (Utf8.decodeLossy line) := by
  refine runLine_congr files (trimAscii_dropEndWhile (fun c hc => ?_) _)
  rcases Bool.or_eq_true _ _ ▸ hc with hc | hc <;> simp [isAsciiBlank, beq_iff_eq.1 hc]

/-- A line does the same with its line feed and without. -/
theorem runLine_lineText_of_lineFeed (line : Bytes) :
    runLine files (lineText line) = runLine files (Utf8.decodeLossy (line ++ [lineFeed])) := by
  rw [runLine_lineText, lineFeed, Utf8.decodeLossy_append_lineFeed]
  exact (runLine_congr files (trimAscii_append_blanks _ (by simp [isAsciiBlank]))).symm

end Lines

/-! ## Cutting the input -/

/-- The pieces of an input cut behind each line feed, and what follows the last line feed. -/
def cutBehindLineFeeds : Bytes → List Bytes × Bytes
  | [] => ([], [])
  | b :: bytes =>
    let (pieces, rest) := cutBehindLineFeeds bytes
    if b = lineFeed then ([b] :: pieces, rest)
    else
      match pieces with
      | [] => ([], b :: rest)
      | piece :: pieces => ((b :: piece) :: pieces, rest)

/-- The pieces are the input, each ends with its only line feed, and none is in the rest. -/
theorem cutBehindLineFeeds_spec (bytes : Bytes) :
    (cutBehindLineFeeds bytes).1.flatten ++ (cutBehindLineFeeds bytes).2 = bytes ∧
      (∀ piece ∈ (cutBehindLineFeeds bytes).1,
        ∃ line, piece = line ++ [lineFeed] ∧ lineFeed ∉ line) ∧
      lineFeed ∉ (cutBehindLineFeeds bytes).2 := by
  -- The induction is on the input, whose first byte belongs to the first piece or to the rest.
  induction bytes with
  | nil => simp [cutBehindLineFeeds]
  | cons b bytes ih =>
    obtain ⟨hflat, hpieces, hrest⟩ := ih
    rcases hcut : cutBehindLineFeeds bytes with ⟨pieces, rest⟩
    rw [hcut] at hflat hpieces hrest
    by_cases hb : b = lineFeed
    · simp only [cutBehindLineFeeds, hcut, hb, if_true]
      refine ⟨by simp [← hflat], ?_, hrest⟩
      intro piece hpiece
      rcases List.mem_cons.1 hpiece with rfl | hpiece
      · exact ⟨[], rfl, by simp⟩
      · exact hpieces piece hpiece
    · have hb' : lineFeed ≠ b := fun e => hb e.symm
      cases pieces with
      | nil =>
        simp only [cutBehindLineFeeds, hcut, hb, if_false]
        exact ⟨by simp [← hflat], by simp, by simp [hb', hrest]⟩
      | cons first pieces =>
        simp only [cutBehindLineFeeds, hcut, hb, if_false]
        refine ⟨by simp [← hflat], ?_, hrest⟩
        intro piece hpiece
        rcases List.mem_cons.1 hpiece with rfl | hpiece
        · obtain ⟨line, rfl, hline⟩ := hpieces first (by simp)
          exact ⟨b :: line, rfl, by simp [hb', hline]⟩
        · exact hpieces piece (by simp [hpiece])

/-- Splitting at line feeds leaves the pieces without them, and then the rest. -/
theorem splitOn_lineFeed (bytes : Bytes) :
    bytes.splitOn lineFeed =
      (cutBehindLineFeeds bytes).1.map List.dropLast ++ [(cutBehindLineFeeds bytes).2] := by
  induction bytes with
  | nil => rfl
  | cons b bytes ih =>
    have hspec := (cutBehindLineFeeds_spec bytes).2.1
    rcases hcut : cutBehindLineFeeds bytes with ⟨pieces, rest⟩
    rw [hcut] at ih hspec
    rw [List.splitOn_cons_eq_if_modifyHead, ih]
    -- A line feed is a piece of its own; another byte goes in front of whatever comes first.
    by_cases hb : b = lineFeed
    · simp [cutBehindLineFeeds, hcut, hb]
    · cases pieces with
      | nil => simp [cutBehindLineFeeds, hcut, hb]
      | cons first pieces =>
        obtain ⟨line, rfl, -⟩ := hspec first (by simp)
        have hdrop : (b :: (line ++ [lineFeed])).dropLast = b :: line := by
          rw [← List.cons_append, List.dropLast_concat]
        simp [cutBehindLineFeeds, hcut, hb, hdrop]

/-- The texts of the lines of an input: its pieces, and the rest unless it is empty or the input
breaks off behind it. Ill-formed bytes are replaced. -/
def linesRead (bytes : Bytes) (breaksOff : Bool) : List (List Char) :=
  let (pieces, rest) := cutBehindLineFeeds bytes
  (pieces ++ if rest = [] ∨ breaksOff = true then [] else [rest]).map Utf8.decodeLossy

/-- The lines of the loop do what the lines of the input do, one by one. -/
theorem runLine_lines {σ : Type} (files : FileSystem σ) (bytes : Bytes) (breaksOff : Bool) :
    List.Forall₂ (fun line text => runLine files (lineText line) = runLine files text)
      (InputLines.ofBytes bytes breaksOff).lines (linesRead bytes breaksOff) := by
  have hspec := (cutBehindLineFeeds_spec bytes).2.1
  rcases hcut : cutBehindLineFeeds bytes with ⟨pieces, rest⟩
  rw [hcut] at hspec
  have hpieces : List.Forall₂ (fun line text => runLine files (lineText line) = runLine files text)
      (pieces.map List.dropLast) (pieces.map Utf8.decodeLossy) := by
    -- Both lists come from the same pieces, so the pieces are compared one by one.
    rw [List.forall₂_map_left_iff, List.forall₂_map_right_iff, List.forall₂_same]
    intro piece hpiece
    obtain ⟨line, rfl, -⟩ := hspec piece hpiece
    rw [List.dropLast_concat]
    exact runLine_lineText_of_lineFeed files line
  -- The rest is a line only if it is not empty and the input does not break off.
  have hlines : (InputLines.ofBytes bytes breaksOff).lines =
      pieces.map List.dropLast ++ if rest = [] ∨ breaksOff = true then [] else [rest] := by
    rw [InputLines.ofBytes, splitOn_lineFeed, hcut]
    cases rest <;> cases breaksOff <;> simp
  simp only [hlines, linesRead, hcut, List.map_append]
  refine List.rel_append hpieces ?_
  split
  · exact .nil
  · exact .cons (runLine_lineText files rest) .nil

/-- The loop breaks off where the input does. -/
theorem breaksOff_ofBytes (bytes : Bytes) (breaksOff : Bool) :
    (InputLines.ofBytes bytes breaksOff).breaksOff = breaksOff := by
  rw [InputLines.ofBytes]
  split <;> rfl

/-! ## One line -/

section Loop

variable {σ : Type} (files : FileSystem σ)

/-- What a line does on its own, on streams that take everything and have logged nothing. -/
def lineAlone (before : Session × σ) (text : List Char) : World σ :=
  ((runLine files text).perform ⟨before.1, .unlimited, before.2⟩).2

/-- The session and the disk after a line. -/
def afterLine (before : Session × σ) (text : List Char) : Session × σ :=
  ((lineAlone files before text).session, (lineAlone files before text).held)

/-- On streams that never fail a line does what it does on its own, behind what was logged before,
and it does not stop the loop. -/
theorem perform_runLine
    (hfiles : ∀ {α : Type} (r : Request α) held, (files.answer r held).1 ≠ .error .broken)
    (text : List Char) (before : Session × σ) (log : List (Channel × Bytes)) :
    (runLine files text).perform ⟨before.1, ⟨log, fun _ => none⟩, before.2⟩ =
      (.ok (), ⟨(afterLine files before text).1,
        ⟨log ++ (lineAlone files before text).streams.log, fun _ => none⟩,
        (afterLine files before text).2⟩) := by
  have hbefore : (⟨before.1, ⟨log, fun _ => none⟩, before.2⟩ : World σ) =
      World.behind log ⟨before.1, .unlimited, before.2⟩ :=
    World.eq_behind fun _ => rfl
  have hnever : (lineAlone files before text).streams.NeverFails :=
    neverFails_runLine files text Streams.neverFails_unlimited
  have hok := runLine_ok files text hfiles ⟨before.1, .unlimited, before.2⟩
  -- The log before is put in front of what the line does on its own.
  rw [hbefore, runLine_behind, hok]
  show (_, World.behind log (lineAlone files before text)) = _
  rw [World.behind, hnever.eq_mk]
  rfl

/-! ## Some lines -/

/-- The session and the disk after some lines, one after the other. -/
def afterLines (start : Session × σ) (texts : List (List Char)) : Session × σ :=
  texts.foldl (afterLine files) start

/-- What some lines show on the output channel, each behind the prompt of the session before it. -/
def promptedOutput (suffix : String) (start : Session × σ) : List (List Char) → Bytes
  | [] => []
  | text :: texts =>
    Utf8.ofString (promptText suffix start.1) ++
      (lineAlone files start text).streams.bytesOn .out ++
      promptedOutput suffix (afterLine files start text) texts

/-- What some lines show on the error channel. -/
def errorOutput (start : Session × σ) : List (List Char) → Bytes
  | [] => []
  | text :: texts =>
    (lineAlone files start text).streams.bytesOn .err ++
      errorOutput (afterLine files start text) texts

/-- The lines that are run: the first one after which the shell is asked to end is the last. -/
structure Executed (start : Session × σ) (texts executed : List (List Char)) : Prop where
  /-- They are the first lines of all. -/
  isPrefix : executed <+: texts
  /-- Before each of them the shell was not asked to end. -/
  running : ∀ n < executed.length,
    (afterLines files start (executed.take n)).1.exitRequested = false
  /-- Nothing follows, or the shell is asked to end. -/
  ended : executed = texts ∨ (afterLines files start executed).1.exitRequested = true

/-- The lines that are run when there are none. -/
theorem executed_nil (start : Session × σ) : Executed files start [] [] :=
  ⟨List.prefix_rfl, by simp, .inl rfl⟩

/-- A line after which the shell is asked to end is the last one that is run. -/
theorem executed_singleton {start : Session × σ} (hstart : start.1.exitRequested = false)
    {text : List Char} (h : (afterLine files start text).1.exitRequested = true)
    (texts : List (List Char)) : Executed files start (text :: texts) [text] where
  isPrefix := ⟨texts, rfl⟩
  running := by
    intro n hn
    obtain rfl : n = 0 := by simpa using hn
    exact hstart
  ended := .inr h

/-- A line is run before those that are run behind it. -/
theorem Executed.cons {start : Session × σ} (hstart : start.1.exitRequested = false)
    {text : List Char} {texts executed : List (List Char)}
    (h : Executed files (afterLine files start text) texts executed) :
    Executed files start (text :: texts) (text :: executed) where
  isPrefix := List.cons_prefix_cons.2 ⟨rfl, h.isPrefix⟩
  running := by
    intro n hn
    cases n with
    | zero => exact hstart
    | succ n => exact h.running n (by simpa using hn)
  ended := h.ended.imp (congrArg _) id

/-! ## The loop -/

/-- The last prompt, which is shown unless the shell was asked to end. -/
def lastPrompt (suffix : String) (session : Session) : Bytes :=
  if session.exitRequested then [] else Utf8.ofString (promptText suffix session)

/-- How the loop ends: with a fault when its input breaks off before the shell is asked to end. -/
def loopOutcome (breaksOff : Bool) (session : Session) : Except Stop Unit :=
  if breaksOff = true ∧ session.exitRequested = false then
    .error (.failed (.stream .readFailed))
  else .ok ()

/-- Showing the prompt on streams that never fail. -/
theorem perform_showPrompt (suffix : String) (start : Session × σ)
    (log : List (Channel × Bytes)) :
    (showPrompt suffix).perform (⟨start.1, ⟨log, fun _ => none⟩, start.2⟩ : World σ) =
      (.ok (), ⟨start.1,
        ⟨log ++ [(.out, Utf8.ofString (promptText suffix start.1))], fun _ => none⟩,
        start.2⟩) := by
  have hnever : Streams.NeverFails ⟨log, fun _ => none⟩ := fun _ => rfl
  simp only [showPrompt, perform_bind, perform_session, perform_write, hnever.write, ofWrite]

/-- The bytes of what was logged before, and of what was logged then. -/
theorem bytesOn_append (before after : List (Channel × Bytes)) (channel : Channel) :
    Streams.bytesOn ⟨before ++ after, fun _ => none⟩ channel =
      Streams.bytesOn ⟨before, fun _ => none⟩ channel ++
        Streams.bytesOn ⟨after, fun _ => none⟩ channel :=
  Streams.bytesOn_behind before ⟨after, fun _ => none⟩ channel

/-- The loop runs its lines one after the other, each behind its prompt. -/
theorem perform_runLoop
    (hfiles : ∀ {α : Type} (r : Request α) held, (files.answer r held).1 ≠ .error .broken)
    (suffix : String) (breaksOff : Bool) {lines : List Bytes}
    {texts : List (List Char)}
    (h : List.Forall₂
      (fun line text => runLine files (lineText line) = runLine files text) lines texts) :
    ∀ (start : Session × σ) (log : List (Channel × Bytes)),
      start.1.exitRequested = false →
      ∃ executed shown, Executed files start texts executed ∧
        (runLoop files suffix breaksOff lines).perform
            ⟨start.1, ⟨log, fun _ => none⟩, start.2⟩ =
          (loopOutcome breaksOff (afterLines files start executed).1,
            ⟨(afterLines files start executed).1, ⟨log ++ shown, fun _ => none⟩,
              (afterLines files start executed).2⟩) ∧
        Streams.bytesOn ⟨shown, fun _ => none⟩ .out =
          promptedOutput files suffix start executed ++
            lastPrompt suffix (afterLines files start executed).1 ∧
        Streams.bytesOn ⟨shown, fun _ => none⟩ .err = errorOutput files start executed := by
  -- The induction is on the lines; the session, the disk and the log are those before the line.
  induction h with
  | nil =>
    intro start log hstart
    refine ⟨[], [(.out, Utf8.ofString (promptText suffix start.1))], executed_nil files start, ?_,
      ?_, ?_⟩
    · rw [runLoop, perform_bind, perform_showPrompt]
      cases breaksOff <;> simp [loopOutcome, afterLines, hstart]
    · simp [Streams.bytesOn, promptedOutput, lastPrompt, afterLines, hstart]
    · simp [Streams.bytesOn, errorOutput]
  | @cons line text lines texts hline _ ih =>
    intro start log hstart
    let prompt := Utf8.ofString (promptText suffix start.1)
    let log' := log ++ [(.out, prompt)] ++ (lineAlone files start text).streams.log
    have hstep : (runLoop files suffix breaksOff (line :: lines)).perform
        ⟨start.1, ⟨log, fun _ => none⟩, start.2⟩ =
          if (afterLine files start text).1.exitRequested then
            (.ok (), ⟨(afterLine files start text).1, ⟨log', fun _ => none⟩,
              (afterLine files start text).2⟩)
          else
            (runLoop files suffix breaksOff lines).perform
              ⟨(afterLine files start text).1, ⟨log', fun _ => none⟩,
                (afterLine files start text).2⟩ := by
      rw [runLoop, perform_bind, perform_showPrompt]
      simp only [hline, perform_bind, perform_runLine files hfiles, perform_session]
      split <;> simp_all [log', prompt]
    have hroom : (lineAlone files start text).streams =
        ⟨(lineAlone files start text).streams.log, fun _ => none⟩ :=
      (neverFails_runLine files text Streams.neverFails_unlimited).eq_mk
    rw [hstep]
    -- After a line that asks to end nothing is read any more, and no prompt is shown.
    by_cases hexit : (afterLine files start text).1.exitRequested = true
    · refine ⟨[text], [(.out, prompt)] ++ (lineAlone files start text).streams.log,
        executed_singleton files hstart hexit texts, ?_, ?_, ?_⟩
      · simp [hexit, afterLines, loopOutcome, log']
      · rw [bytesOn_append, ← hroom]
        simp [Streams.bytesOn, promptedOutput, lastPrompt, afterLines, hexit, prompt]
      · rw [bytesOn_append, ← hroom]
        simp [Streams.bytesOn, errorOutput]
    · obtain ⟨executed, shown, hexecuted, hperform, hout, herr⟩ :=
        ih (afterLine files start text) log' (by simpa using hexit)
      refine ⟨text :: executed,
        [(.out, prompt)] ++ (lineAlone files start text).streams.log ++ shown,
        hexecuted.cons files hstart, ?_, ?_, ?_⟩
      · rw [if_neg hexit, hperform]
        simp [afterLines, log']
      · rw [bytesOn_append, bytesOn_append, ← hroom, hout]
        simp [Streams.bytesOn, promptedOutput, afterLines, prompt]
      · rw [bytesOn_append, bytesOn_append, ← hroom, herr]
        simp [Streams.bytesOn, errorOutput]

end Loop

/-- The line with the banner, unless that is empty. -/
def bannerLine (banner : String) : Bytes :=
  if banner = "" then [] else Utf8.ofString (banner ++ "\n")

/-- Running the shell on an input is running its lines one after the other, up to the first one
after which the shell is asked to end. The session and the disk are those that these lines leave.
The error channel gets what each of them shows there, and the output channel gets the banner, then
for each line its prompt and what it shows, and then a last prompt unless the shell was asked to
end. The run fails only when the input breaks off before. -/
theorem perform_runShell (host : Host) (format : Archive.Format) (prompting : Prompting)
    (bytes : Bytes) (breaksOff : Bool) (directory home : Path) (d : Disk)
    (log : List (Channel × Bytes)) :
    let files := Disk.files host format
    let start := (Session.start directory home, d)
    ∃ executed shown, Executed files start (linesRead bytes breaksOff) executed ∧
      (runShell files prompting (.ofBytes bytes breaksOff)).perform
          ⟨Session.start directory home, ⟨log, fun _ => none⟩, d⟩ =
        (loopOutcome breaksOff (afterLines files start executed).1,
          ⟨(afterLines files start executed).1, ⟨log ++ shown, fun _ => none⟩,
            (afterLines files start executed).2⟩) ∧
      Streams.bytesOn ⟨shown, fun _ => none⟩ .out =
        bannerLine prompting.banner ++ promptedOutput files prompting.suffix start executed ++
          lastPrompt prompting.suffix (afterLines files start executed).1 ∧
      Streams.bytesOn ⟨shown, fun _ => none⟩ .err = errorOutput files start executed := by
  intro files start
  have hloop := perform_runLoop files (fun r d => d.answer_ne_broken r host format)
    prompting.suffix breaksOff (runLine_lines files bytes breaksOff) start
  by_cases hbanner : prompting.banner = ""
  · obtain ⟨executed, shown, hexecuted, hperform, hout, herr⟩ := hloop log rfl
    refine ⟨executed, shown, hexecuted, ?_, ?_, herr⟩
    · rw [← hperform]
      simp [runShell, hbanner, breaksOff_ofBytes, start]
    · simp [hout, bannerLine, hbanner]
  · -- The loop starts on streams that have shown the banner already.
    have hnever : Streams.NeverFails ⟨log, fun _ => none⟩ := fun _ => rfl
    obtain ⟨executed, shown, hexecuted, hperform, hout, herr⟩ :=
      hloop (log ++ [(.out, bannerLine prompting.banner)]) rfl
    refine ⟨executed, [(.out, bannerLine prompting.banner)] ++ shown, hexecuted, ?_, ?_, ?_⟩
    · rw [← List.append_assoc, ← hperform]
      simp [runShell, hbanner, breaksOff_ofBytes, start, printLine, hnever.write, ofWrite,
        bannerLine]
    · rw [bytesOn_append, hout]
      simp [Streams.bytesOn]
    · rw [bytesOn_append, herr]
      simp [Streams.bytesOn]

end CommandShell
