import CommandShell.Proofs.PromptLoop

/-!
# Line ends

A line of input may end in a line feed or in a carriage return and a line feed, and the last line in
nothing at all. The shell does the same in either case: a carriage return at the end of a line is a
blank there, whatever bytes stand before it, and never gets into a command.

## Main definitions

* `withCarriageReturns`: an input with a carriage return before every line feed.

## Main results

* `cutBehindLineFeeds_withCarriageReturns`: the input is cut at the same places;
* `runLoop_congr`: the loop depends on what its lines do alone;
* `perform_runShell_lineEnds`: the shell does the same whatever its lines end in.
-/

namespace CommandShell

open ShellM

/-- The byte that may come before a line feed. -/
def carriageReturn : UInt8 := 13

/-- An input with a carriage return before every line feed. -/
def withCarriageReturns (input : Bytes) : Bytes :=
  input.flatMap fun b => if b = lineFeed then [carriageReturn, lineFeed] else [b]

/-! ## The lines -/

/-- A piece of an input with a carriage return before the line feed at its end. -/
def returnPiece (piece : Bytes) : Bytes := piece.dropLast ++ [carriageReturn, lineFeed]

/-- An input with carriage returns is cut at the same places, and what follows the last line feed
stays as it is. -/
theorem cutBehindLineFeeds_withCarriageReturns (input : Bytes) :
    cutBehindLineFeeds (withCarriageReturns input) =
      ((cutBehindLineFeeds input).1.map returnPiece, (cutBehindLineFeeds input).2) := by
  -- The induction is on the input, as that of the cutting is.
  induction input with
  | nil => rfl
  | cons b input ih =>
    have hpieces := (cutBehindLineFeeds_spec input).2.1
    rcases hcut : cutBehindLineFeeds input with ⟨pieces, rest⟩
    rw [hcut] at ih hpieces
    have hreturn : carriageReturn ≠ lineFeed := by decide
    by_cases hb : b = lineFeed
    · have hcons : withCarriageReturns (b :: input) =
          carriageReturn :: lineFeed :: withCarriageReturns input := by
        simp [withCarriageReturns, hb]
      rw [hcons]
      simp [cutBehindLineFeeds, ih, hcut, hb, hreturn, returnPiece]
    · have hcons : withCarriageReturns (b :: input) = b :: withCarriageReturns input := by
        simp [withCarriageReturns, hb]
      rw [hcons]
      cases pieces with
      | nil => simp [cutBehindLineFeeds, ih, hcut, hb]
      | cons first pieces =>
        -- A piece is not empty, so its first byte is not the one that is put before its end.
        obtain ⟨line, rfl, -⟩ := hpieces first (by simp)
        have hdrop : (b :: (line ++ [lineFeed])).dropLast = b :: line := by
          rw [← List.cons_append, List.dropLast_concat]
        simp [cutBehindLineFeeds, ih, hcut, hb, returnPiece, hdrop]

section Lines

variable {σ : Type} (files : FileSystem σ)

/-- A line does the same with a carriage return before its line feed and without. -/
theorem runLine_returnPiece (line : Bytes) :
    runLine files (Utf8.decodeLossy (returnPiece (line ++ [lineFeed]))) =
      runLine files (Utf8.decodeLossy (line ++ [lineFeed])) := by
  have hreturned : Utf8.decodeLossy (line ++ [carriageReturn, lineFeed]) =
      Utf8.decodeLossy line ++ ['\r', '\n'] :=
    Utf8.decodeLossy_append_ascii (by decide) line [lineFeed]
  have hended : Utf8.decodeLossy (line ++ [lineFeed]) = Utf8.decodeLossy line ++ ['\n'] :=
    Utf8.decodeLossy_append_lineFeed line
  rw [returnPiece, List.dropLast_concat, hreturned, hended]
  refine runLine_congr files ?_
  rw [trimAscii_append_blanks _ (by simp [isAsciiBlank]),
    trimAscii_append_blanks _ (by simp [isAsciiBlank])]

/-- The lines of an input with carriage returns do what those of the input do, one by one. -/
theorem map_runLine_linesRead (input : Bytes) (breaksOff : Bool) :
    (linesRead (withCarriageReturns input) breaksOff).map (runLine files) =
      (linesRead input breaksOff).map (runLine files) := by
  have hpieces := (cutBehindLineFeeds_spec input).2.1
  rw [linesRead, linesRead, cutBehindLineFeeds_withCarriageReturns]
  rcases hcut : cutBehindLineFeeds input with ⟨pieces, rest⟩
  rw [hcut] at hpieces
  simp only [List.map_append, List.map_map, List.append_cancel_right_eq]
  refine List.map_congr_left fun piece hpiece => ?_
  obtain ⟨line, rfl, -⟩ := hpieces piece hpiece
  exact runLine_returnPiece files line

/-- The lines of the loop do what the lines of its input do. -/
theorem map_runLine_lines (input : Bytes) (breaksOff : Bool) :
    (InputLines.ofBytes input breaksOff).lines.map (fun line => runLine files (lineText line)) =
      (linesRead input breaksOff).map (runLine files) := by
  rw [← List.forall₂_eq_eq_eq, List.forall₂_map_left_iff, List.forall₂_map_right_iff]
  exact runLine_lines files input breaksOff

/-! ## The loop -/

/-- The loop depends on what its lines do alone. -/
theorem runLoop_congr (suffix : String) (breaksOff : Bool) {lines others : List Bytes}
    (h : lines.map (fun line => runLine files (lineText line)) =
      others.map fun line => runLine files (lineText line)) :
    runLoop files suffix breaksOff lines = runLoop files suffix breaksOff others := by
  induction lines generalizing others with
  | nil => rw [List.map_eq_nil_iff.1 h.symm]
  | cons line lines ih =>
    cases others with
    | nil => cases h
    | cons other others =>
      obtain ⟨hline, hlines⟩ := List.cons.inj h
      simp only at hline
      rw [runLoop, runLoop, hline, ih hlines]

/-- The shell does on an input with carriage returns what it does on the input. -/
theorem runShell_withCarriageReturns (prompting : Prompting) (input : Bytes) (breaksOff : Bool) :
    runShell files prompting (.ofBytes (withCarriageReturns input) breaksOff) =
      runShell files prompting (.ofBytes input breaksOff) := by
  have hlines := map_runLine_linesRead files input breaksOff
  rw [← map_runLine_lines, ← map_runLine_lines] at hlines
  rw [runShell, runShell, breaksOff_ofBytes, breaksOff_ofBytes, runLoop_congr files _ _ hlines]

end Lines

/-- Something follows the last line feed of an input that does not end in one. -/
theorem rest_ne_nil {input : Bytes} (hsome : input ≠ []) (hlast : input.getLast? ≠ some lineFeed) :
    (cutBehindLineFeeds input).2 ≠ [] := by
  obtain ⟨hflat, hpieces, -⟩ := cutBehindLineFeeds_spec input
  intro hnil
  rw [hnil, List.append_nil] at hflat
  -- Otherwise the input is its pieces, and the last of them ends in a line feed.
  rcases List.eq_nil_or_concat (cutBehindLineFeeds input).1 with hnone | ⟨front, piece, hfront⟩
  · exact hsome (by rw [← hflat, hnone, List.flatten_nil])
  · rw [List.concat_eq_append] at hfront
    obtain ⟨line, rfl, -⟩ := hpieces piece (by simp [hfront])
    refine hlast ?_
    rw [← hflat, hfront]
    simp

/-- A line feed behind the last line of an input gives no other lines. -/
theorem ofBytes_append_lineFeed {input : Bytes} (hsome : input ≠ [])
    (hlast : input.getLast? ≠ some lineFeed) :
    InputLines.ofBytes (input ++ [lineFeed]) false = InputLines.ofBytes input false := by
  have hrest := rest_ne_nil hsome hlast
  have hsplit := splitOn_lineFeed input
  have hmore : (input ++ [lineFeed]).splitOn lineFeed = input.splitOn lineFeed ++ [[]] := by
    rw [List.splitOn_append_cons_self, List.splitOn_nil]
  cases hcut : (cutBehindLineFeeds input).2 with
  | nil => exact absurd hcut hrest
  | cons b rest => simp [InputLines.ofBytes, hmore, hsplit, hcut]

/-- The shell does the same on an input whatever its lines end in: with a carriage return before
every line feed, and with a line feed behind a last line that has none, an input leaves the same
session, the same output on both channels and the same files, and it ends the same way. -/
theorem perform_runShell_lineEnds {σ : Type} (files : FileSystem σ) (prompting : Prompting)
    (input : Bytes) (w : World σ) :
    (runShell files prompting (.ofBytes (withCarriageReturns input) false)).perform w =
        (runShell files prompting (.ofBytes input false)).perform w ∧
      (input ≠ [] → input.getLast? ≠ some lineFeed →
        (runShell files prompting (.ofBytes (input ++ [lineFeed]) false)).perform w =
          (runShell files prompting (.ofBytes input false)).perform w) := by
  refine ⟨by rw [runShell_withCarriageReturns], fun hsome hlast => ?_⟩
  rw [ofBytes_append_lineFeed hsome hlast]

/-- Lines that end in ill-formed bytes, in a carriage return of their own, and in nothing. -/
theorem perform_runShell_lineEnds_illFormed :
    let input : Bytes := Utf8.ofString "touch " ++ [0xE2, 0x82, lineFeed] ++
      Utf8.ofString "mkdir d\r\nls > d/f"
    let w : World Disk := ⟨Session.start .root .root, .unlimited, .empty⟩
    let prompting : Prompting := ⟨" >> ", "Shell"⟩
    (input ≠ [] ∧ input.getLast? ≠ some lineFeed) ∧
      (runShell Disk.files prompting (.ofBytes (withCarriageReturns input) false)).perform w =
          (runShell Disk.files prompting (.ofBytes input false)).perform w ∧
        (runShell Disk.files prompting (.ofBytes (input ++ [lineFeed]) false)).perform w =
          (runShell Disk.files prompting (.ofBytes input false)).perform w := by
  intro input w prompting
  have hsome : input ≠ [] := by decide
  have hlast : input.getLast? ≠ some lineFeed := by decide
  obtain ⟨hreturns, hended⟩ := perform_runShell_lineEnds Disk.files prompting input w
  exact ⟨⟨hsome, hlast⟩, hreturns, hended hsome hlast⟩

end CommandShell
