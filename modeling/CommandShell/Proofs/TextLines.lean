import CommandShell.Proofs.Utf8
import CommandShell.Text.Tally
import Mathlib.Data.List.Basic
import Mathlib.Data.List.Infix

/-!
# Lines that are shown

A text that is shown line by line, with a line feed behind each line, loses one carriage return
before each line feed and gains a line feed at its end, if it has none there. Here it is said when
nothing of this happens, and that the counts of a text are the same either way.

## Main definitions

* `shownText`: the lines of a text, with a line feed behind each.
* `Tally.total`: the sum of some counts.

## Main results

* `textLines_append_cons`: a line feed ends a line, whatever follows;
* `shownText_eq_self_iff`: which texts are shown as they are;
* `Tally.ofText_append`: the counts of a text that ends in a line feed and those of a text behind it
  add up;
* `Tally.ofText_flatMap_shownText`: showing texts one after the other adds up their counts.
-/

namespace CommandShell

/-! ## Line by line -/

/-- A text without line feeds is a line, unless it is empty. -/
theorem textLines_of_notMem {line : List Char} (h : '\n' ∉ line) :
    textLines line = if line = [] then [] else [line] := by
  cases line <;> simp [textLines, List.splitOn_eq_singleton h]

/-- A line feed ends the line before it. What follows has lines of its own. -/
theorem textLines_append_cons (text rest : List Char) :
    textLines (text ++ '\n' :: rest) =
      (text.splitOn '\n').map dropCarriageReturn ++ textLines rest := by
  have hne : rest.splitOn '\n' ≠ [] := List.splitOn_ne_nil '\n' rest
  obtain ⟨others, last, hrest⟩ := List.eq_nil_or_concat' (rest.splitOn '\n') |>.resolve_left hne
  simp only [textLines, List.splitOn_append_cons_self, hrest, ← List.append_assoc,
    List.dropLast_concat, List.getLast?_concat, List.map_append]
  cases last <;> simp

/-- The first line of a text and the others. -/
theorem textLines_line {line : List Char} (h : '\n' ∉ line) (rest : List Char) :
    textLines (line ++ '\n' :: rest) = dropCarriageReturn line :: textLines rest := by
  rw [textLines_append_cons, List.splitOn_eq_singleton h, List.map_singleton, List.singleton_append]

/-- What holds of a text without line feeds, and of a text with one more line in front of it, holds
of every text. -/
theorem lines_induction {P : List Char → Prop} (hlast : ∀ line, '\n' ∉ line → P line)
    (hline : ∀ line rest, '\n' ∉ line → P rest → P (line ++ '\n' :: rest)) (text : List Char) :
    P text := by
  induction hlength : text.length using Nat.strongRecOn generalizing text with
  | ind length ih =>
    by_cases hmem : '\n' ∈ text
    · obtain ⟨line, rest, rfl, hnot⟩ := List.eq_append_cons_of_mem hmem
      exact hline line rest hnot (ih rest.length (by simp at hlength; omega) rest rfl)
    · exact hlast text hmem

/-- A line keeps all characters but a carriage return at its end. -/
theorem dropCarriageReturn_eq_self_iff {line : List Char} :
    dropCarriageReturn line = line ↔ line.getLast? ≠ some '\r' := by
  rw [dropCarriageReturn]
  split
  · next hlast =>
    obtain ⟨front, rfl⟩ := List.getLast?_eq_some_iff.1 hlast
    simp
  · next hlast => simpa using hlast

/-- What is kept of a line has no line feed either. -/
theorem lineFeed_notMem_dropCarriageReturn {line : List Char} (h : '\n' ∉ line) :
    '\n' ∉ dropCarriageReturn line := by
  rw [dropCarriageReturn]
  split
  · exact fun hmem => h (List.mem_of_mem_dropLast hmem)
  · exact h

/-! ## Lines with a line feed behind each -/

/-- What is shown of a text: its lines, with a line feed behind each. -/
def shownText (text : List Char) : List Char :=
  (textLines text).flatMap (· ++ ['\n'])

/-- Nothing is shown of the empty text. -/
@[simp]
theorem shownText_nil : shownText [] = [] := rfl

/-- A last line without a line feed gets one. -/
theorem shownText_of_notMem {line : List Char} (h : '\n' ∉ line) (hne : line ≠ []) :
    shownText line = line ++ ['\n'] := by
  simp [shownText, textLines_of_notMem h, hne]

/-- A line is shown without its carriage return. -/
theorem shownText_line {line : List Char} (h : '\n' ∉ line) (rest : List Char) :
    shownText (line ++ '\n' :: rest) = dropCarriageReturn line ++ '\n' :: shownText rest := by
  simp [shownText, textLines_line h]

/-- What is shown ends in a line feed. -/
theorem shownText_ends (text : List Char) :
    shownText text = [] ∨ (shownText text).getLast? = some '\n' := by
  rw [shownText]
  rcases List.eq_nil_or_concat' (textLines text) with hlines | ⟨front, line, hlines⟩
  · simp [hlines]
  · exact .inr (by simp [hlines, ← List.append_assoc])

/-- A carriage return stands before a line feed at the end of the first line, or in the lines behind
it. -/
theorem carriageReturn_infix_line_iff {line : List Char} (h : '\n' ∉ line) (rest : List Char) :
    ['\r', '\n'] <:+: line ++ '\n' :: rest ↔
      line.getLast? = some '\r' ∨ ['\r', '\n'] <:+: rest := by
  induction line with
  | nil => simp [List.infix_cons_iff]
  | cons c line ih =>
    rw [List.mem_cons, not_or] at h
    rw [List.cons_append, List.infix_cons_iff, ih h.2, List.cons_prefix_cons]
    cases line with
    | nil => simp [eq_comm]
    | cons next line =>
      have hnext : '\n' ≠ next := fun he => h.2 (he ▸ List.mem_cons_self)
      simp [hnext]

/-- A text is shown as it is when it is empty or ends in a line feed, and has no carriage return
before a line feed. Any other text is not. -/
theorem shownText_eq_self_iff (text : List Char) :
    shownText text = text ↔
      (text = [] ∨ text.getLast? = some '\n') ∧ ¬['\r', '\n'] <:+: text := by
  induction text using lines_induction with
  | hlast line hline =>
    by_cases hne : line = []
    · simp [hne]
    · -- A line feed is added, and it is the only one.
      have hlast : line.getLast? ≠ some '\n' := fun hlast => hline (List.mem_of_getLast? hlast)
      simp [shownText_of_notMem hline hne, hne, hlast]
  | hline line rest hline ih =>
    have hends : (line ++ '\n' :: rest).getLast? = some '\n' ↔
        rest = [] ∨ rest.getLast? = some '\n' := by
      cases rest <;> simp [List.getLast?_append, List.getLast?_cons]
    rw [shownText_line hline, carriageReturn_infix_line_iff hline, hends]
    by_cases hlast : line.getLast? = some '\r'
    · -- The carriage return is missing from what is shown.
      obtain ⟨front, rfl⟩ := List.getLast?_eq_some_iff.1 hlast
      simp [dropCarriageReturn]
    · rw [dropCarriageReturn_eq_self_iff.2 hlast, List.append_cancel_left_eq, List.cons.injEq, ih]
      simp [hlast]

/-! ## Counts -/

/-- A blank at the end of a line is no part of a word. -/
theorem textWords_append_blank (line : List Char) {c : Char} (h : isBlank c = true) :
    textWords (line ++ [c]) = textWords line := by
  simp [textWords, List.splitOnP_append_cons line [] h]

namespace Tally

/-- Counts may be added in any grouping. -/
instance : Std.Associative add :=
  ⟨fun first second third => by simp [add, Nat.add_assoc]⟩

/-- Nothing is added in front. -/
@[simp]
theorem zero_add (t : Tally) : zero.add t = t := by
  simp [zero, add]

/-- Nothing is added behind. -/
@[simp]
theorem add_zero (t : Tally) : t.add zero = t := by
  simp [zero, add]

/-- The sum of some counts. -/
def total (tallies : List Tally) : Tally :=
  tallies.foldl add zero

/-- The first counts are added to the sum of the others. -/
@[simp]
theorem total_cons (t : Tally) (tallies : List Tally) :
    total (t :: tallies) = t.add (total tallies) := by
  have h : tallies.foldl add (t.add zero) = t.add (total tallies) := List.foldl_assoc
  rw [add_zero] at h
  rw [total, List.foldl_cons, zero_add, h]

/-- Two sums add up to one. -/
theorem total_append (first second : List Tally) :
    total (first ++ second) = (total first).add (total second) := by
  have h : second.foldl add ((total first).add zero) = (total first).add (total second) :=
    List.foldl_assoc
  rwa [add_zero, total, ← List.foldl_append] at h

/-- The carriage return that is cut off a line does not count. -/
theorem ofLine_dropCarriageReturn (line : List Char) :
    ofLine (dropCarriageReturn line) = ofLine line := by
  by_cases hlast : line.getLast? = some '\r'
  · obtain ⟨front, rfl⟩ := List.getLast?_eq_some_iff.1 hlast
    have hwords : textWords (front ++ ['\r']) = textWords front :=
      textWords_append_blank front (by decide)
    simp [dropCarriageReturn, ofLine, hwords]
  · rw [dropCarriageReturn_eq_self_iff.2 hlast]

/-- The counts of the first line are added to those of the others. -/
theorem ofText_line {line : List Char} (h : '\n' ∉ line) (rest : List Char) :
    ofText (line ++ '\n' :: rest) = (ofLine line).add (ofText rest) := by
  rw [ofText, textLines_line h, List.map_cons, ofLine_dropCarriageReturn]
  exact total_cons _ _

/-- The counts of a text that ends in a line feed and those of a text behind it add up. -/
theorem ofText_append {first : List Char} (h : first = [] ∨ first.getLast? = some '\n')
    (second : List Char) : ofText (first ++ second) = (ofText first).add (ofText second) := by
  rcases h with rfl | hlast
  · rw [List.nil_append, ofText_nil, zero_add]
  · obtain ⟨front, rfl⟩ := List.getLast?_eq_some_iff.1 hlast
    rw [List.append_assoc, List.singleton_append, ofText, ofText, ofText, textLines_append_cons,
      textLines_append_cons, textLines_nil, List.append_nil, List.map_append]
    exact total_append _ _

/-- A text has the counts of what is shown of it. -/
theorem ofText_shownText (text : List Char) : ofText (shownText text) = ofText text := by
  induction text using lines_induction with
  | hlast line hline =>
    by_cases hne : line = []
    · rw [hne, shownText_nil]
    · -- A line counts the same with a line feed behind it and without.
      rw [shownText_of_notMem hline hne, ofText_line hline, ofText_nil, add_zero, ofText,
        textLines_of_notMem hline, if_neg hne, List.map_singleton]
      exact (zero_add _).symm
  | hline line rest hline ih =>
    rw [shownText_line hline, ofText_line (lineFeed_notMem_dropCarriageReturn hline),
      ofText_line hline, ofLine_dropCarriageReturn, ih]

/-- Texts that are shown one after the other have the sum of their counts. -/
theorem ofText_flatMap_shownText (texts : List (List Char)) :
    ofText (texts.flatMap shownText) = total (texts.map ofText) := by
  induction texts with
  | nil => rfl
  | cons text texts ih =>
    rw [List.flatMap_cons, ofText_append (shownText_ends text), ofText_shownText, ih,
      List.map_cons, total_cons]

end Tally

end CommandShell
