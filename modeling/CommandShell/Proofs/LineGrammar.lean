import CommandShell.Proofs.LineOffsets
import CommandShell.Proofs.Words

/-!
# The grammar of command lines

What a line means, said without a way to find it out: which text is left between the blanks at its
ends, how the text is divided at a redirection, and what the parts make. Every line has exactly one
reading, and that is what parsing gives.

## Main definitions

* `TrimsTo`: a text between the blanks at its ends.
* `Divides`: the command part of a text, with the raw target and the mode of a redirection.
* `Redirects`: the redirection that a raw target makes, when neither it nor the command is missing.
* `CommandLine.Reads`: what a line is read as.

## Main results

* `existsUnique_divides`: a text is divided in exactly one way;
* `CommandLine.reads_parseChars` and `CommandLine.Reads.eq_parseChars`: parsing gives a reading of
  the line, and there is no other;
* `CommandLine.parse_iff_reads`: both, with every cut at a byte offset made between two characters.
-/

namespace CommandShell

/-! ## Blanks at the ends -/

/-- A text has no characters but ASCII blanks. -/
def AllBlank (text : List Char) : Prop :=
  ∀ c ∈ text, isAsciiBlank c = true

/-- A text is another one with ASCII blanks in front and behind; the other one has none at its
ends. -/
def TrimsTo (text trimmed : List Char) : Prop :=
  ∃ front back, text = front ++ trimmed ++ back ∧ AllBlank front ∧ AllBlank back ∧ Trimmed trimmed

/-- Trimming cuts blanks off both ends. -/
theorem trimsTo_trimAscii (text : List Char) : TrimsTo text (trimAscii text) := by
  refine ⟨text.takeWhile isAsciiBlank,
    ((text.dropWhile isAsciiBlank).reverse.takeWhile isAsciiBlank).reverse, ?_,
    fun c hc => List.mem_takeWhile_imp hc,
    fun c hc => List.mem_takeWhile_imp (List.mem_reverse.1 hc), trimmed_trimAscii text⟩
  rw [trimAscii, dropEndWhile, List.append_assoc, ← List.reverse_append,
    List.takeWhile_append_dropWhile, List.reverse_reverse, List.takeWhile_append_dropWhile]

/-- Blanks in front of a text are trimmed away. -/
theorem trimAscii_append_left {front : List Char} (h : AllBlank front) (text : List Char) :
    trimAscii (front ++ text) = trimAscii text := by
  rw [trimAscii, trimAscii, List.dropWhile_append_of_pos h]

/-- Blanks behind a trimmed text are trimmed away. -/
theorem trimAscii_append_right {text back : List Char} (htext : Trimmed text) (h : AllBlank back) :
    trimAscii (text ++ back) = text := by
  cases text with
  | nil =>
    rw [List.nil_append, trimAscii, List.dropWhile_eq_nil_iff.2 h]
    rfl
  | cons c rest =>
    have hfront : (c :: rest ++ back).dropWhile isAsciiBlank = c :: rest ++ back :=
      List.dropWhile_cons_of_neg (by simp [htext.1 c rfl])
    have hback : ∀ b ∈ back.reverse, isAsciiBlank b = true :=
      fun b hb => h b (List.mem_reverse.1 hb)
    rw [trimAscii, hfront, dropEndWhile, List.reverse_append, List.dropWhile_append_of_pos hback]
    exact dropEndWhile_eq_self htext.2

/-- A text has one part between the blanks at its ends, which is what trimming leaves. -/
theorem trimsTo_iff {text trimmed : List Char} :
    TrimsTo text trimmed ↔ trimAscii text = trimmed := by
  constructor
  · rintro ⟨front, back, rfl, hfront, hback, htrimmed⟩
    rw [List.append_assoc, trimAscii_append_left hfront, trimAscii_append_right htrimmed hback]
  · rintro rfl
    exact trimsTo_trimAscii text

/-- Nothing is left of a text exactly when it is all blank. -/
theorem trimAscii_eq_nil_iff {text : List Char} : trimAscii text = [] ↔ AllBlank text := by
  constructor
  · intro hnil c hc
    by_contra hblank
    exact trimAscii_ne_nil hc (by simpa using hblank) hnil
  · intro hblank
    rw [trimAscii, List.dropWhile_eq_nil_iff.2 hblank]
    rfl

/-! ## The redirection -/

/-- The command part of a text, and the raw target with its mode when there is a redirection. -/
inductive Divides (text : List Char) : List Char → Option (List Char × WriteMode) → Prop
  /-- The last run of two or more `>`, behind which there is no `>>`, begins with the mark; the rest
  of the run belongs to the target. -/
  | append {before after : List Char} {run : Nat}
      (htext : text = before ++ List.replicate run '>' ++ after) (hrun : 2 ≤ run)
      (hbefore : before.getLast? ≠ some '>') (hafter : after.head? ≠ some '>')
      (hmark : ¬appendMark <:+: after) :
      Divides text before (some (List.replicate (run - 2) '>' ++ after, .append))
  /-- Without `>>` the last `>` is the mark. -/
  | truncate {before after : List Char} (hmark : ¬appendMark <:+: text)
      (htext : text = before ++ '>' :: after) (hafter : '>' ∉ after) :
      Divides text before (some (after, .truncate))
  /-- Without `>` there is no redirection. -/
  | whole (hangle : '>' ∉ text) : Divides text text none

/-- A run of two or more `>` begins with a mark. -/
theorem run_append {run : Nat} (h : 2 ≤ run) (after : List Char) :
    List.replicate run '>' ++ after = '>' :: '>' :: (List.replicate (run - 2) '>' ++ after) := by
  obtain ⟨n, rfl⟩ := Nat.exists_eq_add_of_le' h
  rfl

/-- A text is divided at its redirection as it is split off. -/
theorem divides_some_iff {text command raw : List Char} {mode : WriteMode} :
    Divides text command (some (raw, mode)) ↔
      splitRedirection text = some (command, raw, mode) := by
  constructor
  · intro h
    rw [splitRedirection]
    cases h with
    | append htext hrun hbefore hafter hmark =>
      rename_i after run
      have hsplit : splitAppend text = some (command, List.replicate (run - 2) '>' ++ after) := by
        rw [splitAppend_eq_some_iff, ← run_append hrun, dropWhile_run _ hafter]
        exact ⟨by rw [htext, List.append_assoc], hbefore, hmark⟩
      rw [hsplit]
    | truncate hmark htext hafter =>
      rw [splitAppend_eq_none_iff.2 hmark, splitTruncate_eq_some_iff.2 ⟨htext, hafter⟩]
      rfl
  · intro h
    rw [splitRedirection] at h
    cases happend : splitAppend text with
    | some parts =>
      obtain ⟨before, behind⟩ := parts
      obtain ⟨rfl, rfl, rfl⟩ : before = command ∧ behind = raw ∧ .append = mode := by
        simpa [happend] using h
      obtain ⟨htext, hbefore, hmark⟩ := splitAppend_eq_some_iff.1 happend
      -- The raw target takes what the run has beyond the mark.
      obtain ⟨n, after, rfl, hafter⟩ := exists_run behind
      rw [dropWhile_run n hafter] at hmark
      exact .append (by rw [htext, List.append_assoc, run_append (Nat.le_add_left 2 n)]; rfl)
        (Nat.le_add_left 2 n) hbefore hafter hmark
    | none =>
      obtain ⟨before, behind, htruncate, rfl, rfl, rfl⟩ : ∃ before behind,
          splitTruncate text = some (before, behind) ∧ before = command ∧ behind = raw ∧
            .truncate = mode := by
        simpa [happend] using h
      obtain ⟨htext, hafter⟩ := splitTruncate_eq_some_iff.1 htruncate
      exact .truncate (splitAppend_eq_none_iff.1 happend) htext hafter

/-- A text stays whole when no redirection is split off. -/
theorem divides_none_iff {text command : List Char} :
    Divides text command none ↔ command = text ∧ splitRedirection text = none := by
  have hnone : splitRedirection text = none ↔ '>' ∉ text := by
    rw [splitRedirection]
    cases happend : splitAppend text with
    | some parts =>
      obtain ⟨htext, -, -⟩ := splitAppend_eq_some_iff.1 happend
      simp [htext]
    | none => simp [splitTruncate_eq_none_iff]
  constructor
  · rintro ⟨⟩
    exact ⟨rfl, hnone.2 ‹_›⟩
  · rintro ⟨rfl, h⟩
    exact .whole (hnone.1 h)

/-- A text is divided in exactly one way. -/
theorem existsUnique_divides (text : List Char) :
    ∃! parts : List Char × Option (List Char × WriteMode), Divides text parts.1 parts.2 := by
  cases hsplit : splitRedirection text with
  | none =>
    refine ⟨(text, none), divides_none_iff.2 ⟨rfl, hsplit⟩, ?_⟩
    rintro ⟨command, _ | ⟨raw, mode⟩⟩ h
    · exact Prod.ext (divides_none_iff.1 h).1 rfl
    · rw [divides_some_iff, hsplit] at h
      cases h
  | some parts =>
    obtain ⟨before, behind, mode⟩ := parts
    refine ⟨(before, some (behind, mode)), divides_some_iff.2 hsplit, ?_⟩
    rintro ⟨command, _ | ⟨raw, mode⟩⟩ h
    · rw [divides_none_iff, hsplit] at h
      cases h.2
    · rw [divides_some_iff, hsplit] at h
      cases h
      rfl

/-- The redirection that a raw target makes for a command part: none without a target, and otherwise
a file that is not missing, for a command that is not missing. -/
inductive Redirects (command : List Char) :
    Option (List Char × WriteMode) → Option Redirection → Prop
  /-- The output is not redirected. -/
  | none : Redirects command none none
  /-- The output goes to the trimmed target. -/
  | some {raw file : List Char} {mode : WriteMode} (hfile : TrimsTo raw file) (hne : file ≠ [])
      (hcommand : ¬AllBlank command) :
      Redirects command (some (raw, mode)) (some ⟨String.ofList file, mode⟩)

namespace CommandLine

/-! ## Readings -/

/-- What a line is read as. -/
inductive Reads (line : List Char) : Except LineFault (Option CommandLine) → Prop
  /-- A line of blanks is no command line. -/
  | blank (hline : TrimsTo line []) : Reads line (.ok none)
  /-- There is no file behind the mark. -/
  | missingTarget {text command raw : List Char} {mode : WriteMode} (htext : TrimsTo line text)
      (hne : text ≠ []) (hdivide : Divides text command (some (raw, mode)))
      (hraw : TrimsTo raw []) : Reads line (.error .missingTarget)
  /-- There is a file behind the mark but no command before it. -/
  | missingCommand {text command raw file : List Char} {mode : WriteMode}
      (htext : TrimsTo line text) (hne : text ≠ [])
      (hdivide : Divides text command (some (raw, mode))) (hraw : TrimsTo raw file)
      (hfile : file ≠ []) (hcommand : AllBlank command) : Reads line (.error .missingCommand)
  /-- The number of double quotes in the command part is odd. -/
  | openQuote {text command : List Char} {target : Option (List Char × WriteMode)}
      {redirection : Option Redirection} (htext : TrimsTo line text) (hne : text ≠ [])
      (hdivide : Divides text command target) (hredirect : Redirects command target redirection)
      (hodd : Odd (command.count '"')) : Reads line (.error .openQuote)
  /-- The command part has no word. -/
  | wordless {text command : List Char} {target : Option (List Char × WriteMode)}
      {redirection : Option Redirection} (htext : TrimsTo line text) (hne : text ≠ [])
      (hdivide : Divides text command target) (hredirect : Redirects command target redirection)
      (heven : Even (command.count '"')) (hwords : wordsOf command = []) : Reads line (.ok none)
  /-- The first word is the name of the command, the other ones are its arguments. -/
  | command {text command name : List Char} {args : List (List Char)}
      {target : Option (List Char × WriteMode)} {redirection : Option Redirection}
      (htext : TrimsTo line text) (hne : text ≠ []) (hdivide : Divides text command target)
      (hredirect : Redirects command target redirection) (heven : Even (command.count '"'))
      (hwords : wordsOf command = name :: args) :
      Reads line (.ok (some ⟨String.ofList name, args.map String.ofList, redirection⟩))

/-- A text with a redirection is split as it is divided, with a missing target before a missing
command. -/
theorem split_of_divides_some {text command raw : List Char} {mode : WriteMode}
    (h : Divides text command (some (raw, mode))) :
    split text =
      if trimAscii raw = [] then .error .missingTarget
      else if trimAscii command = [] then .error .missingCommand
      else .ok (command, some ⟨String.ofList (trimAscii raw), mode⟩) := by
  rw [split, divides_some_iff.1 h]

/-- Without a missing part a text is split into the command part and the redirection. -/
theorem split_of_redirects {text command : List Char} {target : Option (List Char × WriteMode)}
    {redirection : Option Redirection} (hdivide : Divides text command target)
    (hredirect : Redirects command target redirection) :
    split text = .ok (command, redirection) := by
  cases hredirect with
  | none =>
    obtain ⟨rfl, hsplit⟩ := divides_none_iff.1 hdivide
    rw [split, hsplit]
  | some hfile hne hcommand =>
    obtain rfl := trimsTo_iff.1 hfile
    rw [split_of_divides_some hdivide, if_neg hne, if_neg (mt trimAscii_eq_nil_iff.1 hcommand)]

/-- When no part is missing, parsing gives the words of the command part. -/
theorem parseChars_of_redirects {line text command : List Char}
    {target : Option (List Char × WriteMode)} {redirection : Option Redirection}
    (htext : TrimsTo line text) (hne : text ≠ []) (hdivide : Divides text command target)
    (hredirect : Redirects command target redirection) :
    parseChars line =
      if quoteOpen command then .error .openQuote
      else .ok (ofWords redirection (wordsOf command)) := by
  obtain rfl := trimsTo_iff.1 htext
  simp only [parseChars, if_neg hne, split_of_redirects hdivide hredirect, splitWords_eq]
  cases quoteOpen command <;> rfl

/-- When no part is missing, parsing gives a reading of the line. -/
theorem reads_of_redirects {line text command : List Char}
    {target : Option (List Char × WriteMode)} {redirection : Option Redirection}
    (htext : TrimsTo line text) (hne : text ≠ []) (hdivide : Divides text command target)
    (hredirect : Redirects command target redirection) : Reads line (parseChars line) := by
  rw [parseChars_of_redirects htext hne hdivide hredirect]
  split_ifs with hopen
  · exact .openQuote htext hne hdivide hredirect (by simpa [quoteOpen] using hopen)
  · have heven : Even (command.count '"') := by simpa [quoteOpen] using hopen
    cases hwords : wordsOf command with
    | nil => exact .wordless htext hne hdivide hredirect heven hwords
    | cons name args => exact .command htext hne hdivide hredirect heven hwords

/-- Parsing gives a reading of the line. -/
theorem reads_parseChars (line : List Char) : Reads line (parseChars line) := by
  have htext := trimsTo_trimAscii line
  by_cases hne : trimAscii line = []
  · rw [parseChars, if_pos hne]
    exact .blank (hne ▸ htext)
  obtain ⟨⟨command, _ | ⟨raw, mode⟩⟩, hdivide, -⟩ := existsUnique_divides (trimAscii line)
  · exact reads_of_redirects htext hne hdivide .none
  -- A missing file is noticed before a missing command.
  have hraw := trimsTo_trimAscii raw
  by_cases hfile : trimAscii raw = []
  · rw [parseChars, if_neg hne, split_of_divides_some hdivide, if_pos hfile]
    exact .missingTarget htext hne hdivide (hfile ▸ hraw)
  by_cases hcommand : AllBlank command
  · rw [parseChars, if_neg hne, split_of_divides_some hdivide, if_neg hfile,
      if_pos (trimAscii_eq_nil_iff.2 hcommand)]
    exact .missingCommand htext hne hdivide hraw hfile hcommand
  · exact reads_of_redirects htext hne hdivide (.some hraw hfile hcommand)

/-- A reading of a line is what parsing gives. -/
theorem Reads.eq_parseChars {line : List Char} {answer : Except LineFault (Option CommandLine)}
    (h : Reads line answer) : parseChars line = answer := by
  cases h with
  | blank hline => rw [parseChars, if_pos (trimsTo_iff.1 hline)]
  | missingTarget htext hne hdivide hraw =>
    obtain rfl := trimsTo_iff.1 htext
    rw [parseChars, if_neg hne, split_of_divides_some hdivide, if_pos (trimsTo_iff.1 hraw)]
  | missingCommand htext hne hdivide hraw hfile hcommand =>
    obtain rfl := trimsTo_iff.1 htext
    obtain rfl := trimsTo_iff.1 hraw
    rw [parseChars, if_neg hne, split_of_divides_some hdivide, if_neg hfile,
      if_pos (trimAscii_eq_nil_iff.2 hcommand)]
  | openQuote htext hne hdivide hredirect hodd =>
    rw [parseChars_of_redirects htext hne hdivide hredirect,
      if_pos (by simpa [quoteOpen] using hodd)]
  | wordless htext hne hdivide hredirect heven hwords =>
    rw [parseChars_of_redirects htext hne hdivide hredirect,
      if_neg (by simpa [quoteOpen] using heven), hwords]
    rfl
  | command htext hne hdivide hredirect heven hwords =>
    rw [parseChars_of_redirects htext hne hdivide hredirect,
      if_neg (by simpa [quoteOpen] using heven), hwords]
    rfl

/-- A line has exactly one reading, which is what parsing gives; its text is divided in exactly one
way; and parsing by byte offsets gives the same, because each of its cuts lies in the text and
between two characters. -/
theorem parse_iff_reads (line : String) :
    (∀ answer, parse line = answer ↔ Reads line.toList answer) ∧
      (∃! parts : List Char × Option (List Char × WriteMode),
        Divides (trimAscii line.toList) parts.1 parts.2) ∧
      parseOffsets line = some (parse line) := by
  refine ⟨fun answer => ⟨?_, fun h => h.eq_parseChars⟩, existsUnique_divides _,
    parseOffsets_eq line⟩
  rintro rfl
  exact reads_parseChars line.toList

end CommandLine

end CommandShell
