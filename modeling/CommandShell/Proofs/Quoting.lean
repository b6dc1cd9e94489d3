import CommandShell.Proofs.LineParts

/-!
# Quoting command lines

A printer for command lines, and the command lines that can be read at all. The printer puts every
word between double quotes, and switches quoting off and on again behind each `>` in a word, so that
no `>>` comes about before the redirection.

## Main definitions

* `CommandLine.WellFormed`: what a command line must be like to be read from some line.
* `CommandLine.render`: the line that is written for a command line.

## Main results

* `CommandLine.parseChars_render`: a well-formed command line is read back from what is written
  for it;
* `CommandLine.wellFormed_of_parseChars`: whatever is read is well formed;
* `CommandLine.parse_eq_iff_wellFormed`: both, as a description of what can be read.
-/

namespace CommandShell

namespace CommandLine

/-! ## Well-formed command lines -/

/-- The words of a command line: its name and its arguments. -/
def words (c : CommandLine) : List String :=
  c.name :: c.args

/-- A command line that can be read from some line. -/
structure WellFormed (c : CommandLine) : Prop where
  /-- No word is empty. -/
  word_ne_empty : ∀ word ∈ c.words, word ≠ ""
  /-- No word has a double quote. -/
  quote_notMem : ∀ word ∈ c.words, '"' ∉ word.toList
  /-- Without a redirection no word has a `>`. -/
  angle_notMem : c.redirection = none → ∀ word ∈ c.words, '>' ∉ word.toList
  /-- The target of a redirection is not empty. -/
  target_ne_empty : ∀ r ∈ c.redirection, r.target ≠ ""
  /-- The target of a redirection has no ASCII blanks at its ends. -/
  target_trimmed : ∀ r ∈ c.redirection, Trimmed r.target.toList
  /-- The target of a replacing redirection has no `>`. -/
  angle_notMem_target : ∀ r ∈ c.redirection, r.mode = .truncate → '>' ∉ r.target.toList
  /-- The target of an appending redirection has no `>>` behind the `>` that it begins with. -/
  mark_notMem_target : ∀ r ∈ c.redirection, r.mode = .append →
    ¬appendMark <:+: r.target.toList.dropWhile (· == '>')

/-! ## Writing -/

/-- The characters of a word with two double quotes behind each `>`. -/
def escapeWord (word : List Char) : List Char :=
  word.flatMap fun c => if c = '>' then ['>', '"', '"'] else [c]

/-- A word between double quotes. -/
def quoteWord (word : List Char) : List Char :=
  '"' :: escapeWord word ++ ['"']

/-- Words between double quotes, with a space between one and the next. -/
def quoteWords (words : List (List Char)) : List Char :=
  [' '].intercalate (words.map quoteWord)

/-- What is written behind the words of a command line. -/
def renderRedirection : Option Redirection → List Char
  | none => []
  | some ⟨target, .truncate⟩ => [' ', '>', ' '] ++ target.toList
  | some ⟨target, .append⟩ => [' ', '>', '>'] ++ target.toList

/-- The line that is written for a command line. -/
def render (c : CommandLine) : String :=
  String.ofList (quoteWords (c.words.map String.toList) ++ renderRedirection c.redirection)

/-! ## Quoted words -/

/-- The first word between double quotes, and the other ones, each behind a space. -/
theorem quoteWords_cons (word : List Char) (rest : List (List Char)) :
    quoteWords (word :: rest) =
      quoteWord word ++ rest.flatMap fun other => ' ' :: quoteWord other := by
  induction rest generalizing word with
  | nil => simp [quoteWords]
  | cons other rest ih =>
    have hother := ih other
    rw [quoteWords, List.map_cons] at hother ⊢
    rw [List.map_cons, List.intercalate_cons_cons, hother]
    simp

/-- An escaped word is read as the word. -/
theorem wordsFrom_escapeWord {word : List Char} (h : '"' ∉ word) (read rest : List Char) :
    wordsFrom true read (escapeWord word ++ rest) = wordsFrom true (read ++ word) rest := by
  induction word generalizing read with
  | nil => simp [escapeWord]
  | cons c word ih =>
    have hc : c ≠ '"' := fun he => h (by simp [he])
    have hword := ih (fun hmem => h (List.mem_cons_of_mem c hmem)) (read ++ [c])
    rw [escapeWord] at hword ⊢
    rw [List.flatMap_cons]
    -- The two quotes behind a `>` switch quoting off and on again.
    by_cases hangle : c = '>'
    · simpa [hangle, wordsFrom] using hword
    · simpa [hangle, wordsFrom, hc] using hword

/-- A quoted word is read as the word. -/
theorem wordsFrom_quoteWord {word : List Char} (h : '"' ∉ word) (rest : List Char) :
    wordsFrom false [] (quoteWord word ++ rest) = wordsFrom false word rest := by
  have hescape := wordsFrom_escapeWord h [] ('"' :: rest)
  simpa [quoteWord, wordsFrom] using hescape

/-- Quoted words are read as the words, and a space behind them adds none. -/
theorem splitWords_quoteWords {words : List (List Char)} (hwords : words ≠ [])
    (hempty : ∀ word ∈ words, word ≠ []) (hquote : ∀ word ∈ words, '"' ∉ word)
    {last : List Char} (hlast : last = [] ∨ last = [' ']) :
    splitWords (quoteWords words ++ last) = some words := by
  have hend : ∀ word : List Char, word ≠ [] → wordsFrom false word last = some [word] := by
    intro word hword
    rcases hlast with rfl | rfl <;> simp [wordsFrom, keepWord, hword]
  obtain ⟨first, rest, rfl⟩ := List.exists_cons_of_ne_nil hwords
  rw [splitWords, quoteWords_cons, List.append_assoc, wordsFrom_quoteWord (hquote first (by simp))]
  clear hwords
  -- The words behind the first one are read with the one before them still open.
  induction rest generalizing first with
  | nil => simpa using hend first (hempty first (by simp))
  | cons other rest ih =>
    have hother := ih other (fun word hword => hempty word (List.mem_cons_of_mem _ hword))
      fun word hword => hquote word (List.mem_cons_of_mem _ hword)
    rw [List.flatMap_cons, List.append_assoc, List.cons_append, wordsFrom, if_neg (by decide),
      if_pos ⟨rfl, rfl⟩, wordsFrom_quoteWord (hquote other (by simp)), hother]
    simp [keepWord, hempty first (by simp)]

/-- No mark stands in an escaped word. -/
theorem appendMark_infix_escapeWord (word rest : List Char) :
    appendMark <:+: escapeWord word ++ '"' :: rest ↔ appendMark <:+: rest := by
  induction word with
  | nil => simp [escapeWord, appendMark_infix_cons]
  | cons c word ih =>
    rw [escapeWord] at ih ⊢
    rw [List.flatMap_cons, List.append_assoc]
    by_cases hangle : c = '>'
    · simp [hangle, appendMark_infix_cons, ih]
    · simp [hangle, appendMark_infix_cons, ih]

/-- No mark stands in quoted words, and none reaches into what follows them. -/
theorem appendMark_infix_quoteWords {words : List (List Char)} (hwords : words ≠ [])
    (rest : List Char) :
    appendMark <:+: quoteWords words ++ rest ↔ appendMark <:+: rest := by
  have hquote : ∀ (word rest : List Char),
      appendMark <:+: quoteWord word ++ rest ↔ appendMark <:+: rest := by
    intro word rest
    rw [quoteWord, List.cons_append, List.cons_append, List.append_assoc, appendMark_infix_cons,
      List.singleton_append, appendMark_infix_escapeWord]
    simp
  obtain ⟨first, others, rfl⟩ := List.exists_cons_of_ne_nil hwords
  rw [quoteWords_cons, List.append_assoc, hquote]
  induction others with
  | nil => rfl
  | cons other others ih =>
    rw [List.flatMap_cons, List.append_assoc, List.cons_append, appendMark_infix_cons, hquote]
    simpa using ih

/-- Without a `>` in the words there is none when they are quoted. -/
theorem angle_notMem_quoteWords {words : List (List Char)} (h : ∀ word ∈ words, '>' ∉ word) :
    '>' ∉ quoteWords words := by
  have hquote : ∀ word ∈ words, '>' ∉ quoteWord word := by
    intro word hword hmem
    simp only [quoteWord, escapeWord, List.cons_append, List.mem_cons, List.mem_append,
      List.mem_flatMap] at hmem
    rcases hmem with hmem | ⟨c, hc, hmem⟩ | hmem
    · cases hmem
    · split at hmem
      · next he => exact h word hword (he ▸ hc)
      · next hne => exact hne (List.mem_singleton.1 hmem).symm
    · simp at hmem
  cases words with
  | nil => simp [quoteWords]
  | cons first rest =>
    rw [quoteWords_cons]
    simp only [List.mem_append, List.mem_flatMap, List.mem_cons, not_or, not_exists, not_and]
    exact ⟨hquote first (by simp), fun word hword =>
      ⟨by decide, hquote word (List.mem_cons_of_mem _ hword)⟩⟩

/-- Quoted words begin with a double quote. -/
theorem head?_quoteWords {words : List (List Char)} (hwords : words ≠ []) (rest : List Char) :
    (quoteWords words ++ rest).head? = some '"' := by
  obtain ⟨first, others, rfl⟩ := List.exists_cons_of_ne_nil hwords
  rw [quoteWords_cons, quoteWord]
  rfl

/-- Quoted words end with a double quote. -/
theorem getLast?_quoteWords {words : List (List Char)} (hwords : words ≠ []) :
    (quoteWords words).getLast? = some '"' := by
  obtain ⟨first, others, rfl⟩ := List.exists_cons_of_ne_nil hwords
  have hquote : ∀ word, (quoteWord word).getLast? = some '"' := fun word =>
    List.getLast?_append.trans rfl
  rw [quoteWords_cons]
  rcases List.eq_nil_or_concat others with rfl | ⟨others, last, rfl⟩
  · simpa using hquote first
  · rw [List.concat_eq_append, List.flatMap_append, List.flatMap_singleton, ← List.append_assoc,
      List.getLast?_append, List.getLast?_cons, hquote]
    rfl

/-! ## Reading what was written -/

section Render

variable {c : CommandLine}

/-- What is written has no blanks at its ends. -/
theorem trimmed_render (h : c.WellFormed) : Trimmed c.render.toList := by
  rw [render, String.toList_ofList]
  have hwords : c.words.map String.toList ≠ [] := by simp [words]
  refine ⟨fun first hfirst => ?_, fun last hlast => ?_⟩
  · rw [head?_quoteWords hwords, Option.mem_some_iff] at hfirst
    subst hfirst
    rfl
  · cases hr : c.redirection with
    | none =>
      rw [hr, renderRedirection, List.append_nil, getLast?_quoteWords hwords,
        Option.mem_some_iff] at hlast
      subst hlast
      rfl
    | some r =>
      -- The line ends as the target ends, which is not empty.
      have htarget : r.target.toList ≠ [] := fun he =>
        h.target_ne_empty r hr (String.toList_inj.1 he)
      obtain ⟨mark, hmark⟩ : ∃ mark, renderRedirection (some r) = mark ++ r.target.toList := by
        obtain ⟨target, _ | _⟩ := r <;> exact ⟨_, rfl⟩
      rw [hr, hmark, ← List.append_assoc, List.getLast?_append,
        List.getLast?_eq_some_getLast htarget, Option.some_or, Option.mem_some_iff] at hlast
      exact (h.target_trimmed r hr).2 last (by
        rw [List.getLast?_eq_some_getLast htarget, hlast, Option.mem_some_iff])

/-- What is written is split behind the words. -/
theorem split_render (h : c.WellFormed) :
    ∃ last, (last = [] ∨ last = [' ']) ∧
      split c.render.toList = .ok (quoteWords (c.words.map String.toList) ++ last,
        c.redirection) := by
  rw [render, String.toList_ofList]
  have hwords : c.words.map String.toList ≠ [] := by simp [words]
  have hcommand : trimAscii (quoteWords (c.words.map String.toList) ++ [' ']) ≠ [] :=
    trimAscii_ne_nil (c := '"') (List.mem_of_mem_head? (head?_quoteWords hwords _)) rfl
  cases hr : c.redirection with
  | none =>
    have hangle : '>' ∉ quoteWords (c.words.map String.toList) :=
      angle_notMem_quoteWords (by simpa using h.angle_notMem hr)
    have hmark : ¬appendMark <:+: quoteWords (c.words.map String.toList) := fun hmark =>
      hangle (hmark.subset (by simp [appendMark]))
    refine ⟨[], .inl rfl, ?_⟩
    rw [renderRedirection, List.append_nil, split, splitRedirection,
      splitAppend_eq_none_iff.2 hmark, splitTruncate_eq_none_iff.2 hangle]
    rfl
  | some r =>
    have htarget := trimAscii_eq_self (h.target_trimmed r hr)
    have hne : r.target.toList ≠ [] := fun he => h.target_ne_empty r hr (String.toList_inj.1 he)
    refine ⟨[' '], .inr rfl, ?_⟩
    obtain ⟨target, _ | _⟩ := r
    · -- One `>` stands behind the words, and none behind it.
      have hangle := h.angle_notMem_target _ hr rfl
      have hmark : ¬appendMark <:+: quoteWords (c.words.map String.toList) ++
          ([' ', '>', ' '] ++ target.toList) := by
        rw [appendMark_infix_quoteWords hwords]
        simp only [List.cons_append, appendMark_infix_cons]
        simpa using fun hmark : appendMark <:+: target.toList =>
          hangle (hmark.subset (by simp [appendMark]))
      have hsplit : splitTruncate (quoteWords (c.words.map String.toList) ++
          ([' ', '>', ' '] ++ target.toList)) =
          some (quoteWords (c.words.map String.toList) ++ [' '], ' ' :: target.toList) :=
        splitTruncate_eq_some_iff.2 ⟨by simp, by simpa using hangle⟩
      have htrim : trimAscii (' ' :: target.toList) = target.toList := htarget
      rw [renderRedirection, split, splitRedirection, splitAppend_eq_none_iff.2 hmark, hsplit]
      simp only [Option.map_some, htrim, hne, hcommand, if_false, String.ofList_toList]
    · -- A run of `>` stands behind the words, and no mark behind the run.
      have hsplit : splitAppend (quoteWords (c.words.map String.toList) ++
          ([' ', '>', '>'] ++ target.toList)) =
          some (quoteWords (c.words.map String.toList) ++ [' '], target.toList) :=
        splitAppend_eq_some_iff.2 ⟨by simp, by simp, h.mark_notMem_target _ hr rfl⟩
      rw [renderRedirection, split, splitRedirection, hsplit]
      simp only [htarget, hne, hcommand, if_false, String.ofList_toList]

/-- A well-formed command line is read back from what is written for it. -/
theorem parseChars_render (h : c.WellFormed) : parseChars c.render.toList = .ok (some c) := by
  have hwords : c.words.map String.toList ≠ [] := by simp [words]
  have htrim := trimAscii_eq_self (trimmed_render h)
  have hne : c.render.toList ≠ [] := by
    rw [render, String.toList_ofList]
    intro he
    simpa [he] using head?_quoteWords hwords (renderRedirection c.redirection)
  obtain ⟨last, hlast, hsplit⟩ := split_render h
  have hread : splitWords (quoteWords (c.words.map String.toList) ++ last) =
      some (c.words.map String.toList) := by
    refine splitWords_quoteWords hwords ?_ ?_ hlast
    · simpa using h.word_ne_empty
    · simpa using h.quote_notMem
  have hread : (splitWords (quoteWords (c.words.map String.toList) ++ last)) =
      some (c.name.toList :: c.args.map String.toList) := hread
  rw [parseChars, htrim]
  simp [hne, hsplit, hread, ofWords]

end Render

/-! ## What can be read -/

/-- The words that are read are not empty, and made of the characters of the text without its
double quotes. -/
theorem mem_of_wordsFrom {quoted : Bool} {read text : List Char} {words : List (List Char)}
    (h : wordsFrom quoted read text = some words) {word : List Char} (hword : word ∈ words) :
    word ≠ [] ∧ ∀ c ∈ word, c ∈ read ∨ (c ∈ text ∧ c ≠ '"') := by
  have hkeep : ∀ read : List Char, word ∈ keepWord read → word ≠ [] ∧ word = read := by
    intro read hmem
    unfold keepWord at hmem
    split at hmem
    · cases hmem
    · next hne =>
      obtain rfl := List.mem_singleton.1 hmem
      exact ⟨hne, rfl⟩
  -- The induction is on the text; the word that is open holds what was read of it so far.
  induction text generalizing quoted read words with
  | nil =>
    cases quoted with
    | true => simp [wordsFrom] at h
    | false =>
      obtain rfl : keepWord read = words := by simpa [wordsFrom] using h
      obtain ⟨hne, rfl⟩ := hkeep read hword
      exact ⟨hne, fun c hc => .inl hc⟩
  | cons c text ih =>
    rw [wordsFrom] at h
    split at h
    · obtain ⟨hne, hchars⟩ := ih h hword
      exact ⟨hne, fun d hd => (hchars d hd).imp_right (.imp_left (List.mem_cons_of_mem c))⟩
    · next hc =>
      split at h
      · obtain ⟨others, hothers, rfl⟩ := Option.map_eq_some_iff.1 h
        rcases List.mem_append.1 hword with hword | hword
        · obtain ⟨hne, rfl⟩ := hkeep read hword
          exact ⟨hne, fun d hd => .inl hd⟩
        · obtain ⟨hne, hchars⟩ := ih hothers hword
          refine ⟨hne, fun d hd => ?_⟩
          rcases hchars d hd with hd | ⟨hd, hquote⟩
          · cases hd
          · exact .inr ⟨List.mem_cons_of_mem c hd, hquote⟩
      · obtain ⟨hne, hchars⟩ := ih h hword
        refine ⟨hne, fun d hd => ?_⟩
        rcases hchars d hd with hd | ⟨hd, hquote⟩
        · rcases List.mem_append.1 hd with hd | hd
          · exact .inl hd
          · obtain rfl := List.mem_singleton.1 hd
            exact .inr ⟨List.mem_cons_self, hc⟩
        · exact .inr ⟨List.mem_cons_of_mem c hd, hquote⟩

/-- Trimming a target brings no mark into what follows the `>` that it begins with. -/
theorem appendMark_infix_trimAscii {text : List Char}
    (h : ¬appendMark <:+: text.dropWhile (· == '>')) :
    ¬appendMark <:+: (trimAscii text).dropWhile (· == '>') := by
  refine fun hmark => h (hmark.trans ?_)
  cases text with
  | nil => simp [trimAscii, dropEndWhile]
  | cons c rest =>
    by_cases hc : c = '>'
    · -- The run at the front is no blank, so only the end is cut.
      subst hc
      obtain ⟨cut, hcut⟩ := prefix_dropEndWhile isAsciiBlank ('>' :: rest)
      have htrim : trimAscii ('>' :: rest) = dropEndWhile isAsciiBlank ('>' :: rest) := rfl
      rw [htrim]
      generalize dropEndWhile isAsciiBlank ('>' :: rest) = kept at hcut
      rw [← hcut, List.dropWhile_append]
      split
      · next hnil => simp [List.isEmpty_iff.1 hnil]
      · exact (List.prefix_append _ _).isInfix
    · -- No run is at the front, so all of the text is free of marks.
      rw [List.dropWhile_cons_of_neg (by simp [hc])]
      exact (List.dropWhile_suffix _).isInfix.trans (infix_trimAscii _)

/-- What the words and the redirection of a line are like, by the text they come from. -/
theorem wellFormed_of_split {text command : List Char} {redirection : Option Redirection}
    (hsplit : split text = .ok (command, redirection)) :
    (redirection = none → '>' ∉ command) ∧
      ∀ r ∈ redirection, r.target ≠ "" ∧ Trimmed r.target.toList ∧
        (r.mode = .truncate → '>' ∉ r.target.toList) ∧
        (r.mode = .append → ¬appendMark <:+: r.target.toList.dropWhile (· == '>')) := by
  rw [split, splitRedirection] at hsplit
  -- A line with `>>` is divided there, whatever single marks it has behind; only the target of a
  -- line without it is free of marks.
  cases happend : splitAppend text with
  | some parts =>
    obtain ⟨before, after⟩ := parts
    obtain ⟨-, -, hmark⟩ := splitAppend_eq_some_iff.1 happend
    rw [happend] at hsplit
    simp only at hsplit
    split at hsplit
    · cases hsplit
    · next hne =>
      split at hsplit
      · cases hsplit
      · cases hsplit
        simp only [reduceCtorEq, false_implies, Option.mem_some_iff, forall_eq', true_and,
          String.toList_ofList]
        refine ⟨fun he => hne (by simpa using congrArg String.toList he),
          trimmed_trimAscii after, fun _ => appendMark_infix_trimAscii hmark⟩
  | none =>
    rw [happend] at hsplit
    cases htruncate : splitTruncate text with
    | some parts =>
      obtain ⟨before, after⟩ := parts
      obtain ⟨-, hangle⟩ := splitTruncate_eq_some_iff.1 htruncate
      rw [htruncate] at hsplit
      simp only [Option.map_some] at hsplit
      split at hsplit
      · cases hsplit
      · next hne =>
        split at hsplit
        · cases hsplit
        · cases hsplit
          simp only [reduceCtorEq, false_implies, Option.mem_some_iff, forall_eq', true_and,
            and_true, String.toList_ofList, forall_const]
          exact ⟨fun he => hne (by simpa using congrArg String.toList he),
            trimmed_trimAscii after, fun hmem => hangle ((infix_trimAscii after).subset hmem)⟩
    | none =>
      rw [htruncate] at hsplit
      cases hsplit
      exact ⟨fun _ => splitTruncate_eq_none_iff.1 htruncate, by simp⟩

/-- Whatever command line is read is well formed. -/
theorem wellFormed_of_parseChars {line : List Char} {c : CommandLine}
    (h : parseChars line = .ok (some c)) : c.WellFormed := by
  rw [parseChars] at h
  split at h
  · cases h
  · cases hsplit : split (trimAscii line) with
    | error fault => simp [hsplit] at h
    | ok parts =>
      obtain ⟨command, redirection⟩ := parts
      rw [hsplit] at h
      cases hread : splitWords command with
      | none => simp [hread] at h
      | some texts =>
        simp only [hread, Except.ok.injEq] at h
        obtain ⟨name, args, rfl⟩ : ∃ name args, texts = name :: args := by
          cases texts with
          | nil => cases h
          | cons name args => exact ⟨name, args, rfl⟩
        cases h
        obtain ⟨hangle, hredirection⟩ := wellFormed_of_split hsplit
        -- Each word is one of the texts that were read.
        have hwords : ∀ word ∈ words ⟨String.ofList name, args.map String.ofList, redirection⟩,
            word.toList ≠ [] ∧ ∀ c ∈ word.toList, c ∈ command ∧ c ≠ '"' := by
          intro word hword
          obtain ⟨text, htext, rfl⟩ : ∃ text ∈ name :: args, String.ofList text = word := by
            simpa [words, eq_comm] using hword
          simpa using mem_of_wordsFrom hread htext
        constructor
        · exact fun word hword he => (hwords word hword).1 (by simp [he])
        · exact fun word hword hmem => ((hwords word hword).2 _ hmem).2 rfl
        · exact fun hnone word hword hmem => hangle hnone ((hwords word hword).2 _ hmem).1
        · exact fun r hr => (hredirection r hr).1
        · exact fun r hr => (hredirection r hr).2.1
        · exact fun r hr => (hredirection r hr).2.2.1
        · exact fun r hr => (hredirection r hr).2.2.2

/-- Exactly the well-formed command lines can be read from some line, and each of them is read back
from the line that is written for it. -/
theorem parse_eq_iff_wellFormed (c : CommandLine) :
    (parse c.render = .ok (some c) ↔ c.WellFormed) ∧
      ((∃ line, parse line = .ok (some c)) ↔ c.WellFormed) :=
  ⟨⟨wellFormed_of_parseChars, parseChars_render⟩,
    ⟨fun ⟨_, h⟩ => wellFormed_of_parseChars h, fun h => ⟨c.render, parseChars_render h⟩⟩⟩

/-- A word with two `>` is written with quoting switched off and on again between them, and the line
is read as the command line that it was written for. -/
example :
    let c : CommandLine := ⟨"cat", ["a>>b"], some ⟨">log", .append⟩⟩
    c.render = "\"cat\" \"a>\"\">\"\"b\" >>>log" ∧ parse c.render = .ok (some c) := by
  decide

end CommandLine

end CommandShell
