import CommandShell.Line.Basic
import Mathlib.Data.List.TakeWhile

/-!
# The parts of a line

Where trimming ends and where a redirection begins, said of the text itself: by what stands at its
ends, and by the pairs of `>` in it.

## Main definitions

* `Trimmed`: a text neither begins nor ends with an ASCII blank.
* `appendMark`: the two characters `>>`.

## Main results

* `trimmed_trimAscii` and `trimAscii_eq_self`: trimming leaves trimmed texts, and leaves them alone;
* `splitAppend_eq_some_iff`: the last run of two or more `>` is the one behind which no `>>` is left
  once the run itself has ended;
* `splitTruncate_eq_some_iff`: the last `>` is the one behind which there is no other.
-/

namespace CommandShell

/-! ## Trimming -/

/-- A text neither begins nor ends with an ASCII blank. -/
def Trimmed (text : List Char) : Prop :=
  (∀ c ∈ text.head?, isAsciiBlank c = false) ∧ ∀ c ∈ text.getLast?, isAsciiBlank c = false

/-- A text without its end is the front of the text. -/
theorem prefix_dropEndWhile (cut : Char → Bool) (text : List Char) :
    dropEndWhile cut text <+: text := by
  have h := List.reverse_prefix.2 (List.dropWhile_suffix cut (l := text.reverse))
  rwa [List.reverse_reverse] at h

/-- What is left when the end is cut does not end in what is cut. -/
theorem getLast?_dropEndWhile {cut : Char → Bool} {text : List Char} {c : Char}
    (h : c ∈ (dropEndWhile cut text).getLast?) : cut c = false := by
  rw [dropEndWhile, List.getLast?_reverse] at h
  have hnot := List.head?_dropWhile_not cut text.reverse
  rw [Option.mem_def.1 h] at hnot
  simpa using hnot

/-- A text that does not end in what is cut stays as it is. -/
theorem dropEndWhile_eq_self {cut : Char → Bool} {text : List Char}
    (h : ∀ c ∈ text.getLast?, cut c = false) : dropEndWhile cut text = text := by
  rw [dropEndWhile]
  cases hreverse : text.reverse with
  | nil => simpa using hreverse
  | cons c rest =>
    have hlast : c ∈ text.getLast? := by simp [← List.head?_reverse, hreverse]
    rw [List.dropWhile_cons_of_neg (by simp [h c hlast]), ← hreverse, List.reverse_reverse]

/-- A trimmed text stands somewhere in the text. -/
theorem infix_trimAscii (text : List Char) : trimAscii text <:+: text :=
  (prefix_dropEndWhile _ _).isInfix.trans (List.dropWhile_suffix _).isInfix

/-- Trimming leaves trimmed texts. -/
theorem trimmed_trimAscii (text : List Char) : Trimmed (trimAscii text) := by
  refine ⟨fun c hc => ?_, fun c hc => getLast?_dropEndWhile hc⟩
  -- Cutting the end does not change how the text begins, unless nothing is left.
  obtain ⟨rest, hrest⟩ := prefix_dropEndWhile isAsciiBlank (text.dropWhile isAsciiBlank)
  have hhead : (text.dropWhile isAsciiBlank).head? = some c := by
    rw [trimAscii, Option.mem_def] at hc
    rw [← hrest, List.head?_append, hc, Option.some_or]
  have hnot := List.head?_dropWhile_not isAsciiBlank text
  rw [hhead] at hnot
  simpa using hnot

/-- Trimming leaves trimmed texts alone. -/
theorem trimAscii_eq_self {text : List Char} (h : Trimmed text) : trimAscii text = text := by
  have hfront : text.dropWhile isAsciiBlank = text := by
    cases text with
    | nil => rfl
    | cons c rest => rw [List.dropWhile_cons_of_neg (by simp [h.1 c rfl])]
  rw [trimAscii, hfront, dropEndWhile_eq_self h.2]

/-- A text with a character that is no blank is not trimmed away. -/
theorem trimAscii_ne_nil {text : List Char} {c : Char} (hc : c ∈ text)
    (hblank : isAsciiBlank c = false) : trimAscii text ≠ [] := by
  intro hnil
  have hall : ∀ d ∈ text.dropWhile isAsciiBlank, isAsciiBlank d = true := by
    simpa [trimAscii, dropEndWhile] using hnil
  -- Behind the blanks at its front a text begins with something else.
  cases hdrop : text.dropWhile isAsciiBlank with
  | nil => simpa [hblank] using List.dropWhile_eq_nil_iff.1 hdrop c hc
  | cons d rest =>
    have hnot := List.head?_dropWhile_not isAsciiBlank text
    rw [hdrop] at hnot hall
    simp [hall d List.mem_cons_self] at hnot

/-! ## The last `>>` -/

/-- The two characters that announce an appending redirection. -/
def appendMark : List Char := ['>', '>']

/-- A mark stands in a longer text at its front or behind its first character. -/
theorem appendMark_infix_cons {c : Char} {rest : List Char} :
    appendMark <:+: c :: rest ↔ (c = '>' ∧ rest.head? = some '>') ∨ appendMark <:+: rest := by
  rw [List.infix_cons_iff]
  refine or_congr_left ?_
  cases rest <;> simp [appendMark, eq_comm]

/-- The search for `>>` at a character, by what it finds behind that character. -/
theorem splitAppend_cons (c : Char) (rest : List Char) :
    splitAppend (c :: rest) =
      match splitAppend rest with
      | some ([], after) => if c = '>' then some ([], '>' :: after) else some ([c], after)
      | some (b :: before, after) => some (c :: b :: before, after)
      | none => if c = '>' ∧ rest.head? = some '>' then some ([], rest.tail) else none := by
  rw [splitAppend.eq_def]
  cases hrest : splitAppend rest with
  | none => cases rest <;> simp [hrest]
  | some parts => obtain ⟨_ | ⟨b, before⟩, after⟩ := parts <;> simp only [hrest]

/-- There is no `>>` to split at exactly where no mark stands. -/
theorem splitAppend_eq_none_iff {text : List Char} :
    splitAppend text = none ↔ ¬appendMark <:+: text := by
  induction text with
  | nil => simp [splitAppend, appendMark]
  | cons c rest ih =>
    rw [appendMark_infix_cons, splitAppend_cons]
    cases hrest : splitAppend rest with
    | none => simp [ih.1 hrest]
    | some parts =>
      have hmark : appendMark <:+: rest := by
        by_contra hno
        rw [ih.2 hno] at hrest
        cases hrest
      obtain ⟨_ | ⟨b, before⟩, after⟩ := parts
      · by_cases hc : c = '>' <;> simp [hc, hmark]
      · simp [hmark]

/-- Behind a run of `>` that is not continued in front, a text is split at the start of the run when
no mark is left behind the run. -/
theorem splitAppend_run {after : List Char} (h : ¬appendMark <:+: after.dropWhile (· == '>')) :
    splitAppend ('>' :: '>' :: after) = some ([], after) := by
  -- The induction is on the rest of the run.
  induction after with
  | nil => rfl
  | cons d after ih =>
    by_cases hd : d = '>'
    · subst hd
      rw [splitAppend_cons, ih (by simpa using h)]
      simp
    · rw [List.dropWhile_cons_of_neg (by simp [hd])] at h
      have hnone : splitAppend ('>' :: d :: after) = none := by
        rw [splitAppend_eq_none_iff, appendMark_infix_cons]
        simp [hd, h]
      rw [splitAppend_cons, hnone]
      simp

/-- A text is split at the last run of two or more `>`: the run does not go on in front, and no mark
is left behind it. -/
theorem splitAppend_eq_some_iff {text before after : List Char} :
    splitAppend text = some (before, after) ↔
      text = before ++ '>' :: '>' :: after ∧ before.getLast? ≠ some '>' ∧
        ¬appendMark <:+: after.dropWhile (· == '>') := by
  constructor
  · intro h
    induction text generalizing before after with
    | nil => simp [splitAppend] at h
    | cons c rest ih =>
      rw [splitAppend_cons] at h
      cases hrest : splitAppend rest with
      | none =>
        rw [hrest] at h
        simp only [Option.ite_none_right_eq_some, Option.some.injEq, Prod.mk.injEq] at h
        obtain ⟨⟨rfl, hhead⟩, rfl, rfl⟩ := h
        obtain ⟨after, rfl⟩ := List.head?_eq_some_iff.1 hhead
        -- Behind the last two characters of the run no mark begins, so none is left there.
        have hno := splitAppend_eq_none_iff.1 hrest
        refine ⟨rfl, by simp, fun hmark => hno (hmark.trans ?_)⟩
        exact ((List.dropWhile_suffix _).trans (List.suffix_cons _ _)).isInfix
      | some parts =>
        rw [hrest] at h
        obtain ⟨_ | ⟨b, front⟩, behind⟩ := parts
        · obtain ⟨rfl, -, hmark⟩ := ih hrest
          by_cases hc : c = '>'
          · obtain ⟨rfl, rfl⟩ : [] = before ∧ '>' :: behind = after := by simpa [hc] using h
            exact ⟨by simp [hc], by simp, by simpa using hmark⟩
          · obtain ⟨rfl, rfl⟩ : [c] = before ∧ behind = after := by simpa [hc] using h
            exact ⟨rfl, by simpa using hc, hmark⟩
        · obtain ⟨rfl, hlast, hmark⟩ := ih hrest
          obtain ⟨rfl, rfl⟩ : c :: b :: front = before ∧ behind = after := by simpa using h
          exact ⟨rfl, by simpa using hlast, hmark⟩
  · rintro ⟨rfl, hlast, hmark⟩
    induction before with
    | nil => exact splitAppend_run hmark
    | cons c before ih =>
      cases before with
      | nil =>
        have hc : c ≠ '>' := by simpa using hlast
        rw [List.singleton_append, splitAppend_cons, splitAppend_run hmark]
        simp [hc]
      | cons b before =>
        rw [List.cons_append, splitAppend_cons, ih (by simpa using hlast)]

/-! ## The last `>` -/

/-- There is no `>` to split at exactly where none stands. -/
theorem splitTruncate_eq_none_iff {text : List Char} :
    splitTruncate text = none ↔ '>' ∉ text := by
  induction text with
  | nil => simp [splitTruncate]
  | cons c rest ih =>
    rw [splitTruncate]
    cases hrest : splitTruncate rest with
    | none => simp [ih.1 hrest, eq_comm]
    | some parts =>
      have hmem : '>' ∈ rest := by
        by_contra hno
        rw [ih.2 hno] at hrest
        cases hrest
      simp [hmem]

/-- A text is split at the `>` behind which there is no other. -/
theorem splitTruncate_eq_some_iff {text before after : List Char} :
    splitTruncate text = some (before, after) ↔ text = before ++ '>' :: after ∧ '>' ∉ after := by
  constructor
  · intro h
    induction text generalizing before after with
    | nil => simp [splitTruncate] at h
    | cons c rest ih =>
      rw [splitTruncate] at h
      cases hrest : splitTruncate rest with
      | none =>
        rw [hrest] at h
        obtain ⟨rfl, rfl, rfl⟩ : c = '>' ∧ [] = before ∧ rest = after := by simpa using h
        exact ⟨rfl, splitTruncate_eq_none_iff.1 hrest⟩
      | some parts =>
        rw [hrest] at h
        obtain ⟨front, behind⟩ := parts
        obtain ⟨rfl, hno⟩ := ih hrest
        obtain ⟨rfl, rfl⟩ : c :: front = before ∧ behind = after := by simpa using h
        exact ⟨rfl, hno⟩
  · rintro ⟨rfl, hno⟩
    induction before with
    | nil => simp [splitTruncate, splitTruncate_eq_none_iff.2 hno]
    | cons c before ih => rw [List.cons_append, splitTruncate, ih]

end CommandShell
