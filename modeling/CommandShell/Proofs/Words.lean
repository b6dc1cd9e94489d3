import CommandShell.Line.Basic
import Mathlib.Algebra.Ring.Parity

/-!
# Words by what stands around them

The words of a text without reading it from left to right: a character is quoted when an odd number
of double quotes stands before it, the text is cut at the spaces that are not quoted, and what is
left of a piece without its double quotes is a word, unless it is empty.

## Main definitions

* `quoteOpen`: a text has an odd number of double quotes.
* `wordsOf`: the pieces between the spaces outside quotes, without double quotes.

## Main results

* `splitWords_eq`: these pieces are the words that are read, and nothing is read when a double quote
  has no partner.
-/

namespace CommandShell

/-! ## Pieces between spaces -/

/-- A double quote of the text has no partner in it. -/
def quoteOpen (text : List Char) : Bool :=
  decide (Odd (text.count '"'))

/-- The characters of a text, each with whether it is quoted, when quoting is on or off before the
text. -/
def markFrom (quoted : Bool) (text : List Char) : List (Char × Bool) :=
  text.mapIdx fun i c => (c, quoted ^^ quoteOpen (text.take i))

/-- A space that is not quoted. -/
def isCut (c : Char × Bool) : Bool :=
  c.1 == ' ' && !c.2

/-- The characters of a piece without the double quotes. -/
def pieceText (piece : List (Char × Bool)) : List Char :=
  (piece.map Prod.fst).filter (· ≠ '"')

/-- The texts of the pieces between the spaces that are not quoted. -/
def pieces (quoted : Bool) (text : List Char) : List (List Char) :=
  ((markFrom quoted text).splitOnP isCut).map pieceText

/-- The words of a text: its pieces that have characters. -/
def wordsOf (text : List Char) : List (List Char) :=
  (pieces false text).filter (· ≠ [])

/-- No double quote is open before the text. -/
@[simp]
theorem quoteOpen_nil : quoteOpen [] = false := by decide

/-- A double quote in front opens what was closed and closes what was open. -/
theorem quoteOpen_cons (c : Char) (rest : List Char) :
    quoteOpen (c :: rest) = ((c == '"') ^^ quoteOpen rest) := by
  by_cases hc : c = '"'
  · subst hc
    rw [beq_self_eq_true, Bool.true_xor, quoteOpen, quoteOpen, ← decide_not, decide_eq_decide,
      List.count_cons_self, Nat.odd_add_one]
  · simp [quoteOpen, hc, beq_eq_false_iff_ne.2 hc]

/-- The first character is quoted when quoting was on before it, and a double quote changes this for
the rest. -/
theorem markFrom_cons (quoted : Bool) (c : Char) (rest : List Char) :
    markFrom quoted (c :: rest) = (c, quoted) :: markFrom (quoted ^^ (c == '"')) rest := by
  simp [markFrom, List.mapIdx_cons, quoteOpen_cons]

/-- There is a piece, even of the empty text. -/
theorem pieces_ne_nil (quoted : Bool) (text : List Char) : pieces quoted text ≠ [] := by
  simp [pieces, List.splitOnP_ne_nil]

/-- A space outside quotes ends the first piece. -/
theorem pieces_cut (rest : List Char) : pieces false (' ' :: rest) = [] :: pieces false rest := by
  simp [pieces, markFrom_cons, List.splitOnP_cons_eq_if_modifyHead, isCut, pieceText]

/-- Any other character belongs to the first piece, where a double quote leaves nothing. -/
theorem pieces_keep {quoted : Bool} {c : Char} (h : isCut (c, quoted) = false)
    (rest : List Char) :
    pieces quoted (c :: rest) =
      (pieces (quoted ^^ (c == '"')) rest).modifyHead ((if c = '"' then [] else [c]) ++ ·) := by
  rw [pieces, markFrom_cons, List.splitOnP_cons_eq_if_modifyHead, if_neg (by simp [h]), pieces]
  cases (markFrom (quoted ^^ (c == '"')) rest).splitOnP isCut with
  | nil => rfl
  | cons piece others => by_cases hc : c = '"' <;> simp [pieceText, hc]

/-! ## The words that are read -/

/-- What is read behind a word: the pieces that follow, the first of them added to the word. -/
theorem wordsFrom_eq (quoted : Bool) (word text : List Char) :
    wordsFrom quoted word text =
      if quoted ^^ quoteOpen text then none
      else some (((pieces quoted text).modifyHead (word ++ ·)).filter (· ≠ [])) := by
  induction text generalizing quoted word with
  | nil =>
    cases quoted
    · by_cases hword : word = [] <;>
        simp [wordsFrom, keepWord, pieces, markFrom, pieceText, hword]
    · simp [wordsFrom]
  | cons c rest ih =>
    rw [wordsFrom, quoteOpen_cons]
    by_cases hquote : c = '"'
    · subst hquote
      rw [if_pos rfl, ih, pieces_keep (by simp [isCut])]
      cases quoted <;> simp [Function.comp_def]
    rw [if_neg hquote]
    by_cases hcut : c = ' ' ∧ quoted = false
    · obtain ⟨rfl, rfl⟩ := hcut
      rw [if_pos ⟨rfl, rfl⟩, ih, pieces_cut]
      -- The word before the space is complete, and the next one has no characters yet.
      obtain ⟨piece, others, hpieces⟩ := List.exists_cons_of_ne_nil (pieces_ne_nil false rest)
      by_cases hword : word = [] <;> by_cases hopen : quoteOpen rest <;>
        simp [hpieces, hword, hopen, keepWord]
    · rw [if_neg hcut, ih, pieces_keep (by simpa [isCut] using hcut)]
      simp [hquote, beq_eq_false_iff_ne.2 hquote, Function.comp_def]

/-- The words that are read are the pieces between the spaces outside quotes. Nothing is read
exactly when the number of double quotes is odd. -/
theorem splitWords_eq (text : List Char) :
    splitWords text = if quoteOpen text then none else some (wordsOf text) := by
  rw [splitWords, wordsFrom_eq, Bool.false_xor, wordsOf]
  obtain ⟨piece, others, hpieces⟩ := List.exists_cons_of_ne_nil (pieces_ne_nil false text)
  simp [hpieces]

end CommandShell
