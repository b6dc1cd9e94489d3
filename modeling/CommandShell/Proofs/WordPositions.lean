import CommandShell.Proofs.Words

/-!
# Words by their positions

Which characters of a text belong to one word, said of their positions. A position is kept unless a
double quote or a space outside quotes stands there, and two kept positions belong to one word
exactly when no space outside quotes lies between them. There is one way to group the kept positions
like this, and the words that are read are the texts of its groups.

Words that are written between double quotes, with spaces between them, are read back.

## Main definitions

* `keptPositions`: the positions that belong to words.
* `PlacesWords`: the kept positions, word by word.
* `Requotes`: a line with some words between double quotes.

## Main results

* `PlacesWords.unique`: the kept positions are grouped in one way only;
* `splitWords_eq_some_iff`: the words that are read are the texts of these groups;
* `words_of_splitWords`: together they are the kept characters, and none of them is empty;
* `splitWords_of_requotes`: words between double quotes are read back;
* `splitWords_by_position`: all of this, with the texts that cannot be read.
-/

namespace CommandShell

/-! ## Positions -/

/-- A space outside quotes stands at a position: the double quotes before it are even in number. -/
def isCutAt (text : List Char) (i : Nat) : Bool :=
  text[i]? == some ' ' && !quoteOpen (text.take i)

/-- A double quote stands at a position. -/
def isQuoteAt (text : List Char) (i : Nat) : Bool :=
  text[i]? == some '"'

/-- The positions that belong to words, in order: those of all characters but double quotes and
spaces outside quotes. -/
def keptPositions (text : List Char) : List Nat :=
  (List.range text.length).filter fun i => !isCutAt text i && !isQuoteAt text i

/-- The characters at some positions of a text. -/
def charsAt (text : List Char) (positions : List Nat) : List Char :=
  positions.filterMap (text[·]?)

/-- Two positions belong to one of some groups. -/
def Together (groups : List (List Nat)) (i j : Nat) : Prop :=
  ∃ group ∈ groups, i ∈ group ∧ j ∈ group

/-- The kept positions of a text in groups, one for each word. -/
structure PlacesWords (text : List Char) (groups : List (List Nat)) : Prop where
  /-- No word is empty. -/
  ne_nil : ∀ group ∈ groups, group ≠ []
  /-- The groups are made of the kept positions, in their order. -/
  flatten : groups.flatten = keptPositions text
  /-- Two positions belong to one word exactly when no space outside quotes lies between them. -/
  together_iff : ∀ i ∈ keptPositions text, ∀ j ∈ keptPositions text, i < j →
    (Together groups i j ↔ ∀ k, i < k → k < j → isCutAt text k = false)

/-- The kept positions are in order, and none is there twice. -/
theorem pairwise_keptPositions (text : List Char) :
    (keptPositions text).Pairwise (· < ·) :=
  List.pairwise_lt_range.filter _

/-! ## Pieces of a list -/

section Pieces

variable {α β : Type} {p : α → Bool} {item : α}

/-- What is cut ends an empty piece. -/
theorem splitOnP_of_cut (h : p item = true) (rest : List α) :
    (item :: rest).splitOnP p = [] :: rest.splitOnP p := by
  rw [List.splitOnP_cons_eq_if_modifyHead, if_pos h]

/-- What is not cut stands in front of the first piece. -/
theorem exists_splitOnP (h : p item = false) (rest : List α) :
    ∃ first others, rest.splitOnP p = first :: others ∧
      (item :: rest).splitOnP p = (item :: first) :: others := by
  obtain ⟨first, others, hsplit⟩ := List.exists_cons_of_ne_nil (List.splitOnP_ne_nil p rest)
  refine ⟨first, others, hsplit, ?_⟩
  rw [List.splitOnP_cons_eq_if_modifyHead, if_neg (by simp [h]), hsplit, List.modifyHead_cons]

/-- A list is split as the list that it is made from. -/
theorem splitOnP_map (f : β → α) (items : List β) :
    (items.map f).splitOnP p = (items.splitOnP (p ∘ f)).map (List.map f) := by
  induction items with
  | nil => rfl
  | cons item rest ih =>
    rw [List.map_cons]
    cases hcut : p (f item) with
    | true =>
      have hcutAt : (p ∘ f) item = true := hcut
      rw [splitOnP_of_cut hcut, splitOnP_of_cut hcutAt, ih, List.map_cons, List.map_nil]
    | false =>
      have hkept : (p ∘ f) item = false := hcut
      obtain ⟨first, others, hrest, hsplit⟩ := exists_splitOnP hcut (rest.map f)
      obtain ⟨first', others', hrest', hsplit'⟩ := exists_splitOnP hkept rest
      rw [hrest, hrest', List.map_cons] at ih
      obtain ⟨rfl, rfl⟩ := List.cons.inj ih
      rw [hsplit, hsplit', List.map_cons, List.map_cons]

/-- The pieces of a list have everything in it that is not cut. -/
theorem flatten_splitOnP (items : List α) :
    (items.splitOnP p).flatten = items.filter (!p ·) := by
  induction items with
  | nil => rfl
  | cons item rest ih =>
    cases hcut : p item with
    | true => simp [splitOnP_of_cut hcut, hcut, ih]
    | false =>
      obtain ⟨first, others, hrest, hsplit⟩ := exists_splitOnP hcut rest
      rw [hrest, List.flatten_cons] at ih
      simp [hsplit, hcut, ih]

end Pieces

section Positions

variable {p : Nat → Bool} {start i j : Nat} {positions rest : List Nat}

/-- A position lies in the first piece exactly when none before it is cut. -/
theorem mem_first_piece (hsorted : positions.Pairwise (· < ·)) {first : List Nat}
    {others : List (List Nat)} (hsplit : positions.splitOnP p = first :: others)
    (hj : j ∈ positions) (hkept : p j = false) :
    j ∈ first ↔ ∀ k ∈ positions, k < j → p k = false := by
  induction positions generalizing first others with
  | nil => cases hj
  | cons start rest ih =>
    obtain ⟨hstart, hrest⟩ := List.pairwise_cons.1 hsorted
    cases hcut : p start with
    | true =>
      -- The first piece ends before the first position, so nothing lies in it.
      rw [splitOnP_of_cut hcut] at hsplit
      obtain ⟨rfl, -⟩ := List.cons.inj hsplit
      have hne : j ≠ start := fun he => by simp [← he, hkept] at hcut
      have hlt := hstart j ((List.mem_cons.1 hj).resolve_left hne)
      refine iff_of_false List.not_mem_nil fun hnone => ?_
      simp [hnone start List.mem_cons_self hlt] at hcut
    | false =>
      obtain ⟨piece, pieces, hpieces, hwhole⟩ := exists_splitOnP hcut rest
      obtain ⟨rfl, -⟩ := List.cons.inj (hwhole.symm.trans hsplit)
      rcases List.mem_cons.1 hj with rfl | hj
      · have hnone : ∀ k ∈ rest, k < j → p k = false := fun k hk hlt =>
          absurd (hstart k hk) (Nat.lt_asymm hlt)
        simpa using hnone
      · have hne : j ≠ start := Nat.ne_of_gt (hstart j hj)
        simp [hne, ih hrest hpieces hj, hcut]

/-- The piece of the first position goes on up to what is cut first. -/
theorem together_start_iff (hstart : ∀ k ∈ rest, start < k) (hrest : rest.Pairwise (· < ·))
    (hj : j ∈ rest) (hkept : p start = false) (hjkept : p j = false) :
    Together ((start :: rest).splitOnP p) start j ↔ ∀ k ∈ rest, k < j → p k = false := by
  obtain ⟨piece, pieces, hpieces, hsplit⟩ := exists_splitOnP hkept rest
  have hothers : ∀ other ∈ pieces, start ∉ other := by
    intro other hother hmem
    have hflat : start ∈ (rest.splitOnP p).flatten := by
      rw [hpieces]
      exact List.mem_flatten.2 ⟨other, List.mem_cons_of_mem _ hother, hmem⟩
    rw [flatten_splitOnP] at hflat
    exact Nat.lt_irrefl start (hstart start (List.mem_filter.1 hflat).1)
  have hne : j ≠ start := Nat.ne_of_gt (hstart j hj)
  rw [hsplit, ← mem_first_piece hrest hpieces hj hjkept]
  constructor
  · rintro ⟨found, hfound, hifound, hjfound⟩
    rcases List.mem_cons.1 hfound with rfl | hfound
    · exact (List.mem_cons.1 hjfound).resolve_left hne
    · exact absurd hifound (hothers found hfound)
  · intro hjpiece
    exact ⟨start :: piece, List.mem_cons_self, List.mem_cons_self, List.mem_cons_of_mem _ hjpiece⟩

/-- Whether later positions are together does not depend on the first one. -/
theorem together_rest_iff (hi : i ≠ start) (hj : j ≠ start) :
    Together ((start :: rest).splitOnP p) i j ↔ Together (rest.splitOnP p) i j := by
  cases hcut : p start with
  | true => simp [Together, splitOnP_of_cut hcut]
  | false =>
    obtain ⟨piece, pieces, hpieces, hsplit⟩ := exists_splitOnP hcut rest
    simp [Together, hsplit, hpieces, hi, hj]

/-- Two positions lie in one piece exactly when none between them is cut. -/
theorem together_splitOnP_iff (hsorted : positions.Pairwise (· < ·)) (hi : i ∈ positions)
    (hj : j ∈ positions) (hikept : p i = false) (hjkept : p j = false) (hij : i < j) :
    Together (positions.splitOnP p) i j ↔ ∀ k ∈ positions, i < k → k < j → p k = false := by
  induction positions with
  | nil => cases hi
  | cons start rest ih =>
    obtain ⟨hstart, hrest⟩ := List.pairwise_cons.1 hsorted
    have hjrest : j ∈ rest := by
      refine (List.mem_cons.1 hj).resolve_left ?_
      rintro rfl
      rcases List.mem_cons.1 hi with rfl | hi
      · exact Nat.lt_irrefl i hij
      · exact Nat.lt_asymm (hstart i hi) hij
    rcases List.mem_cons.1 hi with rfl | hirest
    · rw [together_start_iff hstart hrest hjrest hikept hjkept]
      constructor
      · intro hnone k hk hik hkj
        exact hnone k ((List.mem_cons.1 hk).resolve_left (Nat.ne_of_gt hik)) hkj
      · exact fun hnone k hk hkj => hnone k (List.mem_cons_of_mem _ hk) (hstart k hk) hkj
    · have hlt := hstart i hirest
      rw [together_rest_iff (Nat.ne_of_gt hlt) (Nat.ne_of_gt (hstart j hjrest)),
        ih hrest hirest hjrest]
      simp [Nat.lt_asymm hlt]

end Positions

/-! ## The positions of words -/

/-- The kept positions between one space outside quotes and the next, where there are any. -/
def wordPositions (text : List Char) : List (List Nat) :=
  (((List.range text.length).splitOnP (isCutAt text)).map
    (List.filter (!isQuoteAt text ·))).filter (· ≠ [])

/-- The pieces between spaces outside quotes group the kept positions. -/
theorem placesWords_wordPositions (text : List Char) :
    PlacesWords text (wordPositions text) where
  ne_nil := fun group hgroup => by simpa using (List.mem_filter.1 hgroup).2
  flatten := by
    rw [wordPositions, List.flatten_filter_ne_nil, ← List.filter_flatten, flatten_splitOnP,
      List.filter_filter, keptPositions]
    exact List.filter_congr fun i _ => Bool.and_comm _ _
  together_iff := by
    intro i hi j hj hij
    simp only [keptPositions, List.mem_filter, Bool.and_eq_true, Bool.not_eq_true'] at hi hj
    obtain ⟨hirange, hicut, hiquote⟩ := hi
    obtain ⟨hjrange, hjcut, hjquote⟩ := hj
    have hpiece := together_splitOnP_iff List.pairwise_lt_range hirange hjrange hicut hjcut hij
    have hbetween : (∀ k ∈ List.range text.length, i < k → k < j → isCutAt text k = false) ↔
        ∀ k, i < k → k < j → isCutAt text k = false :=
      ⟨fun h k hik hkj =>
          h k (List.mem_range.2 (Nat.lt_trans hkj (List.mem_range.1 hjrange))) hik hkj,
        fun h k _ => h k⟩
    rw [← hbetween, ← hpiece]
    constructor
    · rintro ⟨group, hgroup, higroup, hjgroup⟩
      obtain ⟨piece, hpiece, rfl⟩ := List.mem_map.1 (List.mem_filter.1 hgroup).1
      exact ⟨piece, hpiece, (List.mem_filter.1 higroup).1, (List.mem_filter.1 hjgroup).1⟩
    · rintro ⟨piece, hpiece, hipiece, hjpiece⟩
      have hikept : i ∈ piece.filter (!isQuoteAt text ·) := by simp [hipiece, hiquote]
      have hjkept : j ∈ piece.filter (!isQuoteAt text ·) := by simp [hjpiece, hjquote]
      refine ⟨_, List.mem_filter.2 ⟨List.mem_map.2 ⟨piece, hpiece, rfl⟩, ?_⟩, hikept, hjkept⟩
      exact decide_eq_true (List.ne_nil_of_mem hikept)

section Unique

variable {group : List Nat} {groups others : List (List Nat)} {i j : Nat}

/-- Positions of a later group are together exactly when they are so among the later groups. -/
theorem together_cons_iff (hsorted : (group :: groups).flatten.Pairwise (· < ·))
    (hi : i ∈ groups.flatten) : Together (group :: groups) i j ↔ Together groups i j := by
  have hnot : i ∉ group := fun hmem =>
    Nat.lt_irrefl i ((List.pairwise_append.1 hsorted).2.2 i hmem i hi)
  simp [Together, hnot]

/-- A position of the first group is not together with one of a later group. -/
theorem not_together_cons (hsorted : (group :: groups).flatten.Pairwise (· < ·))
    (hi : i ∈ group) (hj : j ∈ groups.flatten) : ¬Together (group :: groups) i j := by
  have hlt := (List.pairwise_append.1 hsorted).2.2
  rintro ⟨found, hfound, hifound, hjfound⟩
  rcases List.mem_cons.1 hfound with rfl | hfound
  · exact Nat.lt_irrefl j (hlt j hjfound j hj)
  · exact Nat.lt_irrefl i (hlt i hi i (List.mem_flatten.2 ⟨found, hfound, hifound⟩))

/-- A first group does not go on in other groups of the same positions, when those that are together
there are together here. -/
theorem eq_nil_of_together {more : List Nat} (hsorted : (group :: groups).flatten.Pairwise (· < ·))
    (hne : group ≠ []) (hflatten : groups.flatten = more ++ others.flatten)
    (htogether : ∀ i ∈ group, ∀ j ∈ groups.flatten, i < j →
      Together ((group ++ more) :: others) i j → Together (group :: groups) i j) : more = [] := by
  obtain ⟨i, hi⟩ := List.exists_mem_of_ne_nil group hne
  refine List.eq_nil_iff_forall_not_mem.2 fun j hj => ?_
  have hjrest : j ∈ groups.flatten := by
    rw [hflatten]
    exact List.mem_append_left _ hj
  have hlt := (List.pairwise_append.1 hsorted).2.2 i hi j hjrest
  refine not_together_cons hsorted hi hjrest (htogether i hi j hjrest hlt ?_)
  exact ⟨_, List.mem_cons_self, List.mem_append_left _ hi, List.mem_append_right _ hj⟩

/-- Groups of the same positions in order are the same when the same positions are together. -/
theorem groups_unique (hsorted : groups.flatten.Pairwise (· < ·))
    (hflatten : groups.flatten = others.flatten) (hne : ∀ group ∈ groups, group ≠ [])
    (hnothers : ∀ other ∈ others, other ≠ [])
    (htogether : ∀ i ∈ groups.flatten, ∀ j ∈ groups.flatten, i < j →
      (Together groups i j ↔ Together others i j)) : groups = others := by
  -- The induction is on the groups. Of the two first groups one is the beginning of the other, and
  -- what the longer one has more would be together with it in both.
  induction groups generalizing others with
  | nil =>
    refine (List.eq_nil_iff_forall_not_mem.2 fun other hother => hnothers other hother ?_).symm
    exact List.flatten_eq_nil_iff.1 hflatten.symm other hother
  | cons group groups ih =>
    cases others with
    | nil => exact absurd (List.flatten_eq_nil_iff.1 hflatten group (by simp)) (hne group (by simp))
    | cons other others =>
      have hother : (other :: others).flatten.Pairwise (· < ·) := hflatten ▸ hsorted
      rw [List.flatten_cons, List.flatten_cons] at hflatten
      obtain rfl : group = other := by
        rcases List.append_eq_append_iff.1 hflatten with ⟨more, rfl, hrest⟩ | ⟨more, rfl, hrest⟩
        · have hmore : more = [] := eq_nil_of_together hsorted (hne group (by simp)) hrest
            fun i hi j hj hij => (htogether i (by simp [hi]) j (by simp [hj]) hij).2
          simp [hmore]
        · have hmore : more = [] := by
            refine eq_nil_of_together hother (hnothers other (by simp)) hrest
              fun i hi j hj hij => ?_
            have hjall : j ∈ ((other ++ more) :: groups).flatten := by
              rw [List.flatten_cons, hflatten]
              exact List.mem_append_right _ hj
            exact (htogether i (by simp [hi]) j hjall hij).1
          simp [hmore]
      have hrest := List.append_cancel_left hflatten
      refine congrArg (group :: ·) (ih (List.pairwise_append.1 hsorted).2.1 hrest
        (fun g hg => hne g (List.mem_cons_of_mem _ hg))
        (fun g hg => hnothers g (List.mem_cons_of_mem _ hg)) fun i hi j hj hij => ?_)
      rw [← together_cons_iff hsorted hi, ← together_cons_iff hother (hrest ▸ hi)]
      exact htogether i (by simp [hi]) j (by simp [hj]) hij

end Unique

/-- The kept positions are grouped in one way only. -/
theorem PlacesWords.unique {text : List Char} {groups others : List (List Nat)}
    (h : PlacesWords text groups) (hothers : PlacesWords text others) : groups = others := by
  have hkept := pairwise_keptPositions text
  rw [← h.flatten] at hkept
  refine groups_unique hkept (h.flatten.trans hothers.flatten.symm) h.ne_nil hothers.ne_nil
    fun i hi j hj hij => ?_
  rw [h.flatten] at hi hj
  rw [h.together_iff i hi j hj hij, hothers.together_iff i hi j hj hij]

/-! ## The words that are read -/

section Texts

variable (text : List Char) (i : Nat) (positions : List Nat)

/-- What is marked at a position: the character there and whether it is quoted. Behind the text
stands a double quote, which is neither cut nor kept. -/
def markAt : Char × Bool :=
  (text.getD i '"', quoteOpen (text.take i))

/-- A text is marked position by position. -/
theorem markFrom_eq : markFrom false text = (List.range text.length).map (markAt text) := by
  refine List.ext_getElem (by simp [markFrom]) fun i hi _ => ?_
  have hi : i < text.length := by simpa [markFrom] using hi
  simp [markFrom, markAt, List.getD_eq_getElem?_getD, hi]

/-- A position is cut when a space outside quotes is marked there. -/
theorem isCut_markAt : isCut (markAt text i) = isCutAt text i := by
  rw [isCut, isCutAt, markAt, List.getD_eq_getElem?_getD]
  cases text[i]? <;> rfl

/-- The text of marked positions is made of the characters where no double quote stands. -/
theorem pieceText_map_markAt :
    pieceText (positions.map (markAt text)) =
      charsAt text (positions.filter (!isQuoteAt text ·)) := by
  induction positions with
  | nil => rfl
  | cons i rest ih =>
    rw [pieceText, charsAt] at ih ⊢
    rw [List.map_cons, List.map_cons, List.filter_cons, ih, List.filter_cons]
    cases hi : text[i]? with
    | none => simp [markAt, isQuoteAt, hi]
    | some c => by_cases hc : c = '"' <;> simp [markAt, isQuoteAt, hi, hc]

end Texts

/-- Positions of the text have characters. -/
theorem charsAt_eq_nil_iff {text : List Char} {positions : List Nat}
    (h : ∀ i ∈ positions, i < text.length) : charsAt text positions = [] ↔ positions = [] := by
  constructor
  · intro hnil
    refine List.eq_nil_iff_forall_not_mem.2 fun i hi => ?_
    have hnone := List.filterMap_eq_nil_iff.1 hnil i hi
    exact Nat.not_le_of_gt (h i hi) (List.getElem?_eq_none_iff.1 hnone)
  · rintro rfl
    rfl

/-- The words of a text are the texts of its groups of positions. -/
theorem wordsOf_eq (text : List Char) : wordsOf text = (wordPositions text).map (charsAt text) := by
  have hcut : isCut ∘ markAt text = isCutAt text := funext (isCut_markAt text)
  have hpieces : pieces false text =
      (((List.range text.length).splitOnP (isCutAt text)).map
        (List.filter (!isQuoteAt text ·))).map (charsAt text) := by
    rw [pieces, markFrom_eq, splitOnP_map, hcut, List.map_map, List.map_map]
    exact List.map_congr_left fun piece _ => pieceText_map_markAt text piece
  rw [wordsOf, hpieces, wordPositions, List.filter_map]
  congr 1
  -- A group has characters as soon as it has positions.
  refine List.filter_congr fun group hgroup => ?_
  obtain ⟨piece, hpiece, rfl⟩ := List.mem_map.1 hgroup
  refine decide_eq_decide.2 (not_congr (charsAt_eq_nil_iff fun i hi => ?_))
  have hflat : i ∈ ((List.range text.length).splitOnP (isCutAt text)).flatten :=
    List.mem_flatten.2 ⟨piece, hpiece, (List.mem_filter.1 hi).1⟩
  rw [flatten_splitOnP] at hflat
  exact List.mem_range.1 (List.mem_filter.1 hflat).1

/-- Words are read exactly when every double quote has a partner, and they are the texts of the
groups of positions, one word for each group. -/
theorem splitWords_eq_some_iff {text : List Char} {words : List (List Char)} :
    splitWords text = some words ↔
      ¬Odd (text.count '"') ∧
        ∃ groups, PlacesWords text groups ∧ words = groups.map (charsAt text) := by
  -- A double quote is open at the end exactly when their number is odd.
  have hread : splitWords text = some words ↔ ¬Odd (text.count '"') ∧ wordsOf text = words := by
    rw [splitWords_eq, quoteOpen]
    by_cases hodd : Odd (text.count '"') <;> simp [hodd]
  rw [hread, wordsOf_eq]
  refine and_congr_right fun _ => ⟨?_, ?_⟩
  · rintro rfl
    exact ⟨_, placesWords_wordPositions text, rfl⟩
  · rintro ⟨groups, hgroups, rfl⟩
    rw [hgroups.unique (placesWords_wordPositions text)]

/-- The words that are read are together the characters at the kept positions. Each of them has
characters, and none has a double quote. -/
theorem words_of_splitWords {text : List Char} {words : List (List Char)}
    (h : splitWords text = some words) :
    words.flatten = charsAt text (keptPositions text) ∧
      ∀ word ∈ words, word ≠ [] ∧ '"' ∉ word := by
  obtain ⟨-, groups, hgroups, rfl⟩ := splitWords_eq_some_iff.1 h
  refine ⟨by rw [← hgroups.flatten, charsAt, List.filterMap_flatten]; rfl, fun word hword => ?_⟩
  obtain ⟨group, hgroup, rfl⟩ := List.mem_map.1 hword
  have hkept : ∀ i ∈ group, i ∈ keptPositions text := fun i hi => by
    rw [← hgroups.flatten]
    exact List.mem_flatten.2 ⟨group, hgroup, hi⟩
  constructor
  · have hlt : ∀ i ∈ group, i < text.length := fun i hi =>
      List.mem_range.1 (List.mem_filter.1 (hkept i hi)).1
    exact fun hnil => hgroups.ne_nil group hgroup ((charsAt_eq_nil_iff hlt).1 hnil)
  · intro hquote
    obtain ⟨i, hi, hchar⟩ := List.mem_filterMap.1 hquote
    have hnot := (List.mem_filter.1 (hkept i hi)).2
    simp [isQuoteAt, hchar] at hnot

/-! ## Words between double quotes -/

/-- A word between double quotes. -/
def inQuotes (word : List Char) : List Char :=
  '"' :: word ++ ['"']

/-- A line that has some words between double quotes, with one space or more between one word and
the next. -/
inductive Requotes : List (List Char) → List Char → Prop
  /-- No words make an empty line. -/
  | nil : Requotes [] []
  /-- One word makes a line without spaces around it. -/
  | single (word : List Char) : Requotes [word] (inQuotes word)
  /-- A further word goes in front, before `gap + 1` spaces. -/
  | cons (word : List Char) (gap : Nat) {next : List Char} {words : List (List Char)}
      {line : List Char} (rest : Requotes (next :: words) line) :
      Requotes (word :: next :: words) (inQuotes word ++ (List.replicate (gap + 1) ' ' ++ line))

/-- What stands between quotes is read up to the closing quote. -/
theorem wordsFrom_quoted {word : List Char} (h : '"' ∉ word) (read rest : List Char) :
    wordsFrom true read (word ++ '"' :: rest) = wordsFrom false (read ++ word) rest := by
  induction word generalizing read with
  | nil => simp [wordsFrom]
  | cons c word ih =>
    have hc : c ≠ '"' := fun he => h (by simp [he])
    have hword := ih (fun hmem => h (List.mem_cons_of_mem c hmem)) (read ++ [c])
    simpa [wordsFrom, hc] using hword

/-- A word between double quotes is read as the word. -/
theorem wordsFrom_inQuotes {word : List Char} (h : '"' ∉ word) (rest : List Char) :
    wordsFrom false [] (inQuotes word ++ rest) = wordsFrom false word rest := by
  have hquoted := wordsFrom_quoted h [] rest
  simpa [inQuotes, wordsFrom] using hquoted

/-- Spaces behind a word end it. -/
theorem wordsFrom_replicate (word : List Char) (gap : Nat) (rest : List Char) :
    wordsFrom false word (List.replicate (gap + 1) ' ' ++ rest) =
      (splitWords rest).map (keepWord word ++ ·) := by
  induction gap generalizing word with
  | zero => simp [wordsFrom, splitWords]
  | succ gap ih =>
    -- Between the first space and the next one lies no word.
    have hnext := ih []
    rw [List.replicate_succ, List.cons_append, wordsFrom, if_neg (by decide), if_pos ⟨rfl, rfl⟩,
      hnext, Option.map_map]
    rfl

/-- Words between double quotes are read back. -/
theorem splitWords_of_requotes {words : List (List Char)} {line : List Char}
    (h : Requotes words line) (hwords : ∀ word ∈ words, word ≠ [] ∧ '"' ∉ word) :
    splitWords line = some words := by
  induction h with
  | nil => rfl
  | single word =>
    obtain ⟨hne, hquote⟩ := hwords word (by simp)
    have hread := wordsFrom_inQuotes hquote []
    rw [List.append_nil] at hread
    rw [splitWords, hread]
    simp [wordsFrom, keepWord, hne]
  | cons word gap rest ih =>
    obtain ⟨hne, hquote⟩ := hwords word (by simp)
    have hrest := ih fun other hother => hwords other (List.mem_cons_of_mem word hother)
    rw [splitWords, wordsFrom_inQuotes hquote, wordsFrom_replicate, hrest]
    simp [keepWord, hne]

/-! ## All of it -/

/-- The words that are read are told by positions.

Nothing is read exactly when the number of double quotes is odd. Otherwise the words together are
the text without its double quotes and without its spaces outside quotes, none of them is empty, and
two of the characters that are kept belong to one word exactly when no space outside quotes lies
between them (`PlacesWords`), by which the words are determined. So words with characters and
without double quotes are read back from any line that has them between double quotes, and the words
that are read from a text are such words. -/
theorem splitWords_by_position (text : List Char) :
    (splitWords text = none ↔ Odd (text.count '"')) ∧
      (∀ words, splitWords text = some words ↔
        ¬Odd (text.count '"') ∧
          ∃ groups, PlacesWords text groups ∧ words = groups.map (charsAt text)) ∧
      (∀ words, splitWords text = some words →
        words.flatten = charsAt text (keptPositions text) ∧ ∀ word ∈ words, word ≠ []) ∧
      (∀ words line, (∀ word ∈ words, word ≠ [] ∧ '"' ∉ word) → Requotes words line →
        splitWords line = some words) ∧
      (∀ words line, splitWords text = some words → Requotes words line →
        splitWords line = some words) := by
  refine ⟨?_, fun words => splitWords_eq_some_iff, fun words h => ?_,
    fun words line hwords hline => splitWords_of_requotes hline hwords, fun words line h hline =>
    splitWords_of_requotes hline (words_of_splitWords h).2⟩
  · rw [splitWords_eq, quoteOpen]
    by_cases hodd : Odd (text.count '"') <;> simp [hodd]
  · obtain ⟨hflatten, hwords⟩ := words_of_splitWords h
    exact ⟨hflatten, fun word hword => (hwords word hword).1⟩

end CommandShell
