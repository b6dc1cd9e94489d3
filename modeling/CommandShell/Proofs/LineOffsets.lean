import CommandShell.Line.Offsets
import CommandShell.Proofs.LineParts
import CommandShell.Proofs.Utf8
import Mathlib.Data.List.Infix

/-!
# Offsets in a line

The byte of `>` stands nowhere but where a `>` stands. What is found among the bytes of a line
therefore lies between two of its characters, and every cut that parsing makes at an offset
succeeds.

## Main results

* `cutAt_encode`: a text is cut at the number of bytes that its front has;
* `findMark_append` and `findMark_truncate`: the redirection is found where the characters are
  divided;
* `CommandLine.parseOffsets_eq`: parsing by byte offsets never fails to cut, and gives what parsing
  by characters gives.
-/

namespace CommandShell

/-! ## The byte of the mark -/

/-- Every character has bytes. -/
theorem encodeChar_ne_nil (c : Char) : Utf8.encodeChar c ≠ [] := by
  rw [Utf8.encodeChar]
  split_ifs <;> simp

/-- Only the character `>` has the byte of `>`. -/
theorem angleByte_mem_encodeChar {c : Char} : angleByte ∈ Utf8.encodeChar c ↔ c = '>' := by
  constructor
  · intro hmem
    have hrange := Utf8.toNat_range c
    -- Beyond ASCII every byte is at least 0x80.
    have hvalue : c.toNat = 0x3E := by
      simp only [Utf8.encodeChar] at hmem
      split_ifs at hmem <;>
        simp only [List.mem_cons, List.not_mem_nil, or_false, angleByte, ← UInt8.toNat_inj,
          UInt8.toNat_ofNat'] at hmem <;>
        simp at hmem <;> omega
    exact Char.toNat_inj.1 hvalue
  · rintro rfl
    decide

/-- A text whose first byte is that of `>` begins with a `>`. -/
theorem head?_of_encode {text : List Char} (h : (Utf8.encode text).head? = some angleByte) :
    text.head? = some '>' := by
  cases text with
  | nil => simp at h
  | cons c rest =>
    obtain ⟨b, bytes, hbytes⟩ := List.exists_cons_of_ne_nil (encodeChar_ne_nil c)
    obtain rfl : b = angleByte := by simpa [hbytes] using h
    simp [angleByte_mem_encodeChar.1 (hbytes ▸ List.mem_cons_self)]

/-- A text whose last byte is that of `>` ends in a `>`. -/
theorem getLast?_of_encode {text : List Char} (h : (Utf8.encode text).getLast? = some angleByte) :
    text.getLast? = some '>' := by
  rcases text.eq_nil_or_concat' with rfl | ⟨front, c, rfl⟩
  · simp at h
  · rw [Utf8.encode_append, Utf8.encode_cons, Utf8.encode_nil, List.append_nil,
      List.getLast?_append_of_ne_nil _ (encodeChar_ne_nil c)] at h
    simp [angleByte_mem_encodeChar.1 (List.mem_of_getLast? h)]

/-- A text without `>` has no byte of one. -/
theorem angleByte_notMem_encode {text : List Char} (h : '>' ∉ text) :
    angleByte ∉ Utf8.encode text := by
  intro hmem
  obtain ⟨c, hc, hbyte⟩ := List.mem_flatMap.1 hmem
  exact h (angleByte_mem_encodeChar.1 hbyte ▸ hc)

/-- The bytes of a run of `>`. -/
theorem encode_replicate_angle (n : Nat) :
    Utf8.encode (List.replicate n '>') = List.replicate n angleByte := by
  induction n with
  | zero => rfl
  | succ n ih => rw [List.replicate_succ, Utf8.encode_cons, ih]; rfl

/-- A mark whose bytes are not among those in front stands behind them. -/
theorem infix_of_infix_append {mark front back : Bytes} {b : UInt8} (hmark : mark.head? = some b)
    (hfront : b ∉ front) (h : mark <:+: front ++ back) : mark <:+: back := by
  induction front with
  | nil => exact h
  | cons a front ih =>
    rcases List.infix_cons_iff.1 h with hprefix | hinner
    · obtain ⟨rest, rfl⟩ := List.head?_eq_some_iff.1 hmark
      exact absurd (by simp [(List.cons_prefix_cons.1 hprefix).1]) hfront
    · exact ih (fun hmem => hfront (List.mem_cons_of_mem a hmem)) hinner

/-- A text without `>>` has no bytes of one. -/
theorem not_infix_encode {text : List Char} (h : ¬appendMark <:+: text) :
    ¬[angleByte, angleByte] <:+: Utf8.encode text := by
  induction text with
  | nil => simp
  | cons c rest ih =>
    rw [appendMark_infix_cons, not_or] at h
    intro hinner
    rw [Utf8.encode_cons] at hinner
    by_cases hc : c = '>'
    · subst hc
      rcases List.infix_cons_iff.1 hinner with hprefix | hbehind
      · have hhead := List.singleton_prefix_iff_head?_eq_some.1 (List.cons_prefix_cons.1 hprefix).2
        exact h.1 ⟨rfl, head?_of_encode hhead⟩
      · exact ih h.2 hbehind
    · exact ih h.2 (infix_of_infix_append rfl (mt angleByte_mem_encodeChar.1 hc) hinner)

/-! ## Searching from the end -/

/-- A mark that does not stand among the bytes has no offset. -/
theorem lastOffset_eq_none {mark bytes : Bytes} (h : ¬mark <:+: bytes) :
    lastOffset mark bytes = none := by
  induction bytes with
  | nil => rfl
  | cons b rest ih =>
    rw [List.infix_cons_iff, not_or] at h
    simp [lastOffset, ih h.2, List.isPrefixOf_iff_prefix, h.1]

/-- The last place of a mark does not depend on what stands in front of it. -/
theorem lastOffset_append {mark bytes : Bytes} {offset : Nat}
    (h : lastOffset mark bytes = some offset) (front : Bytes) :
    lastOffset mark (front ++ bytes) = some (front.length + offset) := by
  induction front with
  | nil => simpa using h
  | cons b front ih =>
    rw [List.cons_append, lastOffset, ih, List.length_cons]
    simp only [Option.some.injEq]
    omega

/-- The last two bytes of a run of `>` are the last place of the mark when none stands behind. -/
theorem lastOffset_run {back : Bytes} (hhead : back.head? ≠ some angleByte)
    (h : ¬[angleByte, angleByte] <:+: back) :
    lastOffset [angleByte, angleByte] (angleByte :: angleByte :: back) = some 0 := by
  have hbehind : ¬[angleByte, angleByte] <:+: angleByte :: back := by
    rw [List.infix_cons_iff, List.cons_prefix_cons, List.singleton_prefix_iff_head?_eq_some]
    tauto
  rw [lastOffset, lastOffset_eq_none hbehind]
  simp

/-- From the end of a run that does not go on in front, the start of the run is found. -/
theorem runStart_run {front bytes : Bytes} (hlast : front.getLast? ≠ some angleByte) {n : Nat}
    (h : front ++ List.replicate n angleByte <+: bytes) :
    runStart bytes (front.length + n) = some front.length := by
  induction n with
  | zero =>
    rcases front.eq_nil_or_concat' with rfl | ⟨init, b, rfl⟩
    · rfl
    · obtain ⟨back, rfl⟩ := h
      have hb : b ≠ angleByte := by simpa using hlast
      simp [runStart, hb]
  | succ n ih =>
    have hshort : front ++ List.replicate n angleByte <+: bytes := by
      refine List.IsPrefix.trans ?_ h
      rw [List.replicate_succ', ← List.append_assoc]
      exact List.prefix_append _ _
    obtain ⟨back, rfl⟩ := h
    have hbyte : (front ++ List.replicate (n + 1) angleByte ++ back)[front.length + n]? =
        some angleByte := by
      rw [List.append_assoc, List.getElem?_append_right (by omega),
        List.getElem?_append_left (by simp)]
      simp
    rw [← Nat.add_assoc, runStart, hbyte]
    simpa using ih hshort

/-! ## Runs -/

/-- A text begins with a run of `>`, behind which something else comes. -/
theorem exists_run (text : List Char) :
    ∃ run after, text = List.replicate run '>' ++ after ∧ after.head? ≠ some '>' := by
  have hrun : text.takeWhile (· == '>') =
      List.replicate (text.takeWhile (· == '>')).length '>' :=
    List.eq_replicate_of_mem fun c hc => by simpa using List.mem_takeWhile_imp hc
  refine ⟨(text.takeWhile (· == '>')).length, text.dropWhile (· == '>'), ?_, fun h => ?_⟩
  · rw [← hrun, List.takeWhile_append_dropWhile]
  · have hnot := List.head?_dropWhile_not (· == '>') text
    simp [h] at hnot

/-- Behind a run of `>` a text goes on with what is no `>`. -/
theorem dropWhile_run (run : Nat) {after : List Char} (h : after.head? ≠ some '>') :
    (List.replicate run '>' ++ after).dropWhile (· == '>') = after := by
  rw [List.dropWhile_append_of_pos fun c hc => by simp [List.eq_of_mem_replicate hc]]
  cases after with
  | nil => rfl
  | cons c rest => exact List.dropWhile_cons_of_neg (by simpa using h)

/-! ## Cutting -/

/-- A text is cut at the number of bytes that its front has. -/
theorem cutAt_encode (before after : List Char) :
    cutAt (before ++ after) (Utf8.encode before).length = some (before, after) := by
  induction before with
  | nil => simp [cutAt]
  | cons c before ih =>
    have hsize : 0 < (Utf8.encodeChar c).length := List.length_pos_iff.2 (encodeChar_ne_nil c)
    obtain ⟨offset, hoffset⟩ : ∃ offset, (Utf8.encode (c :: before)).length = offset + 1 :=
      ⟨_, (Nat.succ_pred_eq_of_pos (by simp; omega)).symm⟩
    have hlength : offset + 1 = (Utf8.encodeChar c).length + (Utf8.encode before).length := by
      rw [← hoffset, Utf8.encode_cons, List.length_append]
    rw [hoffset, List.cons_append, cutAt, if_neg (by omega), hlength, Nat.add_sub_cancel_left, ih]
    rfl

/-- A text is cut behind a mark at the number of bytes in front of the mark and in it. -/
theorem cutAt_behind (before mark after : List Char) :
    cutAt (before ++ (mark ++ after)) ((Utf8.encode before).length + (Utf8.encode mark).length) =
      some (before ++ mark, after) := by
  have h := cutAt_encode (before ++ mark) after
  rwa [Utf8.encode_append, List.length_append, List.append_assoc] at h

/-- A redirection that appends is found at the start of the last run of two or more `>`. -/
theorem findMark_append {before after : List Char} (hlast : before.getLast? ≠ some '>')
    (hmark : ¬appendMark <:+: after.dropWhile (· == '>')) :
    findMark (Utf8.encode (before ++ '>' :: '>' :: after)) =
      some (some ⟨(Utf8.encode before).length, 2, .append⟩) := by
  -- The run goes on behind its first two characters.
  obtain ⟨n, rest, rfl, hhead⟩ := exists_run after
  rw [dropWhile_run n hhead] at hmark
  have hbytes : Utf8.encode (before ++ '>' :: '>' :: (List.replicate n '>' ++ rest)) =
      Utf8.encode before ++ List.replicate n angleByte ++
        angleByte :: angleByte :: Utf8.encode rest := by
    have hmove : '>' :: '>' :: (List.replicate n '>' ++ rest) =
        List.replicate n '>' ++ '>' :: '>' :: rest := by
      rw [← List.cons_append, ← List.cons_append, ← List.replicate_succ, ← List.replicate_succ,
        List.replicate_succ', List.replicate_succ']
      simp
    rw [hmove, Utf8.encode_append, Utf8.encode_append, encode_replicate_angle, List.append_assoc]
    rfl
  have hoffset : lastOffset [angleByte, angleByte]
      (Utf8.encode (before ++ '>' :: '>' :: (List.replicate n '>' ++ rest))) =
        some ((Utf8.encode before).length + n) := by
    rw [hbytes,
      lastOffset_append (lastOffset_run (mt head?_of_encode hhead) (not_infix_encode hmark))]
    simp
  rw [findMark, hoffset]
  simp only
  rw [runStart_run (mt getLast?_of_encode hlast) ⟨_, hbytes.symm⟩]
  rfl

/-- A redirection that replaces is found at the last `>`. -/
theorem findMark_truncate {before after : List Char}
    (hmark : ¬appendMark <:+: before ++ '>' :: after) (hafter : '>' ∉ after) :
    findMark (Utf8.encode (before ++ '>' :: after)) =
      some (some ⟨(Utf8.encode before).length, 1, .truncate⟩) := by
  have hlast : lastOffset [angleByte] (angleByte :: Utf8.encode after) = some 0 := by
    have hnone : ¬[angleByte] <:+: Utf8.encode after := by
      rw [List.singleton_infix_iff _ _]
      exact angleByte_notMem_encode hafter
    simp [lastOffset, lastOffset_eq_none hnone]
  have hbytes : Utf8.encode (before ++ '>' :: after) =
      Utf8.encode before ++ angleByte :: Utf8.encode after := by
    rw [Utf8.encode_append]
    rfl
  rw [findMark, lastOffset_eq_none (not_infix_encode hmark), hbytes, lastOffset_append hlast]
  rfl

/-- Without a `>` no redirection is found. -/
theorem findMark_whole {text : List Char} (h : '>' ∉ text) :
    findMark (Utf8.encode text) = some none := by
  have hbyte := angleByte_notMem_encode h
  have hone : ¬[angleByte] <:+: Utf8.encode text := by rwa [List.singleton_infix_iff _ _]
  have htwo : ¬[angleByte, angleByte] <:+: Utf8.encode text := fun hinner =>
    hbyte (hinner.subset List.mem_cons_self)
  rw [findMark, lastOffset_eq_none htwo, lastOffset_eq_none hone]
  rfl

namespace CommandLine

/-- Splitting a text by byte offsets cuts at characters only and gives what splitting by characters
gives. -/
theorem splitOffsets_eq (text : List Char) : splitOffsets text = some (split text) := by
  rw [splitOffsets, split, splitRedirection]
  cases happend : splitAppend text with
  | some parts =>
    obtain ⟨command, target⟩ := parts
    obtain ⟨rfl, hlast, hmark⟩ := splitAppend_eq_some_iff.1 happend
    have hbehind : cutAt (command ++ '>' :: '>' :: target) ((Utf8.encode command).length + 2) =
      some (command ++ ['>', '>'], target) := cutAt_behind command ['>', '>'] target
    simp only [findMark_append hlast hmark, cutAt_encode, hbehind]
  | none =>
    have hmark := splitAppend_eq_none_iff.1 happend
    cases htruncate : splitTruncate text with
    | some parts =>
      obtain ⟨command, target⟩ := parts
      obtain ⟨rfl, hafter⟩ := splitTruncate_eq_some_iff.1 htruncate
      have hbehind : cutAt (command ++ '>' :: target) ((Utf8.encode command).length + 1) =
        some (command ++ ['>'], target) := cutAt_behind command ['>'] target
      simp only [findMark_truncate hmark hafter, cutAt_encode, hbehind, Option.map_some]
    | none =>
      rw [findMark_whole (splitTruncate_eq_none_iff.1 htruncate)]
      rfl

/-- Parsing by byte offsets never fails to cut, and gives what parsing by characters gives. -/
theorem parseOffsets_eq (line : String) : parseOffsets line = some (parse line) := by
  rw [parseOffsets, parse, parseChars, splitOffsets_eq]
  split_ifs with hblank
  · rfl
  · cases split (trimAscii line.toList) with
    | error fault => rfl
    | ok parts => cases hwords : splitWords parts.1 <;> simp only [hwords]

end CommandLine

end CommandShell
