import CommandShell.Text.Utf8
import Mathlib.Tactic.IntervalCases
import Mathlib.Tactic.SplitIfs

/-!
# Decoding UTF-8

The decoder reads back what the encoder writes, and a byte below 128 stands for itself wherever it
comes, also behind a sequence that it leaves incomplete.

## Main results

* `Utf8.scan_append_ascii`: decoding may be cut behind a byte below 128;
* `Utf8.scan_encode_append` and `Utf8.decodeLossy_encode`: a text is read back from its bytes;
* `Utf8.Valid.encode_decodeLossy`: valid bytes are written back from their text;
* `Utf8.encode_lt_encode`: the order of bytes is the order of texts;
* `Utf8.mem_encode_iff`: a byte below 128 is among the bytes of a text when its character is in the
  text;
* `Utf8.mem_of_mem_decodeLossy` and `Utf8.encode_decodeLossy_of_ascii`: characters below 128 come
  from bytes below 128 only.
-/

namespace CommandShell.Utf8

/-! ## Bytes below 128 -/

/-- The next byte of a character begun is at least 128. -/
def State.Sound : State → Prop
  | .start => True
  | .inside _ low _ _ => 0x80 ≤ low

/-- What a first byte leads to. -/
theorem sound_first (b : UInt8) : (first b).2.Sound := by
  simp only [first]
  split_ifs <;> simp [State.Sound]

/-- Every byte leads from a sound state to a sound one. -/
theorem sound_step (state : State) (b : UInt8) : (step state b).2.Sound := by
  -- A byte that does not go on with the character begun is a first byte itself.
  cases state with
  | start => exact sound_first b
  | inside owed low high value =>
    simp only [step]
    split
    · cases owed <;> simp [State.Sound]
    · exact sound_first b

/-- A byte below 128 is a character. -/
theorem first_ascii {b : UInt8} (h : b.toNat < 0x80) :
    first b = ([some (Char.ofNat b.toNat)], .start) := by
  simp [first, h]

/-- Decoding may be cut behind a byte below 128: it ends whatever comes before. -/
theorem scan_append_ascii {b : UInt8} (h : b.toNat < 0x80) (bytes rest : Bytes) :
    ∀ state : State, state.Sound →
      scan state (bytes ++ b :: rest) =
        scan state bytes ++ some (Char.ofNat b.toNat) :: scan .start rest := by
  induction bytes with
  | nil =>
    intro state hstate
    cases state with
    | start => simp [scan, step, first_ascii h]
    | inside owed low high value =>
      -- The byte is too small to go on with the character begun.
      have hlow : ¬(low ≤ b.toNat ∧ b.toNat ≤ high) := by
        have : 0x80 ≤ low := hstate
        omega
      simp [scan, step, hlow, first_ascii h]
  | cons a bytes ih =>
    intro state _
    have hscan : ∀ more, scan state (a :: more) =
        (step state a).1 ++ scan (step state a).2 more := by
      intro more
      cases state <;> rfl
    rw [List.cons_append, hscan, hscan, ih _ (sound_step state a), List.append_assoc]

/-- A byte below 128 is a character of the text wherever it stands. -/
theorem decodeLossy_append_ascii {b : UInt8} (h : b.toNat < 0x80) (bytes rest : Bytes) :
    decodeLossy (bytes ++ b :: rest) =
      decodeLossy bytes ++ Char.ofNat b.toNat :: decodeLossy rest := by
  rw [decodeLossy, scan_append_ascii h bytes rest .start trivial, List.map_append]
  rfl

/-- A line feed behind some bytes is a line feed behind their text. -/
theorem decodeLossy_append_lineFeed (bytes : Bytes) :
    decodeLossy (bytes ++ [10]) = decodeLossy bytes ++ ['\n'] :=
  decodeLossy_append_ascii (by decide) bytes []

/-! ## Reading back -/

/-- The number of a byte that was given by its number. -/
theorem toNat_byte {n : Nat} (h : n < 256) : (byte n).toNat = n := by
  rw [UInt8.toNat_ofNat']
  omega

/-- A byte that goes on with a character, with more to come. -/
theorem step_inside_succ {owed low high value n : Nat} (hlow : low ≤ n) (hhigh : n ≤ high)
    (hn : n < 256) :
    step (.inside (owed + 1) low high value) (byte n) =
      ([], .inside owed 0x80 0xBF (value * 64 + (n - 0x80))) := by
  simp [step, toNat_byte hn, hlow, hhigh]

/-- The last byte of a character. -/
theorem step_inside_zero {low high value n : Nat} (hlow : low ≤ n) (hhigh : n ≤ high)
    (hn : n < 256) :
    step (.inside 0 low high value) (byte n) =
      ([some (Char.ofNat (value * 64 + (n - 0x80)))], .start) := by
  simp [step, toNat_byte hn, hlow, hhigh]

/-- The first byte of a character of two bytes. -/
theorem first_two {n : Nat} (hlow : 0xC2 ≤ n) (hhigh : n ≤ 0xDF) :
    first (byte n) = ([], .inside 0 0x80 0xBF (n - 0xC0)) := by
  have hn : (byte n).toNat = n := toNat_byte (by omega)
  simp only [first, hn]
  rw [if_neg (by omega), if_pos ⟨hlow, hhigh⟩]

/-- The bounds of the second of three bytes, by the first byte without its mark. -/
def secondOfThree (lead : Nat) : Nat × Nat :=
  if lead = 0 then (0xA0, 0xBF) else if lead = 0xD then (0x80, 0x9F) else (0x80, 0xBF)

/-- The first byte of a character of three bytes. -/
theorem first_three {lead : Nat} (h : lead < 16) :
    first (byte (0xE0 + lead)) =
      ([], .inside 1 (secondOfThree lead).1 (secondOfThree lead).2 lead) := by
  interval_cases lead <;> decide

/-- The bounds of the second of four bytes, by the first byte without its mark. -/
def secondOfFour (lead : Nat) : Nat × Nat :=
  if lead = 0 then (0x90, 0xBF) else if lead = 4 then (0x80, 0x8F) else (0x80, 0xBF)

/-- The first byte of a character of four bytes. -/
theorem first_four {lead : Nat} (h : lead < 5) :
    first (byte (0xF0 + lead)) =
      ([], .inside 2 (secondOfFour lead).1 (secondOfFour lead).2 lead) := by
  interval_cases lead <;> decide

/-- The number of a character is no surrogate and at most U+10FFFF. -/
theorem toNat_range (c : Char) :
    c.toNat < 0xD800 ∨ 0xDFFF < c.toNat ∧ c.toNat < 0x110000 := by
  have h := c.valid
  simp only [UInt32.isValidChar, Nat.isValidChar] at h
  exact h

/-- The bytes of a character are read as that character. -/
theorem scan_encodeChar_append (c : Char) (rest : Bytes) :
    scan .start (encodeChar c ++ rest) = some c :: scan .start rest := by
  have hrange := toNat_range c
  have hc : Char.ofNat c.toNat = c := Char.ofNat_toNat c
  simp only [encodeChar]
  -- The number of the character decides how many bytes it takes.
  split_ifs with h1 h2 h3
  · have hb : (byte c.toNat).toNat = c.toNat := toNat_byte (by omega)
    simp [scan, step, first_ascii (b := byte c.toNat) (by omega), hb, hc]
  · have hvalue : (0xC0 + c.toNat / 64 - 0xC0) * 64 + (0x80 + c.toNat % 64 - 0x80) = c.toNat := by
      omega
    simp only [List.cons_append, List.nil_append, scan, step.eq_1]
    rw [first_two (by omega) (by omega)]
    simp only [List.nil_append]
    rw [step_inside_zero (by omega) (by omega) (by omega), hvalue, hc]
    rfl
  · -- Neither overlong forms nor surrogates are written.
    have hsecond : (secondOfThree (c.toNat / 4096)).1 ≤ 0x80 + c.toNat / 64 % 64 ∧
        0x80 + c.toNat / 64 % 64 ≤ (secondOfThree (c.toNat / 4096)).2 := by
      unfold secondOfThree
      split_ifs <;> constructor <;> dsimp only <;> omega
    -- The bits of the number are put together from the three bytes.
    have hvalue : (c.toNat / 4096 * 64 + (0x80 + c.toNat / 64 % 64 - 0x80)) * 64 +
        (0x80 + c.toNat % 64 - 0x80) = c.toNat := by
      omega
    simp only [List.cons_append, List.nil_append, scan, step.eq_1]
    rw [first_three (by omega)]
    simp only [List.nil_append]
    rw [step_inside_succ hsecond.1 hsecond.2 (by omega)]
    simp only [List.nil_append]
    rw [step_inside_zero (by omega) (by omega) (by omega), hvalue, hc]
    rfl
  · -- Neither overlong forms nor numbers above U+10FFFF are written.
    have hsecond : (secondOfFour (c.toNat / 262144)).1 ≤ 0x80 + c.toNat / 4096 % 64 ∧
        0x80 + c.toNat / 4096 % 64 ≤ (secondOfFour (c.toNat / 262144)).2 := by
      unfold secondOfFour
      split_ifs <;> constructor <;> dsimp only <;> omega
    -- The bits of the number are put together from the four bytes.
    have hvalue : ((c.toNat / 262144 * 64 + (0x80 + c.toNat / 4096 % 64 - 0x80)) * 64 +
        (0x80 + c.toNat / 64 % 64 - 0x80)) * 64 + (0x80 + c.toNat % 64 - 0x80) = c.toNat := by
      omega
    simp only [List.cons_append, List.nil_append, scan, step.eq_1]
    rw [first_four (by omega)]
    simp only [List.nil_append]
    rw [step_inside_succ hsecond.1 hsecond.2 (by omega)]
    simp only [List.nil_append]
    rw [step_inside_succ (by omega) (by omega) (by omega)]
    simp only [List.nil_append]
    rw [step_inside_zero (by omega) (by omega) (by omega), hvalue, hc]
    rfl

/-- A text in front is read back from its bytes. -/
theorem scan_encode_append (text : List Char) (rest : Bytes) :
    scan .start (encode text ++ rest) = text.map some ++ scan .start rest := by
  induction text with
  | nil => rfl
  | cons c text ih =>
    rw [encode_cons, List.append_assoc, scan_encodeChar_append, ih]
    rfl

/-- A text is read back from its bytes. -/
theorem decodeLossy_encode (text : List Char) : decodeLossy (encode text) = text := by
  have h := scan_encode_append text []
  rw [List.append_nil] at h
  rw [decodeLossy, h]
  simp [scan]

/-- Texts with the same bytes are the same. -/
theorem encode_injective : Function.Injective encode :=
  Function.LeftInverse.injective decodeLossy_encode

/-- Strings with the same bytes are the same. -/
theorem ofString_injective : Function.Injective ofString :=
  encode_injective.comp fun _ _ => String.toList_injective

/-- The bytes of two strings one after the other. -/
@[simp]
theorem ofString_append (first second : String) :
    ofString (first ++ second) = ofString first ++ ofString second := by
  rw [ofString, String.toList_append, encode_append]
  rfl

/-- Only the empty text has no bytes. -/
theorem encode_eq_nil_iff {text : List Char} : encode text = [] ↔ text = [] :=
  ⟨fun h => encode_injective h, fun h => h ▸ rfl⟩

/-- Bytes that are the bytes of a text. -/
def Valid (bytes : Bytes) : Prop :=
  ∃ text, encode text = bytes

/-- The bytes of a text are valid. -/
theorem valid_encode (text : List Char) : Valid (encode text) := ⟨text, rfl⟩

/-- Valid bytes are those of the text that is read from them. -/
theorem Valid.encode_decodeLossy {bytes : Bytes} (h : Valid bytes) :
    encode (decodeLossy bytes) = bytes := by
  obtain ⟨text, rfl⟩ := h
  rw [decodeLossy_encode]

/-- Bytes are valid when they are written back from the text that is read from them. -/
instance (bytes : Bytes) : Decidable (Valid bytes) :=
  decidable_of_iff (encode (decodeLossy bytes) = bytes) ⟨fun h => ⟨_, h⟩, Valid.encode_decodeLossy⟩

/-- A string is read back from its bytes. -/
theorem toStringLossy_ofString (text : String) : toStringLossy (ofString text) = text := by
  rw [toStringLossy, ofString, decodeLossy_encode, String.ofList_toList]

/-! ## Order -/

/-- The bytes of an earlier character come before those of a later one, whatever follows. -/
theorem encodeChar_append_lt {c other : Char} (h : c < other) (rest further : Bytes) :
    encodeChar c ++ rest < encodeChar other ++ further := by
  have hlt : c.toNat < other.toNat := h
  have hrange := toNat_range other
  have hdiv (n : Nat) : n / 4096 = n / 64 / 64 ∧ n / 262144 = n / 64 / 64 / 64 := by omega
  simp only [encodeChar, hdiv]
  -- One case for each number of bytes on both sides; the first byte that differs decides.
  split_ifs <;>
    simp (disch := omega) only [List.cons_append, List.nil_append, List.cons_lt_cons_iff,
      UInt8.lt_iff_toNat_lt, ← UInt8.toNat_inj, toNat_byte] <;>
    omega

/-- Bytes with the same ones in front are in the order of the rest. -/
theorem append_lt_append_iff (front first later : Bytes) :
    front ++ first < front ++ later ↔ first < later := by
  induction front with
  | nil => rfl
  | cons b front ih => simp [ih]

/-- The bytes of texts are in the order of the texts. -/
theorem encode_lt_encode {first later : List Char} :
    encode first < encode later ↔ first < later := by
  induction first generalizing later with
  | nil =>
    cases later with
    | nil => simp
    | cons c later =>
      have hne : encode (c :: later) ≠ [] := fun h => by cases encode_eq_nil_iff.1 h
      obtain ⟨b, bytes, hbytes⟩ := List.exists_cons_of_ne_nil hne
      rw [hbytes]
      exact iff_of_true (List.nil_lt_cons _ _) (List.nil_lt_cons _ _)
  | cons c first ih =>
    cases later with
    | nil => simp
    | cons other later =>
      rw [encode_cons, encode_cons, List.cons_lt_cons_iff]
      -- Different characters differ within their own bytes, so what follows does not matter.
      rcases Nat.lt_trichotomy c.toNat other.toNat with hlt | heq | hgt
      · exact iff_of_true (encodeChar_append_lt hlt _ _) (.inl hlt)
      · obtain rfl := Char.toNat_inj.1 heq
        rw [append_lt_append_iff, ih]
        simp
      · refine iff_of_false (List.lt_asymm (encodeChar_append_lt hgt _ _)) ?_
        rintro (hlt | ⟨rfl, -⟩)
        · exact Nat.lt_asymm hgt hlt
        · exact Nat.lt_irrefl _ hgt

/-- Valid bytes are in the order of the strings that are read from them. -/
theorem Valid.toStringLossy_lt {first later : Bytes} (hfirst : Valid first) (hlater : Valid later) :
    toStringLossy first < toStringLossy later ↔ first < later := by
  rw [String.lt_iff, toStringLossy, toStringLossy, String.toList_ofList, String.toList_ofList,
    ← encode_lt_encode, hfirst.encode_decodeLossy, hlater.encode_decodeLossy]

/-! ## Characters below 128 -/

/-- The number of a character that was given by its number. -/
theorem toNat_ofNat {n : Nat} (h : n.isValidChar) : (Char.ofNat n).toNat = n := by
  rw [Char.ofNat, dif_pos h]
  rfl

/-- All bytes of a character from 128 on are at least 128. -/
theorem le_of_mem_encodeChar {c : Char} (hc : 0x80 ≤ c.toNat) {b : UInt8} (hb : b ∈ encodeChar c) :
    0x80 ≤ b.toNat := by
  have hrange := toNat_range c
  have hbyte : ∀ n, n < 256 → 0x80 ≤ n → 0x80 ≤ (byte n).toNat := fun n hn h => by
    rwa [toNat_byte hn]
  simp only [encodeChar] at hb
  split_ifs at hb <;>
    simp only [List.mem_cons, List.not_mem_nil, or_false] at hb <;>
    rcases hb with rfl | rfl | rfl | rfl <;>
    exact hbyte _ (by omega) (by omega)

/-- A byte below 128 is among the bytes of a text when its character is in the text. -/
theorem mem_encode_iff {b : UInt8} (hb : b.toNat < 0x80) {text : List Char} :
    b ∈ encode text ↔ Char.ofNat b.toNat ∈ text := by
  induction text with
  | nil => simp
  | cons c text ih =>
    have hfirst : b ∈ encodeChar c ↔ Char.ofNat b.toNat = c := by
      by_cases hc : c.toNat < 0x80
      · have hvalue : (Char.ofNat b.toNat).toNat = b.toNat :=
          toNat_ofNat (.inl (by omega))
        have hencode : encodeChar c = [byte c.toNat] := if_pos hc
        rw [hencode, List.mem_singleton]
        constructor
        · rintro rfl
          rw [toNat_byte (by omega), Char.ofNat_toNat]
        · rintro rfl
          rw [hvalue, byte, UInt8.ofNat_toNat]
      · refine ⟨fun hmem => absurd (le_of_mem_encodeChar (by omega) hmem) (by omega), ?_⟩
        rintro rfl
        have hvalue := toNat_ofNat (n := b.toNat) (.inl (by omega))
        omega
    rw [encode_cons, List.mem_append, ih, hfirst, List.mem_cons]

/-- The character begun is one from 128 on, whatever bytes it ends with. -/
def State.Wide : State → Prop
  | .start => True
  | .inside owed low high value =>
    ∀ n, (value * 64 + (low - 0x80)) * 64 ^ owed ≤ n →
      n < (value * 64 + (high - 0x80) + 1) * 64 ^ owed → 0x80 ≤ n ∧ n.isValidChar

/-- What a first byte begins is a character from 128 on. -/
theorem wide_first (b : UInt8) : (first b).2.Wide := by
  simp only [first]
  split_ifs <;> simp only [State.Wide] <;> intro n hlow hhigh <;>
    simp only [Nat.isValidChar] <;> omega

/-- A character begun goes on as one from 128 on, and what is complete behind it is one, or is the
byte itself. -/
theorem wide_step {state : State} (h : state.Wide) (b : UInt8) :
    (step state b).2.Wide ∧ ∀ o ∈ (step state b).1, ∀ c, o = some c →
      0x80 ≤ c.toNat ∨ byte c.toNat = b := by
  have hfirst : ∀ o ∈ (first b).1, ∀ c, o = some c → byte c.toNat = b := by
    simp only [first]
    split_ifs with hb <;> simp only [List.not_mem_nil, false_implies, implies_true,
      List.mem_singleton, forall_eq, reduceCtorEq]
    rintro c hc
    obtain rfl := Option.some.inj hc
    rw [toNat_ofNat (.inl (by omega)), byte, UInt8.ofNat_toNat]
  cases state with
  | start => exact ⟨wide_first b, fun o ho c hc => .inr (hfirst o ho c hc)⟩
  | inside owed low high value =>
    simp only [step]
    split
    · next hb =>
      cases owed with
      | zero =>
        refine ⟨trivial, fun o ho c hc => .inl ?_⟩
        obtain rfl := List.mem_singleton.1 ho
        obtain rfl := Option.some.inj hc
        obtain ⟨hwide, hvalid⟩ := h (value * 64 + (b.toNat - 0x80)) (by omega) (by omega)
        rwa [toNat_ofNat hvalid]
      | succ owed =>
        refine ⟨fun n hlow hhigh => ?_, by simp⟩
        -- The bounds of what may still come lie inside those from before.
        refine h n (le_trans ?_ hlow) (lt_of_lt_of_le hhigh ?_)
        · rw [pow_succ', ← mul_assoc]
          exact Nat.mul_le_mul_right _ (by omega)
        · rw [pow_succ', ← mul_assoc]
          exact Nat.mul_le_mul_right _ (by omega)
    · refine ⟨wide_first b, fun o ho c hc => ?_⟩
      rcases List.mem_cons.1 ho with rfl | ho
      · cases hc
      · exact .inr (hfirst o ho c hc)

/-- Characters below 128 are read from bytes below 128 only. -/
theorem mem_of_mem_scan {state : State} (h : state.Wide) {bytes : Bytes} {c : Char}
    (hmem : some c ∈ scan state bytes) (hc : c.toNat < 0x80) : byte c.toNat ∈ bytes := by
  induction bytes generalizing state with
  | nil => cases state <;> simp [scan] at hmem
  | cons b rest ih =>
    obtain ⟨hwide, hout⟩ := wide_step h b
    have hscan : scan state (b :: rest) = (step state b).1 ++ scan (step state b).2 rest := by
      cases state <;> rfl
    rw [hscan, List.mem_append] at hmem
    rcases hmem with hmem | hmem
    · rcases hout _ hmem c rfl with hlarge | rfl
      · omega
      · exact List.mem_cons_self
    · exact List.mem_cons_of_mem b (ih hwide hmem)

/-- A character below 128 is in the text of some bytes only when its byte is among them. -/
theorem mem_of_mem_decodeLossy {bytes : Bytes} {c : Char} (hmem : c ∈ decodeLossy bytes)
    (hc : c.toNat < 0x80) : byte c.toNat ∈ bytes := by
  obtain ⟨o, ho, hvalue⟩ := List.mem_map.1 hmem
  cases o with
  | none =>
    obtain rfl : '\uFFFD' = c := hvalue
    exact absurd hc (by decide)
  | some own =>
    obtain rfl : own = c := hvalue
    have hwide : State.Wide .start := trivial
    exact mem_of_mem_scan hwide ho hc

/-- Behind a state between characters, and only there, a text of characters below 128 is read from
its own bytes. -/
theorem encode_scan_of_ascii {state : State} (h : state.Wide) {bytes : Bytes}
    (hascii : ∀ c ∈ (scan state bytes).map (·.getD '\uFFFD'), c.toNat < 0x80) :
    state = .start ∧ encode ((scan state bytes).map (·.getD '\uFFFD')) = bytes := by
  have hreplaced : ¬('\uFFFD').toNat < 0x80 := by decide
  induction bytes generalizing state with
  | nil =>
    cases state with
    | start => exact ⟨rfl, rfl⟩
    | inside => exact absurd (hascii _ List.mem_cons_self) hreplaced
  | cons b rest ih =>
    have hscan : scan state (b :: rest) = (step state b).1 ++ scan (step state b).2 rest := by
      cases state <;> rfl
    rw [hscan, List.map_append] at hascii ⊢
    obtain ⟨hnext, hrest⟩ := ih (wide_step h b).1 fun c hc => hascii c (List.mem_append_right _ hc)
    -- What the byte completes is below 128, so it is the byte itself.
    have hout := fun o ho => hascii _ (List.mem_append_left _ (List.mem_map_of_mem (a := o) ho))
    cases state with
    | start =>
      refine ⟨rfl, ?_⟩
      rw [encode_append, hrest]
      simp only [step, first] at hnext hout ⊢
      split_ifs at hnext hout ⊢ with hb
      · have hvalue := toNat_ofNat (n := b.toNat) (.inl (by omega))
        simp [encodeChar, hvalue, hb]
      · exact absurd (hout none List.mem_cons_self) hreplaced
    | inside owed low high value =>
      simp only [step] at hnext hout
      split at hnext
      · next hb =>
        rw [if_pos hb] at hout
        cases owed with
        | zero =>
          obtain ⟨hwide, hvalid⟩ := h (value * 64 + (b.toNat - 0x80)) (by omega) (by omega)
          have hvalue := hout _ List.mem_cons_self
          rw [Option.getD_some, toNat_ofNat hvalid] at hvalue
          omega
        | succ owed => cases hnext
      · next hb =>
        rw [if_neg hb] at hout
        exact absurd (hout none List.mem_cons_self) hreplaced

/-- A text of characters below 128 is read from its own bytes only. -/
theorem encode_decodeLossy_of_ascii {bytes : Bytes} (h : ∀ c ∈ decodeLossy bytes, c.toNat < 0x80) :
    encode (decodeLossy bytes) = bytes := by
  have hwide : State.Wide .start := trivial
  exact (encode_scan_of_ascii hwide h).2

end CommandShell.Utf8
