/-!
# UTF-8

Bytes as text and text as bytes. Decoding is a machine that reads one byte at a time; its state
says how many bytes the current character still needs and between which bounds the next one lies.

- `encode`: the bytes of a text.
- `decode?`: the text of well-formed bytes, and nothing for other bytes.
- `decodeLossy`: a text for any bytes; every ill-formed sequence, taken as long as it could still
  have become a character, is read as U+FFFD.
-/

namespace CommandShell

/-- A byte string. -/
abbrev Bytes := List UInt8

namespace Utf8

/-! ## Encoding -/

/-- The byte with the given value, which callers keep below 256. -/
abbrev byte (value : Nat) : UInt8 := UInt8.ofNat value

/-- The one to four bytes of a character. -/
def encodeChar (c : Char) : Bytes :=
  let n := c.toNat
  if n < 0x80 then [byte n]
  else if n < 0x800 then [byte (0xC0 + n / 64), byte (0x80 + n % 64)]
  else if n < 0x10000 then
    [byte (0xE0 + n / 4096), byte (0x80 + n / 64 % 64), byte (0x80 + n % 64)]
  else
    [byte (0xF0 + n / 262144), byte (0x80 + n / 4096 % 64), byte (0x80 + n / 64 % 64),
      byte (0x80 + n % 64)]

/-- The bytes of a list of characters. -/
def encode (text : List Char) : Bytes :=
  text.flatMap encodeChar

/-- The bytes of a string. -/
def ofString (text : String) : Bytes :=
  encode text.toList

/-- No characters have no bytes. -/
@[simp]
theorem encode_nil : encode [] = [] := rfl

/-- The first character's bytes come first. -/
@[simp]
theorem encode_cons (c : Char) (text : List Char) :
    encode (c :: text) = encodeChar c ++ encode text := rfl

/-- Encoding respects concatenation. -/
@[simp]
theorem encode_append (first second : List Char) :
    encode (first ++ second) = encode first ++ encode second := by
  simp [encode]

/-! ## Decoding -/

/-- Where the decoder stands between two bytes. -/
inductive State
  /-- Between characters. -/
  | start
  /-- Inside a character: `owed + 1` bytes are missing, the next one lies between `low` and
  `high`, and the bits read so far are `value`. -/
  | inside (owed low high value : Nat)
  deriving DecidableEq, Repr

/-- What one byte produces: characters that are now complete (`none` stands for an ill-formed
sequence) and the state after it. -/
abbrev Output := List (Option Char) × State

/-- A byte read between characters. Overlong forms, surrogates and values above U+10FFFF are
ruled out by the bounds on the second byte. -/
def first (b : UInt8) : Output :=
  let n := b.toNat
  if n < 0x80 then ([some (Char.ofNat n)], .start)
  else if 0xC2 ≤ n ∧ n ≤ 0xDF then ([], .inside 0 0x80 0xBF (n - 0xC0))
  else if n = 0xE0 then ([], .inside 1 0xA0 0xBF 0)
  else if n = 0xED then ([], .inside 1 0x80 0x9F 0xD)
  else if 0xE1 ≤ n ∧ n ≤ 0xEF then ([], .inside 1 0x80 0xBF (n - 0xE0))
  else if n = 0xF0 then ([], .inside 2 0x90 0xBF 0)
  else if 0xF1 ≤ n ∧ n ≤ 0xF3 then ([], .inside 2 0x80 0xBF (n - 0xF0))
  else if n = 0xF4 then ([], .inside 2 0x80 0x8F 4)
  else ([none], .start)

/-- One byte. A byte that cannot go on with the current character ends it as ill-formed and is
then read as a first byte. -/
def step : State → UInt8 → Output
  | .start, b => first b
  | .inside owed low high value, b =>
    if low ≤ b.toNat ∧ b.toNat ≤ high then
      let value := value * 64 + (b.toNat - 0x80)
      match owed with
      | 0 => ([some (Char.ofNat value)], .start)
      | owed + 1 => ([], .inside owed 0x80 0xBF value)
    else
      let (out, state) := first b
      (none :: out, state)

/-- Everything read from a state: characters, with `none` for each ill-formed sequence. -/
def scan : State → Bytes → List (Option Char)
  | .start, [] => []
  | .inside .., [] => [none]
  | state, b :: rest =>
    let (out, state) := step state b
    out ++ scan state rest

/-- The text of well-formed bytes. -/
def decode? (bytes : Bytes) : Option (List Char) :=
  (scan .start bytes).mapM id

/-- The text of any bytes, with U+FFFD for each ill-formed sequence. -/
def decodeLossy (bytes : Bytes) : List Char :=
  (scan .start bytes).map (·.getD '\uFFFD')

/-- The string of well-formed bytes. -/
def toString? (bytes : Bytes) : Option String :=
  (decode? bytes).map String.ofList

/-- The string of any bytes, with U+FFFD for each ill-formed sequence. -/
def toStringLossy (bytes : Bytes) : String :=
  String.ofList (decodeLossy bytes)

/-- No bytes are no text. -/
@[simp]
theorem decodeLossy_nil : decodeLossy [] = [] := rfl

end Utf8

end CommandShell
