import CommandShell.Fault
import CommandShell.Text.Utf8

/-!
# Inflating

Decompression of deflated data: blocks that are stored, or coded with a fixed or a described prefix
code, whose symbols are bytes and references to bytes before.

- `inflate`: the bytes that deflated data stand for. What follows the last block is not looked at.
- Data that end within a block are incomplete; a code that cannot be, an unknown symbol or a
  reference before the start is corrupt.

Each step of the loops reads at least one bit, so the number of bits bounds the steps.
-/

namespace CommandShell

namespace Inflate

/-! ## Bits -/

/-- The bits of some bytes, lowest bit of each byte first. -/
def bitsOf (bytes : Bytes) : List Bool :=
  bytes.flatMap fun b => (List.range 8).map b.toNat.testBit

/-- The number that bits spell, lowest bit first. -/
def ofBits : List Bool → Nat
  | [] => 0
  | b :: bits => b.toNat + 2 * ofBits bits

/-- The number in the next `width` bits, and the bits behind them. -/
def readNumber (width : Nat) (bits : List Bool) : Except InflateFault (Nat × List Bool) :=
  let taken := bits.take width
  if taken.length < width then .error .incomplete else .ok (ofBits taken, bits.drop width)

/-- Numbers of one width, as many as asked for. -/
def readNumbers (width : Nat) : Nat → List Bool → Except InflateFault (List Nat × List Bool)
  | 0, bits => .ok ([], bits)
  | count + 1, bits => do
    let (n, bits) ← readNumber width bits
    let (rest, bits) ← readNumbers width count bits
    .ok (n :: rest, bits)

/-! ## Prefix codes -/

/-- The longest code word in bits. -/
def maxCodeLength : Nat := 15

/-- A canonical prefix code: shorter code words come first, and those of one length follow the order
of their symbols. -/
structure PrefixCode where
  /-- The number of code words of each length from one on. -/
  counts : List Nat
  /-- The symbols in the order of their code words. -/
  symbols : Array Nat

/-- The code whose symbols have code words of the given lengths; zero stands for none. More than one
code word must use up all bit patterns. -/
def PrefixCode.ofLengths (lengths : List Nat) : Except InflateFault PrefixCode :=
  let sizes := (List.range maxCodeLength).map (· + 1)
  let counts := sizes.map fun size => lengths.count size
  -- Each code word of a length takes so many of the longest ones.
  let room := sizes.foldl (fun sum size => sum + (lengths.count size <<< (maxCodeLength - size))) 0
  if room ≠ 1 <<< maxCodeLength ∧ counts.foldl (· + ·) 0 > 1 then .error .corrupt
  else
    .ok
      { counts
        symbols := (sizes.flatMap fun size =>
          lengths.zipIdx.filterMap fun (l, symbol) =>
            if l = size then some symbol else none).toArray }

/-- The symbol whose code word comes next. `word` are the bits read, `first` is the first code word
of this length, and `index` counts the symbols with shorter ones. -/
def readSymbolFrom (symbols : Array Nat) :
    List Nat → (word first index : Nat) → List Bool → Except InflateFault (Nat × List Bool)
  | [], _, _, _, _ => .error .corrupt
  | _ :: _, _, _, _, [] => .error .incomplete
  | count :: counts, word, first, index, b :: bits =>
    let word := 2 * word + b.toNat
    let first := 2 * first
    -- The `count` code words of this length are the numbers from `first` on; all longer ones begin
    -- with a greater number.
    if word < first + count then
      match symbols[index + (word - first)]? with
      | some symbol => .ok (symbol, bits)
      | none => .error .corrupt
    else readSymbolFrom symbols counts word (first + count) (index + count) bits

/-- The next symbol of a code. -/
def PrefixCode.readSymbol (code : PrefixCode) (bits : List Bool) :
    Except InflateFault (Nat × List Bool) :=
  readSymbolFrom code.symbols code.counts 0 0 0 bits

/-! ## References -/

/-- The base length and the number of extra bits of the length symbols from 257 on. -/
def lengthTable : List (Nat × Nat) :=
  [(3, 0), (4, 0), (5, 0), (6, 0), (7, 0), (8, 0), (9, 0), (10, 0), (11, 1), (13, 1), (15, 1),
    (17, 1), (19, 2), (23, 2), (27, 2), (31, 2), (35, 3), (43, 3), (51, 3), (59, 3), (67, 4),
    (83, 4), (99, 4), (115, 4), (131, 5), (163, 5), (195, 5), (227, 5), (258, 0)]

/-- The base distance and the number of extra bits of the distance symbols. -/
def distanceTable : List (Nat × Nat) :=
  [(1, 0), (2, 0), (3, 0), (4, 0), (5, 1), (7, 1), (9, 2), (13, 2), (17, 3), (25, 3), (33, 4),
    (49, 4), (65, 5), (97, 5), (129, 6), (193, 6), (257, 7), (385, 7), (513, 8), (769, 8),
    (1025, 9), (1537, 9), (2049, 10), (3073, 10), (4097, 11), (6145, 11), (8193, 12),
    (12289, 12), (16385, 13), (24577, 13)]

/-- The value of a symbol with a base and extra bits. -/
def readValue (table : List (Nat × Nat)) (symbol : Nat) (bits : List Bool) :
    Except InflateFault (Nat × List Bool) :=
  match table[symbol]? with
  | none => .error .corrupt
  | some (base, extra) => do
    let (n, bits) ← readNumber extra bits
    .ok (base + n, bits)

/-- The output with `count` bytes repeated from `distance` bytes back. -/
def copyBack (distance : Nat) : Nat → Array UInt8 → Array UInt8
  | 0, out => out
  | count + 1, out => copyBack distance count (out.push (out.getD (out.size - distance) 0))

/-! ## Blocks -/

/-- The symbols of a block up to its end, in at most the given number of steps. -/
def readCoded (literals distances : PrefixCode) :
    Nat → List Bool → Array UInt8 → Except InflateFault (List Bool × Array UInt8)
  | 0, _, _ => .error .incomplete
  | steps + 1, bits, out => do
    let (symbol, bits) ← literals.readSymbol bits
    if symbol < 256 then readCoded literals distances steps bits (out.push (UInt8.ofNat symbol))
    else if symbol = 256 then .ok (bits, out)
    else
      let (length, bits) ← readValue lengthTable (symbol - 257) bits
      let (symbol, bits) ← distances.readSymbol bits
      let (distance, bits) ← readValue distanceTable symbol bits
      if out.size < distance then .error .corrupt
      else readCoded literals distances steps bits (copyBack distance length out)

/-- A stored block: from the next byte on, a length, the same with all bits flipped, and bytes. -/
def readStored (bits : List Bool) (out : Array UInt8) :
    Except InflateFault (List Bool × Array UInt8) := do
  -- The bits are those of whole bytes, so the odd ones are the rest of the byte begun.
  let bits := bits.drop (bits.length % 8)
  let (length, bits) ← readNumber 16 bits
  let (flipped, bits) ← readNumber 16 bits
  if length + flipped ≠ 0xFFFF then .error .corrupt
  else
    let (bytes, bits) ← readNumbers 8 length bits
    .ok (bits, out ++ (bytes.map UInt8.ofNat).toArray)

/-- The lengths of the fixed code for literals and lengths. -/
def fixedLiterals : List Nat :=
  List.replicate 144 8 ++ List.replicate 112 9 ++ List.replicate 24 7 ++ List.replicate 8 8

/-- The lengths of the fixed code for distances. -/
def fixedDistances : List Nat :=
  List.replicate 32 5

/-- The order in which the lengths of the code for lengths are listed. -/
def lengthOrder : List Nat :=
  [16, 17, 18, 0, 8, 7, 9, 6, 10, 5, 11, 4, 12, 3, 13, 2, 14, 1, 15]

/-- Code lengths until there are `wanted`, in at most the given number of steps. Symbols from 16 on
repeat the last length or zero; a repetition may not exceed what is wanted. -/
def readLengths (code : PrefixCode) (wanted : Nat) :
    Nat → List Nat → List Bool → Except InflateFault (List Nat × List Bool)
  | 0, _, _ => .error .incomplete
  | steps + 1, lengths, bits =>
    if lengths.length = wanted then .ok (lengths, bits)
    else do
      let (symbol, bits) ← code.readSymbol bits
      if symbol < 16 then readLengths code wanted steps (lengths ++ [symbol]) bits
      else
        let (base, extra) := if symbol = 16 then (3, 2) else if symbol = 17 then (3, 3) else (11, 7)
        match (if symbol = 16 then lengths.getLast? else some 0) with
        | none => .error .corrupt
        | some length =>
          let (n, bits) ← readNumber extra bits
          if wanted < lengths.length + (base + n) then .error .corrupt
          else readLengths code wanted steps (lengths ++ List.replicate (base + n) length) bits

/-- The two codes that a block describes. -/
def readCodes (bits : List Bool) :
    Except InflateFault ((PrefixCode × PrefixCode) × List Bool) := do
  let (hlit, bits) ← readNumber 5 bits
  let (hdist, bits) ← readNumber 5 bits
  let (hclen, bits) ← readNumber 4 bits
  -- Two literal and two distance symbols of the fixed code are never used.
  if 29 < hlit ∨ 29 < hdist then .error .corrupt
  else
    let (listed, bits) ← readNumbers 3 (hclen + 4) bits
    let sizes := (List.range 19).map fun symbol =>
      ((lengthOrder.zip listed).lookup symbol).getD 0
    let code ← PrefixCode.ofLengths sizes
    let wanted := hlit + 257 + (hdist + 1)
    let (lengths, bits) ← readLengths code wanted (wanted + 1) [] bits
    let literals ← PrefixCode.ofLengths (lengths.take (hlit + 257))
    let distances ← PrefixCode.ofLengths (lengths.drop (hlit + 257))
    .ok ((literals, distances), bits)

/-- The blocks up to the last one, in at most the given number of steps. -/
def readBlocks : Nat → List Bool → Array UInt8 → Except InflateFault (Array UInt8)
  | 0, _, _ => .error .incomplete
  | steps + 1, bits, out => do
    let (final, bits) ← readNumber 1 bits
    let (form, bits) ← readNumber 2 bits
    let (bits, out) ←
      match form with
      | 0 => readStored bits out
      | 1 => do
        let literals ← PrefixCode.ofLengths fixedLiterals
        let distances ← PrefixCode.ofLengths fixedDistances
        readCoded literals distances (bits.length + 1) bits out
      | 2 => do
        let ((literals, distances), bits) ← readCodes bits
        readCoded literals distances (bits.length + 1) bits out
      | _ => .error .corrupt
    if final = 1 then .ok out else readBlocks steps bits out

end Inflate

/-- The bytes that deflated data stand for. -/
def inflate (deflated : Bytes) : Except InflateFault Bytes := do
  let bits := Inflate.bitsOf deflated
  let out ← Inflate.readBlocks (bits.length + 1) bits #[]
  .ok out.toList

end CommandShell
