import Gostman.Lib.Reading
/-!
# The package `encoding/json` of Go

The scanner is a state machine over bytes (`scanner.go`).  Over it stand the
decoder that takes a text apart value by value (`stream.go`), the reading of a
quoted text (`decode.go`) and its writing (`encode.go`).
-/

namespace Gostman.Go.Json

open Lib

/-! ## The scanner -/

/-- What an open container waits for (`parseState`). -/
inductive Inside where
  | objectKey
  | objectValue
  | arrayValue
deriving DecidableEq, Repr

/-- What the next byte means (`scanner.step`). -/
inductive Mode where
  | beginValueOrEmpty
  | beginValue
  | beginStringOrEmpty
  | beginString
  | endValue
  | inString
  | inStringEsc
  /-- In an escape `\u` with this many hexadecimal digits to come. -/
  | inStringEscU (left : Nat)
  | neg
  /-- After the digits of a number that does not start with zero (`state1`). -/
  | digits
  /-- After a leading zero (`state0`). -/
  | zero
  | dot
  | dot0
  | exp
  | expSign
  | exp0
  /-- In `true`, `false` or `null`, with these bytes to come. -/
  | literal (left : Bytes)
deriving DecidableEq, Repr

structure Scanner where
  mode : Mode
  parseState : List Inside
deriving DecidableEq, Repr

inductive Outcome where
  | goes (scanner : Scanner)
  /-- The byte closes the outermost container. -/
  | closes
  /-- The value ended before the byte (`scanEnd`). -/
  | ended
  | fails
deriving DecidableEq, Repr

def maxNestingDepth : Nat := 10000

def isSpace (b : UInt8) : Bool :=
  b == 0x20 || b == 0x09 || b == 0x0D || b == 0x0A

def isDigit (b : UInt8) : Bool :=
  0x30 ≤ b && b ≤ 0x39

def isHex (b : UInt8) : Bool :=
  isDigit b || (0x61 ≤ b && b ≤ 0x66) || (0x41 ≤ b && b ≤ 0x46)

def push (mode : Mode) (inside : Inside) (stack : List Inside) : Outcome :=
  if stack.length + 1 ≤ maxNestingDepth then .goes ⟨mode, inside :: stack⟩ else .fails

/-- `popParseState`, by the byte that closes a container. -/
def pop : List Inside → Outcome
  | [] => .closes
  | stack => .goes ⟨.endValue, stack⟩

def endValue (stack : List Inside) (b : UInt8) : Outcome :=
  match stack with
  | [] => .ended
  | inside :: outer =>
      if isSpace b then .goes ⟨.endValue, stack⟩
      else match inside with
        | .objectKey => if b = 0x3A then .goes ⟨.beginValue, .objectValue :: outer⟩ else .fails -- ':'
        | .objectValue =>
            if b = 0x2C then .goes ⟨.beginString, .objectKey :: outer⟩ -- ','
            else if b = 0x7D then pop outer -- '}'
            else .fails
        | .arrayValue =>
            if b = 0x2C then .goes ⟨.beginValue, stack⟩
            else if b = 0x5D then pop outer -- ']'
            else .fails

def beginValue (stack : List Inside) (b : UInt8) : Outcome :=
  if isSpace b then .goes ⟨.beginValue, stack⟩
  else if b = 0x7B then push .beginStringOrEmpty .objectKey stack -- '{'
  else if b = 0x5B then push .beginValueOrEmpty .arrayValue stack -- '['
  else if b = 0x22 then .goes ⟨.inString, stack⟩ -- '"'
  else if b = 0x2D then .goes ⟨.neg, stack⟩ -- '-'
  else if b = 0x30 then .goes ⟨.zero, stack⟩
  else if b = 0x74 then .goes ⟨.literal [0x72, 0x75, 0x65], stack⟩ -- true
  else if b = 0x66 then .goes ⟨.literal [0x61, 0x6C, 0x73, 0x65], stack⟩ -- false
  else if b = 0x6E then .goes ⟨.literal [0x75, 0x6C, 0x6C], stack⟩ -- null
  else if isDigit b then .goes ⟨.digits, stack⟩
  else .fails

def beginString (stack : List Inside) (b : UInt8) : Outcome :=
  if isSpace b then .goes ⟨.beginString, stack⟩
  else if b = 0x22 then .goes ⟨.inString, stack⟩
  else .fails

/-- `state0`: a fraction, an exponent or the end of the number. -/
def afterZero (stack : List Inside) (b : UInt8) : Outcome :=
  if b = 0x2E then .goes ⟨.dot, stack⟩ -- '.'
  else if b = 0x65 ∨ b = 0x45 then .goes ⟨.exp, stack⟩ -- 'e', 'E'
  else endValue stack b

def afterSign (stack : List Inside) (b : UInt8) : Outcome :=
  if isDigit b then .goes ⟨.exp0, stack⟩ else .fails

def step (scanner : Scanner) (b : UInt8) : Outcome :=
  let stack := scanner.parseState
  match scanner.mode with
  | .beginValueOrEmpty =>
      if isSpace b then .goes scanner
      else if b = 0x5D then
        match stack with
        | inside :: outer => endValue (inside :: outer) b
        | [] => .fails
      else beginValue stack b
  | .beginValue => beginValue stack b
  | .beginStringOrEmpty =>
      if isSpace b then .goes scanner
      else if b = 0x7D then
        match stack with
        | _ :: outer => endValue (.objectValue :: outer) b
        | [] => .fails
      else beginString stack b
  | .beginString => beginString stack b
  | .endValue => endValue stack b
  | .inString =>
      if b = 0x22 then .goes ⟨.endValue, stack⟩
      else if b = 0x5C then .goes ⟨.inStringEsc, stack⟩ -- '\\'
      else if b < 0x20 then .fails
      else .goes scanner
  | .inStringEsc =>
      -- b f n r t \ / "
      if b ∈ [0x62, 0x66, 0x6E, 0x72, 0x74, 0x5C, 0x2F, 0x22] then .goes ⟨.inString, stack⟩
      else if b = 0x75 then .goes ⟨.inStringEscU 4, stack⟩ -- 'u'
      else .fails
  | .inStringEscU left =>
      if isHex b then
        .goes ⟨if left ≤ 1 then .inString else .inStringEscU (left - 1), stack⟩
      else .fails
  | .neg =>
      if b = 0x30 then .goes ⟨.zero, stack⟩
      else if isDigit b then .goes ⟨.digits, stack⟩
      else .fails
  | .digits => if isDigit b then .goes scanner else afterZero stack b
  | .zero => afterZero stack b
  | .dot => if isDigit b then .goes ⟨.dot0, stack⟩ else .fails
  | .dot0 =>
      if isDigit b then .goes scanner
      else if b = 0x65 ∨ b = 0x45 then .goes ⟨.exp, stack⟩
      else endValue stack b
  | .exp =>
      if b = 0x2B ∨ b = 0x2D then .goes ⟨.expSign, stack⟩ -- '+', '-'
      else afterSign stack b
  | .expSign => afterSign stack b
  | .exp0 => if isDigit b then .goes scanner else endValue stack b
  | .literal left =>
      match left with
      | [] => .fails
      | expected :: left =>
          if b = expected then .goes ⟨if left = [] then .endValue else .literal left, stack⟩
          else .fails

/-! ## The decoder -/

/-- `Decoder.readValue` from a state of the scanner.  At the end of the text
the scanner is given a space: what that ends was complete. -/
def scanFrom : Scanner → Reading Bytes
  | scanner, [] => if step scanner 0x20 = .ended then some ([], []) else none
  | scanner, b :: rest =>
      match step scanner b with
      | .goes next => (scanFrom next rest).map fun (value, rest) => (b :: value, rest)
      | .closes => some ([b], rest)
      | .ended => some ([], b :: rest)
      | .fails => none

/-- `Decoder.peek`: what is left from the first byte that is not blank. -/
def peek (bytes : Bytes) : Bytes :=
  bytes.dropWhile isSpace

/-- The bytes of the next value, as `Decoder.Decode` hands them to a
`RawMessage`. -/
def readValue : Reading Bytes := fun bytes =>
  scanFrom ⟨.beginValue, []⟩ (peek bytes)

def pass (expected : UInt8) (bytes : Bytes) : Option Bytes :=
  match peek bytes with
  | [] => none
  | b :: rest => if b = expected then some rest else none

/-- `checkValid`: the text is one value. -/
def valid (bytes : Bytes) : Bool :=
  match readValue bytes with
  | some (_, rest) => rest.all isSpace
  | none => false

/-! ## Quoted texts -/

def hexValue (b : UInt8) : Option Nat :=
  if isDigit b then some (b.toNat - 0x30)
  else if 0x61 ≤ b && b ≤ 0x66 then some (b.toNat - 0x57)
  else if 0x41 ≤ b && b ≤ 0x46 then some (b.toNat - 0x37)
  else none

def getu4 : Bytes → Option Nat
  | 0x5C :: 0x75 :: a :: b :: c :: d :: _ => do
      let a ← hexValue a
      let b ← hexValue b
      let c ← hexValue c
      let d ← hexValue d
      return ((a * 16 + b) * 16 + c) * 16 + d
  | _ => none

def replacementChar : Char := '\uFFFD'

/-- `utf16.DecodeRune`, where a pair stands for a character. -/
def surrogatePair (high low : Nat) : Option Char :=
  if 0xD800 ≤ high ∧ high < 0xDC00 ∧ 0xDC00 ≤ low ∧ low < 0xE000 then
    some (Char.ofNat ((high - 0xD800) * 0x400 + (low - 0xDC00) + 0x10000))
  else none

/-- The character of an escape `\u` with this unit, and how many bytes it
takes with the second half of a pair. -/
def unitChar (unit : Nat) (rest : Bytes) : Char × Nat :=
  if 0xD800 ≤ unit ∧ unit < 0xE000 then
    match (getu4 rest).bind (surrogatePair unit) with
    | some c => (c, 12)
    | none => (replacementChar, 6)
  else (Char.ofNat unit, 6)

def escaped (b : UInt8) : Option Char :=
  if b = 0x22 then some '"'
  else if b = 0x5C then some '\\'
  else if b = 0x2F then some '/'
  else if b = 0x27 then some '\''
  else if b = 0x62 then some (Char.ofNat 8)
  else if b = 0x66 then some (Char.ofNat 12)
  else if b = 0x6E then some '\n'
  else if b = 0x72 then some '\r'
  else if b = 0x74 then some '\t'
  else none

/-- One round of `unquote`: the next character and what is left.  Bytes that
are no character count as the replacement character. -/
def unquoteChar (b : UInt8) (rest : Bytes) : Option (Char × Bytes) :=
  if b = 0x5C then
    match rest with
    | [] => none
    | e :: behind =>
        if e = 0x75 then
          (getu4 (b :: rest)).map fun unit =>
            let (c, size) := unitChar unit (behind.drop 4)
            (c, (b :: rest).drop size)
        else (escaped e).map (·, behind)
  else if b = 0x22 ∨ b < 0x20 then none
  else if b < 0x80 then some (Char.ofNat b.toNat, rest)
  else
    match decodeRune (b :: rest) with
    | some c => some (c, (b :: rest).drop c.utf8Size)
    | none => some (replacementChar, rest)

/-- `unquote`, between the quotes.  Each round takes a byte at least, so the
number of bytes is fuel enough. -/
def unquoteBody : Nat → Bytes → Option (List Char)
  | _, [] => some []
  | 0, _ :: _ => none
  | fuel + 1, b :: rest =>
      (unquoteChar b rest).bind fun (c, rest) => (unquoteBody fuel rest).map (c :: ·)

def unquote : Bytes → Option (List Char)
  | 0x22 :: rest =>
      if rest.getLast? = some 0x22 then unquoteBody rest.length rest.dropLast else none
  | _ => none

def hexDigit (n : Nat) : Char :=
  if n < 10 then Char.ofNat (0x30 + n) else Char.ofNat (0x57 + n)

/-- A character in a quoted text, with what HTML reads escaped or not
(`SetEscapeHTML`). -/
def escapeChar (html : Bool) (c : Char) : List Char :=
  let n := c.toNat
  if c = '\\' then ['\\', '\\']
  else if c = '"' then ['\\', '"']
  else if n = 8 then ['\\', 'b']
  else if n = 12 then ['\\', 'f']
  else if c = '\n' then ['\\', 'n']
  else if c = '\r' then ['\\', 'r']
  else if c = '\t' then ['\\', 't']
  else if n < 0x20 ∨ html = true ∧ (c = '<' ∨ c = '>' ∨ c = '&') then
    ['\\', 'u', '0', '0', hexDigit (n / 16), hexDigit (n % 16)]
  else if n = 0x2028 ∨ n = 0x2029 then ['\\', 'u', '2', '0', '2', hexDigit (n % 16)]
  else [c]

/-- `json.Marshal` of a text, or an `Encoder` that leaves HTML as it is. -/
def quote (html : Bool) (text : List Char) : List Char :=
  '"' :: (text.flatMap (escapeChar html) ++ ['"'])

/-! ## The members of an object -/

/-- `Decoder.Token` where only a quoted text may come. -/
def readString : Reading (List Char) := fun bytes =>
  if (peek bytes).head? = some 0x22 then
    (readValue bytes).bind fun (quoted, rest) => (unquote quoted).map (·, rest)
  else none

/-- `Decoder.Token` where a member's name has to come: after the first member
a comma stands before it. -/
def readName (first : Bool) : Reading (List Char) := fun bytes =>
  if first then readString bytes else (pass 0x2C bytes).bind readString

/-- A member: its name, a colon and the bytes of its value. -/
def readMember (first : Bool) : Reading (List Char × Bytes) := fun bytes => do
  let (name, rest) ← readName first bytes
  let rest ← pass 0x3A rest
  let (raw, rest) ← readValue rest
  return ((name, raw), rest)

def more (bytes : Bytes) : Bool :=
  match peek bytes with
  | [] => false
  | b :: _ => b != 0x5D && b != 0x7D

end Gostman.Go.Json
