import Gostman.Lib.EcmaJson
import Gostman.Lib.Spaced
/-!
# The JSON formatter

`jsonFormat.js` over UTF-16 units.  The reader is a position with the text that is
left there.  A failure has the offset of a `JsonProblem`; the messages are left
out.  A loop that would not end within the units that are left is `unfinished`.
-/

namespace Gostman.Format

open Gostman.Lib

abbrev Units := List UInt16

def maxDepth : Nat := 512
def referenceOpen : Units := [0x7B, 0x7B]
def referenceClose : Units := [0x7D, 0x7D]
def quotationMark : UInt16 := 0x22
def backslash : UInt16 := 0x5C
def lineFeed : UInt16 := 0x0A
def carriageReturn : UInt16 := 0x0D
def blank : UInt16 := 0x20
def comma : UInt16 := 0x2C
def colon : UInt16 := 0x3A
def point : UInt16 := 0x2E
def minus : UInt16 := 0x2D
def plus : UInt16 := 0x2B
def zero : UInt16 := 0x30
def lowerU : UInt16 := 0x75
def byteOrderMark : UInt16 := 0xFEFF

def literals : List Units := [EcmaJson.ascii "true", EcmaJson.ascii "false", EcmaJson.ascii "null"]

def isJsonSpace (u : UInt16) : Bool :=
  u == blank || u == 0x09 || u == lineFeed || u == carriageReturn

def isSpace (u : UInt16) : Bool :=
  isJsonSpace u || u == byteOrderMark

def isSimpleEscape (u : UInt16) : Bool :=
  u == quotationMark || u == backslash || u == 0x2F || u == 0x62 || u == 0x66 || u == 0x6E || u == 0x72 || u == 0x74

def isDigit (u : UInt16) : Bool :=
  0x30 ≤ u && u ≤ 0x39

def isHexDigit (u : UInt16) : Bool :=
  isDigit u || (0x61 ≤ u && u ≤ 0x66) || (0x41 ≤ u && u ≤ 0x46)

def isExponentMark (u : UInt16) : Bool :=
  u == 0x65 || u == 0x45

def isSign (u : UInt16) : Bool :=
  u == plus || u == minus

structure Reader where
  position : Nat
  rest : Units

inductive Failure where
  | problem (offset : Int)
  | unfinished
  deriving DecidableEq

abbrev Read (α : Type) := Except Failure (α × Reader)

namespace Reader

def advance (r : Reader) (count : Nat) : Reader :=
  ⟨r.position + count, r.rest.drop count⟩

def skipSpace (r : Reader) : Reader :=
  r.advance (r.rest.takeWhile isSpace).length

def at_ (r : Reader) (u : UInt16) : Bool :=
  r.rest.head? = some u

def sees (r : Reader) (p : UInt16 → Bool) : Bool :=
  r.rest.head?.any p

def startsWith (r : Reader) (lead : Units) : Bool :=
  lead.isPrefixOf r.rest

def upTo (r later : Reader) : Units :=
  r.rest.take (later.position - r.position)

end Reader

def fail {α : Type} (offset : Int) : Except Failure α := .error (.problem offset)

def readReference (r : Reader) : Read Units :=
  match firstAt referenceClose (r.rest.drop referenceOpen.length) with
  | none => fail r.position
  | some inner =>
      let later := r.advance (referenceOpen.length + inner + referenceClose.length)
      .ok (r.upTo later, later)

def readHex : Nat → Reader → Except Failure Reader
  | 0, r => .ok r
  | digits + 1, r => if r.sees isHexDigit then readHex digits (r.advance 1) else fail r.position

/-- Behind the backslash.  `take` moves on at the end of the text as well. -/
def readEscape (r : Reader) : Except Failure Reader :=
  match r.rest with
  | [] => fail ((r.position + 1 : Int) - 2)
  | u :: _ =>
      if isSimpleEscape u then .ok (r.advance 1)
      else if u ≠ lowerU then fail ((r.position + 1 : Int) - 2)
      else readHex 4 (r.advance 1)

/-- The loop of `readString`, which began at `start`. -/
def readUnits (start : Nat) : Nat → Reader → Except Failure Reader
  | 0, _ => .error .unfinished
  | units + 1, r =>
      match r.rest with
      | [] => fail start
      | u :: _ =>
          let next := r.advance 1
          if u = quotationMark then .ok next
          else if u = backslash then
            match readEscape next with
            | .error problem => .error problem
            | .ok next => readUnits start units next
          else if u = lineFeed ∨ u = carriageReturn then fail ((next.position : Int) - 1)
          else if u < blank then fail ((next.position : Int) - 1)
          else readUnits start units next

def readString (r : Reader) : Read Units :=
  match readUnits r.position r.rest.length (r.advance 1) with
  | .error problem => .error problem
  | .ok later => .ok (r.upTo later, later)

def readDigits (start : Nat) (r : Reader) : Except Failure Reader :=
  if r.sees isDigit then .ok (r.advance (r.rest.takeWhile isDigit).length) else fail start

def readMinus (r : Reader) : Reader :=
  if r.at_ minus then r.advance 1 else r

def readWhole (start : Nat) (r : Reader) : Except Failure Reader :=
  if r.at_ zero then .ok (r.advance 1) else readDigits start r

def readFraction (start : Nat) (r : Reader) : Except Failure Reader :=
  if r.at_ point then readDigits start (r.advance 1) else .ok r

def readExponent (start : Nat) (r : Reader) : Except Failure Reader :=
  if r.sees isExponentMark then
    let signed := r.advance 1
    readDigits start (if signed.sees isSign then signed.advance 1 else signed)
  else .ok r

def readNumber (r : Reader) : Except Failure (Units × Reader) := do
  let whole ← readWhole r.position (readMinus r)
  let fraction ← readFraction r.position whole
  let later ← readExponent r.position fraction
  return (r.upTo later, later)

def readLiteral (r : Reader) : Read Units :=
  match literals.find? r.startsWith with
  | none => fail r.position
  | some literal => .ok (literal, r.advance literal.length)

def pad (depth : Nat) : Units :=
  List.replicate (2 * depth) blank

def block (opening closing : UInt16) (lines : List Units) (depth : Nat) : Units :=
  if lines = [] then [opening, closing]
  else
    opening :: lineFeed :: ([comma, lineFeed].intercalate (lines.map (pad (depth + 1) ++ ·)) ++
      lineFeed :: (pad depth ++ [closing]))

def readKey (r : Reader) : Read Units :=
  if r.at_ quotationMark then readString r
  else if r.startsWith referenceOpen then readReference r
  else fail r.position

def readRest (closer : UInt16) (readMember : Reader → Read Units) : Nat → Reader → Except Failure (List Units × Reader)
  | 0, _ => .error .unfinished
  | members + 1, r => do
      let (line, after) ← readMember r
      let separator := after.skipSpace
      if separator.at_ closer then return ([line], separator.advance 1)
      else if ¬separator.at_ comma then fail separator.position
      else
        let next := (separator.advance 1).skipSpace
        if next.at_ closer then fail separator.position
        else
          let (lines, last) ← readRest closer readMember members next
          return (line :: lines, last)

def readMembers (closer : UInt16) (readMember : Reader → Read Units) (r : Reader) : Read (List Units) :=
  let first := (r.advance 1).skipSpace
  if first.at_ closer then .ok ([], first.advance 1)
  else readRest closer readMember r.rest.length first

def readPair (readValue : Reader → Read Units) (r : Reader) : Except Failure (Units × Reader) := do
  let (key, after) ← readKey r
  let separator := after.skipSpace
  if ¬separator.at_ colon then fail separator.position
  else
    let (value, last) ← readValue (separator.advance 1).skipSpace
    return (key ++ colon :: blank :: value, last)

def readWord (u : UInt16) (r : Reader) : Read Units :=
  if u = minus ∨ isDigit u then readNumber r else readLiteral r

def readValue : Nat → Reader → Except Failure (Units × Reader)
  | 0, r => fail r.position
  | levels + 1, r =>
      let depth := maxDepth - levels
      let r := r.skipSpace
      match r.rest with
      | [] => fail r.position
      | u :: _ =>
          if r.startsWith referenceOpen then readReference r
          else if u = 0x7B then do
            let (lines, last) ← readMembers 0x7D (readPair (readValue levels)) r
            return (block 0x7B 0x7D lines depth, last)
          else if u = 0x5B then do
            let (lines, last) ← readMembers 0x5D (readValue levels) r
            return (block 0x5B 0x5D lines depth, last)
          else if u = quotationMark then readString r
          else readWord u r

def formatJson (text : Units) : Except Failure Units := do
  let (formatted, r) ← readValue (maxDepth + 1) ⟨0, text⟩
  if r.skipSpace.rest ≠ [] then fail r.skipSpace.position else return formatted

/-!
## Documents and tokens

The texts of JSON with references, as the renderings of documents.  What of
the grammar is a parameter is the white space, what may stand as a value by itself
and what may stand as a key: JSON itself has neither references nor U+FEFF.
-/

/-! ## Tokens of more than one unit -/

def IsEscape (text : Units) : Prop :=
  (∃ u, isSimpleEscape u = true ∧ text = [u]) ∨
    ∃ digits, digits.length = 4 ∧ (∀ u ∈ digits, isHexDigit u = true) ∧ text = lowerU :: digits

/-- What stands between the quotation marks of a string literal. -/
inductive Inner : Units → Prop
  | nil : Inner []
  | plain {u : UInt16} {rest : Units} (visible : blank ≤ u) (quote : u ≠ quotationMark) (slash : u ≠ backslash)
      (inner : Inner rest) : Inner (u :: rest)
  | escaped {escape rest : Units} (known : IsEscape escape) (inner : Inner rest) :
      Inner (backslash :: (escape ++ rest))

def IsString (token : Units) : Prop :=
  ∃ inner, Inner inner ∧ token = quotationMark :: (inner ++ [quotationMark])

def IsDigits (text : Units) : Prop :=
  text ≠ [] ∧ ∀ u ∈ text, isDigit u = true

def IsWhole (text : Units) : Prop :=
  text = [zero] ∨ IsDigits text ∧ text.head? ≠ some zero

def IsFraction (text : Units) : Prop :=
  text = [] ∨ ∃ digits, IsDigits digits ∧ text = point :: digits

def IsExponent (text : Units) : Prop :=
  text = [] ∨ ∃ mark sign digits, isExponentMark mark = true ∧ (sign = [] ∨ sign = [plus] ∨ sign = [minus]) ∧
    IsDigits digits ∧ text = mark :: (sign ++ digits)

def IsNumber (token : Units) : Prop :=
  ∃ sign whole fraction exponent, (sign = [] ∨ sign = [minus]) ∧ IsWhole whole ∧ IsFraction fraction ∧
    IsExponent exponent ∧ token = sign ++ (whole ++ (fraction ++ exponent))

/-- From two opening braces to the next two closing ones. -/
def IsReference (token : Units) : Prop :=
  ∃ inner, firstAt referenceClose (inner ++ referenceClose) = some inner.length ∧
    token = referenceOpen ++ (inner ++ referenceClose)

/-! ## Documents -/

inductive Doc where
  | atom (token : Units)
  | object (members : List (Units × Doc))
  | array (items : List Doc)

structure Grammar where
  isSpace : UInt16 → Bool
  IsAtom : Units → Prop
  IsKey : Units → Prop
  /-- What may stand between the braces of an object. -/
  IsInside : Units → Prop

def json : Grammar where
  isSpace := isJsonSpace
  IsAtom token := IsString token ∨ IsNumber token ∨ token ∈ literals
  IsKey := IsString
  IsInside _ := True

/-- What `formatJson` reads.  Two braces side by side open a reference, not an object. -/
def templates : Grammar where
  isSpace := isSpace
  IsAtom token := IsString token ∨ IsNumber token ∨ token ∈ literals ∨ IsReference token
  IsKey token := IsString token ∨ IsReference token
  IsInside inside := inside.head? ≠ some 0x7B

namespace Grammar

variable (g : Grammar)

def Blank (text : Units) : Prop := ∀ u ∈ text, g.isSpace u = true

/-- One or more members with commas between them and white space around. -/
inductive Separated {μ : Type} (Member : μ → Units → Prop) : List μ → Units → Prop
  | last {member : μ} {text after : Units} (rendered : Member member text) (blank_after : g.Blank after) :
      Separated Member [member] (text ++ after)
  | next {member : μ} {members : List μ} {text after before rest : Units} (rendered : Member member text)
      (blank_after : g.Blank after) (blank_before : g.Blank before) (others : Separated Member members rest) :
      Separated Member (member :: members) (text ++ (after ++ comma :: (before ++ rest)))

/-- What stands between the brackets of an object or an array. -/
def Listed {μ : Type} (Member : μ → Units → Prop) (members : List μ) (text : Units) : Prop :=
  (members = [] ∧ g.Blank text) ∨
    ∃ before rest, g.Blank before ∧ g.Separated Member members rest ∧ text = before ++ rest

def Pair (Value : Doc → Units → Prop) (member : Units × Doc) (text : Units) : Prop :=
  g.IsKey member.1 ∧ ∃ after before value, g.Blank after ∧ g.Blank before ∧ Value member.2 value ∧
    text = member.1 ++ (after ++ colon :: (before ++ value))

/-- The text is a rendering of the document, each value of which stands within fewer
containers than there are levels. -/
def Renders : Nat → Doc → Units → Prop
  | 0, _, _ => False
  | _ + 1, .atom token, text => g.IsAtom token ∧ text = token
  | levels + 1, .object members, text =>
      ∃ inside, g.Listed (g.Pair (Renders levels)) members inside ∧ g.IsInside inside ∧
        text = 0x7B :: (inside ++ [0x7D])
  | levels + 1, .array items, text =>
      ∃ inside, g.Listed (Renders levels) items inside ∧ text = 0x5B :: (inside ++ [0x5D])

/-- The text is a rendering of the document with white space around it, in which no
value stands within more containers than the depth says. -/
def Reads (depth : Nat) (doc : Doc) (text : Units) : Prop :=
  ∃ before inside after, g.Blank before ∧ g.Blank after ∧ g.Renders (depth + 1) doc inside ∧
    text = before ++ (inside ++ after)

def Accepts (depth : Nat) (text : Units) : Prop := ∃ doc, g.Reads depth doc text

end Grammar

/-! ## The tokens of a text -/

def isPunctuation (u : UInt16) : Bool :=
  u == 0x7B || u == 0x7D || u == 0x5B || u == 0x5D || u == colon || u == comma

def isWordUnit (u : UInt16) : Bool :=
  !(isSpace u || isPunctuation u || u == quotationMark)

/-- How many units there are to the end of a string literal, from behind its first
quotation mark. -/
def stringEnd : Units → Nat
  | [] => 0
  | u :: rest =>
      if u = quotationMark then 1
      else if u = backslash then
        match rest with
        | [] => 1
        | _ :: rest => stringEnd rest + 2
      else stringEnd rest + 1

/-- How many units the token has that a text begins with. -/
def tokenLength (text : Units) : Nat :=
  match text with
  | [] => 0
  | u :: rest =>
      if u = quotationMark then stringEnd rest + 1
      else if referenceOpen.isPrefixOf text then
        match firstAt referenceClose (text.drop referenceOpen.length) with
        | none => text.length
        | some inner => referenceOpen.length + inner + referenceClose.length
      else if isPunctuation u then 1
      else (text.takeWhile isWordUnit).length

def nextToken (text : Units) : Option (Units × Units) :=
  let begun := text.dropWhile isSpace
  if begun = [] then none else some (begun.take (tokenLength begun), begun.drop (tokenLength begun))

def tokensWithin : Nat → Units → List Units
  | 0, _ => []
  | count + 1, text =>
      match nextToken text with
      | none => []
      | some (token, rest) => token :: tokensWithin count rest

/-- String literals, references, punctuation and, for what is left, the words between
them: the parts of a text that are not white space. -/
def tokens (text : Units) : List Units := tokensWithin text.length text

def listed {μ : Type} (member : μ → List Units) : List μ → List Units
  | [] => []
  | [last] => member last
  | first :: rest => member first ++ [comma] :: listed member rest

def docTokens : Nat → Doc → List Units
  | 0, _ => []
  | _ + 1, .atom token => [token]
  | levels + 1, .object members =>
      [0x7B] :: (listed (fun member => member.1 :: [colon] :: docTokens levels member.2) members ++ [[0x7D]])
  | levels + 1, .array items => [0x5B] :: (listed (docTokens levels) items ++ [[0x5D]])

/-- No token of the text is a reference: outside its string literals two opening braces
never stand side by side. -/
def NoReference (text : Units) : Prop :=
  ∀ token ∈ tokens text, ¬ referenceOpen <+: token

/-- The document as `formatJson` writes it. -/
def pretty : Nat → Nat → Doc → Units
  | 0, _, _ => []
  | _ + 1, _, .atom token => token
  | levels + 1, depth, .object members =>
      block 0x7B 0x7D (members.map fun member => member.1 ++ colon :: blank :: pretty levels (depth + 1) member.2) depth
  | levels + 1, depth, .array items => block 0x5B 0x5D (items.map (pretty levels (depth + 1))) depth

end Gostman.Format
