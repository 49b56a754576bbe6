import Gostman.Curl.Words
import Gostman.Go.Json
import Gostman.Importer.Bru
import Mathlib.Data.List.Infix
/-!
# Writing Hurl files (`importer/export_hurl.go`)

An entry is a list of lines: comments, the request line, the headers, the
options, the form or the body, and what is expected of the response.
-/

namespace Gostman.Importer.Hurl

open Gostman.Lib Gostman.Placeholders Gostman.Importer.Bru

/-- What is taken from the packages `unicode` and `strconv`: the tables of
letters and digits, lower case, and which texts `ParseFloat` accepts. -/
structure Library where
  isLetter : Char → Bool
  isDigit : Char → Bool
  toLower : Char → Char
  isFloat : Text → Bool
  letter_ascii : ∀ c, c.toNat < 128 → isLetter c = c.isAlpha
  digit_ascii : ∀ c, c.toNat < 128 → isDigit c = c.isDigit
  lower_ascii : ∀ c, c.toNat < 128 → toLower c = c.toLower
  float_printable : ∀ text, isFloat text = true → ∀ c ∈ text, 0x20 < c.toNat ∧ c.toNat < 0x7F

/-! ## Texts -/

def fields (text : Text) : List Text :=
  (text.splitOnP Go.isSpace).filter (· ≠ [])

def oneLine (name : Text) : Text :=
  [' '].intercalate (fields (singleLine name))

def mapPlaceholders (transform : Text → Text) (text : Text) : Text :=
  match _hopen : Curl.cutPair '{' '{' text with
  | none => text
  | some (before, after) =>
      match _hclose : Curl.cutPair '}' '}' after with
      | none => text
      | some (inner, rest) =>
          before ++ transform (trimSpace inner) ++ mapPlaceholders transform rest
termination_by text.length
decreasing_by exact (Curl.cutPair_length _hclose).trans (Curl.cutPair_length _hopen)

def hurlPlaceholder (inner : Text) : Text :=
  if inner = "$guid".toList ∨ inner = "$uuid".toList then braced "newUuid".toList else braced inner

def hurlLine (text : Text) : Text :=
  mapPlaceholders hurlPlaceholder (singleLine text)

def hurlComment (text : Text) : Text :=
  "# ".toList ++ oneLine text

def hurlQuotedArg (text : Text) : Text :=
  '"' :: ((singleLine text).flatMap fun c => if c = '\\' ∨ c = '"' then ['\\', c] else [c]) ++ ['"']

def tokenPunctuation : Text := "!#$%&'*+.^_|~-".toList

/-- The characters of `hurlHeaderToken`. -/
def isHeaderChar (c : Char) : Bool :=
  c.isAlpha || c.isDigit || tokenPunctuation.contains c

def hurlHeaderToken (key : Text) : Bool :=
  key ≠ [] && key.all isHeaderChar

def hurlCaptureName (name : Text) : Bool :=
  name ≠ [] && name.all fun c => c.isAlpha || c.isDigit || c = '_' || c = '-'

/-! ## Requests -/

structure Row where
  key : Text
  value : Text
  isFile : Bool := false
  fileName : Text := []

inductive Body where
  | json (text : Text)
  | text (text : Text)
  | xml (text : Text)
  | form (rows : List Row)
  | multipart (rows : List Row)
  | other

structure Assertion where
  expression : Text
  operator : Text
  value : Text
  enabled : Bool := true

structure Extractor where
  name : Text
  source : Text
  expression : Text
  enabled : Bool := true

/-- A request, with what `unwrittenProtocol` and `httpRequestText` say of it:
the protocol that no file can hold, the method, the address, the headers and a
note on its authentication. -/
structure Request where
  name : Text
  protocol : Text := []
  method : Text
  address : Text
  headers : List (Text × Text) := []
  note : Text := []
  body : Body := .other
  noFollowRedirects : Bool := false
  timeoutMs : Int := 0
  assertions : List Assertion := []
  extractors : List Extractor := []

/-- `validMethod`; the characters it lets through are the same in upper case. -/
def validMethod (method : Text) : Bool :=
  method ≠ [] && method.all fun c => "!#$%&'*+-.^_`|~".toList.contains c || c.isUpper || c.isDigit

/-! ## Options and bodies -/

def hurlOptionLines (request : Request) : List Text :=
  let lines :=
    (if request.noFollowRedirects then [] else ["location: true".toList]) ++
      if request.timeoutMs > 0 then
        ["max-time: ".toList ++
          (toString (((request.timeoutMs + 999).bmod (2 ^ 64)).tdiv 1000)).toList]
      else []
  if lines = [] then [] else "[Options]".toList :: lines

def hurlNoteBody : Text :=
  "left out, the body has a ``` line that Hurl files cannot hold".toList

def fence : Text := "```".toList

def hurlBodyText (text : Text) (isJson : Bool) : Option Text :=
  let text := mapPlaceholders hurlPlaceholder text
  if isJson ∧ Go.Json.valid (encode text) ∧ ("\x7b".toList.isPrefixOf text ∨ "[".toList.isPrefixOf text) then
    some text
  else if fence <:+: text then none
  else some (fence ++ "\n".toList ++ text ++ "\n".toList ++ fence)

/-- `attachedName`, with `baseName` cut at both kinds of slashes. -/
def attachedName (location : Text) : Text :=
  let base := (location.reverse.takeWhile fun c => c ≠ '/' ∧ c ≠ '\\').reverse
  let name := trimSpace (singleLine base)
  if name = [] ∨ ['.'].isPrefixOf name ∨ "\x7b\x7b".toList <:+: name ∨ "\x7d\x7d".toList <:+: name then
    "body.bin".toList
  else name

def pairLine (files : Bool) (row : Row) : Option Text :=
  if files ∧ row.isFile then
    some (hurlLine row.key ++ ": ".toList ++ "file,".toList ++ hurlLine (attachedName row.fileName) ++ ";".toList)
  else
    let value := hurlLine row.value
    if "file,".toList.isPrefixOf (trimSpace value) ∨ "base64,".toList.isPrefixOf (trimSpace value) then none
    else some (hurlLine row.key ++ ": ".toList ++ value)

def hurlPairLines (title : Text) (rows : List Row) (files : Bool) : List Text :=
  if rows = [] then [] else title :: rows.filterMap (pairLine files)

def trimmedBody (body : Text) : Text :=
  trimSpace (Go.normalizeNewlines body)

def contentParts (body : Text) (isJson : Bool) : List Text × Text × Text :=
  if trimmedBody body = [] then ([], [], [])
  else
    match hurlBodyText (trimmedBody body) isJson with
    | some written => ([], written, [])
    | none => ([], [], hurlNoteBody)

/-- `hurlBody`: the lines of a section, the text and the note. -/
def hurlBody (request : Request) : List Text × Text × Text :=
  match request.body with
  | .form rows => (hurlPairLines "[Form]".toList rows false, [], [])
  | .multipart rows => (hurlPairLines "[MultipartFormData]".toList rows true, [], [])
  | .json body => contentParts body true
  | .text body => contentParts body false
  | .xml body => contentParts body false
  | .other => ([], [], [])

/-! ## Assertions and captures -/

def hurlAssertOperators : Record Text Text :=
  [("eq", "=="), ("neq", "!="), ("gt", ">"), ("gte", ">="), ("lt", "<"), ("lte", "<="),
    ("contains", "contains"), ("startsWith", "startsWith"), ("endsWith", "endsWith"),
    ("matches", "matches"), ("notContains", "not contains")].map fun (key, word) => (key.toList, word.toList)

def hurlUnaryOperators : Record Text Text :=
  [("isDefined", "exists"), ("isUndefined", "not exists"), ("isEmpty", "isEmpty"),
    ("isNotEmpty", "not isEmpty"), ("isString", "isString"), ("isNumber", "isNumber"),
    ("isBoolean", "isBoolean"), ("isArray", "isCollection")].map fun (key, word) => (key.toList, word.toList)

def textOperators : List Text :=
  ["contains", "notContains", "startsWith", "endsWith", "matches"].map String.toList

/-- What stands between two characters at each end; `none` where Go has no such
slice. -/
def between (rest : Text) : Option Text :=
  if rest.length < 4 then none else some ((rest.drop 2).take (rest.length - 4))

/-- `hurlHeaderQuery`: the outer `none` is a slice that is out of range, the
inner one is no query. -/
def hurlHeaderQuery (rest : Text) : Option (Option Text) :=
  let name : Option Text :=
    if "[\"".toList.isPrefixOf rest ∧ "\"]".toList.isSuffixOf rest then between rest
    else if "['".toList.isPrefixOf rest ∧ "']".toList.isSuffixOf rest then between rest
    else if ".".toList.isPrefixOf rest then some (rest.drop 1)
    else some []
  name.map fun name => if name = [] then none else some ("header ".toList ++ hurlQuotedArg name)

def hurlHeaderPrefix : Text := "res.headers".toList

def hurlBodyRoot : Text := "res.body".toList

def hurlQueryOf (expression : Text) : Option (Option (Text × Bool)) :=
  let expression := trimSpace expression
  if expression = "res.status".toList then some (some ("status".toList, true))
  else if expression = "res.responseTime".toList then some (some ("duration".toList, true))
  else if expression = "res.url".toList then some (some ("url".toList, false))
  else if expression = hurlBodyRoot then some (some ("body".toList, false))
  else if hurlHeaderPrefix.isPrefixOf expression then
    (hurlHeaderQuery (expression.drop hurlHeaderPrefix.length)).map fun query => query.map (·, false)
  else if (hurlBodyRoot ++ ['.']).isPrefixOf expression ∨ (hurlBodyRoot ++ ['[']).isPrefixOf expression then
    some (some ("jsonpath ".toList ++ hurlQuotedArg ('$' :: expression.drop hurlBodyRoot.length), false))
  else some none

variable (library : Library)

def hurlLiteral (value : Text) (bare : Bool) : Text :=
  let trimmed := trimSpace value
  if library.isFloat trimmed ∧ bare then trimmed
  else if bare ∧ trimmed ∈ ["true", "false", "null"].map String.toList then trimmed
  else Go.Json.quote false (mapPlaceholders hurlPlaceholder (singleLine value))

def hurlAssertLine (candidate : Assertion) : Option (Option Text) :=
  (hurlQueryOf candidate.expression).map fun query => do
    let (query, numeric) ← query
    match hurlUnaryOperators.read candidate.operator with
    | some word => return query ++ " ".toList ++ word
    | none =>
        if candidate.operator = "length".toList ∧ "jsonpath".toList.isPrefixOf query then
          return query ++ " count == ".toList ++ hurlLiteral library candidate.value true
        else
          let word ← hurlAssertOperators.read candidate.operator
          let isNumber := numeric || candidate.operator ∉ textOperators
          return query ++ " ".toList ++ word ++ " ".toList ++ hurlLiteral library candidate.value isNumber

def leftOut (candidate : Assertion) : Text :=
  "left out, no Hurl form: ".toList ++ candidate.expression ++ " ".toList ++ candidate.operator ++
    " ".toList ++ candidate.value

/-- The lines and the comments, where no query is out of range. -/
def hurlAssertLines (rows : List Assertion) : Option (List Text × List Text) := do
  let written ← (rows.filter (·.enabled)).mapM fun candidate =>
    (hurlAssertLine library candidate).map fun line => (candidate, line)
  return (written.filterMap (·.2), (written.filter (·.2.isNone)).map fun (candidate, _) => leftOut candidate)

def hurlCaptureLine (rule : Extractor) : Option Text :=
  let query : Option Text :=
    if rule.source = "body".toList ∧ "$".toList.isPrefixOf rule.expression then
      some ("jsonpath ".toList ++ hurlQuotedArg rule.expression)
    else if rule.source = "header".toList ∧ rule.expression ≠ [] then
      some ("header ".toList ++ hurlQuotedArg rule.expression)
    else if rule.source = "cookie".toList ∧ rule.expression ≠ [] then
      some ("cookie ".toList ++ hurlQuotedArg rule.expression)
    else if rule.source = "status".toList then some "status".toList
    else none
  query.map fun query => rule.name ++ ": ".toList ++ query

def hurlCaptureLines (rules : List Extractor) : List Text × List Text :=
  let kept := rules.filter fun rule => rule.enabled && hurlCaptureName rule.name
  (kept.filterMap hurlCaptureLine,
    (kept.filter fun rule => (hurlCaptureLine rule).isNone).map fun rule =>
      "left out, no Hurl form: capture ".toList ++ rule.name)

/-! ## The entry -/

/-- `strings.EqualFold` with `Content-Type`, of a name of ASCII letters. -/
def isContentType (name : Text) : Bool :=
  name.map Char.toLower = "content-type".toList

/-- The headers that are written, for a form without the type of its content. -/
def writtenHeaders (request : Request) : List (Text × Text) :=
  let headers : List (Text × Text) :=
    match request.body with
    | .form _ | .multipart _ => request.headers.filter fun header => !isContentType header.1
    | _ => request.headers
  headers.filter fun header => hurlHeaderToken header.1

def headerLine (header : Text × Text) : Text :=
  header.1 ++ ": ".toList ++ hurlLine header.2

def responseLines (asserts captures : List Text) : List Text :=
  (if asserts = [] ∧ captures = [] then [] else [[], "HTTP *".toList]) ++
    (if asserts = [] then [] else "[Asserts]".toList :: asserts) ++
    (if captures = [] then [] else "[Captures]".toList :: captures)

def noteLine (note : Text) : List Text :=
  if note = [] then [] else [hurlComment note]

/-- The lines of `hurlEntryText`; the text of the body is one of them. -/
def hurlEntryLines (request : Request) : Option (List Text) :=
  if request.protocol ≠ [] then
    some [hurlComment request.name,
      hurlComment ("This ".toList ++ request.protocol ++ " request has no .http form and was left out.".toList)]
  else do
    let (sections, text, bodyNote) := hurlBody request
    let (asserts, left) ← hurlAssertLines library request.assertions
    let (captures, skipped) := hurlCaptureLines request.extractors
    return [hurlComment request.name] ++ noteLine request.note ++ noteLine bodyNote ++
      [request.method ++ " ".toList ++ hurlLine request.address] ++
      (writtenHeaders request).map headerLine ++
      hurlOptionLines request ++ sections ++
      (if text = [] then [] else [text]) ++ responseLines asserts captures ++
      (left ++ skipped).map hurlComment

/-- `hurlEntryText`; `none` where it ends with a slice out of range. -/
def hurlEntryText (request : Request) : Option Text :=
  (hurlEntryLines library request).map fun lines => ['\n'].intercalate lines ++ ['\n']

end Gostman.Importer.Hurl
