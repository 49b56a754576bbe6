import Gostman.Importer.HurlExport
import Gostman.Lib.Base64
/-!
# Requests of a workspace as they are written (`importer/export_http.go`)

An exported request has the method, the address and the headers it is sent
with: those of its authentication and the type of its content are among them.
-/

namespace Gostman.Importer.Hurl

open Gostman.Lib Gostman.Placeholders Gostman.Importer.Bru

/-! ## Requests of a workspace -/

structure Auth where
  type : Text := []
  username : Text := []
  password : Text := []
  token : Text := []
  key : Text := []
  value : Text := []
  /-- `In`. -/
  placement : Text := []

structure StoredRow extends Row where
  enabled : Bool := true

def enabledRows (rows : List StoredRow) : List Row :=
  (rows.filter (·.enabled)).map (·.toRow)

/-- A body by its type, with the rows that `readRows` gives. -/
inductive StoredBody where
  | json (text : Text)
  | text (text : Text)
  | xml (text : Text)
  | form (rows : List StoredRow)
  | multipart (rows : List StoredRow)
  /-- The content type of the file; `none` where the source is no JSON. -/
  | binary (contentType : Option Text)
  | other

/-- `workspace.Request`, with its lists decoded. -/
structure StoredRequest where
  name : Text
  url : Text
  method : Text
  headers : List StoredRow := []
  body : StoredBody := .other
  auth : Auth := {}
  noFollowRedirects : Bool := false
  timeoutMs : Int := 0
  assertions : List Assertion := []
  extractors : List Extractor := []

def methodGraphQL : Text := "GRAPHQL".toList

def unwrittenProtocol (library : Library) (request : StoredRequest) : Text :=
  let address := (trimSpace request.url).map library.toLower
  if "ws://".toList.isPrefixOf address ∨ "wss://".toList.isPrefixOf address then "WebSocket".toList
  else if request.method = "GRPC".toList ∨ request.method = "MCP".toList then request.method
  else []

/-! ## Queries -/

/-- The bytes that `url.QueryEscape` leaves as they are. -/
def isUnreserved (b : UInt8) : Bool :=
  (0x30 ≤ b && b ≤ 0x39) || (0x41 ≤ b && b ≤ 0x5A) || (0x61 ≤ b && b ≤ 0x7A) ||
    b = 0x2D || b = 0x2E || b = 0x5F || b = 0x7E

def hexDigit (digit : Nat) : Char :=
  "0123456789ABCDEF".toList.getD digit '0'

def queryEscape (part : Text) : Text :=
  (encode part).flatMap fun b =>
    if isUnreserved b then [Char.ofNat b.toNat] else ['%', hexDigit (b.toNat / 16), hexDigit (b.toNat % 16)]

def mapOutsideVariables (transform : Text → Text) (text : Text) : Text :=
  match _hopen : Curl.cutPair '{' '{' text with
  | none => transform text
  | some (before, after) =>
      match _hclose : Curl.cutPair '}' '}' after with
      | none => transform text
      | some (inner, rest) => transform before ++ braced inner ++ mapOutsideVariables transform rest
termination_by text.length
decreasing_by exact (Curl.cutPair_length _hclose).trans (Curl.cutPair_length _hopen)

def encodeQueryPart (text : Text) : Text :=
  mapOutsideVariables queryEscape text

def appendQuery (base key value : Text) : Text :=
  base ++ (if base.contains '?' then "&".toList else "?".toList) ++
    (encodeQueryPart key ++ "=".toList ++ encodeQueryPart value)

/-! ## Authentication -/

def stdAlphabet : Text :=
  "ABCDEFGHIJKLMNOPQRSTUVWXYZabcdefghijklmnopqrstuvwxyz0123456789+/".toList

def basicCredentials (username password : Text) : Text :=
  let plain := username ≠ [] && password ≠ [] && !(username ++ password).any Go.isSpace
  if plain then username ++ " ".toList ++ password
  else if "\x7b\x7b".toList <:+: username ++ password then username ++ ":".toList ++ password
  else base64 (fun n => stdAlphabet.getD n 'A') (fun missing => List.replicate missing '=')
    (encode (username ++ ":".toList ++ password))

/-- `httpAuthorization`: the headers, the address and the note. -/
def httpAuthorization (auth : Auth) (headers : List (Text × Text)) (address : Text) :
    List (Text × Text) × Text × Text :=
  let header (value : Text) := headers ++ [("Authorization".toList, value)]
  if auth.type = [] ∨ auth.type = "none".toList ∨ auth.type = "inherit".toList then (headers, address, [])
  else if auth.type = "basic".toList then
    (header ("Basic ".toList ++ basicCredentials auth.username auth.password), address, [])
  else if auth.type = "digest".toList then
    (header ("Digest ".toList ++ auth.username ++ " ".toList ++ auth.password), address, [])
  else if auth.type = "bearer".toList then (header ("Bearer ".toList ++ auth.token), address, [])
  else if auth.type = "apikey".toList then
    if auth.placement = "query".toList then (headers, appendQuery address auth.key auth.value, [])
    else (headers ++ [(auth.key, auth.value)], address, [])
  else
    (headers, address,
      "The ".toList ++ auth.type ++ " authentication of this request is not written to .http files.".toList)

/-! ## The type of the content -/

def contentTypeHeader : Text := "Content-Type".toList

def withoutContentType (headers : List (Text × Text)) : List (Text × Text) :=
  headers.filter fun header => !isContentType header.1

def withContentType (headers : List (Text × Text)) (contentType : Text) (replace : Bool) : List (Text × Text) :=
  if (headers.any fun header => isContentType header.1) && !replace then headers
  else withoutContentType headers ++ [(contentTypeHeader, contentType)]

def isBlankLine (line : Text) : Bool :=
  trimSpace line = []

def trimBlankLines (lines : List Text) : List Text :=
  (lines.dropWhile isBlankLine).rdropWhile isBlankLine

/-- The `contentType` of `httpBodyText` for a text. -/
def textType (body contentType : Text) : Text :=
  if ['\n'].intercalate (trimBlankLines ((Go.normalizeNewlines body).splitOn '\n')) = [] then [] else contentType

/-- The `contentType` of `httpBodyText`. -/
def httpBodyType : StoredBody → Text
  | .json body => textType body "application/json".toList
  | .text body => textType body "text/plain".toList
  | .xml body => textType body "application/xml".toList
  | .form rows => if enabledRows rows = [] then [] else "application/x-www-form-urlencoded".toList
  | .multipart rows => if enabledRows rows = [] then [] else "multipart/form-data; boundary=GostmanBoundary".toList
  | .binary none => []
  | .binary (some contentType) => if contentType = [] then "application/octet-stream".toList else contentType
  | .other => []

def StoredBody.isMultipart : StoredBody → Bool
  | .multipart _ => true
  | _ => false

/-! ## What is written -/

def StoredRequest.ownHeaders (request : StoredRequest) : List (Text × Text) :=
  (enabledRows request.headers).map fun row => (row.key, row.value)

/-- `httpRequestText` without the body: the method, the address, the headers and the
note. -/
def httpRequestText (request : StoredRequest) : Text × Text × List (Text × Text) × Text :=
  let (headers, address, note) := httpAuthorization request.auth request.ownHeaders request.url
  if request.method = methodGraphQL then
    let headers := headers ++ [("X-Request-Type".toList, "GraphQL".toList)]
    ("POST".toList, address, withContentType headers "application/json".toList false, note)
  else
    let method := if validMethod request.method then request.method else "GET".toList
    let contentType := httpBodyType request.body
    let headers :=
      if contentType = [] then headers else withContentType headers contentType request.body.isMultipart
    (method, address, headers, note)

def StoredBody.written : StoredBody → Body
  | .json body => .json body
  | .text body => .text body
  | .xml body => .xml body
  | .form rows => .form (enabledRows rows)
  | .multipart rows => .multipart (enabledRows rows)
  | .binary _ | .other => .other

/-- What `hurlEntryText` has of a request before it writes the lines. -/
def StoredRequest.written (library : Library) (request : StoredRequest) : Request :=
  let (method, address, headers, note) := httpRequestText request
  { name := request.name, protocol := unwrittenProtocol library request
    method, address, headers, note
    body := request.body.written
    noFollowRedirects := request.noFollowRedirects
    timeoutMs := request.timeoutMs
    assertions := request.assertions
    extractors := request.extractors }

end Gostman.Importer.Hurl
