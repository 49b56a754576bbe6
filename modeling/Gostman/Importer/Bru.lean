import Gostman.Go.Text
import Gostman.Lib.Record
import Gostman.Placeholders.Pattern
/-!
# Bruno files (`importer/bruwriter.go`, `importer/bru.go`)

A Bruno file is a list of blocks.  The writer puts each between a line that
opens it and a line with its bracket alone, the reader takes the lines between
the two.
-/

namespace Gostman.Importer.Bru

open Gostman.Lib Gostman.Placeholders

/-! ## Blocks -/

def brunoBlocks : List Text :=
  ["meta", "get", "post", "put", "delete", "patch", "options", "head",
    "trace", "connect", "http", "grpc", "ws", "params:query", "query",
    "params:path", "headers", "metadata", "auth",
    "auth:basic", "auth:bearer", "auth:digest", "auth:oauth2", "auth:awsv4",
    "auth:ntlm", "auth:apikey", "auth:wsse", "auth:oauth1", "auth:akamai-edgegrid",
    "body", "body:json", "body:text",
    "body:xml", "body:sparql", "body:graphql", "body:graphql:vars",
    "body:form-urlencoded", "body:multipart-form", "body:file", "body:grpc", "body:ws",
    "vars", "vars:pre-request", "vars:post-response", "vars:secret", "assert",
    "script:pre-request", "script:post-response", "tests", "docs", "settings", "example"].map
    String.toList

structure BruEntry where
  key : Text
  value : Text
  enabled : Bool

def bruIndent : Text := "  ".toList
def escapedTerminate : Text := "'' '".toList
def multilineMark : Text := "'''".toList
def disabledMark : Text := "~".toList
def lineSeparator : Char := '\u2028'
def paragraphSep : Char := '\u2029'

/-! ## The writer -/

def isUnsafeRune (c : Char) : Bool :=
  Go.isControl c || c == lineSeparator || c == paragraphSep

def singleLine (value : Text) : Text :=
  value.map fun c => if isUnsafeRune c then ' ' else c

def stripControls (value : Text) : Text :=
  let value := (Go.normalizeNewlines value).map fun c => if c = '\r' then '\n' else c
  value.map fun c => if c != '\n' && c != '\t' && isUnsafeRune c then ' ' else c

def safeKey (key : Text) : Option Text :=
  let cleaned := trimSpace (singleLine key)
  if cleaned = [] || disabledMark.isPrefixOf cleaned || ':' ∈ cleaned then none else some cleaned

def guardTerminator (value : Text) : Text :=
  let lines := (stripControls value).splitOn '\n'
  ['\n'].intercalate (lines.map fun line =>
    if trimSpace line = multilineMark then Go.replaceFirst multilineMark escapedTerminate line else line)

def indentLines (body indent : Text) : Text :=
  let lines := (Go.normalizeNewlines body).splitOn '\n'
  ['\n'].intercalate (lines.map fun line => if line ≠ [] then indent ++ line else line)

def markedKey (entry : BruEntry) (key : Text) : Text :=
  if entry.enabled then key else disabledMark ++ key

/-- What `dictLines` writes for an entry. -/
def entryText (entry : BruEntry) : Text :=
  match safeKey entry.key with
  | none => []
  | some key =>
      let key := markedKey entry key
      if entry.value.any fun c => c == '\r' || c == '\n' then
        bruIndent ++ key ++ ": ".toList ++ multilineMark ++ "\n".toList ++
          indentLines (guardTerminator entry.value) (bruIndent ++ bruIndent) ++ "\n".toList ++
          bruIndent ++ multilineMark ++ "\n".toList
      else bruIndent ++ key ++ ": ".toList ++ singleLine entry.value ++ "\n".toList

def dictLines (entries : List BruEntry) : Text :=
  entries.flatMap entryText

def writeSection (out name lines : Text) : Text :=
  if lines ≠ [] then out ++ name ++ " \x7b\n".toList ++ lines ++ "\x7d\n\n".toList else out

def dict (out name : Text) (entries : List BruEntry) : Text :=
  writeSection out name (dictLines entries)

def block (out name body : Text) : Text :=
  if trimSpace body = [] then out
  else out ++ name ++ " \x7b\n".toList ++ indentLines (stripControls body) bruIndent ++ "\n\x7d\n\n".toList

def keptNames (items : List Text) : List Text :=
  items.filterMap fun item => (safeKey item).filter (',' ∉ ·)

def names (out name : Text) (items : List Text) : Text :=
  let kept := keptNames items
  if kept ≠ [] then
    out ++ name ++ " [\n".toList ++ bruIndent ++ (",\n".toList ++ bruIndent).intercalate kept ++
      "\n]\n\n".toList
  else out

def finished (out : Text) : Text :=
  Go.trimRight (· == '\n') out ++ "\n".toList

/-! ## The reader -/

structure BruFile where
  /-- The first block of each name. -/
  blocks : Record Text (List Text) := []
  /-- All blocks of each name. -/
  repeated : Record Text (List (List Text)) := []
  top : Record Text Text := []

inductive BruError where
  /-- "expected a block such as", with the number of the line. -/
  | expectedBlock (line : Nat)
  /-- "the block is not closed". -/
  | notClosed (line : Nat) (name : Text)

def trimEnd (line : Text) : Text :=
  Go.trimRight (fun c => c == ' ' || c == '\t') line

/-- The name of a block that a line opens, and what closes it. -/
def blockOpening (line : Text) : Option (Text × Text) :=
  if [' '].isPrefixOf line then none
  else
    ((Go.cutSuffix " \x7b".toList line).map (·, "\x7d".toList)).or
      ((Go.cutSuffix " [".toList line).map (·, "]".toList))

def BruFile.addBlock (file : BruFile) (name : Text) (body : List Text) : BruFile :=
  { file with
    blocks := if file.blocks.has name then file.blocks else file.blocks.put name body
    repeated := file.repeated.put name ((file.repeated.read name).getD [] ++ [body]) }

/-- The loop of `parseBru`, with the number of lines before. -/
def readBlocks (file : BruFile) (number : Nat) : List Text → Except BruError BruFile
  | [] => .ok file
  | first :: rest =>
      let line := trimEnd first
      if trimSpace line = [] then readBlocks file (number + 1) rest
      else
        match blockOpening line with
        | none =>
            match Go.cutAt ':' line with
            | none => .error (.expectedBlock (number + 1))
            | some (key, value) =>
                if [' '].isPrefixOf line then .error (.expectedBlock (number + 1))
                else
                  readBlocks { file with top := file.top.put (trimSpace key) (trimSpace value) }
                    (number + 1) rest
        | some (name, closer) =>
            let body := rest.takeWhile fun line => trimEnd line ≠ closer
            match hrest : rest.drop body.length with
            | [] => .error (.notClosed (number + 1) name)
            | _ :: after => readBlocks (file.addBlock name body) (number + body.length + 2) after
termination_by lines => lines.length
decreasing_by
  · simp
  · simp
  · have hlength := congrArg List.length hrest
    simp only [List.length_drop, List.length_cons] at hlength ⊢
    omega

def parseBru (source : Text) : Except BruError BruFile :=
  readBlocks {} 0 ((Go.normalizeNewlines source).splitOn '\n')

end Gostman.Importer.Bru
