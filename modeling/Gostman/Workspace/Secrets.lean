import Gostman.Go.Json
import Gostman.Go.Text
import Gostman.Lib.Record
/-!
# Secret variables (`workspace/secretvalues.go`)

The variables of an environment, a folder or the workspace are a JSON object
the user typed; a second object, the meta text, says which of them are secret.
Texts are byte strings, as in Go: nothing says that they are well-formed.
-/

namespace Gostman.Workspace

open Lib Go.Json

structure VariableEntry where
  name : List Char
  raw : Bytes
deriving DecidableEq

def isBlank : Nat → Bytes → Bool
  | _, [] => true
  | 0, _ :: _ => false
  | fuel + 1, b :: rest =>
      if b < 0x80 then Go.isSpace (Char.ofNat b.toNat) && isBlank fuel rest
      else
        match decodeRune (b :: rest) with
        | some c => Go.isSpace c && isBlank fuel ((b :: rest).drop c.utf8Size)
        | none => false

/-- The loop of `ParseVariableEntries`: the entries read, and whether it
ended without an error.  Each entry takes a byte at least. -/
def readEntries : Nat → Bool → Bytes → List VariableEntry × Bool
  | 0, _, _ => ([], false)
  | fuel + 1, first, bytes =>
      if more bytes then
        match readMember first bytes with
        | none => ([], false)
        | some ((name, raw), rest) =>
            let (entries, ok) := readEntries fuel false rest
            (⟨name, raw⟩ :: entries, ok)
      else ([], true)

/-- What the reader of `ParseVariableEntries` has read when it ends, with or
without an error. -/
def streamEntries (text : Bytes) : List VariableEntry × Bool :=
  if isBlank text.length text then ([], true)
  else
    match pass 0x7B text with
    | none => ([], false)
    | some rest => readEntries (rest.length + 1) true rest

def parseVariableEntries (text : Bytes) : Option (List VariableEntry) :=
  let (entries, ok) := streamEntries text
  if ok then some entries else none

def encodeEntry (entry : VariableEntry) : Bytes :=
  encode (quote true entry.name) ++ 0x3A :: entry.raw

/-- The entries of `EncodeVariableEntries`, each but the first behind a comma. -/
def encodeEntries : Bool → List VariableEntry → Bytes
  | _, [] => [0x7D]
  | first, entry :: rest =>
      (if first then [] else [0x2C]) ++ (encodeEntry entry ++ encodeEntries false rest)

def encodeVariableEntries (entries : List VariableEntry) : Bytes :=
  0x7B :: encodeEntries true entries

/-! ## The flags -/

/-- The entries of an object in a text that is valid as a whole. -/
def objectEntries (raw : Bytes) : List VariableEntry :=
  match pass 0x7B raw with
  | none => []
  | some rest => (readEntries (rest.length + 1) true rest).1

/-- A character as `encoding/json` folds it to find a field, for the letters
of `secret`: among the characters beyond ASCII only the long s folds to one
of them. -/
def foldRune (c : Char) : Char :=
  if c = 'ſ' then 'S' else c.toUpper

/-- Decoding a value into the struct with the one field `secret`.  What is
not an object, and what is not a flag, is left out with an error that the
caller does not look at. -/
def secretFlag (raw : Bytes) : Bool :=
  (objectEntries raw).foldl
    (fun secret entry =>
      if entry.name.map foldRune = ['S', 'E', 'C', 'R', 'E', 'T'] then
        if entry.raw = [0x74, 0x72, 0x75, 0x65] then true
        else if entry.raw = [0x66, 0x61, 0x6C, 0x73, 0x65] then false
        else secret
      else secret)
    false

def secretVariables (metaText : Bytes) : Record (List Char) Bool :=
  if valid metaText then
    (objectEntries metaText).foldl (fun flags entry => flags.put entry.name (secretFlag entry.raw)) []
  else []

def isSecret (metaText : Bytes) (name : List Char) : Bool :=
  (secretVariables metaText).read name == some true

def withoutSecretVariables (variableText metaText : Bytes) : Bytes × List (List Char) :=
  match parseVariableEntries variableText with
  | none => (variableText, [])
  | some entries =>
      if (secretVariables metaText).isEmpty then (variableText, [])
      else
        let removed := entries.filter fun entry => isSecret metaText entry.name
        let kept := entries.filter fun entry => !isSecret metaText entry.name
        if removed.isEmpty then (variableText, [])
        else (encodeVariableEntries kept, removed.map (·.name))

end Gostman.Workspace
