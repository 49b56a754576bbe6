import Gostman.Go.Json
import Gostman.Workspace.Nodes
/-!
# JSON texts in YAML (`workspace/jsontext.go`)

A field whose text is a JSON object or array is written as YAML, and read back
as JSON text.  A text that is neither is written as it is.
-/

namespace Gostman.Workspace

open Lib Go.Json

def rowEnabledKey := "enabled"
def rowValueKey := "value"

/-! ## From JSON to nodes -/

def asciiText (bytes : Bytes) : String :=
  String.ofList (bytes.map fun b => Char.ofNat b.toNat)

def numberNode (number : Bytes) : Node :=
  .scalar (if number.any fun b => b == 0x2E || b == 0x65 || b == 0x45 then tagDecimal else tagInteger)
    (asciiText number) 0 0

namespace NodeBuilder

/-- The node of a value that is no container (`Decoder.Token`, with
`UseNumber`). -/
def jsonLiteral (b : NodeBuilder) (raw : Bytes) : Option Node :=
  match raw with
  | 0x22 :: _ => (unquote raw).map fun text => b.explicitText (String.ofList text)
  | 0x74 :: _ => some (flagNode true)
  | 0x66 :: _ => some (flagNode false)
  | 0x6E :: _ => some (.scalar tagNull "null" 0 0)
  | _ => some (numberNode raw)

mutual

/-- `jsonValue`.  Each value takes a byte at least, so the number of bytes is
fuel enough. -/
def jsonValue (b : NodeBuilder) : Nat → Reading Node
  | 0, _ => none
  | fuel + 1, bytes =>
      match peek bytes with
      | [] => none
      | c :: rest =>
          if c = 0x7B then
            (jsonObject b fuel true [] rest).map fun (fields, rest) => (mappingNode fields, rest)
          else if c = 0x5B then
            (jsonArray b fuel true rest).map fun (items, rest) => (listNode items, rest)
          else (readValue bytes).bind fun (raw, rest) => (b.jsonLiteral raw).map (·, rest)

/-- `jsonObject`: the members up to the closing brace, none of them twice. -/
def jsonObject (b : NodeBuilder) : Nat → Bool → List (List Char) → Reading Fields
  | 0, _, _, _ => none
  | fuel + 1, first, seen, bytes =>
      if more bytes then do
        let (key, rest) ← readName first bytes
        if key ∈ seen then none
        else
          let rest ← pass 0x3A rest
          let (value, rest) ← jsonValue b fuel rest
          let (fields, rest) ← jsonObject b fuel false (key :: seen) rest
          return ((keyNode (String.ofList key), value) :: fields, rest)
      else (pass 0x7D bytes).map ([], ·)

def jsonArray (b : NodeBuilder) : Nat → Bool → Reading (List Node)
  | 0, _, _ => none
  | fuel + 1, first, bytes =>
      if more bytes then do
        let bytes ← if first then some bytes else pass 0x2C bytes
        let (item, rest) ← jsonValue b fuel bytes
        let (items, rest) ← jsonArray b fuel false rest
        return (item :: items, rest)
      else (pass 0x5D bytes).map ([], ·)

end

/-- `container`: the node of a text that is one object or array. -/
def container (b : NodeBuilder) (text : String) : Option Node :=
  let bytes := encode text.toList
  (b.jsonValue (bytes.length + 1) bytes).bind fun (node, rest) =>
    if node.isContainer && rest.all isSpace then some node else none

def jsonText (b : NodeBuilder) (text : String) : Option Node :=
  if text = "" then none
  else some ((b.container text).getD (b.explicitText text))

end NodeBuilder

/-! ## Rows -/

def isEnabledByDefault (field : Node × Node) : Bool :=
  field.1.value = rowEnabledKey &&
    match field.2 with
    | .scalar tag value _ _ => tag = tagFlag && value = "true"
    | _ => false

def withoutEnabledDefault : Node → Node
  | .mapping tag style line fields =>
      .mapping tag style line (fields.filter fun field => !isEnabledByDefault field)
  | node => node

def NodeBuilder.rows (b : NodeBuilder) (text : String) : Option Node :=
  (b.jsonText text).map fun
    | .sequence tag style line rows => .sequence tag style line (rows.map withoutEnabledDefault)
    | node => node

/-- `endOfField`: the number of pairs up to the first with this key, or zero. -/
def endOfField (fields : Fields) (key : String) : Nat :=
  match fields.findIdx? fun field => field.1.value == key with
  | some index => index + 1
  | none => 0

def enabledPosition (fields : Fields) : Nat :=
  let afterValue := endOfField fields rowValueKey
  if afterValue > 0 then afterValue else fields.length

def withEnabledDefault : Node → Node
  | .mapping tag style line fields =>
      if endOfField fields rowEnabledKey > 0 then .mapping tag style line fields
      else
        let position := enabledPosition fields
        .mapping tag style line
          (fields.take position ++ (keyNode rowEnabledKey, flagNode true) :: fields.drop position)
  | node => node

def withEnabledDefaults : Node → Node
  | .sequence tag style line rows => .sequence tag style line (rows.map withEnabledDefault)
  | node => node

/-! ## From nodes to JSON -/

def quoteJson (text : String) : String :=
  String.ofList (quote false text.toList)

section

variable (out : Outside)

def numberLiteral (node : Node) : String :=
  if valid (encode node.value.toList) then node.value
  else (out.decodeJson node).getD (quoteJson node.value)

def flagLiteral (node : Node) : String :=
  match out.decodeFlag node with
  | some true => "true"
  | some false => "false"
  | none => quoteJson node.value

def scalarLiteral (node : Node) : String :=
  let tag := out.shortTag node
  if tag = tagNull then "null"
  else if tag = tagFlag then flagLiteral out node
  else if tag = tagInteger ∨ tag = tagDecimal then numberLiteral out node
  else quoteJson node.value

def lineBreak (indented : Bool) (depth : Nat) : String :=
  if indented then "\n" ++ String.ofList (List.replicate (2 * depth) ' ') else ""

def keySeparator (indented : Bool) : String :=
  if indented then ": " else ":"

mutual

def writeValue (indented : Bool) (depth : Nat) : Node → Checked String
  | .mapping _ _ _ [] => .ok "\x7b\x7d"
  | .mapping _ _ _ (field :: fields) => do
      let first ← writeField indented depth field
      let rest ← writeFields indented depth fields
      return "\x7b" ++ first ++ rest ++ lineBreak indented depth ++ "\x7d"
  | .sequence _ _ _ [] => .ok "[]"
  | .sequence _ _ _ (item :: items) => do
      let first ← writeValue indented (depth + 1) item
      let rest ← writeItems indented depth items
      return "[" ++ lineBreak indented (depth + 1) ++ first ++ rest ++ lineBreak indented depth ++ "]"
  | .scalar tag value style line => .ok (scalarLiteral out (.scalar tag value style line))
  | .aliasOf value line => .error (failAt (.aliasOf value line) "anchors and aliases are not supported")

def writeField (indented : Bool) (depth : Nat) : Node × Node → Checked String
  | (key, value) =>
      if key.isScalar then do
        let written ← writeValue indented (depth + 1) value
        return lineBreak indented (depth + 1) ++ quoteJson key.value ++ keySeparator indented ++ written
      else .error (failAt key "field names must be plain text")

def writeFields (indented : Bool) (depth : Nat) : Fields → Checked String
  | [] => .ok ""
  | field :: rest => do
      let first ← writeField indented depth field
      let rest ← writeFields indented depth rest
      return "," ++ first ++ rest

def writeItems (indented : Bool) (depth : Nat) : List Node → Checked String
  | [] => .ok ""
  | item :: rest => do
      let first ← writeValue indented (depth + 1) item
      let rest ← writeItems indented depth rest
      return "," ++ lineBreak indented (depth + 1) ++ first ++ rest

end

def toJson (node : Node) (indented : Bool) : Checked String :=
  writeValue out indented 0 node

namespace FieldReader

def jsonText (r : FieldReader) (key : String) (indented : Bool) (complete : Node → Node) :
    Checked String :=
  match r.get key with
  | none => .ok ""
  | some node =>
      if node.isContainer then toJson out (complete node) indented else r.text out key

end FieldReader

end

end Gostman.Workspace
