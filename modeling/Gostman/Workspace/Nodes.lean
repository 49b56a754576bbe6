import Gostman.Go.Text
/-!
# YAML nodes (`workspace/nodes.go`, `workspace/tags.go`)

What the workspace writes into a file is a tree of nodes, and what it reads
from one.  Texts are Unicode texts.
-/

namespace Gostman.Workspace

/-- `yaml.Node`.  The content of a mapping is its pairs of a key and a value. -/
inductive Node where
  | scalar (tag value : String) (style line : Nat)
  | mapping (tag : String) (style line : Nat) (fields : List (Node × Node))
  | sequence (tag : String) (style line : Nat) (items : List Node)
  | aliasOf (value : String) (line : Nat)

abbrev Fields := List (Node × Node)

def tagText := "!!str"
def tagFlag := "!!bool"
def tagInteger := "!!int"
def tagDecimal := "!!float"
def tagNull := "!!null"
def tagMapping := "!!map"
def tagList := "!!seq"

def doubleQuotedStyle : Nat := 2
def literalStyle : Nat := 8
def flowStyle : Nat := 32

namespace Node

def line : Node → Nat
  | scalar _ _ _ line => line
  | mapping _ _ line _ => line
  | sequence _ _ line _ => line
  | aliasOf _ line => line

def value : Node → String
  | scalar _ value _ _ => value
  | mapping .. => ""
  | sequence .. => ""
  | aliasOf value _ => value

def isScalar : Node → Bool
  | scalar .. => true
  | _ => false

def fields : Node → Fields
  | mapping _ _ _ fields => fields
  | _ => []

def isContainer : Node → Bool
  | mapping .. => true
  | sequence .. => true
  | _ => false

end Node

/-- What the workspace uses of code that is not its own: what the YAML
library takes a node for and decodes it to, the case folding of
`golang.org/x/text/cases`, and quoting in an error message. -/
structure Outside where
  shortTag : Node → String
  decodeFlag : Node → Option Bool
  decodeInteger : Node → Option Int
  /-- `Decode` into any value, and its JSON (`json.Marshal`). -/
  decodeJson : Node → Option String
  foldTag : String → String
  quoted : String → String

structure FileError where
  line : Nat
  message : String
  foreign : Bool
deriving DecidableEq

def failAt (node : Node) (message : String) : FileError :=
  ⟨node.line, message, false⟩

/-! ## Building -/

structure NodeBuilder where
  quoteEverything : Bool

def mappingNode (fields : Fields) : Node :=
  .mapping tagMapping 0 0 fields

def listNode (items : List Node) : Node :=
  .sequence tagList 0 0 items

def keyNode (key : String) : Node :=
  .scalar tagText key 0 0

def flagNode (value : Bool) : Node :=
  .scalar tagFlag (if value then "true" else "false") 0 0

def integerNode (value : Int) : Option Node :=
  if value = 0 then none else some (.scalar tagInteger (toString value) 0 0)

def setFlagNode (value : Bool) : Option Node :=
  if value then some (flagNode true) else none

def breaksBlockScalar (value : String) : Bool :=
  value.toList.head? = some '\n' || value.toList.head? = some '\t'

namespace NodeBuilder

def styleOf (b : NodeBuilder) (value : String) : Nat :=
  if b.quoteEverything then doubleQuotedStyle
  else if !value.toList.contains '\n' then 0
  else if breaksBlockScalar value then doubleQuotedStyle
  else literalStyle

def explicitText (b : NodeBuilder) (value : String) : Node :=
  .scalar tagText value (b.styleOf value) 0

def text (b : NodeBuilder) (value : String) : Option Node :=
  if value = "" then none else some (b.explicitText value)

def textList (b : NodeBuilder) (items : List String) : Option Node :=
  if items = [] then none else some (.sequence tagList flowStyle 0 (items.map b.explicitText))

end NodeBuilder

/-- The calls of `setField` one after another: a field without a value is left
out. -/
def setFields (entries : List (String × Option Node)) : Fields :=
  entries.filterMap fun (key, value) => value.map (keyNode key, ·)

def filledMapping (fields : Fields) : Option Node :=
  if fields.isEmpty then none else some (mappingNode fields)

/-! ## Reading

The first failure ends the reading: what Go goes on to read is thrown away
with it. -/

abbrev Checked := Except FileError

structure FieldReader where
  /-- The known fields: a later one of the same name replaces an earlier one. -/
  fields : List (String × Node)
  extras : Fields

namespace FieldReader

def get (r : FieldReader) (key : String) : Option Node :=
  (r.fields.reverse.find? fun field => field.1 == key).map (·.2)

def has (r : FieldReader) (key : String) : Bool :=
  (r.get key).isSome

end FieldReader

/-- `readFields`, over the pairs of the mapping. -/
def sortFields (known : List String) : Fields → Checked FieldReader
  | [] => .ok ⟨[], []⟩
  | (key, value) :: rest =>
      if key.isScalar then do
        let reader ← sortFields known rest
        if key.value ∈ known then .ok { reader with fields := (key.value, value) :: reader.fields }
        else .ok { reader with extras := (key, value) :: reader.extras }
      else .error (failAt key "field names must be plain text")

def readFields (node : Option Node) (known : List String) : Checked FieldReader :=
  match node with
  | none => .ok ⟨[], []⟩
  | some (.mapping _ _ _ fields) => sortFields known fields
  | some node => .error (failAt node "expected a list of fields")

section

variable (out : Outside)

def isNull (node : Node) : Bool :=
  node.isScalar && out.shortTag node == tagNull

/-- `NormalizeTags`: trimmed, not empty, each once without regard to case. -/
def normalizeTags (tags : List String) : List String :=
  (tags.foldl
    (fun (seen, kept) tag =>
      let tag := Go.trimSpace tag
      let key := out.foldTag tag
      if tag = "" ∨ key ∈ seen then (seen, kept) else (key :: seen, kept ++ [tag]))
    (([], []) : List String × List String)).2

def listItems (key : String) : List Node → Checked (List String)
  | [] => .ok []
  | item :: rest =>
      if item.isScalar then do
        let items ← listItems key rest
        return if isNull out item then items else item.value :: items
      else .error (failAt item (key ++ " must list single values"))

namespace FieldReader

def scalar (r : FieldReader) (key : String) : Checked (Option Node) :=
  match r.get key with
  | none => .ok none
  | some node =>
      if node.isScalar then .ok (some node)
      else .error (failAt node (key ++ " must be a single value"))

def text (r : FieldReader) (key : String) : Checked String := do
  match ← r.scalar key with
  | none => return ""
  | some node => return if out.shortTag node = tagNull then "" else node.value

def textList (r : FieldReader) (key : String) : Checked (List String) :=
  match r.get key with
  | none => .ok []
  | some node =>
      if isNull out node then .ok []
      else match node with
        | .sequence _ _ _ items => listItems out key items
        | _ => .error (failAt node (key ++ " must be a list"))

def flag (r : FieldReader) (key : String) (fallback : Bool) : Checked Bool := do
  match ← r.scalar key with
  | none => return fallback
  | some node =>
      match out.decodeFlag node with
      | some value => return value
      | none => throw (failAt node (key ++ " must be true or false"))

def integer (r : FieldReader) (key : String) : Checked Int := do
  match ← r.scalar key with
  | none => return 0
  | some node =>
      match out.decodeInteger node with
      | some value => return value
      | none => throw (failAt node (key ++ " must be a whole number"))

end FieldReader

end

end Gostman.Workspace
