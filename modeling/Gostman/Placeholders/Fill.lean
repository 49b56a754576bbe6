import Gostman.Lib.Utf8
import Gostman.Placeholders.Pattern
/-!
# Filling placeholders

The engine's `substitution` (`engine/pairs.go`) and the window's
`fillPlaceholders` (`lib/placeholders.js`).  Both fill the placeholders of a
value they put in, and both stop at a name that is being filled, at a nesting
of 8 and after 10000 expansions.

The engine keeps the names being filled as a stack on its state; here the
stack is an argument, which each call hands on longer by one name.
-/

namespace Gostman.Placeholders

open Gostman.Lib

def maxNesting : Nat := 8

def maxExpansions : Nat := 10000

def maxRequestExpansions : Nat := 100000

def maxRequestBody : Nat := 10 <<< 20

def maxEncodedBody : Nat := maxRequestBody * 3 / 2

def size (text : Text) : Nat :=
  (encode text).length

/-! ## The engine -/

/-- `slot`: a placeholder by the variable whose value holds it and its place
there. -/
structure Slot where
  owner : Text
  index : Nat
  deriving DecidableEq

structure FileReference where
  path : Text
  base64 : Bool

/-- What a file reader gives: the size of a file, and its content as text and
in Base64. -/
structure FileData where
  size : Nat
  text : Text
  base64 : Text

structure Substitution where
  values : Text → Option Text
  budget : Nat
  exceeded : Bool
  files : Option (Text → Option FileData)
  read : List (Text × Text)
  fileBytes : Nat
  failed : Bool
  expansions : Nat
  total : Nat
  overworked : Bool
  generated : List (Slot × Text)
  generates : Bool
  missing : List Text

def substitutionOf (values : Text → Option Text) : Substitution :=
  ⟨values, maxEncodedBody, false, none, [], 0, false, 0, 0, false, [], true, []⟩

/-- `dynamicValue`: the built-in values, made anew at each call.  The names in
its tables and the expression for `$randomInt(min,max)` all start with `$`. -/
structure Generators where
  dynamicValue : Text → Option Text
  dollar : ∀ {name value}, dynamicValue name = some value → name.head? = some '$'

def promptName : Text → Option Text
  | '?' :: c :: rest => some (trimSpace (c :: rest))
  | _ => none

def parseFileReference (name : Text) : Option FileReference :=
  let lead := "$file".toList
  let coded := "$fileBase64".toList
  let inner := fun base64 : Bool => fun rest : Text =>
    match rest with
    | '(' :: path =>
        if path.getLast? = some ')' ∧ '\n' ∉ path then
          some (⟨trimSpace path.dropLast, base64⟩ : FileReference)
        else none
    | _ => none
  if coded <+: name then inner true (name.drop coded.length)
  else if lead <+: name then inner false (name.drop lead.length)
  else none

section Engine

variable (generators : Generators)

def Substitution.variableOf (s : Substitution) (name : Text) : Option (Text × Text) :=
  match s.values name with
  | some value => some (name, value)
  | none =>
      match promptName name with
      | some asked => (s.values asked).map fun value => (asked, value)
      | none => none

def spend (s : Substitution) : Bool × Substitution :=
  let s := { s with overworked := s.overworked || s.total ≥ maxRequestExpansions }
  if s.exceeded || s.overworked || s.expansions ≥ maxExpansions then (false, s)
  else (true, { s with expansions := s.expansions + 1, total := s.total + 1 })

def nested (fill : Text → Text → Substitution → Option Text × Substitution) (filling : List Text)
    (name value : Text) (s : Substitution) : Option Text × Substitution :=
  if !hasPlaceholder value then (some value, s)
  else if name ∈ filling ∨ filling.length ≥ maxNesting then (none, s)
  else
    match spend s with
    | (true, s) => fill name value s
    | (false, s) => (none, s)

def resolve (nested : Text → Text → Substitution → Option Text × Substitution) (name : Text)
    (s : Substitution) : Option Text × Substitution :=
  match s.variableOf name with
  | some (key, value) => nested key value s
  | none => (none, s)

def file (name : Text) (reference : FileReference) (s : Substitution) :
    Option Text × Substitution :=
  match s.files with
  | none => (none, s)
  | some files =>
      match s.read.lookup name with
      | some value => (some value, s)
      | none =>
          if s.exceeded || s.failed then (none, s)
          else
            match files reference.path with
            | none => (none, { s with failed := true })
            | some data =>
                let s := { s with fileBytes := s.fileBytes + data.size }
                if s.fileBytes > maxRequestBody then (none, { s with exceeded := true })
                else
                  let value := if reference.base64 then data.base64 else data.text
                  (some value, { s with read := (name, value) :: s.read })

def generate (name : Text) (slot : Slot) (s : Substitution) : Option Text × Substitution :=
  match s.generated.lookup slot with
  | some value => (some value, s)
  | none =>
      match generators.dynamicValue name with
      | some value =>
          if slot.owner ≠ [] then
            (some value, { s with generated := (slot, value) :: s.generated })
          else (some value, s)
      | none => (none, s)

def lookup (nested : Text → Text → Substitution → Option Text × Substitution) (readsFiles : Bool)
    (raw : Text) (slot : Slot) (s : Substitution) : Option Text × Substitution :=
  let name := trimSpace raw
  match resolve nested name s with
  | (some value, s) => (some value, s)
  | (none, s) =>
      match parseFileReference name with
      | some reference => if readsFiles then file name reference s else (none, s)
      | none => if s.generates then generate generators name slot s else (none, s)

def isUndefined (s : Substitution) (name : Text) : Bool :=
  if name = [] ∨ name.head? = some '$' then false
  else if (promptName name).isSome then false
  else (s.variableOf name).isNone

def noteMissing (s : Substitution) (name : Text) : Substitution :=
  if isUndefined s name ∧ name ∉ s.missing then { s with missing := s.missing ++ [name] } else s

/-- The loop of `fill` over the matches, with what is filled so far. -/
def fillSpans (lookup : Text → Slot → Substitution → Option Text × Substitution) (limit : Nat)
    (owner tail : Text) : Nat → List Span → Text → Substitution → Option Text × Substitution
  | _, [], filled, s =>
      let filled := filled ++ tail
      if size filled > limit then (none, { s with exceeded := true }) else (some filled, s)
  | index, span :: rest, filled, s =>
      let (found, s) := lookup span.raw ⟨owner, index⟩ s
      let (value, s) : Text × Substitution :=
        match found with
        | some value => (value, s)
        | none => (span.placeholder, noteMissing s (trimSpace span.raw))
      let filled := filled ++ span.before ++ value
      if size filled > limit then (none, { s with exceeded := true })
      else fillSpans lookup limit owner tail (index + 1) rest filled s

def fill : Nat → List Text → Text → Bool → Nat → Text → Substitution → Option Text × Substitution
  | 0, filling, input, readsFiles, limit, owner, s =>
      fillSpans (lookup generators (nested (fun _ _ s => (none, s)) filling) readsFiles) limit owner
        (spansOf input).2 0 (spansOf input).1 [] s
  | room + 1, filling, input, readsFiles, limit, owner, s =>
      fillSpans
        (lookup generators
          (nested (fun name value s => fill room (filling ++ [name]) value false maxEncodedBody name s)
            filling) readsFiles)
        limit owner (spansOf input).2 0 (spansOf input).1 [] s

def Substitution.apply (s : Substitution) (input : Text) : Text × Substitution :=
  if s.exceeded then (input, s)
  else
    match fill generators maxNesting [] input true s.budget [] { s with expansions := 0 } with
    | (some filled, s) => (filled, { s with budget := s.budget - size filled })
    | (none, s) => (input, s)

end Engine

/-! ## The window -/

section Window

variable (valueOf : Text → Option Text)

/-- The text that stands for one match, where `fill` fills the value of a
variable, and the work spent. -/
def replacement (fill : Text → Text → Nat → Text × Nat) (filling : List Text) (span : Span)
    (spent : Nat) : Text × Nat :=
  let name := trim span.raw
  match valueOf name with
  | none => (span.placeholder, spent)
  | some value =>
      if !hasPlaceholder value then (value, spent)
      else if name ∈ filling ∨ filling.length ≥ maxNesting ∨ spent ≥ maxExpansions then
        (span.placeholder, spent)
      else fill name value (spent + 1)

/-- `text.replace` with the expression: each match by its replacement. -/
def replaced (replacement : Span → Nat → Text × Nat) (tail : Text) :
    List Span → Text → Nat → Text × Nat
  | [], filled, spent => (filled ++ tail, spent)
  | span :: rest, filled, spent =>
      let (value, spent) := replacement span spent
      replaced replacement tail rest (filled ++ span.before ++ value) spent

/-- `fill`, with room for the nesting left. -/
def fillText : Nat → Text → List Text → Nat → Text × Nat
  | 0, text, filling, spent =>
      replaced (replacement valueOf (fun _ value spent => (value, spent)) filling) (spansOf text).2
        (spansOf text).1 [] spent
  | room + 1, text, filling, spent =>
      replaced
        (replacement valueOf
          (fun name value spent => fillText room value (filling ++ [name]) spent) filling)
        (spansOf text).2 (spansOf text).1 [] spent

def fillPlaceholders (text : Text) : Text :=
  (fillText valueOf maxNesting text [] 0).1

end Window

end Gostman.Placeholders
