import Gostman.Js.Numeral
import Gostman.Lib.Chase
import Gostman.Js.Value
import Gostman.Go.Text
/-!
# Variable scopes

The values `{{name}}` may stand for come from lists that lie on top of each
other.  The runner merges them (`runner/variables.go`, `runner/values.go`) and
the engine reads the texts (`engine/pairs.go`); the window collects them in
layers (`lib/variableScopes.js`).

Both start from the same lists, here as the fields of the JSON objects they
are kept in.  Values that come from a secret store are not among them.
-/

namespace Gostman.Scopes

open Gostman.Lib

/-! ## What both are given -/

inductive Scalar where
  | text (value : String)
  | number (numeral : Js.Numeral)
  | bool (value : Bool)
  | null
deriving DecidableEq

/-- The fields of a JSON object, in the order of its text. -/
abbrev Entries := List (String × Scalar)

/-- What `meta` holds about one variable. -/
structure Mark where
  enabled : Option Bool := none
deriving DecidableEq

structure VariableList where
  entries : Entries := []
  marks : List (String × Mark) := []
deriving DecidableEq

structure Environment where
  id : String
  /-- `extends`. -/
  extended : String := ""
  list : VariableList
deriving DecidableEq

structure Folder where
  id : String
  entries : Entries := []
  collectionVariables : Option VariableList := none

structure Row where
  key : String
  value : Option Scalar := none
  enabled : Option Bool := none
  type : String := ""

/-- A request's variables: a list of rows, or an object. -/
inductive Vars where
  | rows (rows : List Row)
  | object (entries : Entries)

/-! ## The request's rows

The runner calls `requestVariables` of the window's code before it sends. -/

def Scalar.string : Scalar → String
  | .text value => value
  | .number numeral => numeral.rewritten
  | .bool value => if value then "true" else "false"
  | .null => "null"

def rowText : Option Scalar → String
  | none | some .null => ""
  | some value => value.string

structure ReadRow where
  key : String
  value : String
  enabled : Bool
  type : String

def toRow (raw : Row) : ReadRow :=
  ⟨raw.key, rowText raw.value, raw.enabled ≠ some false, raw.type⟩

def rowsFromObject (entries : Entries) : List ReadRow :=
  (Record.ofEntries entries).map fun (key, value) => ⟨key, rowText (some value), true, ""⟩

def parseRows : Vars → List ReadRow
  | .rows rows => rows.map toRow
  | .object entries => rowsFromObject entries

def isSentRow (row : ReadRow) : Bool :=
  row.enabled && Js.trim row.key ≠ ""

def isBlankValue (row : ReadRow) : Bool :=
  Js.trim row.value = ""

def sentText (row : ReadRow) : String :=
  if row.type = "boolean" && isBlankValue row then "false" else row.value

def requestVariables (vars : Vars) : List ReadRow :=
  (parseRows vars).map fun row => if isSentRow row then { row with value := sentText row } else row

/-! ## The runner -/

namespace Runner

abbrev Variables := Record String Scalar

def parseVariables (entries : Entries) : Variables :=
  Record.ofEntries entries

def layered (scopes : List Variables) : Variables :=
  scopes.foldl Record.overlay []

/-- The names `variableFlags` turns off. -/
def turnedOff (marks : List (String × Mark)) : List String :=
  Record.keys ((Record.ofEntries marks).filter fun (_, mark) => mark.enabled = some false)

def ownScope (list : VariableList) : Variables :=
  (parseVariables list.entries).without (turnedOff list.marks)

def findEnvironment (environments : List Environment) (id : String) : Option Environment :=
  environments.find? fun candidate => id ≠ "" ∧ candidate.id = id

theorem mem_of_findEnvironment {environments : List Environment} {id : String} {found : Environment}
    (h : findEnvironment environments id = some found) : found ∈ environments :=
  List.mem_of_find?_eq_some h

def above (environments : List Environment) (environment : Environment) : List Environment :=
  chase environments Environment.id (fun current => findEnvironment environments current.extended)
    mem_of_findEnvironment [environment.id] environment

def environmentScopes (environments : List Environment) (environment : Environment) : List Variables :=
  (environment :: above environments environment).reverse.map fun link =>
    ownScope link.list

structure EnvironmentSlot where
  inherited : Variables := []
  own : Variables := []

def startingSlot (environments : List Environment) (environment : Environment) : EnvironmentSlot :=
  let scopes := environmentScopes environments environment
  ⟨layered scopes.dropLast, scopes.getLastD []⟩

structure Values where
  process : Variables
  globals : Variables
  collection : Variables
  edits : Record String Variables := []
  slot : EnvironmentSlot
  session : Variables

def holders (lineage : List Folder) : List Folder :=
  lineage.filter fun folder => folder.id ≠ "" ∧ folder.collectionVariables.isSome

def change (base changes : Variables) : Variables :=
  changes.foldl (fun changed (name, value) =>
    if value = .null then changed.remove name else changed.put name value) base

def edited (base changes : Variables) : Variables :=
  change (layered [base]) changes

def Values.collectionLists (values : Values) (lineage : List Folder) : List Variables :=
  edited values.collection ((values.edits.read "").getD []) ::
    (holders lineage).map fun holder =>
      edited (ownScope (holder.collectionVariables.getD {})) ((values.edits.read holder.id).getD [])

def Values.layers (values : Values) (lineage : List Folder) : List Variables :=
  [values.process, values.globals] ++ values.collectionLists lineage ++
    [values.slot.inherited, values.slot.own]

def requestScope (rows : List ReadRow) : Variables :=
  Record.ofEntries ((rows.filter fun row => Go.trimSpace row.key ≠ "" ∧ row.enabled).map fun row =>
    (row.key, .text row.value))

def folderScopes (lineage : List Folder) : List Variables :=
  lineage.map fun folder => parseVariables folder.entries

/-- `scoped`, of a request whose rows are those of `requestVariables`. -/
def Values.scoped (values : Values) (lineage : List Folder) (rows : List ReadRow) (once : Variables) :
    Variables :=
  layered (values.layers lineage ++ folderScopes lineage ++ [requestScope rows, values.session, once])

/-- The text of a value in the engine, which drops null. -/
def variableText : Scalar → Option String
  | .text value => some value
  | .number numeral => some numeral.text
  | .bool value => some (if value then "true" else "false")
  | .null => none

end Runner

/-! ## The window -/

namespace Window

structure Entry where
  name : String
  value : Scalar
  text : Option String := none

def asText (value : Scalar) : String :=
  value.string

/-- The entries of `environmentEntries` that are enabled. -/
def enabledEntries (list : VariableList) : List Entry :=
  (((Record.ofEntries list.entries).filter fun (_, value) => value ≠ .null).filter fun (name, _) =>
    ((Record.ofEntries list.marks).read name).bind (·.enabled) ≠ some false).map
      fun (name, value) => { name, value }

def findById (environments : List Environment) (id : String) : Option Environment :=
  if id = "" then none else environments.find? fun environment => environment.id = id

theorem mem_of_findById {environments : List Environment} {id : String} {found : Environment}
    (h : findById environments id = some found) : found ∈ environments := by
  unfold findById at h
  split_ifs at h
  exact List.mem_of_find?_eq_some h

/-- What `environmentChain` puts before an environment.  The objects of a list
with distinct ids are the same where they are equal. -/
def above (environments : List Environment) (environment : Environment) : List Environment :=
  chase environments id (fun current => findById environments current.extended)
    mem_of_findById [environment] environment

def environmentChain (environments : List Environment) (environment : Environment) : List Environment :=
  (environment :: above environments environment).reverse

def environmentLayers (environments : List Environment) (environment : Environment) :
    List (List Entry) :=
  (environmentChain environments environment).map fun link => enabledEntries link.list

def objectLayer (entries : Entries) : List Entry :=
  ((Record.ofEntries entries).filter fun (_, value) => value ≠ .null).map
    fun (name, value) => { name, value }

def listLayer (list : VariableList) : List Entry :=
  enabledEntries list

def rowsLayer (vars : Vars) : List Entry :=
  ((parseRows vars).filter isSentRow).map fun row =>
    { name := row.key, value := .text row.value, text := some (sentText row) }

def sessionLayer (values : Entries) : List Entry :=
  (Record.ofEntries values).map fun (name, value) => { name, value }

def variableHolders (folders : List Folder) : List Folder :=
  folders.filter (·.collectionVariables.isSome)

def resolveLayers (layers : List (List Entry)) : Record String String :=
  layers.foldl (fun resolved layer =>
    resolved.overlay (layer.map fun entry => (entry.name, entry.text.getD (asText entry.value)))) []

end Window

/-! ## One request in one place -/

structure Place where
  dotEnv : List (String × String) := []
  /-- The active global environment, which extends no other. -/
  globals : Option VariableList := none
  collection : VariableList := {}
  environments : List Environment := []
  /-- The environment in use, if there is one. -/
  active : Option Environment := none
  /-- From the outermost to the request's own. -/
  folders : List Folder := []
  vars : Vars := .rows []
  session : Entries := []
  distinct : (environments.map Environment.id).Nodup := by simp
  listed : ∀ environment ∈ active, environment ∈ environments := by simp
  named : ∀ folder ∈ folders, folder.id ≠ "" := by simp

def processEnvironmentPrefix : String := "process.env."

namespace Runner

def Values.start (place : Place) : Values where
  process := Record.ofEntries (place.dotEnv.map fun (name, value) =>
    (processEnvironmentPrefix ++ name, .text value))
  globals := (place.globals.map ownScope).getD []
  collection := ownScope place.collection
  slot := (place.active.map (startingSlot place.environments)).getD {}
  session := Record.ofEntries place.session

def root : Folder := { id := "" }

def value (place : Place) (name : String) : Option String :=
  (((Values.start place).scoped (root :: place.folders) (requestVariables place.vars) []).read name).bind
    variableText

end Runner

namespace Window

def scopeLayers (place : Place) : List (List Entry) :=
  [place.dotEnv.map fun (name, value) => { name := processEnvironmentPrefix ++ name, value := .text value }] ++
    [(place.globals.map listLayer).getD []] ++ [listLayer place.collection] ++
    (variableHolders place.folders).map (fun folder => listLayer (folder.collectionVariables.getD {})) ++
    (place.active.map (environmentLayers place.environments)).getD [[]] ++
    place.folders.map (fun folder => objectLayer folder.entries) ++
    [rowsLayer place.vars, sessionLayer place.session]

def value (place : Place) (name : String) : Option String :=
  (resolveLayers (scopeLayers place)).read name

end Window

end Gostman.Scopes
