import Gostman.Openapi.Schemas
/-!
# Comparing specifications (`openapi/diff/diff.go`)

Paths, operations, parameters, bodies, responses and security of two
documents are compared in order, and every difference is added to a report.
-/

namespace Gostman.Openapi

open Gostman.Lib

def maxChanges : Nat := 5000

def methods : List String :=
  ["get", "put", "post", "delete", "options", "head", "patch", "trace"]

structure Change where
  severity : Severity
  method : String
  path : String
  place : String
  message : Message

structure Report where
  changes : List Change := []
  breaking : Nat := 0
  nonBreaking : Nat := 0
  informational : Nat := 0
  truncated : Bool := false

structure Comparison where
  budget : Budget := {}
  report : Report := {}
  method : String := ""
  path : String := ""

namespace Report

def count (report : Report) : Severity → Report
  | .breaking => { report with breaking := report.breaking + 1 }
  | .nonBreaking => { report with nonBreaking := report.nonBreaking + 1 }
  | .informational => { report with informational := report.informational + 1 }

def append (report : Report) (change : Change) : Report :=
  if report.changes.length < maxChanges then { report with changes := report.changes ++ [change] }
  else report

end Report

namespace Comparison

def add (c : Comparison) (reported : Reported) : Comparison :=
  { c with report := (c.report.append
      ⟨reported.severity, c.method, c.path, reported.place, reported.message⟩).count reported.severity }

def addAll (c : Comparison) (reports : List Reported) : Comparison :=
  reports.foldl add c

def general (c : Comparison) (reported : Reported) : Comparison :=
  { c with method := "", path := "" }.add reported

def schemas (r : Resolver) (c : Comparison) (oldSchema newSchema : Value) (way : Direction)
    (place : String) : Comparison :=
  let (reports, budget) := Openapi.schemas r oldSchema newSchema way place c.budget
  { c with budget }.addAll reports

end Comparison

def joined (separator : String) (texts : List String) : String :=
  separator.intercalate texts

def sorted (texts : List String) : List String :=
  texts.insertionSort (· ≤ ·)

def serversText (root : Value) : String :=
  let urls := (root.field "servers").listOf.map fun server => (server.field "url").textOf
  let host := (root.field "host").textOf
  joined "," (sorted (if host = "" then urls else urls ++ [host ++ (root.field "basePath").textOf]))

def resolved (root value : Value) : Option Fields :=
  (resolve root value).objectOf

variable (r : Resolver)

def compareInfo (c : Comparison) : Comparison :=
  let oldVersion := ((r.old.field "info").field "version").textOf
  let newVersion := ((r.new.field "info").field "version").textOf
  let c :=
    if oldVersion ≠ newVersion then
      c.general ⟨.informational, "info.version", .versionChanged oldVersion newVersion⟩
    else c
  if serversText r.old ≠ serversText r.new then c.general ⟨.informational, "servers", .serversChanged⟩
  else c

/-! ## Parameters -/

/-- `parameters`: a later entry of a key replaces an earlier one. -/
def parameters (root : Value) (item operation : Fields) : Record String Fields :=
  ((Value.lookup item "parameters").listOf ++ (Value.lookup operation "parameters").listOf).foldl
    (fun found entry =>
      match resolved root entry with
      | some parameter =>
          found.put ((Value.lookup parameter "in").textOf ++ " " ++
            (Value.lookup parameter "name").textOf) parameter
      | none => found) []

def parameterSchema (parameter : Fields) : Value :=
  if (Value.lookup parameter "schema").isNil then
    .object [("type", Value.lookup parameter "type"), ("enum", Value.lookup parameter "enum"),
      ("format", Value.lookup parameter "format")]
  else Value.lookup parameter "schema"

def parameterPlace (key : String) : String :=
  "parameters." ++ String.ofList (key.toList.map fun c => if c = ' ' then '.' else c)

def isRequired (fields : Fields) : Bool :=
  (Value.lookup fields "required").isTrue

def compareParameter (before after : Record String Fields) (c : Comparison) (key : String) : Comparison :=
  match after.read key with
  | none => c.add ⟨.nonBreaking, parameterPlace key, .parameterRemoved⟩
  | some now =>
      let was := (before.read key).getD []
      let c :=
        if isRequired now ∧ ¬ isRequired was then
          c.add ⟨.breaking, parameterPlace key, .parameterNowRequired⟩
        else if ¬ isRequired now ∧ isRequired was then
          c.add ⟨.nonBreaking, parameterPlace key, .parameterNoLongerRequired⟩
        else c
      c.schemas r (parameterSchema was) (parameterSchema now) .asRequest (parameterPlace key)

def compareParameters (before after : Record String Fields) (c : Comparison) : Comparison :=
  let c := (sortedKeys before).foldl (compareParameter r before after) c
  ((sortedKeys after).filter fun key => !before.has key).foldl (fun c key =>
    if isRequired ((after.read key).getD []) then
      c.add ⟨.breaking, parameterPlace key, .requiredParameterAdded⟩
    else c.add ⟨.nonBreaking, parameterPlace key, .optionalParameterAdded⟩) c

/-! ## Bodies -/

def bodyPlace : String := "requestBody"

def bodyOf (root : Value) (operation : Fields) : Option (Fields × Bool) :=
  match resolved root (Value.lookup operation "requestBody") with
  | some body => some (((Value.lookup body "content").objectOf).getD [], isRequired body)
  | none =>
      (Value.lookup operation "parameters").listOf.findSome? fun entry =>
        let parameter := (resolved root entry).getD []
        if (Value.lookup parameter "in").textOf = "body" then
          some ([("*", .object [("schema", Value.lookup parameter "schema")])], isRequired parameter)
        else none

def compareContent (oldContent newContent : Fields) (way : Direction) (place : String)
    (missing : Message) (missingPlace : String → String) (c : Comparison) : Comparison :=
  (sortedKeys oldContent).foldl (fun c media =>
    match newContent.read media with
    | none => c.add ⟨.breaking, missingPlace media, missing⟩
    | some next =>
        c.schemas r ((Value.lookup oldContent media).field "schema") (next.field "schema") way place) c

def compareBody (before after : Fields) (c : Comparison) : Comparison :=
  match bodyOf r.old before, bodyOf r.new after with
  | none, none => c
  | none, some (_, newRequired) =>
      if newRequired then c.add ⟨.breaking, bodyPlace, .requiredBodyAdded⟩
      else c.add ⟨.nonBreaking, bodyPlace, .optionalBodyAdded⟩
  | some _, none => c.add ⟨.nonBreaking, bodyPlace, .bodyRemoved⟩
  | some (oldContent, oldRequired), some (newContent, newRequired) =>
      let c := if newRequired ∧ ¬ oldRequired then c.add ⟨.breaking, bodyPlace, .bodyNowRequired⟩ else c
      let c := compareContent r oldContent newContent .asRequest bodyPlace .contentTypeNotAccepted
        (fun media => bodyPlace ++ "." ++ media) c
      ((sortedKeys newContent).filter fun media => !oldContent.has media).foldl (fun c media =>
        c.add ⟨.nonBreaking, bodyPlace ++ "." ++ media, .contentTypeAdded⟩) c

/-! ## Responses -/

def responseContent (root response : Value) : Fields :=
  let fields := (resolved root response).getD []
  match (Value.lookup fields "content").objectOf with
  | some content => content
  | none =>
      if (Value.lookup fields "schema").isNil then []
      else [("*", .object [("schema", Value.lookup fields "schema")])]

def compareResponse (oldResponses newResponses : Fields) (c : Comparison) (code : String) : Comparison :=
  let place := "responses." ++ code
  match newResponses.read code with
  | none =>
      c.add ⟨if code.toList.head? = some '2' then .breaking else .nonBreaking, place, .responseRemoved⟩
  | some next =>
      compareContent r (responseContent r.old (Value.lookup oldResponses code))
        (responseContent r.new next) .asResponse place .contentTypeNotReturned
        (fun media => place ++ "." ++ media) c

def responsesOf (operation : Fields) : Fields :=
  ((Value.lookup operation "responses").objectOf).getD []

def compareResponses (before after : Fields) (c : Comparison) : Comparison :=
  let oldResponses := responsesOf before
  let newResponses := responsesOf after
  let c := (sortedKeys oldResponses).foldl (compareResponse r oldResponses newResponses) c
  ((sortedKeys newResponses).filter fun code => !oldResponses.has code).foldl (fun c code =>
    c.add ⟨.informational, "responses." ++ code, .responseAdded⟩) c

/-! ## Security -/

def requirements (root : Value) (operation : Fields) : List String :=
  let source := (operation.read "security").getD (root.field "security")
  sorted (source.listOf.map fun entry => joined "+" (sortedKeys (entry.objectOf.getD [])))

def missing (set known : List String) : List String :=
  set.filter (· ∉ known)

def compareSecurity (before after : Fields) (c : Comparison) : Comparison :=
  let oldSets := requirements r.old before
  let newSets := requirements r.new after
  if joined "|" oldSets = joined "|" newSets then c
  else if newSets = [] then c.add ⟨.nonBreaking, "security", .authNotRequired⟩
  else if oldSets = [] then c.add ⟨.breaking, "security", .authRequired newSets⟩
  else if missing oldSets newSets = [] then
    c.add ⟨.nonBreaking, "security", .authAlternativeAdded (missing newSets oldSets)⟩
  else c.add ⟨.breaking, "security", .authChanged oldSets newSets⟩

def schemesOf (root : Value) : Fields :=
  match (root.field "components").objectOf with
  | some components => ((Value.lookup components "securitySchemes").objectOf).getD []
  | none => ((root.field "securityDefinitions").objectOf).getD []

def compareSecuritySchemes (c : Comparison) : Comparison :=
  let oldSchemes := schemesOf r.old
  let newSchemes := schemesOf r.new
  let c := (sortedKeys oldSchemes).foldl (fun c name =>
    match newSchemes.read name with
    | none => c.general ⟨.breaking, "securitySchemes." ++ name, .schemeRemoved⟩
    | some next =>
        if ((Value.lookup oldSchemes name).field "type").textOf ≠ (next.field "type").textOf then
          c.general ⟨.breaking, "securitySchemes." ++ name, .schemeTypeChanged⟩
        else c) c
  ((sortedKeys newSchemes).filter fun name => !oldSchemes.has name).foldl (fun c name =>
    c.general ⟨.informational, "securitySchemes." ++ name, .schemeAdded⟩) c

/-! ## Operations and paths -/

def compareOperation (oldItem newItem before after : Fields) (c : Comparison) : Comparison :=
  let c :=
    if (Value.lookup after "deprecated").isTrue ∧ ¬ (Value.lookup before "deprecated").isTrue then
      c.add ⟨.informational, "", .operationDeprecated⟩
    else c
  let c := compareParameters r (parameters r.old oldItem before) (parameters r.new newItem after) c
  let c := compareBody r before after c
  let c := compareResponses r before after c
  compareSecurity r before after c

def comparePath (path : String) (oldItem newItem : Fields) (c : Comparison) : Comparison :=
  methods.foldl (fun c method =>
    let c := { c with method := method.toUpper, path }
    match resolved r.old (Value.lookup oldItem method), resolved r.new (Value.lookup newItem method) with
    | none, none => c
    | some _, none => c.add ⟨.breaking, "", .operationRemoved⟩
    | none, some _ => c.add ⟨.nonBreaking, "", .operationAdded⟩
    | some before, some after => compareOperation r oldItem newItem before after c) c

def methodsOf (root item : Value) : List String :=
  methods.filter fun method => !(Value.lookup ((resolved root item).getD []) method).isNil

def removedPath (path : String) (item : Value) (c : Comparison) : Comparison :=
  match methodsOf r.old item with
  | [] => { c with method := "", path }.add ⟨.breaking, "", .pathRemoved⟩
  | found => found.foldl (fun c method =>
      { c with method := method.toUpper, path }.add ⟨.breaking, "", .operationRemoved⟩) c

def pathsOf (root : Value) : Fields :=
  ((root.field "paths").objectOf).getD []

def comparePaths (c : Comparison) : Comparison :=
  let oldPaths := pathsOf r.old
  let newPaths := pathsOf r.new
  let c := (sortedKeys oldPaths).foldl (fun c path =>
    match newPaths.read path with
    | none => removedPath r path (Value.lookup oldPaths path) c
    | some after =>
        comparePath r path ((resolved r.old (Value.lookup oldPaths path)).getD [])
          ((resolved r.new after).getD []) c) c
  ((sortedKeys newPaths).filter fun path => !oldPaths.has path).foldl (fun c path =>
    (methodsOf r.new (Value.lookup newPaths path)).foldl (fun c method =>
      { c with method := method.toUpper, path }.add ⟨.nonBreaking, "", .operationAdded⟩) c) c

/-! ## The report -/

def Severity.order : Severity → Nat
  | .breaking => 0
  | .nonBreaking => 1
  | .informational => 2

def Change.before (a b : Change) : Bool :=
  if a.severity.order ≠ b.severity.order then a.severity.order < b.severity.order
  else if a.path ≠ b.path then a.path < b.path
  else a.method < b.method

def sortChanges (changes : List Change) : List Change :=
  changes.mergeSort fun a b => !b.before a

def compare : Report :=
  let c := compareSecuritySchemes r (comparePaths r (compareInfo r {}))
  { c.report with
    changes := sortChanges c.report.changes
    truncated := c.budget.incomplete ||
      c.report.breaking + c.report.nonBreaking + c.report.informational > c.report.changes.length }

end Gostman.Openapi
