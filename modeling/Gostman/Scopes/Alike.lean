import Gostman.Lib.Uppermost
import Gostman.Scopes.Model
/-!
# The two hosts find the same values

Both read the uppermost list that gives a name, but a null hides what lies
below it from the runner and not from the window, and a number is sent as it
is written by the one and as JavaScript writes it by the other.
-/

namespace Gostman.Scopes

open Gostman.Lib

/-! ## What each list gives -/

def VariableList.gives (list : VariableList) (name : String) : Option Scalar :=
  if ((Record.ofEntries list.marks).read name).bind (·.enabled) = some false then none
  else (Record.ofEntries list.entries).read name

def isValue (value : Scalar) : Bool :=
  value ≠ .null

namespace Runner

theorem mem_turnedOff {marks : List (String × Mark)} {name : String} :
    name ∈ turnedOff marks ↔ ((Record.ofEntries marks).read name).bind (·.enabled) = some false := by
  have hnodup := Record.nodup_ofEntries marks
  unfold turnedOff Record.keys
  rw [List.mem_map, Option.bind_eq_some_iff]
  constructor
  · rintro ⟨⟨_, mark⟩, hmem, rfl⟩
    obtain ⟨hentry, hoff⟩ := List.mem_filter.1 hmem
    exact ⟨mark, Record.read_of_mem hnodup hentry, by simpa using hoff⟩
  · rintro ⟨mark, hread, hoff⟩
    exact ⟨(name, mark), List.mem_filter.2 ⟨Record.mem_of_read hread, by simpa using hoff⟩, rfl⟩

theorem nodup_ownScope (list : VariableList) : (ownScope list).keys.Nodup :=
  (Record.nodup_ofEntries _).sublist (List.filter_sublist.map _)

theorem read_ownScope (list : VariableList) (name : String) :
    (ownScope list).read name = list.gives name := by
  unfold ownScope VariableList.gives parseVariables
  rw [Record.read_without]
  simp only [mem_turnedOff]

theorem nodup_layered (scopes : List Variables) : (layered scopes).keys.Nodup := by
  have hgo : ∀ record : Variables, record.keys.Nodup → (scopes.foldl Record.overlay record).keys.Nodup := by
    induction scopes with
    | nil => exact fun _ h => h
    | cons scope rest ih => exact fun record h => ih _ (Record.nodup_overlay h scope)
  exact hgo [] (by simp [Record.keys])

theorem read_layered {scopes : List Variables} (h : ∀ scope ∈ scopes, scope.keys.Nodup) (name : String) :
    (layered scopes).read name = uppermost (scopes.map (·.read name)) := by
  unfold layered
  rw [Record.read_foldl_overlay, Record.read_nil, Option.or_none]
  congr 1
  apply List.map_congr_left
  intro scope hscope
  exact Record.read_ofEntries_of_nodup (h scope hscope) name

theorem read_edited_nil {base : Variables} (h : base.keys.Nodup) (name : String) :
    (edited base []).read name = base.read name := by
  have hread : (layered [base]).read name = uppermost [base.read name] :=
    read_layered (by simpa using h) name
  rw [uppermost_singleton] at hread
  exact hread

end Runner

def Window.texts (layer : List Window.Entry) : List (String × String) :=
  layer.map fun entry => (entry.name, entry.text.getD (Window.asText entry.value))

namespace Window

theorem read_texts (record : Record String Scalar) (hnodup : record.keys.Nodup)
    (keep : String × Scalar → Bool) (name : String) :
    (Record.ofEntries (texts ((record.filter keep).map fun entry => { name := entry.1, value := entry.2 }))).read
        name = ((record.read name).filter fun value => keep (name, value)).map Scalar.string := by
  have htexts : texts ((record.filter keep).map fun entry => { name := entry.1, value := entry.2 }) =
      (record.filter keep).map fun entry => (entry.1, entry.2.string) := by
    simp [texts, asText]
  have hkept : (Record.keys (record.filter keep)).Nodup := hnodup.sublist (List.filter_sublist.map _)
  rw [htexts, Record.read_ofEntries_of_nodup (by rw [Record.keys_map]; exact hkept), Record.read_map]
  rw [Record.read_filter_of_nodup hnodup]

theorem read_listLayer (list : VariableList) (name : String) :
    (Record.ofEntries (texts (listLayer list))).read name =
      ((list.gives name).filter isValue).map Scalar.string := by
  unfold listLayer enabledEntries VariableList.gives
  rw [List.filter_filter, read_texts _ (Record.nodup_ofEntries _)]
  congr 1
  cases (Record.ofEntries list.entries).read name with
  | none => split_ifs <;> rfl
  | some value =>
    rw [Option.filter_some]
    split_ifs with hkeep hoff hoff
    · simp [hoff] at hkeep
    · rw [Option.filter_some, if_pos]
      exact (Bool.and_eq_true_iff.1 hkeep).2
    · rfl
    · rw [Option.filter_some, if_neg]
      intro hvalue
      apply hkeep
      rw [Bool.and_eq_true_iff]
      exact ⟨by simpa using hoff, hvalue⟩

theorem read_objectLayer (entries : Entries) (name : String) :
    (Record.ofEntries (texts (objectLayer entries))).read name =
      (((Record.ofEntries entries).read name).filter isValue).map Scalar.string := by
  unfold objectLayer
  rw [read_texts _ (Record.nodup_ofEntries _)]
  rfl

theorem read_sessionLayer (values : Entries) (name : String) :
    (Record.ofEntries (texts (sessionLayer values))).read name =
      ((Record.ofEntries values).read name).map Scalar.string := by
  unfold sessionLayer
  have hall := read_texts (Record.ofEntries values) (Record.nodup_ofEntries _) (fun _ => true) name
  have htrue : ((Record.ofEntries values).read name).filter (fun _ => true) =
      (Record.ofEntries values).read name := by
    cases (Record.ofEntries values).read name <;> rfl
  rw [List.filter_true, htrue] at hall
  exact hall

theorem read_resolveLayers (layers : List (List Entry)) (name : String) :
    (resolveLayers layers).read name =
      uppermost (layers.map fun layer => (Record.ofEntries (texts layer)).read name) := by
  have hfold : resolveLayers layers = (layers.map texts).foldl Record.overlay [] := by
    rw [List.foldl_map]
    rfl
  rw [hfold, Record.read_foldl_overlay, Record.read_nil, Option.or_none, List.map_map]
  rfl

/-- The chains are the same, as the ids are distinct. -/
theorem above_eq {environments : List Environment} (hdistinct : (environments.map Environment.id).Nodup)
    {environment : Environment} (hlisted : environment ∈ environments) :
    Runner.above environments environment = above environments environment := by
  have hfind : ∀ current : Environment, Runner.findEnvironment environments current.extended =
      findById environments current.extended := by
    intro current
    unfold Runner.findEnvironment findById
    by_cases hempty : current.extended = "" <;> simp [hempty]
  have hinj : Set.InjOn Environment.id {environment | environment ∈ environments} := by
    intro first hfirst second hsecond heq
    exact List.inj_on_of_nodup_map hdistinct hfirst hsecond heq
  unfold Runner.above above
  rw [← chase_eq mem_of_findById hinj (by simpa using hlisted)]
  simp only [hfind]
  rfl

end Window

/-! ## The rows of a request -/

/-- A name that is blank to neither side, as that of every placeholder. -/
def IsName (name : String) : Prop :=
  Go.trimSpace name ≠ "" ∧ Js.trim name ≠ ""

def rowGives (vars : Vars) (name : String) : Option String :=
  (Record.ofEntries (((parseRows vars).filter isSentRow).map fun row => (row.key, sentText row))).read name

theorem read_requestScope (vars : Vars) {name : String} (h : IsName name) :
    (Runner.requestScope (requestVariables vars)).read name = (rowGives vars name).map Scalar.text := by
  unfold Runner.requestScope rowGives requestVariables
  rw [← Record.read_ofEntries_values, List.filter_map, List.map_map, List.map_map]
  apply Record.read_ofEntries_congr
  intro row _
  by_cases hkey : row.key = name
  · -- a row of this name is sent unless it is turned off
    have hsent : isSentRow row = row.enabled := by simp [isSentRow, hkey, h.2]
    cases henabled : row.enabled <;> simp [hsent, henabled, hkey, h.1]
  · rw [if_neg, not_and]
    · exact fun _ => hkey
    · simp only [Function.comp_apply, not_and]
      intro _
      split_ifs <;> exact hkey

theorem read_rowsLayer (vars : Vars) (name : String) :
    (Record.ofEntries (Window.texts (Window.rowsLayer vars))).read name = rowGives vars name := by
  unfold Window.texts Window.rowsLayer rowGives
  rw [List.map_map]
  rfl

/-! ## A place -/

namespace Place

/-- The environment in use and those above it, the outermost first. -/
def chain (place : Place) : List Environment :=
  (place.active.map (Window.environmentChain place.environments)).getD []

/-- What lies below the request's own rows, from the lowest. -/
def given (place : Place) (name : String) : List (Option Scalar) :=
  [(Record.ofEntries (place.dotEnv.map fun (name, value) =>
      (processEnvironmentPrefix ++ name, Scalar.text value))).read name,
    place.globals.bind (·.gives name), place.collection.gives name] ++
    (Window.variableHolders place.folders).map (fun folder =>
      (folder.collectionVariables.getD {}).gives name) ++
    place.chain.map (fun link => link.list.gives name) ++
    place.folders.map fun folder => (Record.ofEntries folder.entries).read name

def kept (place : Place) (name : String) : Option Scalar :=
  (Record.ofEntries place.session).read name

end Place

namespace Runner

theorem holders_eq (place : Place) :
    holders (root :: place.folders) = Window.variableHolders place.folders := by
  unfold holders Window.variableHolders
  rw [List.filter_cons_of_neg (by simp [root])]
  apply List.filter_congr
  intro folder hfolder
  simp [place.named folder hfolder]

/-- The two scopes of an environment hold what its chain gives. -/
theorem read_slot (place : Place) (name : String) :
    ((Values.start place).slot.own.read name).or ((Values.start place).slot.inherited.read name) =
      uppermost (place.chain.map fun link => link.list.gives name) := by
  unfold Values.start Place.chain
  cases hactive : place.active with
  | none => rfl
  | some environment =>
    have hlisted := place.listed environment (by simp [hactive])
    have hchain : environmentScopes place.environments environment =
        (Window.environmentChain place.environments environment).map fun link => ownScope link.list := by
      unfold environmentScopes Window.environmentChain
      rw [Window.above_eq place.distinct hlisted]
    have hne : Window.environmentChain place.environments environment ≠ [] := by
      simp [Window.environmentChain]
    obtain ⟨front, last, hsplit⟩ := (List.eq_nil_or_concat' _).resolve_left hne
    simp only [Option.map_some, Option.getD_some, startingSlot, hchain, hsplit, List.map_append,
      List.map_singleton, List.dropLast_concat, List.getLastD_concat]
    rw [uppermost_append, uppermost_singleton, read_ownScope, read_layered (by simp [nodup_ownScope]), List.map_map]
    simp only [Function.comp_def, read_ownScope]

theorem read_collectionLists (place : Place) (name : String) :
    ((Values.start place).collectionLists (root :: place.folders)).map (·.read name) =
      place.collection.gives name :: (Window.variableHolders place.folders).map fun folder =>
        (folder.collectionVariables.getD {}).gives name := by
  have hedited : ∀ list : VariableList, (edited (ownScope list) []).read name = list.gives name := by
    intro list
    rw [read_edited_nil (nodup_ownScope list), read_ownScope]
  unfold Values.collectionLists
  rw [holders_eq, List.map_cons, List.map_map]
  exact congrArg₂ List.cons (hedited _) (List.map_congr_left fun folder _ => hedited _)

theorem read_globals (place : Place) (name : String) :
    (Values.start place).globals.read name = place.globals.bind (·.gives name) := by
  unfold Values.start
  cases place.globals with
  | none => rfl
  | some list => exact read_ownScope list name

theorem nodup_layers (place : Place) (lineage : List Folder) :
    ∀ scope ∈ (Values.start place).layers lineage, scope.keys.Nodup := by
  have hglobals : (Values.start place).globals.keys.Nodup := by
    unfold Values.start
    cases place.globals with
    | none => simp [Record.keys]
    | some list => exact nodup_ownScope list
  have hslot : (Values.start place).slot.inherited.keys.Nodup ∧ (Values.start place).slot.own.keys.Nodup := by
    unfold Values.start
    cases place.active with
    | none => simp [Record.keys]
    | some environment =>
      refine ⟨nodup_layered _, ?_⟩
      simp only [Option.map_some, Option.getD_some, startingSlot, environmentScopes, List.reverse_cons,
        List.map_append, List.map_singleton, List.getLastD_concat]
      exact nodup_ownScope _
  intro scope hscope
  simp only [Values.layers, Values.collectionLists, List.mem_append, List.mem_cons, List.not_mem_nil,
    or_false, List.mem_map] at hscope
  rcases hscope with ((rfl | rfl) | rfl | ⟨holder, -, rfl⟩) | rfl | rfl
  · exact Record.nodup_ofEntries _
  · exact hglobals
  · exact nodup_layered [ownScope place.collection]
  · exact nodup_layered [ownScope _]
  · exact hslot.1
  · exact hslot.2

theorem read_scoped (place : Place) {name : String} (h : IsName name) :
    ((Values.start place).scoped (root :: place.folders) (requestVariables place.vars) []).read name =
      uppermost (place.given name ++ [(rowGives place.vars name).map Scalar.text, place.kept name]) := by
  unfold Values.scoped
  rw [read_layered]
  · have hroot : (parseVariables root.entries).read name = none := rfl
    have hsession : (Values.start place).session.read name = place.kept name := rfl
    have hslot : ∀ below, ((Values.start place).slot.own.read name).or
        (((Values.start place).slot.inherited.read name).or below) =
        (uppermost (place.chain.map fun link => link.list.gives name)).or below := by
      intro below
      rw [← Option.or_assoc, read_slot]
    unfold Values.layers folderScopes Place.given
    simp only [List.map_append, read_collectionLists, List.map_cons, List.map_nil, read_globals,
      read_requestScope place.vars h, hroot, hsession, uppermost_append, uppermost_cons, uppermost_nil,
      Record.read_nil, Option.none_or, Option.or_none, List.map_map, Option.or_assoc, hslot]
    rfl
  · intro scope hscope
    simp only [List.mem_append, List.mem_cons, List.not_mem_nil, or_false, folderScopes,
      List.mem_map] at hscope
    rcases hscope with (hlayer | ⟨folder, -, rfl⟩) | rfl | rfl | rfl
    · exact nodup_layers place _ scope hlayer
    · exact Record.nodup_ofEntries _
    · exact Record.nodup_ofEntries _
    · exact Record.nodup_ofEntries _
    · simp [Record.keys]

end Runner

namespace Window

theorem read_dotEnv (place : Place) (name : String) :
    (Record.ofEntries (texts (place.dotEnv.map fun (name, value) =>
      { name := processEnvironmentPrefix ++ name, value := .text value }))).read name =
      (((Record.ofEntries (place.dotEnv.map fun (name, value) =>
        (processEnvironmentPrefix ++ name, Scalar.text value))).read name).filter isValue).map
          Scalar.string := by
  let entries := place.dotEnv.map fun (name, value) => (processEnvironmentPrefix ++ name, value)
  have htexts : texts (place.dotEnv.map fun (name, value) =>
      { name := processEnvironmentPrefix ++ name, value := .text value }) = entries := by
    simp [texts, entries, asText, Scalar.string]
  have hvalues : (place.dotEnv.map fun (name, value) =>
      (processEnvironmentPrefix ++ name, Scalar.text value)) =
      entries.map fun entry => (entry.1, Scalar.text entry.2) := by
    simp [entries]
  rw [htexts, hvalues, Record.read_ofEntries_values]
  cases (Record.ofEntries entries).read name <;> rfl

theorem read_environmentLayers (place : Place) (name : String) :
    uppermost (((place.active.map (environmentLayers place.environments)).getD [[]]).map fun layer =>
      (Record.ofEntries (texts layer)).read name) =
      uppermost (place.chain.map fun link => ((link.list.gives name).filter isValue).map Scalar.string) := by
  unfold Place.chain
  cases place.active with
  | none => rfl
  | some environment =>
    simp only [Option.map_some, Option.getD_some, environmentLayers, List.map_map]
    congr 1
    apply List.map_congr_left
    intro link _
    exact read_listLayer link.list name

/-- The window reads what lies uppermost of what is not null. -/
theorem read_scopeLayers (place : Place) (name : String) :
    value place name =
      uppermost (((place.given name).map (Option.filter isValue)).map (Option.map Scalar.string) ++
        [rowGives place.vars name, (place.kept name).map Scalar.string]) := by
  have hglobals : (Record.ofEntries (texts ((place.globals.map listLayer).getD []))).read name =
      ((place.globals.bind (·.gives name)).filter isValue).map Scalar.string := by
    cases place.globals with
    | none => rfl
    | some list => exact read_listLayer list name
  unfold value Place.given scopeLayers
  rw [read_resolveLayers]
  simp only [List.map_append, List.map_cons, List.map_nil, uppermost_append, uppermost_cons, uppermost_nil,
    read_environmentLayers, hglobals, read_dotEnv, read_listLayer, read_rowsLayer, read_sessionLayer,
    read_objectLayer, List.map_map, Option.none_or, Option.or_assoc, Function.comp_def]
  rfl

end Window

/-! ## When they agree -/

def Scalar.Plain : Scalar → Prop
  | .null => False
  | .number numeral => numeral.rewritten = numeral.text
  | .text _ | .bool _ => True

/-- Where the runner and the window find the same: what the session gives is
plain; or else a row of the request gives the name; or else what lies
uppermost is plain, or there is nothing but nulls. -/
def Place.Agrees (place : Place) (name : String) : Prop :=
  match place.kept name with
  | some value => value.Plain
  | none =>
      (rowGives place.vars name).isSome ∨
        match uppermost (place.given name) with
        | none => True
        | some .null => ∀ given ∈ place.given name, given = none ∨ given = some .null
        | some value => value.Plain

theorem variableText_eq_iff (value : Scalar) :
    Runner.variableText value = some value.string ↔ value.Plain := by
  cases value with
  | text _ => simp [Runner.variableText, Scalar.string, Scalar.Plain]
  | bool _ => simp [Runner.variableText, Scalar.string, Scalar.Plain]
  | null => simp [Runner.variableText, Scalar.Plain]
  | number numeral => simp [Runner.variableText, Scalar.string, Scalar.Plain, eq_comm]

/-- An environment with a null over collection variables. -/
def nullPlace : Place where
  collection := { entries := [("host", .text "https://api.example.com")] }
  environments := [{ id := "local", list := { entries := [("host", .null), ("port", .text "80")] } }]
  active := some { id := "local", list := { entries := [("host", .null), ("port", .text "80")] } }

end Gostman.Scopes
