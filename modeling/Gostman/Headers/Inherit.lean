import Gostman.Js.Value
import Gostman.Go.Text
import Gostman.Lib.Layers
/-!
# Inherited headers

The engine overlays the header rows of each layer on those of the layers
before it, and the request's own rows last (`engine/inherit.go`).  The window
shows for each row of a layer whether it is sent, by looking for its name in
the rows that come later (`lib/inheritance.js`).

The two case foldings, `strings.ToLower` and `toLowerCase()`, are those of the
two runtimes, and so parameters.
-/

namespace Gostman.Headers

open Gostman.Lib

/-- One row of a header list, as both sides read it from JSON: a text key, a
text value and a boolean `enabled`. -/
structure Row where
  key : String
  value : String
  enabled : Bool
  deriving DecidableEq, Repr

structure Pair where
  key : String
  value : String
  deriving DecidableEq, Repr

def Row.pair (row : Row) : Pair :=
  ⟨row.key, row.value⟩

structure Casing where
  toLower : String → String
  toLowerCase : String → String

/-! ## The engine -/

def rowsFromList (items : List Row) : List Row :=
  items.filter fun row => Go.trimSpace row.key ≠ ""

def enabledPairs (rows : List Row) : List Pair :=
  (rows.filter Row.enabled).map Row.pair

def layerHeaders (own : List Row) (layers : List (List Row)) : List (List Row) :=
  layers ++ [own]

def overlay (casing : Casing) (base : List Pair) (rows : List Row) : List Pair :=
  (base.filter fun entry => rows.all fun row => casing.toLower row.key ≠ casing.toLower entry.key) ++
    enabledPairs rows

def mergeHeaders (casing : Casing) (own : List Row) (layers : List (List Row)) : List Pair :=
  (layerHeaders own layers).foldl
    (fun merged source => overlay casing merged (rowsFromList source)) []

/-! ## The window -/

structure Source where
  id : String
  name : String

/-- One entry of the lineage: the collection, or a folder, with its rows. -/
structure Scope where
  source : Source
  headers : List Row

inductive HeaderState where
  | sent
  | replaced
  | off
  deriving DecidableEq, Repr

structure Inherited where
  key : String
  value : String
  source : Source
  state : HeaderState

def lowerKey (casing : Casing) (row : Row) : String :=
  casing.toLowerCase (Js.trim row.key)

def namedRows (casing : Casing) (rows : List Row) : List Row :=
  rows.filter fun row => lowerKey casing row ≠ ""

def headerState (casing : Casing) (key : String) (laterRows : List Row) : HeaderState :=
  let later := laterRows.filter fun row => lowerKey casing row = key
  if later.length = 0 then .sent
  else if later.any Row.enabled then .replaced
  else .off

/-- The rows `inheritedHeaderRows` shows, over the layers whose named rows
are already taken. -/
def shownRows (casing : Casing) (ownRows : List Row) : List Scope → List Inherited
  | [] => []
  | scope :: rest =>
      let laterRows := rest.flatMap Scope.headers ++ namedRows casing ownRows
      ((scope.headers.filter Row.enabled).map fun row =>
        ⟨row.key, row.value, scope.source, headerState casing (lowerKey casing row) laterRows⟩) ++
        shownRows casing ownRows rest

def inheritedHeaderRows (casing : Casing) (lineage : List Scope) (ownRows : List Row) :
    List Inherited :=
  shownRows casing ownRows
    (lineage.map fun scope => { scope with headers := namedRows casing scope.headers })

def sentRows (casing : Casing) (lineage : List Scope) (ownRows : List Row) : List Pair :=
  ((inheritedHeaderRows casing lineage ownRows).filter fun row => row.state = .sent).map
    fun row => ⟨row.key, row.value⟩

/-! ## What the two sides go by -/

def engineName (casing : Casing) (row : Row) : Option String :=
  if Go.trimSpace row.key = "" then none else some (casing.toLower row.key)

def windowName (casing : Casing) (row : Row) : Option String :=
  if lowerKey casing row = "" then none else some (lowerKey casing row)

theorem engineName_of_named {casing : Casing} {row : Row} (h : Go.trimSpace row.key ≠ "") :
    engineName casing row = some (casing.toLower row.key) :=
  if_neg h

theorem windowName_of_named {casing : Casing} {row : Row} (h : lowerKey casing row ≠ "") :
    windowName casing row = some (lowerKey casing row) :=
  if_neg h

theorem engineName_isSome (casing : Casing) (row : Row) :
    (engineName casing row).isSome = true ↔ Go.trimSpace row.key ≠ "" := by
  unfold engineName
  split <;> simp_all

theorem windowName_isSome (casing : Casing) (row : Row) :
    (windowName casing row).isSome = true ↔ lowerKey casing row ≠ "" := by
  unfold windowName
  split <;> simp_all

/-- A later row hides a named one from the engine when the texts agree up to
case. -/
theorem engineName_eq_iff {casing : Casing} {row : Row} (h : Go.trimSpace row.key ≠ "")
    (other : Row) :
    engineName casing other = engineName casing row ↔
      Go.trimSpace other.key ≠ "" ∧ casing.toLower other.key = casing.toLower row.key := by
  rw [engineName_of_named h, engineName]
  split <;> simp_all

theorem windowName_eq_iff {casing : Casing} {row : Row} (h : lowerKey casing row ≠ "")
    (other : Row) :
    windowName casing other = windowName casing row ↔
      lowerKey casing other ≠ "" ∧ lowerKey casing other = lowerKey casing row := by
  rw [windowName_of_named h, windowName]
  split <;> simp_all

theorem engineName_congr {casing : Casing} {row other : Row} (h : row.pair = other.pair) :
    engineName casing row = engineName casing other := by
  have hkey : row.key = other.key := congrArg Pair.key h
  unfold engineName
  rw [hkey]

theorem windowName_congr {casing : Casing} {row other : Row} (h : row.pair = other.pair) :
    windowName casing row = windowName casing other := by
  have hkey : row.key = other.key := congrArg Pair.key h
  unfold windowName lowerKey
  rw [hkey]

/-! ## The engine keeps what no later source names -/

/-- The pairs of `base` that no row of the sources names. -/
def unnamed (casing : Casing) (sources : List (List Row)) (base : List Pair) : List Pair :=
  base.filter fun entry =>
    (sources.flatMap rowsFromList).all fun row => casing.toLower row.key ≠ casing.toLower entry.key

theorem unnamed_cons (casing : Casing) (source : List Row) (sources : List (List Row))
    (base : List Pair) :
    unnamed casing (source :: sources) base =
      unnamed casing sources (base.filter fun entry =>
        (rowsFromList source).all fun row => casing.toLower row.key ≠ casing.toLower entry.key) := by
  unfold unnamed
  rw [List.filter_filter]
  congr 1
  funext entry
  rw [List.flatMap_cons, List.all_append, Bool.and_comm]

/-- Of the enabled rows of one source, those that stay are those the engine's
naming keeps. -/
theorem unnamed_enabledPairs (casing : Casing) (layer : List Row) (sources : List (List Row)) :
    unnamed casing sources (enabledPairs (rowsFromList layer)) =
      (layer.filter fun row =>
        row.enabled && kept (engineName casing) row sources.flatten).map Row.pair := by
  unfold unnamed enabledPairs rowsFromList
  rw [List.filter_map, List.filter_filter, List.filter_filter]
  congr 1
  apply List.filter_congr
  intro row _
  rw [Bool.eq_iff_iff]
  simp only [Function.comp, Row.pair, Bool.and_eq_true, kept_iff, engineName_isSome,
    List.all_eq_true, List.mem_flatMap, List.mem_filter, List.mem_flatten, decide_eq_true_eq]
  constructor
  · rintro ⟨⟨hlater, henabled⟩, hnamed⟩
    refine ⟨henabled, hnamed, ?_⟩
    rintro other ⟨source, hsource, hmem⟩ hname
    obtain ⟨hother, hlower⟩ := (engineName_eq_iff hnamed other).1 hname
    exact of_decide_eq_true (hlater other ⟨source, hsource, hmem, hother⟩) hlower
  · rintro ⟨henabled, hnamed, hlater⟩
    refine ⟨⟨?_, henabled⟩, hnamed⟩
    rintro other ⟨source, hsource, hmem, hother⟩
    refine decide_eq_true fun hlower => ?_
    exact hlater other ⟨source, hsource, hmem⟩ ((engineName_eq_iff hnamed other).2 ⟨hother, hlower⟩)

/-- A run of `overlay` over the sources left: what is merged so far stays where
no source left names it, and each layer leaves its survivors. -/
theorem foldl_overlay (casing : Casing) (own : List Row) (layers : List (List Row))
    (base : List Pair) :
    (layerHeaders own layers).foldl
        (fun merged source => overlay casing merged (rowsFromList source)) base =
      unnamed casing (layers ++ [own]) base ++
        (survivors (engineName casing) Row.enabled layers own).map Row.pair ++
        enabledPairs (rowsFromList own) := by
  induction layers generalizing base with
  | nil => simp [layerHeaders, overlay, unnamed, survivors]
  | cons layer rest ih =>
    have hstep := ih (overlay casing base (rowsFromList layer))
    unfold layerHeaders at hstep ⊢
    rw [List.cons_append, List.foldl_cons, hstep, overlay, survivors, List.map_append]
    have hlast : (rest ++ [own]).flatten = rest.flatten ++ own := by simp
    have hlayer := unnamed_enabledPairs casing layer (rest ++ [own])
    rw [hlast] at hlayer
    rw [← hlayer, unnamed_cons]
    simp only [unnamed, List.filter_append, List.append_assoc]

theorem mergeHeaders_eq (casing : Casing) (own : List Row) (layers : List (List Row)) :
    mergeHeaders casing own layers =
      (survivors (engineName casing) Row.enabled layers own).map Row.pair ++
        enabledPairs (rowsFromList own) := by
  unfold mergeHeaders
  rw [foldl_overlay]
  simp [unnamed]

/-! ## The window marks sent what no later source names -/

theorem headerState_sent (casing : Casing) (key : String) (laterRows : List Row) :
    headerState casing key laterRows = .sent ↔
      ∀ other ∈ laterRows, lowerKey casing other ≠ key := by
  unfold headerState
  simp only [List.length_eq_zero_iff]
  split
  case isTrue hnone => simpa [List.filter_eq_nil_iff] using hnone
  case isFalse hsome =>
    have hfound : ¬ ∀ other ∈ laterRows, lowerKey casing other ≠ key := by
      intro hall
      apply hsome
      rw [List.filter_eq_nil_iff]
      simpa using hall
    split <;> simp_all

/-- The rows of one layer that are marked sent. -/
theorem sent_of_layer (casing : Casing) (layer later : List Row) (source : Source) :
    ((((namedRows casing layer).filter Row.enabled).map fun row =>
        (⟨row.key, row.value, source,
          headerState casing (lowerKey casing row) (namedRows casing later)⟩ : Inherited)).filter
        fun row => row.state = .sent).map (fun row => (⟨row.key, row.value⟩ : Pair)) =
      (layer.filter fun row =>
        row.enabled && kept (windowName casing) row later).map Row.pair := by
  rw [List.filter_map, List.map_map, List.filter_filter]
  change List.map Row.pair (List.filter _ (List.filter _ layer)) = _
  rw [List.filter_filter]
  congr 1
  apply List.filter_congr
  intro row _
  rw [Bool.eq_iff_iff]
  simp only [Function.comp, Bool.and_eq_true, decide_eq_true_eq, kept_iff, windowName_isSome]
  constructor
  · rintro ⟨⟨hsent, henabled⟩, hnamed⟩
    have hlater := (headerState_sent casing _ _).1 hsent
    refine ⟨henabled, hnamed, fun other hmem hname => ?_⟩
    obtain ⟨hother, hkey⟩ := (windowName_eq_iff hnamed other).1 hname
    exact hlater other (List.mem_filter.2 ⟨hmem, decide_eq_true hother⟩) hkey
  · rintro ⟨henabled, hnamed, hlater⟩
    refine ⟨⟨(headerState_sent casing _ _).2 fun other hmem hkey => ?_, henabled⟩, hnamed⟩
    obtain ⟨hmem, hother⟩ := List.mem_filter.1 hmem
    exact hlater other hmem
      ((windowName_eq_iff hnamed other).2 ⟨of_decide_eq_true hother, hkey⟩)

theorem sentRows_eq (casing : Casing) (lineage : List Scope) (own : List Row) :
    sentRows casing lineage own =
      (survivors (windowName casing) Row.enabled (lineage.map Scope.headers) own).map Row.pair := by
  unfold sentRows inheritedHeaderRows
  induction lineage with
  | nil => rfl
  | cons scope rest ih =>
    have hlater : (rest.map fun scope =>
          { scope with headers := namedRows casing scope.headers }).flatMap Scope.headers ++
          namedRows casing own =
        namedRows casing ((rest.map Scope.headers).flatten ++ own) := by
      unfold namedRows
      rw [List.filter_append, List.flatMap_map, List.filter_flatten, List.flatMap_def, List.map_map]
      rfl
    rw [List.map_cons, shownRows, List.filter_append, List.map_append, ih]
    simp only [hlater]
    rw [sent_of_layer, List.map_cons, survivors, List.map_append]

/-! ## The two sides compared -/

/-- What the layers hand on to a request: of the enabled rows, those of the
innermost source that names their header, the name taken without case and
surrounding blanks.  A disabled row there leaves none. -/
def innermost (casing : Casing) (lineage : List Scope) (own : List Row) : List Pair :=
  (survivors (windowName casing) Row.enabled (lineage.map Scope.headers) own).map Row.pair

/-- The rows marked sent are those of the innermost source naming them, and
the engine sends these before the request's own. -/
def ShowsWhatIsSent (casing : Casing) (lineage : List Scope) (own : List Row) : Prop :=
  sentRows casing lineage own = innermost casing lineage own ∧
    mergeHeaders casing own (lineage.map Scope.headers) =
      sentRows casing lineage own ++ enabledPairs (rowsFromList own)

/-- The key is not blank to `strings.TrimSpace`, and no later key that is not
blank either has the same lower case text. -/
def UntouchedInEngine (casing : Casing) (key : String) (later : List String) : Prop :=
  Go.trimSpace key ≠ "" ∧
    ∀ other ∈ later, Go.trimSpace other ≠ "" → casing.toLower other ≠ casing.toLower key

/-- The trimmed key has a lower case text, and no later key has the same one. -/
def UntouchedInWindow (casing : Casing) (key : String) (later : List String) : Prop :=
  casing.toLowerCase (Js.trim key) ≠ "" ∧
    ∀ other ∈ later, casing.toLowerCase (Js.trim other) ≠ casing.toLowerCase (Js.trim key)

/-- For each enabled row of a layer, comparing its key with the later keys
untrimmed comes to the same as comparing them trimmed. -/
def PaddingIdle (casing : Casing) (layers : List (List Row)) (own : List Row) : Prop :=
  ∀ before layer after, layers = before ++ layer :: after → ∀ row ∈ layer, row.enabled = true →
    (UntouchedInEngine casing row.key ((after.flatten ++ own).map Row.key) ↔
      UntouchedInWindow casing row.key ((after.flatten ++ own).map Row.key))

theorem kept_engineName_iff (casing : Casing) (row : Row) (later : List Row) :
    kept (engineName casing) row later = true ↔
      UntouchedInEngine casing row.key (later.map Row.key) := by
  rw [kept_iff, engineName_isSome, UntouchedInEngine, List.forall_mem_map]
  refine and_congr_right fun hnamed => ?_
  apply forall₂_congr
  intro other _
  rw [Ne, engineName_eq_iff hnamed, not_and]

theorem kept_windowName_iff (casing : Casing) (row : Row) (later : List Row) :
    kept (windowName casing) row later = true ↔
      UntouchedInWindow casing row.key (later.map Row.key) := by
  rw [kept_iff, windowName_isSome, UntouchedInWindow, List.forall_mem_map]
  refine and_congr_right fun hnamed => ?_
  apply forall₂_congr
  intro other _
  rw [Ne, windowName_eq_iff hnamed, not_and]
  constructor
  · intro h heq
    exact h (fun hblank => hnamed (heq.symm.trans hblank)) heq
  · intro h _
    exact h

theorem showsWhatIsSent_iff (casing : Casing) (lineage : List Scope) (own : List Row) :
    ShowsWhatIsSent casing lineage own ↔
      PaddingIdle casing (lineage.map Scope.headers) own := by
  have hsame := @map_survivors_eq_iff _ _ _ _ (engineName casing) (windowName casing) Row.enabled
    (lineage.map Scope.headers) own Row.pair
    (fun _ _ => engineName_congr) (fun _ _ => windowName_congr)
  simp only [kept_engineName_iff, kept_windowName_iff] at hsame
  rw [ShowsWhatIsSent, sentRows_eq, mergeHeaders_eq, List.append_cancel_right_eq]
  exact (and_iff_right rfl).trans hsame

/-- Texts in ASCII fold their case alike in both runtimes. -/
def asciiCasing : Casing :=
  let lower := fun text : String => String.ofList (text.toList.map Char.toLower)
  ⟨lower, lower⟩

/-- A key with a blank before it names its header for the window, and another
header for the engine, which then sends the collection's row as well. -/
theorem padded_key_sends_both :
    ¬ ShowsWhatIsSent asciiCasing
        [⟨⟨"", "Collection"⟩, [⟨"X-Api-Key", "outer", true⟩]⟩]
        [⟨" X-Api-Key", "own", true⟩] := by
  rintro ⟨-, hsent⟩
  revert hsent
  decide

end Gostman.Headers
