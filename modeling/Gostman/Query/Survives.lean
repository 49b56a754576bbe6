import Gostman.Query.Written
/-!
# Rows in a URL and beside it

Rows that are written are read back, with the base and the fragment of the URL,
if no key or value is cut in a placeholder and no braces that the base leaves
open are closed by what is written behind it.
-/

namespace Gostman.Query

open Gostman.Lib Gostman.Lib.UriComponent

def Row.shown (row : Row) : Text × Text × Bool :=
  (row.key, row.value, row.enabled)

/-! ## The pairs of a query -/

def pairsOf (query : Text) : List Text :=
  (query.splitOn pairSeparator).filter (· ≠ [])

theorem pairsOf_append (first rest : Text) : pairsOf (first ++ pairSeparator :: rest) = pairsOf first ++ pairsOf rest := by
  unfold pairsOf
  rw [List.splitOn_append_cons_self, List.filter_append]

theorem pairsOf_of_notMem {text : Text} (h : pairSeparator ∉ text) (hne : text ≠ []) : pairsOf text = [text] := by
  unfold pairsOf
  rw [List.splitOn_eq_singleton h]
  exact List.filter_eq_self.2 fun pair hpair => by rw [List.mem_singleton.1 hpair]; exact decide_eq_true hne

theorem pairsOf_ne_nil {text : Text} {u : UInt16} (hmem : u ∈ text) (hu : u ≠ pairSeparator) : pairsOf text ≠ [] := by
  have hjoin : [pairSeparator].intercalate (text.splitOn pairSeparator) = text := List.intercalate_splitOn pairSeparator
  rw [← hjoin] at hmem
  rcases mem_intercalate hmem with hsep | ⟨pair, hpair, hin⟩
  · exact absurd (List.mem_singleton.1 hsep) hu
  · apply List.ne_nil_of_mem (a := pair)
    exact List.mem_filter.2 ⟨hpair, decide_eq_true (List.ne_nil_of_mem hin)⟩

theorem pairsOf_queryText (rows : List Row) : pairsOf (queryText rows) = rows.flatMap fun row => pairsOf (pairText row) := by
  induction rows with
  | nil => decide
  | cons row rest ih =>
    cases rest with
    | nil => rw [queryText_singleton, List.flatMap_singleton]
    | cons next rest =>
      rw [queryText_cons_cons, pairsOf_append, ih]
      rfl

theorem valueSeparator_mem_pairText (row : Row) : valueSeparator ∈ pairText row :=
  List.mem_append_right _ List.mem_cons_self

theorem pairsOf_pairText_ne_nil (row : Row) : pairsOf (pairText row) ≠ [] :=
  pairsOf_ne_nil (valueSeparator_mem_pairText row) (by decide)

/-- A separator in a placeholder makes two pairs of one. -/
theorem two_le_pairsOf {first items rest : Text} {name : Text} (hitems : items = closed name) (h : pairSeparator ∈ items) :
    2 ≤ (pairsOf (first ++ items ++ rest)).length := by
  have hname : pairSeparator ∈ name := by
    rw [hitems] at h
    unfold closed at h
    rw [List.mem_cons, List.mem_cons, List.mem_append, List.mem_cons, List.mem_singleton] at h
    rcases h with heq | heq | hmem | heq | heq
    · exact absurd heq (by decide)
    · exact absurd heq (by decide)
    · exact hmem
    · exact absurd heq (by decide)
    · exact absurd heq (by decide)
  obtain ⟨opened, left, rfl⟩ := List.append_of_mem hname
  have hsplit : first ++ items ++ rest =
      (first ++ leftBrace :: leftBrace :: opened) ++ pairSeparator :: (left ++ rightBrace :: rightBrace :: rest) := by
    rw [hitems]
    unfold closed
    simp only [List.cons_append, List.append_assoc, List.nil_append]
  have hfirst : pairsOf (first ++ leftBrace :: leftBrace :: opened) ≠ [] :=
    pairsOf_ne_nil (List.mem_append_right _ List.mem_cons_self) (by decide)
  have hrest : pairsOf (left ++ rightBrace :: rightBrace :: rest) ≠ [] :=
    pairsOf_ne_nil (List.mem_append_right _ List.mem_cons_self) (by decide)
  rw [hsplit, pairsOf_append, List.length_append]
  have hfirstPos := List.length_pos_of_ne_nil hfirst
  have hrestPos := List.length_pos_of_ne_nil hrest
  omega

/-- If there are as many pairs as rows, each row has one. -/
theorem length_pairsOf {rows : List Row} (h : (rows.flatMap fun row => pairsOf (pairText row)).length ≤ rows.length) :
    ∀ row ∈ rows, (pairsOf (pairText row)).length = 1 := by
  have hmany : ∀ rows : List Row, rows.length ≤ (rows.flatMap fun row => pairsOf (pairText row)).length := by
    intro rows
    induction rows with
    | nil => exact Nat.zero_le _
    | cons row rest ih =>
      have hpos := List.length_pos_of_ne_nil (pairsOf_pairText_ne_nil row)
      rw [List.flatMap_cons, List.length_append, List.length_cons]
      omega
  induction rows with
  | nil => exact fun row hrow => absurd hrow List.not_mem_nil
  | cons row rest ih =>
    have hpos := List.length_pos_of_ne_nil (pairsOf_pairText_ne_nil row)
    have hrest := hmany rest
    rw [List.flatMap_cons, List.length_append, List.length_cons] at h
    intro other hother
    rcases List.mem_cons.1 hother with rfl | hmem
    · omega
    · exact ih (by omega) other hmem

/-! ## A row in the URL -/

/-- A row that is not cut: neither an `&` in a placeholder, nor a `=` in one of
the key. -/
def Row.Uncut (row : Row) : Prop :=
  (∀ items ∈ placeholdersOf row.key, pairSeparator ∉ items ∧ valueSeparator ∉ items) ∧
    ∀ items ∈ placeholdersOf row.value, pairSeparator ∉ items

def Row.read (row : Row) : Row :=
  ⟨row.key, row.value, true, false⟩

theorem parsePair_pairText {row : Row} (h : row.Scalar) (hkey : valueSeparator ∉ encode row.key) :
    parsePair (pairText row) = row.read := by
  unfold parsePair pairText
  rw [idxOf?_append_cons hkey]
  dsimp only
  rw [List.take_left, ← List.drop_drop, List.drop_left, List.drop_one, List.tail_cons, decode_encode h.1, decode_encode h.2]
  rfl

theorem parsePair_key_ne {row : Row} (h : row.Scalar) (hkey : valueSeparator ∈ encode row.key) :
    (parsePair (pairText row)).key ≠ row.key := by
  obtain ⟨cut, behind, heq, hcut⟩ := List.eq_append_cons_of_mem hkey
  unfold parsePair pairText
  rw [heq, List.append_assoc, List.cons_append, idxOf?_append_cons hcut]
  dsimp only
  rw [List.take_left]
  exact decode_cut_ne h.1 heq hcut

theorem pairSeparator_notMem_pairText {row : Row} (h : row.Scalar) (huncut : row.Uncut) : pairSeparator ∉ pairText row := by
  unfold pairText
  rw [List.mem_append, List.mem_cons, mem_encode h.1 not_safe_pairSeparator, mem_encode h.2 not_safe_pairSeparator]
  intro hmem
  rcases hmem with ⟨items, hitems, hin⟩ | heq | ⟨items, hitems, hin⟩
  · exact (huncut.1 items hitems).1 hin
  · exact absurd heq (by decide)
  · exact huncut.2 items hitems hin

theorem pairsOf_pairText {row : Row} (h : row.Scalar) (huncut : row.Uncut) : pairsOf (pairText row) = [pairText row] :=
  pairsOf_of_notMem (pairSeparator_notMem_pairText h huncut) (List.ne_nil_of_mem (valueSeparator_mem_pairText row))

/-- One pair that is read as the row makes the row uncut. -/
theorem uncut_of_pairs {row : Row} (h : row.Scalar) (hlength : (pairsOf (pairText row)).length = 1)
    (hread : (pairsOf (pairText row)).map (fun pair => (parsePair pair).key) = [row.key]) : row.Uncut := by
  have hno : ∀ first items rest name, pairText row = first ++ items ++ rest → items = closed name → pairSeparator ∉ items := by
    intro first items rest name heq hitems hmem
    have htwo := @two_le_pairsOf first items rest name hitems hmem
    rw [← heq] at htwo
    omega
  have hkey : ∀ items ∈ placeholdersOf row.key, pairSeparator ∉ items := by
    intro items hitems
    obtain ⟨before, after, name, heq, -, hclosed⟩ := exists_closed hitems
    apply hno before items (after ++ valueSeparator :: encode row.value) name _ hclosed
    rw [pairText, heq, hclosed, List.append_assoc]
  have hvalue : ∀ items ∈ placeholdersOf row.value, pairSeparator ∉ items := by
    intro items hitems
    obtain ⟨before, after, name, heq, -, hclosed⟩ := exists_closed hitems
    apply hno (encode row.key ++ valueSeparator :: before) items after name _ hclosed
    rw [pairText, heq, hclosed]
    simp only [List.append_assoc, List.cons_append]
  have hpairs : pairsOf (pairText row) = [pairText row] := by
    apply pairsOf_of_notMem _ (List.ne_nil_of_mem (valueSeparator_mem_pairText row))
    unfold pairText
    rw [List.mem_append, List.mem_cons, mem_encode h.1 not_safe_pairSeparator, mem_encode h.2 not_safe_pairSeparator]
    intro hmem
    rcases hmem with ⟨items, hitems, hin⟩ | heq | ⟨items, hitems, hin⟩
    · exact hkey items hitems hin
    · exact absurd heq (by decide)
    · exact hvalue items hitems hin
  rw [hpairs, List.map_singleton, List.cons.injEq] at hread
  refine ⟨fun items hitems => ⟨hkey items hitems, ?_⟩, hvalue⟩
  intro hmem
  apply parsePair_key_ne h _ hread.1
  exact (mem_encode h.1 not_safe_valueSeparator).2 ⟨items, hitems, hmem⟩

/-- The pairs of enabled rows are read as the rows just where none is cut. -/
theorem read_pairs_iff {rows : List Row} (h : ∀ row ∈ rows, row.Scalar) (henabled : ∀ row ∈ rows, row.enabled = true) :
    ((pairsOf (queryText rows)).map parsePair).map Row.shown = rows.map Row.shown ↔ ∀ row ∈ rows, row.Uncut := by
  rw [pairsOf_queryText]
  constructor
  · intro hread
    have hlength := congrArg List.length hread
    simp only [List.length_map] at hlength
    have hone := length_pairsOf (Nat.le_of_eq hlength)
    have hkeys : ((rows.flatMap fun row => pairsOf (pairText row)).map fun pair => (parsePair pair).key) = rows.map Row.key := by
      have hfirst := congrArg (List.map Prod.fst) hread
      rw [List.map_map, List.map_map, List.map_map] at hfirst
      exact hfirst
    clear hread hlength henabled
    induction rows with
    | nil => exact fun row hrow => absurd hrow List.not_mem_nil
    | cons row rest ih =>
      have hrow := hone row List.mem_cons_self
      rw [List.flatMap_cons, List.map_append, List.map_cons, ← List.singleton_append] at hkeys
      obtain ⟨hkey, hrest⟩ := List.append_inj hkeys (by rw [List.length_map, hrow]; rfl)
      intro other hother
      rcases List.mem_cons.1 hother with rfl | hmem
      · exact uncut_of_pairs (h other List.mem_cons_self) hrow hkey
      · exact ih (fun row hin => h row (List.mem_cons_of_mem _ hin)) (fun row hin => hone row (List.mem_cons_of_mem _ hin))
          hrest other hmem
  · intro huncut
    induction rows with
    | nil => rfl
    | cons row rest ih =>
      have hrow := h row List.mem_cons_self
      have hkey : valueSeparator ∉ encode row.key := by
        rw [mem_encode hrow.1 not_safe_valueSeparator]
        intro hmem
        obtain ⟨items, hitems, hin⟩ := hmem
        exact ((huncut row List.mem_cons_self).1 items hitems).2 hin
      have hshown : row.read.shown = row.shown := by
        unfold Row.read Row.shown
        rw [henabled row List.mem_cons_self]
      rw [List.flatMap_cons, pairsOf_pairText hrow (huncut row List.mem_cons_self), List.singleton_append, List.map_cons,
        List.map_cons, parsePair_pairText hrow hkey, hshown, List.map_cons]
      congr 1
      apply ih
      · exact fun other hother => h other (List.mem_cons_of_mem _ hother)
      · exact fun other hother => henabled other (List.mem_cons_of_mem _ hother)
      · exact fun other hother => huncut other (List.mem_cons_of_mem _ hother)

/-! ## The side list -/

def storedFrom (rows : List Row) (position : Nat) : List StoredRow :=
  ((rows.zipIdx position).filter fun row => !row.1.enabled).map fun row => storedAt row.1 row.2

theorem storedFrom_cons (row : Row) (rest : List Row) (position : Nat) :
    storedFrom (row :: rest) position =
      if row.enabled then storedFrom rest (position + 1) else storedAt row position :: storedFrom rest (position + 1) := by
  unfold storedFrom
  rw [List.zipIdx_cons, List.filter_cons]
  cases row.enabled <;> rfl

theorem mem_storedFrom {rows : List Row} {position : Nat} {stored : StoredRow} (h : stored ∈ storedFrom rows position) :
    stored.enabled = some false ∧ ∃ place : Nat, position ≤ place ∧ stored.position = some (place : Int) := by
  induction rows generalizing position with
  | nil => exact absurd h List.not_mem_nil
  | cons row rest ih =>
    rw [storedFrom_cons] at h
    split_ifs at h with henabled
    · obtain ⟨hfalse, place, hle, hplace⟩ := ih h
      exact ⟨hfalse, place, by omega, hplace⟩
    · rcases List.mem_cons.1 h with rfl | hmem
      · refine ⟨?_, position, Nat.le_refl _, rfl⟩
        rw [Bool.not_eq_true] at henabled
        exact congrArg some henabled
      · obtain ⟨hfalse, place, hle, hplace⟩ := ih hmem
        exact ⟨hfalse, place, by omega, hplace⟩

/-- The side list is in order of its positions. -/
theorem pairwise_storedFrom (rows : List Row) (position : Nat) :
    (storedFrom rows position).Pairwise fun first second => byPosition first second = true := by
  induction rows generalizing position with
  | nil => exact List.Pairwise.nil
  | cons row rest ih =>
    rw [storedFrom_cons]
    split_ifs with henabled
    · exact ih (position + 1)
    · apply List.Pairwise.cons _ (ih (position + 1))
      intro other hother
      obtain ⟨-, place, hle, hplace⟩ := mem_storedFrom hother
      unfold byPosition storedAt
      rw [hplace]
      apply decide_eq_true
      omega

/-- The rows that are read beside those of the URL. -/
theorem readParamRows_stored (url : Text) (rows : List Row) :
    readParamRows url (storedFrom rows 0) = (storedFrom rows 0).foldl insertRow (parseUrlParams url) := by
  have hall : (storedFrom rows 0).filter (fun stored => !stored.toRow.enabled) = storedFrom rows 0 := by
    rw [List.filter_eq_self]
    intro stored hstored
    obtain ⟨hfalse, -⟩ := mem_storedFrom hstored
    unfold StoredRow.toRow
    rw [hfalse]
    rfl
  unfold readParamRows
  rw [hall, List.mergeSort_of_pairwise (pairwise_storedFrom rows 0)]

theorem insertIdx_between (done rest : List Row) (row : Row) :
    (done ++ rest).insertIdx done.length row = done ++ row :: rest := by
  induction done with
  | nil => rfl
  | cons first done ih => rw [List.cons_append, List.length_cons, List.insertIdx_succ_cons, ih, List.cons_append]

theorem filter_insertIdx {p : Row → Bool} {row : Row} (h : p row = false) (rows : List Row) (index : Nat) :
    (rows.insertIdx index row).filter p = rows.filter p := by
  induction rows generalizing index with
  | nil =>
    cases index with
    | zero => rw [List.insertIdx_zero, List.filter_cons, h]; rfl
    | succ index => rfl
  | cons first rest ih =>
    cases index with
    | zero => rw [List.insertIdx_zero, List.filter_cons, h]; rfl
    | succ index => rw [List.insertIdx_succ_cons, List.filter_cons, List.filter_cons, ih]

theorem insertRow_at (done rest : List Row) (row : Row) (h : row.enabled = false) :
    insertRow (done ++ rest) (storedAt row done.length) = done ++ row :: rest := by
  have hrow : (storedAt row done.length).toRow = row := by
    obtain ⟨key, value, enabled, file⟩ := row
    obtain rfl : enabled = false := h
    rfl
  have hindex : spliceIndex (done ++ rest).length (some (done.length : Int)) = done.length := by
    unfold spliceIndex
    rw [List.length_append]
    dsimp only
    split_ifs <;> omega
  unfold insertRow
  rw [hrow]
  change (done ++ rest).insertIdx (spliceIndex (done ++ rest).length (some (done.length : Int))) row = _
  rw [hindex]
  exact insertIdx_between done rest row

def Row.seen (row : Row) : Row :=
  if row.enabled then row.read else row

theorem shown_seen (row : Row) : row.seen.shown = row.shown := by
  unfold Row.seen
  split_ifs with henabled
  · unfold Row.read Row.shown
    rw [henabled]
  · rfl

/-- The side list is put back between the enabled rows, each row where it was. -/
theorem foldl_insertRow (done rest : List Row) :
    (storedFrom rest done.length).foldl insertRow (done ++ (rest.filter fun row => row.enabled).map Row.read) =
      done ++ rest.map Row.seen := by
  induction rest generalizing done with
  | nil => rfl
  | cons row rest ih =>
    have hmore := ih (done ++ [row.seen])
    rw [List.length_append, List.length_singleton, List.append_assoc, List.append_assoc] at hmore
    rw [storedFrom_cons, List.filter_cons]
    split_ifs with henabled
    · have hseen : row.seen = row.read := if_pos henabled
      rw [List.map_cons, ← hseen]
      exact hmore
    · have hseen : row.seen = row := if_neg henabled
      rw [Bool.not_eq_true] at henabled
      rw [List.foldl_cons, insertRow_at done _ row henabled, List.map_cons]
      rw [hseen] at hmore ⊢
      exact hmore

/-- Whatever rows the URL has, the enabled ones are those. -/
theorem filter_foldl_insertRow {stored : List StoredRow} (h : ∀ row ∈ stored, row.toRow.enabled = false) (rows : List Row) :
    (stored.foldl insertRow rows).filter (fun row => row.enabled) = rows.filter fun row => row.enabled := by
  induction stored generalizing rows with
  | nil => rfl
  | cons first rest ih =>
    rw [List.foldl_cons, ih fun row hrow => h row (List.mem_cons_of_mem _ hrow)]
    exact filter_insertIdx (h first List.mem_cons_self) rows _

/-- A row of the URL is enabled and of no file. -/
theorem read_of_mem_parseUrlParams {url : Text} {row : Row} (h : row ∈ parseUrlParams url) : row.read = row := by
  obtain ⟨pair, -, rfl⟩ := List.mem_map.1 h
  unfold parsePair
  cases pair.idxOf? valueSeparator <;> rfl

theorem enabled_of_mem_parseUrlParams {url : Text} {row : Row} (h : row ∈ parseUrlParams url) : row.enabled = true := by
  rw [← read_of_mem_parseUrlParams h]
  rfl

/-- Rows of the URL that show the same are the same. -/
theorem parseUrlParams_eq {url : Text} {rows : List Row} (h : (parseUrlParams url).map Row.shown = rows.map Row.shown) :
    parseUrlParams url = rows.map Row.read := by
  have hread : ∀ rows : List Row, rows.map Row.read = (rows.map Row.shown).map fun shown => ⟨shown.1, shown.2.1, true, false⟩ := by
    intro rows
    rw [List.map_map]
    rfl
  calc parseUrlParams url = (parseUrlParams url).map fun row => row := (List.map_id' _).symm
    _ = (parseUrlParams url).map Row.read := List.map_congr_left fun row hrow => (read_of_mem_parseUrlParams hrow).symm
    _ = rows.map Row.read := by rw [hread, h, ← hread]

/-- The rows are read back just where the URL gives the enabled ones. -/
theorem readParamRows_iff (url : Text) (rows : List Row) :
    (readParamRows url (storedFrom rows 0)).map Row.shown = rows.map Row.shown ↔
      (parseUrlParams url).map Row.shown = (rows.filter fun row => row.enabled).map Row.shown := by
  rw [readParamRows_stored]
  constructor
  · intro hread
    have hfalse : ∀ stored ∈ storedFrom rows 0, stored.toRow.enabled = false := by
      intro stored hstored
      obtain ⟨hfalse, -⟩ := mem_storedFrom hstored
      unfold StoredRow.toRow
      rw [hfalse]
      rfl
    have hfilter := congrArg (List.filter fun shown => shown.2.2) hread
    rw [List.filter_map, List.filter_map] at hfilter
    change ((_ : List Row).filter fun row => row.enabled).map Row.shown = (rows.filter fun row => row.enabled).map Row.shown at hfilter
    rw [filter_foldl_insertRow hfalse, List.filter_eq_self.2 fun row => enabled_of_mem_parseUrlParams] at hfilter
    exact hfilter
  · intro hread
    have hfold := foldl_insertRow [] rows
    rw [List.nil_append, List.nil_append, List.length_nil, ← parseUrlParams_eq hread] at hfold
    rw [hfold, List.map_map]
    apply List.map_congr_left
    intro row _
    exact shown_seen row

/-! ## The round trip -/

/-- The rows come back, with the base and the fragment of the URL. -/
def Survives (url : Text) (rows : List Row) : Prop :=
  let written := writeParamRows url rows
  (readParamRows written.url written.queryParams).map Row.shown = rows.map Row.shown ∧
    (splitUrl written.url).base = (splitUrl url).base ∧ (splitUrl written.url).fragment = (splitUrl url).fragment

/-- Braces that the base leaves open are closed by what is written behind it. -/
def ClosesBase (url : Text) (rows : List Row) : Prop :=
  Open (splitUrl url).base ∧
    ((∃ row ∈ rows, row.enabled = true ∧ row.HoldsPlaceholder) ∨ Closes (splitUrl url).fragment)

section RoundTrip

variable {url : Text} {rows : List Row}

theorem withUrlParams_eq (hblank : ∀ row ∈ rows, isBlankRow row = false) :
    withUrlParams url rows =
      (splitUrl url).base ++ queryPart (queryText rows) ++ (splitUrl url).fragment := by
  have hall : (rows.filter fun row => !isBlankRow row) = rows := by
    rw [List.filter_eq_self]
    intro row hrow
    rw [hblank row hrow]
    rfl
  unfold withUrlParams
  rw [hall]
  rfl

theorem plainStart_behind (query : Text) {fragment : Text} (h : IsFragment fragment) :
    PlainStart (queryPart query ++ fragment) := by
  intro u rest heq
  unfold queryPart at heq
  split_ifs at heq with hempty
  · rcases h with rfl | ⟨others, rfl⟩
    · cases heq
    · rw [← (List.cons.inj heq).1]
      decide
  · rw [← (List.cons.inj heq).1]
    decide

/-- The base is apart from what is written behind it, unless that closes it. -/
theorem apart_base_iff (hscalar : ∀ row ∈ rows, row.Scalar) :
    Apart (splitUrl url).base (queryPart (queryText rows) ++ (splitUrl url).fragment) ↔
      ¬ (Open (splitUrl url).base ∧ ((∃ row ∈ rows, row.HoldsPlaceholder) ∨ Closes (splitUrl url).fragment)) := by
  obtain ⟨hsettled, hcloses⟩ := closes_queryText_iff hscalar
  have hpart : Settled (queryPart (queryText rows)) ∧ (Closes (queryPart (queryText rows)) ↔ Closes (queryText rows)) := by
    unfold queryPart
    split_ifs with hempty
    · rw [hempty]
      exact ⟨.inl List.not_mem_nil, Iff.rfl⟩
    · exact ⟨hsettled.cons (by decide), closes_cons_iff (by decide) _⟩
  rw [apart_iff (plainStart_behind _ (isParts_splitUrl url).isFragment), closes_append_iff hpart.1, hpart.2, hcloses]

theorem splitUrl_written (hscalar : ∀ row ∈ rows, row.Scalar)
    (hapart : Apart (splitUrl url).base (queryPart (queryText rows) ++ (splitUrl url).fragment)) :
    splitUrl ((splitUrl url).base ++ queryPart (queryText rows) ++ (splitUrl url).fragment) =
      ⟨(splitUrl url).base, queryText rows, (splitUrl url).fragment⟩ := by
  have hparts := isParts_splitUrl url
  have htame := tame_queryText hscalar
  exact splitUrl_build hparts.queryMark_notMem hparts.fragmentMark_notMem hparts.isFragment htame.2 htame.1 hapart

/-- A base that comes back is apart from what was written. -/
theorem apart_of_base {text base behind : Text} (htext : text = base ++ behind) (h : (splitUrl text).base = base) :
    Apart base behind := by
  obtain ⟨rest, heq, hapart⟩ := (isParts_splitUrl text).apart
  rw [h] at heq hapart
  rw [htext, List.append_cancel_left_eq] at heq
  rw [heq]
  exact hapart

end RoundTrip

/-- Rows survive the URL just where no enabled row is cut in a placeholder and
the base is not closed by what is written behind it. -/
theorem survives_iff_uncut (url : Text) (rows : List Row)
    (hblank : ∀ row ∈ rows, row.enabled = true → isBlankRow row = false) (hscalar : ∀ row ∈ rows, row.Scalar) :
    Survives url rows ↔ (∀ row ∈ rows, row.enabled = true → row.Uncut) ∧ ¬ ClosesBase url rows := by
  have hmem : ∀ row, row ∈ rows.filter (fun row => row.enabled) ↔ row ∈ rows ∧ row.enabled = true := by
    intro row
    exact List.mem_filter
  have henabledScalar : ∀ row ∈ rows.filter fun row => row.enabled, row.Scalar := by
    intro row hrow
    exact hscalar row ((hmem row).1 hrow).1
  have hwritten : withUrlParams url (rows.filter fun row => row.enabled) =
      (splitUrl url).base ++ queryPart (queryText (rows.filter fun row => row.enabled)) ++ (splitUrl url).fragment := by
    apply withUrlParams_eq
    intro row hrow
    exact hblank row ((hmem row).1 hrow).1 ((hmem row).1 hrow).2
  have hpairs := read_pairs_iff henabledScalar fun row hrow => ((hmem row).1 hrow).2
  have hbase := @apart_base_iff url _ henabledScalar
  have hside : (writeParamRows url rows).queryParams = storedFrom rows 0 := rfl
  have hclosing : ClosesBase url rows ↔ Open (splitUrl url).base ∧
      ((∃ row ∈ rows.filter (fun row => row.enabled), row.HoldsPlaceholder) ∨ Closes (splitUrl url).fragment) := by
    unfold ClosesBase
    simp only [hmem, and_assoc]
  have huncut : (∀ row ∈ rows.filter (fun row => row.enabled), row.Uncut) ↔ ∀ row ∈ rows, row.enabled = true → row.Uncut := by
    simp only [hmem, and_imp]
  unfold Survives
  dsimp only
  rw [hside, readParamRows_iff, hclosing, ← hbase, ← huncut, ← hpairs]
  change _ ∧ (splitUrl (withUrlParams url _)).base = _ ∧ (splitUrl (withUrlParams url _)).fragment = _ ↔ _
  rw [hwritten]
  constructor
  · intro hall
    obtain ⟨hread, hsame, -⟩ := hall
    have hapart := apart_of_base (List.append_assoc _ _ _) hsame
    have hsplit := splitUrl_written henabledScalar hapart
    refine ⟨?_, hapart⟩
    change (parseUrlParams (withUrlParams url _)).map Row.shown = _ at hread
    unfold parseUrlParams at hread
    rw [hwritten, hsplit] at hread
    exact hread
  · intro hboth
    obtain ⟨hread, hapart⟩ := hboth
    have hsplit := splitUrl_written henabledScalar hapart
    refine ⟨?_, by rw [hsplit], by rw [hsplit]⟩
    change (parseUrlParams (withUrlParams url _)).map Row.shown = _
    unfold parseUrlParams
    rw [hwritten, hsplit]
    exact hread

/-- The rows `k` with the value `{{a}}`, and `x` switched off. -/
def filledRows : List Row :=
  [⟨[0x6B], closed [0x61], true, false⟩, ⟨[0x78], [], false, false⟩]

theorem filled_rows_survive : Survives [0x2F, fragmentMark] filledRows := by
  have hblank : ∀ row ∈ filledRows, row.enabled = true → isBlankRow row = false := by decide
  have hscalar : ∀ row ∈ filledRows, row.Scalar := by
    unfold Row.Scalar
    decide
  have huncut : ∀ row ∈ filledRows, row.enabled = true → row.Uncut := by
    unfold Row.Uncut
    decide
  apply (survives_iff_uncut [0x2F, fragmentMark] filledRows hblank hscalar).2
  refine ⟨huncut, ?_⟩
  intro hcloses
  obtain ⟨before, name, heq, -⟩ := hcloses.1
  have hbase : (splitUrl [0x2F, fragmentMark]).base = [0x2F] := by decide
  rw [hbase] at heq
  have hlength := congrArg List.length heq
  simp only [List.length_append, List.length_cons, List.length_nil] at hlength
  omega

/-- The row `k` with the value `{{a&b}}`. -/
def cutRow : Row :=
  ⟨[0x6B], closed [0x61, pairSeparator, 0x62], true, false⟩

/-- The value is cut at the `&` of its placeholder. -/
theorem cut_row_lost : isBlankRow cutRow = false ∧ cutRow.Scalar ∧ ¬ Survives [0x2F] [cutRow] := by
  unfold Row.Scalar Survives
  decide +kernel

end Gostman.Query
