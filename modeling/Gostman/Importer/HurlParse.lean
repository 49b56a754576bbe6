import Gostman.Importer.HurlExport
/-!
# Reading Hurl files (`importer/hurlparse.go`)

The reader goes over the lines of a file.  Each function takes the lines that
are left and returns those it leaves.
-/

namespace Gostman.Importer.Hurl

open Gostman.Lib Gostman.Placeholders Gostman.Importer.Bru

section Lines

variable (library : Library)

/-! ## One line -/

def isHurlToken (text : Text) : Bool :=
  text ≠ [] && text.all fun c => library.isLetter c || library.isDigit c || tokenPunctuation.contains c

/-- `hurlRequestParts`: the method and the address, if the line has both. -/
def hurlRequestParts (line : Text) : Option (Text × Text) :=
  match Go.cutAt ' ' line with
  | none => none
  | some (method, rest) =>
      let address := trimSpace rest
      if method ≠ [] ∧ method.all (fun c => 'A' ≤ c ∧ c ≤ 'Z') ∧ address ≠ [] then some (method, address)
      else none

def hurlResponseStatus (line : Text) : Option Text :=
  let (word, rest) := (Go.cutAt ' ' (trimSpace line)).getD (trimSpace line, [])
  if word ≠ "HTTP".toList ∧ ¬ "HTTP/".toList.isPrefixOf word then none
  else (fields rest).head?

def isHurlResponseLine (line : Text) : Bool :=
  (hurlResponseStatus line).isSome

def hurlHeaderParts (line : Text) : Option (Text × Text) :=
  match Go.cutAt ':' line with
  | none => none
  | some (name, value) =>
      if isHurlToken library (trimSpace name) then some (trimSpace name, trimSpace value) else none

def hurlSectionName (line : Text) : Option Text :=
  match (Go.cutPrefix ['['] (trimSpace line)).bind (Go.cutSuffix [']']) with
  | none => none
  | some inner => if isHurlToken library inner then some (inner.map library.toLower) else none

def isHurlSectionLine (line : Text) : Bool :=
  (hurlSectionName library line).isSome

def isHurlComment (line : Text) : Bool :=
  ['#'].isPrefixOf (trimSpace line)

def startsHurlBody (line : Text) : Bool :=
  let trimmed := trimSpace line
  ['{'].isPrefixOf trimmed || ['['].isPrefixOf trimmed || ['`'].isPrefixOf trimmed || ['<'].isPrefixOf trimmed

def isHurlRequestLine (line : Text) : Bool :=
  (hurlRequestParts line).isSome

def isBlank (line : Text) : Bool :=
  trimSpace line = []

/-! ## Lines in a row -/

structure HurlEntry where
  comment : Text := []
  method : Text
  url : Text
  headers : List (Text × Text) := []
  sections : Record Text (List (Text × Text)) := []
  body : Text := []
  bodyFile : Bool := false
  status : Text := []
  responseHeaders : List (Text × Text) := []
  asserts : List Text := []
  captures : List (Text × Text) := []
  responseBody : Bool := false

def skipBlank (lines : List Text) : List Text :=
  lines.dropWhile isBlank

/-- The comments before an entry: the first one that is not empty, and the
lines after them. -/
def leadingComments (comment : Text) : List Text → Text × List Text
  | [] => (comment, [])
  | line :: rest =>
      if isHurlComment (trimEnd line) then
        leadingComments
          (if comment = [] then trimSpace ((trimSpace (trimEnd line)).dropWhile (· = '#')) else comment)
          (skipBlank rest)
      else (comment, line :: rest)
termination_by lines => lines.length
decreasing_by exact Nat.lt_succ_of_le (List.dropWhile_sublist _).length_le

def requestHeaders : List Text → List (Text × Text) × List Text
  | [] => ([], [])
  | line :: rest =>
      if isHurlComment (trimEnd line) then requestHeaders rest
      else
        match hurlHeaderParts library (trimEnd line) with
        | none => ([], line :: rest)
        | some header =>
            let (headers, rest) := requestHeaders rest
            (header :: headers, rest)

def endsPairs (line : Text) : Bool :=
  isBlank line || isHurlSectionLine library line || isHurlResponseLine line || startsHurlBody line

def pairOf (line : Text) : List (Text × Text) :=
  if isHurlComment line then []
  else
    match Go.cutAt ':' line with
    | none => []
    | some (key, value) => [(trimSpace key, trimSpace value)]

def pairs : List Text → List (Text × Text) × List Text
  | [] => ([], [])
  | line :: rest =>
      if endsPairs library (trimEnd line) then ([], line :: rest)
      else
        let (others, rest) := pairs rest
        (pairOf (trimEnd line) ++ others, rest)

theorem pairs_suffix (lines : List Text) : (pairs library lines).2 <:+ lines := by
  induction lines with
  | nil => exact List.suffix_refl _
  | cons line rest ih =>
    unfold pairs
    split_ifs
    · exact List.suffix_refl _
    · exact ih.trans (List.suffix_cons ..)

/-- The sections, each with its pairs added to those of an earlier one of its
name. -/
def requestSections (sections : Record Text (List (Text × Text))) :
    List Text → Record Text (List (Text × Text)) × List Text
  | [] => (sections, [])
  | line :: rest =>
      match hurlSectionName library (trimEnd line) with
      | none =>
          if isHurlComment (trimEnd line) then requestSections sections rest else (sections, line :: rest)
      | some name =>
          requestSections (sections.put name ((sections.read name).getD [] ++ (pairs library rest).1))
            (pairs library rest).2
termination_by lines => lines.length
decreasing_by
  · exact Nat.lt_succ_self _
  · exact Nat.lt_succ_of_le (pairs_suffix library rest).length_le

/-! ## Bodies -/

/-- The lines up to the closing fence, and those after it. -/
def fencedLines : List Text → List Text × List Text
  | [] => ([], [])
  | line :: rest =>
      if trimSpace (trimEnd line) = fence then ([], rest)
      else
        let (body, rest) := fencedLines rest
        (line :: body, rest)

def untilBlank : List Text → List Text × List Text
  | [] => ([], [])
  | line :: rest =>
      if isBlank line then ([], line :: rest)
      else
        let (body, rest) := untilBlank rest
        (line :: body, rest)

structure Brackets where
  depth : Int := 0
  inString : Bool := false
  escaped : Bool := false
deriving DecidableEq

def Brackets.step (state : Brackets) (c : Char) : Brackets :=
  if state.escaped then { state with escaped := false }
  else if state.inString ∧ c = '\\' then { state with escaped := true }
  else if c = '"' then { state with inString := !state.inString }
  else if state.inString then state
  else if c = '{' ∨ c = '[' then { state with depth := state.depth + 1 }
  else if c = '}' ∨ c = ']' then { state with depth := state.depth - 1 }
  else state

def balanced (state : Brackets) : List Text → List Text × List Text
  | [] => ([], [])
  | line :: rest =>
      let state := line.foldl Brackets.step state
      if state.depth ≤ 0 then ([line], rest)
      else
        let (body, rest) := balanced state rest
        (line :: body, rest)

def joined (lines : List Text) : Text :=
  ['\n'].intercalate lines

/-- A text between a character at each end, if there are two. -/
def isEnclosed (mark : Char) (text : Text) : Bool :=
  [mark].isPrefixOf text && [mark].isSuffixOf text && 1 < text.length

/-- `requestBody`: the body, whether it is a file, and the lines that are left. -/
def requestBody : List Text → Text × Bool × List Text
  | [] => ([], false, [])
  | line :: rest =>
      let trimmed := trimSpace (trimEnd line)
      if trimmed = [] ∨ isHurlResponseLine trimmed then ([], false, line :: rest)
      else if fence.isPrefixOf trimmed then (joined (fencedLines rest).1, false, (fencedLines rest).2)
      else if ['{'].isPrefixOf trimmed ∨ ['['].isPrefixOf trimmed then
        (joined (balanced {} (line :: rest)).1, false, (balanced {} (line :: rest)).2)
      else if "file,".toList.isPrefixOf trimmed ∨ "base64,".toList.isPrefixOf trimmed ∨
          "hex,".toList.isPrefixOf trimmed then ([], true, rest)
      else if isEnclosed '`' trimmed then ((trimmed.drop 1).dropLast, false, rest)
      else if isEnclosed '"' trimmed then ((trimmed.drop 1).dropLast, false, rest)
      else if isHurlRequestLine trimmed then ([], false, line :: rest)
      else (joined (untilBlank (line :: rest)).1, false, (untilBlank (line :: rest)).2)

/-! ## Responses -/

def responseHeaders : List Text → List (Text × Text) × List Text
  | [] => ([], [])
  | line :: rest =>
      if isHurlSectionLine library (trimEnd line) then ([], line :: rest)
      else
        match hurlHeaderParts library (trimEnd line) with
        | none => ([], line :: rest)
        | some header =>
            let (headers, rest) := responseHeaders rest
            (header :: headers, rest)

def assertLines : List Text → List Text × List Text
  | [] => ([], [])
  | line :: rest =>
      let trimmed := trimSpace (trimEnd line)
      if trimmed = [] ∨ isHurlSectionLine library trimmed then ([], line :: rest)
      else
        let (asserts, rest) := assertLines rest
        (if isHurlComment trimmed then asserts else trimmed :: asserts, rest)

theorem assertLines_suffix (lines : List Text) : (assertLines library lines).2 <:+ lines := by
  induction lines with
  | nil => exact List.suffix_refl _
  | cons line rest ih =>
    unfold assertLines
    simp only
    split_ifs
    · exact List.suffix_refl _
    · exact ih.trans (List.suffix_cons ..)
    · exact ih.trans (List.suffix_cons ..)

def responseSections (entry : HurlEntry) : List Text → HurlEntry × List Text
  | [] => (entry, [])
  | line :: rest =>
      match hurlSectionName library (trimEnd line) with
      | none => (entry, line :: rest)
      | some name =>
          if name = "asserts".toList then
            responseSections { entry with asserts := entry.asserts ++ (assertLines library rest).1 }
              (assertLines library rest).2
          else if name = "captures".toList then
            responseSections { entry with captures := entry.captures ++ (pairs library rest).1 }
              (pairs library rest).2
          else responseSections entry (pairs library rest).2
termination_by lines => lines.length
decreasing_by
  · exact Nat.lt_succ_of_le (assertLines_suffix library rest).length_le
  · exact Nat.lt_succ_of_le (pairs_suffix library rest).length_le
  · exact Nat.lt_succ_of_le (pairs_suffix library rest).length_le

def responseBodyAfter (entry : HurlEntry) : List Text → HurlEntry × List Text
  | [] => (entry, [])
  | line :: rest =>
      let trimmed := trimSpace (trimEnd line)
      if trimmed = [] ∨ isHurlRequestLine trimmed ∧ ¬ ['{'].isPrefixOf trimmed then (entry, line :: rest)
      else
        ({ entry with responseBody := true },
          if fence.isPrefixOf trimmed then (fencedLines rest).2
          else if ['{'].isPrefixOf trimmed ∨ ['['].isPrefixOf trimmed then (balanced {} (line :: rest)).2
          else (untilBlank (line :: rest)).2)

/-- What `response` reads after the line of the status. -/
def responseFrom (entry : HurlEntry) (status : Text) (lines : List Text) : HurlEntry × List Text :=
  let (headers, lines) := responseHeaders library lines
  let (entry, lines) := responseSections library
    { entry with status, responseHeaders := entry.responseHeaders ++ headers } lines
  responseBodyAfter entry lines

def response (entry : HurlEntry) : List Text → HurlEntry × List Text
  | [] => (entry, [])
  | line :: rest =>
      match hurlResponseStatus (trimEnd line) with
      | none => (entry, line :: rest)
      | some status => responseFrom library entry status rest

/-! ## Entries -/

/-- What `entry` reads from the line of a request on. -/
def requestFrom (comment method url : Text) (lines : List Text) : HurlEntry × List Text :=
  let (headers, lines) := requestHeaders library lines
  let (sections, lines) := requestSections library [] lines
  let (body, bodyFile, lines) := requestBody lines
  response library { comment, method, url, headers, sections, body, bodyFile } (skipBlank lines)

def readEntry (lines : List Text) : Option HurlEntry × List Text :=
  let (comment, lines) := leadingComments [] lines
  match lines with
  | [] => (none, [])
  | line :: rest =>
      match hurlRequestParts (trimEnd line) with
      | none => (none, rest)
      | some (method, url) =>
          if isHurlResponseLine (trimEnd line) then (none, rest)
          else
            let (entry, rest) := requestFrom library comment method url rest
            (some entry, rest)

/-! ## What is left -/

theorem skipBlank_suffix (lines : List Text) : skipBlank lines <:+ lines :=
  List.dropWhile_suffix _

theorem leadingComments_suffix (comment : Text) (lines : List Text) :
    (leadingComments comment lines).2 <:+ lines := by
  fun_induction leadingComments comment lines with
  | case1 => exact List.suffix_refl _
  | case2 comment line rest _ ih => exact (ih.trans (skipBlank_suffix rest)).trans (List.suffix_cons ..)
  | case3 => exact List.suffix_refl _

theorem requestHeaders_suffix (lines : List Text) : (requestHeaders library lines).2 <:+ lines := by
  induction lines with
  | nil => exact List.suffix_refl _
  | cons line rest ih =>
    unfold requestHeaders
    split_ifs
    · exact ih.trans (List.suffix_cons ..)
    · split
      · exact List.suffix_refl _
      · exact ih.trans (List.suffix_cons ..)

theorem requestSections_suffix (sections : Record Text (List (Text × Text))) (lines : List Text) :
    (requestSections library sections lines).2 <:+ lines := by
  fun_induction requestSections library sections lines with
  | case1 => exact List.suffix_refl _
  | case2 _ line rest _ _ ih => exact ih.trans (List.suffix_cons ..)
  | case3 => exact List.suffix_refl _
  | case4 _ line rest name _ ih =>
    exact (ih.trans (pairs_suffix library rest)).trans (List.suffix_cons ..)

theorem fencedLines_suffix (lines : List Text) : (fencedLines lines).2 <:+ lines := by
  induction lines with
  | nil => exact List.suffix_refl _
  | cons line rest ih =>
    unfold fencedLines
    split_ifs
    · exact List.suffix_cons ..
    · exact ih.trans (List.suffix_cons ..)

theorem untilBlank_suffix (lines : List Text) : (untilBlank lines).2 <:+ lines := by
  induction lines with
  | nil => exact List.suffix_refl _
  | cons line rest ih =>
    unfold untilBlank
    split_ifs
    · exact List.suffix_refl _
    · exact ih.trans (List.suffix_cons ..)

theorem balanced_suffix (state : Brackets) (lines : List Text) : (balanced state lines).2 <:+ lines := by
  induction lines generalizing state with
  | nil => exact List.suffix_refl _
  | cons line rest ih =>
    unfold balanced
    simp only
    split_ifs
    · exact List.suffix_cons ..
    · exact (ih _).trans (List.suffix_cons ..)

theorem requestBody_suffix (lines : List Text) : (requestBody lines).2.2 <:+ lines := by
  cases lines with
  | nil => exact List.suffix_refl _
  | cons line rest =>
    unfold requestBody
    simp only
    split_ifs
    · exact List.suffix_refl _
    · exact (fencedLines_suffix rest).trans (List.suffix_cons ..)
    · exact balanced_suffix {} (line :: rest)
    · exact List.suffix_cons ..
    · exact List.suffix_cons ..
    · exact List.suffix_cons ..
    · exact List.suffix_refl _
    · exact untilBlank_suffix (line :: rest)

theorem responseHeaders_suffix (lines : List Text) : (responseHeaders library lines).2 <:+ lines := by
  induction lines with
  | nil => exact List.suffix_refl _
  | cons line rest ih =>
    unfold responseHeaders
    split_ifs
    · exact List.suffix_refl _
    · split
      · exact List.suffix_refl _
      · exact ih.trans (List.suffix_cons ..)

theorem responseSections_suffix (entry : HurlEntry) (lines : List Text) :
    (responseSections library entry lines).2 <:+ lines := by
  fun_induction responseSections library entry lines with
  | case1 => exact List.suffix_refl _
  | case2 => exact List.suffix_refl _
  | case3 _ line rest _ ih =>
    exact (ih.trans (assertLines_suffix library rest)).trans (List.suffix_cons ..)
  | case4 _ line rest _ _ ih =>
    exact (ih.trans (pairs_suffix library rest)).trans (List.suffix_cons ..)
  | case5 _ line rest _ _ _ _ ih =>
    exact (ih.trans (pairs_suffix library rest)).trans (List.suffix_cons ..)

theorem responseBodyAfter_suffix (entry : HurlEntry) (lines : List Text) :
    (responseBodyAfter entry lines).2 <:+ lines := by
  cases lines with
  | nil => exact List.suffix_refl _
  | cons line rest =>
    unfold responseBodyAfter
    simp only
    split_ifs
    · exact List.suffix_refl _
    · exact (fencedLines_suffix rest).trans (List.suffix_cons ..)
    · exact balanced_suffix {} (line :: rest)
    · exact untilBlank_suffix (line :: rest)

theorem responseFrom_suffix (entry : HurlEntry) (status : Text) (lines : List Text) :
    (responseFrom library entry status lines).2 <:+ lines := by
  have hheaders := responseHeaders_suffix library lines
  exact ((responseBodyAfter_suffix _ _).trans (responseSections_suffix library _ _)).trans hheaders

theorem response_suffix (entry : HurlEntry) (lines : List Text) :
    (response library entry lines).2 <:+ lines := by
  cases lines with
  | nil => exact List.suffix_refl _
  | cons line rest =>
    rw [response]
    split
    · exact List.suffix_refl _
    · exact (responseFrom_suffix library entry _ rest).trans (List.suffix_cons ..)

theorem requestFrom_suffix (comment method url : Text) (lines : List Text) :
    (requestFrom library comment method url lines).2 <:+ lines := by
  have hheaders := requestHeaders_suffix library lines
  have hsections := requestSections_suffix library [] (requestHeaders library lines).2
  have hbody := requestBody_suffix (requestSections library [] (requestHeaders library lines).2).2
  exact ((((response_suffix library _ _).trans (skipBlank_suffix _)).trans hbody).trans hsections).trans
    hheaders

theorem readEntry_length {line : Text} {rest : List Text} :
    (readEntry library (line :: rest)).2.length < (line :: rest).length := by
  have hcomments := leadingComments_suffix [] (line :: rest)
  unfold readEntry
  simp only
  split
  · exact Nat.succ_pos _
  · next first others hlines =>
    rw [hlines] at hcomments
    have hshorter : others.length < (line :: rest).length :=
      Nat.lt_of_succ_le hcomments.length_le
    split
    · exact hshorter
    · split_ifs
      · exact hshorter
      · exact ((requestFrom_suffix library _ _ _ others).length_le).trans_lt hshorter

def entriesFrom (lines : List Text) : List HurlEntry :=
  match _hlines : skipBlank lines with
  | [] => []
  | line :: rest =>
      (readEntry library (line :: rest)).1.toList ++ entriesFrom (readEntry library (line :: rest)).2
termination_by lines.length
decreasing_by
  have hshorter := (skipBlank_suffix lines).length_le
  rw [_hlines] at hshorter
  exact (readEntry_length library).trans_le hshorter

def parseHurl (source : Text) : List HurlEntry :=
  entriesFrom library ((Go.normalizeNewlines source).splitOn '\n')

end Lines

end Gostman.Importer.Hurl
