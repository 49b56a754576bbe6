import Gostman.Lib.Decided
import Gostman.Go.Text
import Gostman.Lib.Record
import Gostman.Lib.Spaced
/-!
# The `.env` file of a workspace

`ParseDotEnv` of `variables.go` on the bytes of the file.  A quoted value ends at
the first quote behind its own, before escapes are read, and no line behind one
that the scanner cannot hold is read.
-/

namespace Gostman.Workspace.DotEnv

open Gostman.Lib Gostman.Go.Bytes

open scoped Gostman.Lib.Decided

def maxDotEnvBytes : Nat := 1048576

def byteOrderMark : Bytes := [0xEF, 0xBB, 0xBF]

def exportPrefix : Bytes := [0x65, 0x78, 0x70, 0x6F, 0x72, 0x74, 0x20]

def equals : UInt8 := 0x3D
def hashMark : UInt8 := 0x23
def quote : UInt8 := 0x22
def apostrophe : UInt8 := 0x27
def backslash : UInt8 := 0x5C
def tab : UInt8 := 0x09

/-- The replacer of `dotEnvValue`: at each place the first escape of its list that
stands there. -/
def replaceEscapes : Bytes → Bytes
  | 0x5C :: 0x6E :: rest => lineFeed :: replaceEscapes rest
  | 0x5C :: 0x74 :: rest => tab :: replaceEscapes rest
  | 0x5C :: 0x22 :: rest => quote :: replaceEscapes rest
  | 0x5C :: 0x5C :: rest => backslash :: replaceEscapes rest
  | b :: rest => b :: replaceEscapes rest
  | [] => []

def withoutComment (raw : Bytes) : Bytes :=
  match firstAt [0x20, hashMark] raw with
  | some comment => trimSpace (raw.take comment)
  | none => raw

def dotEnvValue (raw : Bytes) : Bytes :=
  match raw with
  | mark :: rest =>
      if (mark = quote ∨ mark = apostrophe) ∧ mark ∈ rest then
        let inner := rest.takeWhile (· ≠ mark)
        if mark = quote then replaceEscapes inner else inner
      else withoutComment raw
  | [] => withoutComment raw

/-- What the loop of `ParseDotEnv` takes from one line. -/
def dotEnvEntry (line : Bytes) : Option (Bytes × Bytes) :=
  let line := trimSpace line
  if line = [] ∨ [hashMark].isPrefixOf line then none
  else
    match cut equals (trimPrefix exportPrefix line) with
    | none => none
    | some (name, value) =>
        if trimSpace name = [] then none else some (trimSpace name, dotEnvValue (trimSpace value))

def parseDotEnv (content : Bytes) : Record Bytes Bytes :=
  if content.length > maxDotEnvBytes then []
  else Record.ofEntries ((scanLines (trimPrefix byteOrderMark content)).filterMap dotEnvEntry)

/-! ## Files with quoted values -/

def escapeByte (b : UInt8) : Bytes :=
  if b = backslash then [backslash, backslash]
  else if b = quote then [backslash, quote]
  else if b = lineFeed then [backslash, 0x6E]
  else if b = tab then [backslash, 0x74]
  else [b]

def escaped (value : Bytes) : Bytes := value.flatMap escapeByte

def quoted (value : Bytes) : Bytes := quote :: (escaped value ++ [quote])

def dotEnvLine (entry : List Char × Bytes) : Bytes :=
  encode entry.1 ++ equals :: quoted entry.2

def dotEnvFile (entries : List (List Char × Bytes)) : Bytes :=
  entries.flatMap fun entry => dotEnvLine entry ++ [lineFeed]

/-- A name of letters, digits and underscores, and any other that no part of a line
could be taken for. -/
def IsName (name : List Char) : Prop :=
  name ≠ [] ∧ ∀ c ∈ name, Go.isSpace c = false ∧ c ≠ '=' ∧ c ≠ '#' ∧ c ≠ '\uFEFF'

def meant (entries : List (List Char × Bytes)) : Record Bytes Bytes :=
  entries.map fun entry => (encode entry.1, entry.2)

/-! ## Escapes -/

theorem escaped_cons (b : UInt8) (value : Bytes) : escaped (b :: value) = escapeByte b ++ escaped value := rfl

theorem escaped_append (front behind : Bytes) : escaped (front ++ behind) = escaped front ++ escaped behind :=
  List.flatMap_append

theorem replaceEscapes_escapeByte (b : UInt8) (rest : Bytes) :
    replaceEscapes (escapeByte b ++ rest) = b :: replaceEscapes rest := by
  unfold escapeByte
  split_ifs with hslash hquote hfeed htab
  · rw [hslash]
    rfl
  · rw [hquote]
    rfl
  · rw [hfeed]
    rfl
  · rw [htab]
    rfl
  · rw [List.singleton_append, replaceEscapes]
    all_goals
      intro other hb
      exact fun _ => hslash hb

theorem replaceEscapes_escaped (value rest : Bytes) :
    replaceEscapes (escaped value ++ rest) = value ++ replaceEscapes rest := by
  induction value with
  | nil => rfl
  | cons b value ih => rw [escaped_cons, List.append_assoc, replaceEscapes_escapeByte, ih, List.cons_append]

theorem quote_mem_escapeByte {b : UInt8} (h : quote ∈ escapeByte b) : b = quote := by
  unfold escapeByte at h
  split_ifs at h with hslash hquote hfeed htab
  · simp [backslash, quote] at h
  · exact hquote
  · simp [backslash, quote] at h
  · simp [backslash, quote] at h
  · exact (List.mem_singleton.1 h).symm

theorem quote_mem_escaped {value : Bytes} (h : quote ∈ escaped value) : quote ∈ value := by
  obtain ⟨b, hb, hmem⟩ := List.mem_flatMap.1 h
  rw [← quote_mem_escapeByte hmem]
  exact hb

theorem lineFeed_notMem_escaped (value : Bytes) : lineFeed ∉ escaped value := by
  intro h
  obtain ⟨b, -, hmem⟩ := List.mem_flatMap.1 h
  unfold escapeByte at hmem
  split_ifs at hmem with hslash hquote hfeed htab
  · simp [backslash, lineFeed] at hmem
  · simp [backslash, quote, lineFeed] at hmem
  · simp [backslash, lineFeed] at hmem
  · simp [backslash, lineFeed] at hmem
  · exact hfeed (List.mem_singleton.1 hmem).symm

theorem takeWhile_upto {front : Bytes} (h : quote ∉ front) (rest : Bytes) :
    (front ++ quote :: rest).takeWhile (· ≠ quote) = front := by
  rw [List.takeWhile_append_of_pos, List.takeWhile_cons, if_neg (by simp), List.append_nil]
  intro b hb
  apply decide_eq_true
  intro heq
  exact h (heq ▸ hb)

theorem dotEnvValue_quoted (value : Bytes) :
    dotEnvValue (quoted value) = replaceEscapes ((escaped value ++ [quote]).takeWhile (· ≠ quote)) := by
  have hmem : (quote = quote ∨ quote = apostrophe) ∧ quote ∈ escaped value ++ [quote] :=
    ⟨.inl rfl, List.mem_append_right _ (List.mem_singleton_self _)⟩
  rw [quoted, dotEnvValue, if_pos hmem, if_pos rfl]

/-- A quoted value is read back unless it holds a quote itself. -/
theorem dotEnvValue_quoted_iff (value : Bytes) : dotEnvValue (quoted value) = value ↔ quote ∉ value := by
  rw [dotEnvValue_quoted]
  constructor
  · intro h hquote
    obtain ⟨front, behind, rfl, hfront⟩ := List.eq_append_cons_of_mem hquote
    have hplain : quote ∉ escaped front ++ [backslash] := by
      intro hmem
      rcases List.mem_append.1 hmem with hmem | hmem
      · exact hfront (quote_mem_escaped hmem)
      · exact absurd (List.mem_singleton.1 hmem) (by decide)
    have hsplit : escaped (front ++ quote :: behind) ++ [quote] =
        (escaped front ++ [backslash]) ++ quote :: (escaped behind ++ [quote]) := by
      rw [escaped_append, escaped_cons]
      simp [escapeByte, quote, backslash]
    rw [hsplit, takeWhile_upto hplain, replaceEscapes_escaped] at h
    have hlast := List.append_cancel_left h
    have hbyte : backslash = quote := (List.cons.inj hlast).1
    exact absurd hbyte (by decide)
  · intro h
    rw [takeWhile_upto (fun hmem => h (quote_mem_escaped hmem))]
    have hall := replaceEscapes_escaped value []
    rw [List.append_nil] at hall
    rw [hall]
    exact List.append_nil _

/-! ## Names -/

section Name

variable {name : List Char} (h : IsName name)

include h

theorem IsName.notMem {c : Char} (hascii : c.toNat < 128)
    (hc : Go.isSpace c = true ∨ c = '=' ∨ c = '#') : UInt8.ofNat c.toNat ∉ encode name := by
  rw [ofNat_mem_encode hascii]
  intro hmem
  obtain ⟨hspace, hequals, hhash, -⟩ := h.2 c hmem
  rcases hc with hc | hc | hc
  · rw [hc] at hspace
    cases hspace
  · exact hequals hc
  · exact hhash hc

theorem IsName.equals_notMem : equals ∉ encode name := h.notMem (c := '=') (by decide) (.inr (.inl rfl))

theorem IsName.blank_notMem : (0x20 : UInt8) ∉ encode name := h.notMem (c := ' ') (by decide) (.inl rfl)

theorem IsName.lineFeed_notMem : lineFeed ∉ encode name := h.notMem (c := '\n') (by decide) (.inl rfl)

theorem IsName.exists_first : ∃ c rest, name = c :: rest ∧ Go.isSpace c = false ∧ c ≠ '#' ∧ c ≠ '\uFEFF' := by
  obtain ⟨c, rest, rfl⟩ := List.exists_cons_of_ne_nil h.1
  obtain ⟨hspace, -, hhash, hmark⟩ := h.2 c List.mem_cons_self
  exact ⟨c, rest, rfl, hspace, hhash, hmark⟩

theorem IsName.exists_last : ∃ c front, name = front ++ [c] ∧ Go.isSpace c = false := by
  refine ⟨name.getLast h.1, name.dropLast, (List.dropLast_append_getLast h.1).symm, ?_⟩
  exact (h.2 _ (List.getLast_mem h.1)).1

theorem IsName.trimSpace_eq : trimSpace (encode name) = encode name := by
  obtain ⟨first, rest, hfirst, hspace, -⟩ := h.exists_first
  obtain ⟨last, front, hlast, hblank⟩ := h.exists_last
  apply Go.Bytes.trimSpace_eq hspace _ hblank
  · rw [hlast, encode_append]
    exact ⟨encode front, by simp [encode]⟩
  · rw [hfirst, encode_cons]
    exact List.prefix_append _ _

theorem IsName.encode_ne_nil : encode name ≠ [] := fun hnil => h.1 (encode_eq_nil hnil)

end Name

/-! ## Lines -/

section Line

variable {entry : List Char × Bytes} (h : IsName entry.1)

include h

theorem exists_first_of_line (rest : Bytes) :
    ∃ c behind, dotEnvLine entry ++ rest = String.utf8EncodeChar c ++ behind ∧ Go.isSpace c = false ∧ c ≠ '#' ∧
      c ≠ '\uFEFF' := by
  obtain ⟨c, others, hname, hc⟩ := h.exists_first
  refine ⟨c, encode others ++ equals :: quoted entry.2 ++ rest, ?_, hc⟩
  rw [dotEnvLine, hname, encode_cons]
  simp

theorem lineFeed_notMem_line : lineFeed ∉ dotEnvLine entry := by
  intro hmem
  rcases List.mem_append.1 hmem with hname | hvalue
  · exact h.lineFeed_notMem hname
  · rcases List.mem_cons.1 hvalue with hequals | hvalue
    · exact absurd hequals (by decide)
    rcases List.mem_cons.1 hvalue with hquote | hvalue
    · exact absurd hquote (by decide)
    rcases List.mem_append.1 hvalue with hinner | hquote
    · exact lineFeed_notMem_escaped _ hinner
    · exact absurd (List.mem_singleton.1 hquote) (by decide)

omit h in
variable (entry) in
theorem line_ends : ∃ front, dotEnvLine entry = front ++ [quote] := by
  refine ⟨encode entry.1 ++ equals :: quote :: escaped entry.2, ?_⟩
  rw [dotEnvLine, quoted, List.append_assoc]
  rfl

theorem trimSpace_line : trimSpace (dotEnvLine entry) = dotEnvLine entry := by
  obtain ⟨c, behind, hline, hspace, -⟩ := exists_first_of_line h []
  obtain ⟨front, hends⟩ := line_ends entry
  rw [List.append_nil] at hline
  apply Go.Bytes.trimSpace_eq hspace ⟨behind, hline.symm⟩ (by decide : Go.isSpace '"' = false)
  exact ⟨front, hends.symm⟩

omit h in
theorem dropCR_line : dropCR (dotEnvLine entry) = dotEnvLine entry := by
  obtain ⟨front, hends⟩ := line_ends entry
  rw [dropCR, hends, List.getLast?_concat, if_neg (by decide)]

theorem line_not_comment : ¬(dotEnvLine entry = [] ∨ [hashMark].isPrefixOf (dotEnvLine entry) = true) := by
  obtain ⟨c, behind, hline, -, hhash, -⟩ := exists_first_of_line h []
  rw [List.append_nil] at hline
  intro hbad
  rcases hbad with hnil | hstarts
  · rw [hline] at hnil
    exact encodeChar_ne_nil c (List.append_eq_nil_iff.1 hnil).1
  · obtain ⟨rest, hrest⟩ := List.isPrefixOf_iff_prefix.1 hstarts
    rw [hline] at hrest
    have hmark : String.utf8EncodeChar '#' ++ rest = String.utf8EncodeChar c ++ behind := hrest
    exact hhash (encodeChar_append_inj hmark).1.symm

theorem trimPrefix_line : trimPrefix exportPrefix (dotEnvLine entry) = dotEnvLine entry := by
  rw [trimPrefix, if_neg]
  intro hstarts
  have hexport := List.isPrefixOf_iff_prefix.1 hstarts
  have hname : encode entry.1 ++ [equals] <+: dotEnvLine entry := by
    refine ⟨quoted entry.2, ?_⟩
    rw [dotEnvLine, List.append_assoc]
    rfl
  rcases List.prefix_or_prefix_of_prefix hexport hname with hwithin | hwithin
  · have hblank : (0x20 : UInt8) ∈ encode entry.1 ++ [equals] := hwithin.subset (by decide)
    rcases List.mem_append.1 hblank with hmem | hmem
    · exact h.blank_notMem hmem
    · exact absurd (List.mem_singleton.1 hmem) (by decide)
  · have hequals : equals ∈ exportPrefix := hwithin.subset (List.mem_append_right _ (List.mem_singleton_self _))
    exact absurd hequals (by decide)

omit h in
theorem trimSpace_quoted (value : Bytes) : trimSpace (quoted value) = quoted value := by
  apply Go.Bytes.trimSpace_eq (by decide : Go.isSpace '"' = false) _ (by decide : Go.isSpace '"' = false)
  · exact ⟨quote :: escaped value, rfl⟩
  · exact ⟨escaped value ++ [quote], rfl⟩

/-- A line gives its name and what is read of its value. -/
theorem dotEnvEntry_line : dotEnvEntry (dotEnvLine entry) = some (encode entry.1, dotEnvValue (quoted entry.2)) := by
  unfold dotEnvEntry
  simp only
  rw [trimSpace_line h, if_neg (line_not_comment h), trimPrefix_line h, dotEnvLine, cut_append h.equals_notMem]
  simp only
  rw [h.trimSpace_eq, if_neg h.encode_ne_nil, trimSpace_quoted]

end Line

/-! ## The whole file -/

section File

variable {entries : List (List Char × Bytes)} (h : ∀ entry ∈ entries, IsName entry.1)

include h

theorem trimPrefix_file : trimPrefix byteOrderMark (dotEnvFile entries) = dotEnvFile entries := by
  cases entries with
  | nil => rfl
  | cons entry rest =>
    rw [trimPrefix, if_neg]
    intro hstarts
    obtain ⟨behind, hbehind⟩ := List.isPrefixOf_iff_prefix.1 hstarts
    have hfile : dotEnvFile (entry :: rest) = dotEnvLine entry ++ (lineFeed :: dotEnvFile rest) := by
      rw [dotEnvFile, List.flatMap_cons, List.append_assoc]
      rfl
    obtain ⟨c, more, hline, -, -, hmark⟩ := exists_first_of_line (h entry List.mem_cons_self) (lineFeed :: dotEnvFile rest)
    rw [hfile, hline] at hbehind
    have hfirst : String.utf8EncodeChar '\uFEFF' ++ behind = String.utf8EncodeChar c ++ more := hbehind
    exact hmark (encodeChar_append_inj hfirst).1.symm

/-- The lines that the scanner can hold, up to the first that it cannot. -/
theorem scanLines_file :
    scanLines (dotEnvFile entries) =
      (entries.takeWhile fun entry => (dotEnvLine entry).length < maxScanTokenSize).map dotEnvLine := by
  have hfile : dotEnvFile entries = (entries.map dotEnvLine).flatMap (· ++ [lineFeed]) := by
    rw [List.flatMap_map]
    rfl
  have hlines : ∀ line ∈ entries.map dotEnvLine, lineFeed ∉ line := by
    intro line hline
    obtain ⟨entry, hentry, rfl⟩ := List.mem_map.1 hline
    exact lineFeed_notMem_line (h entry hentry)
  rw [scanLines, hfile, linesOf_flatMap hlines, List.takeWhile_map, List.map_map]
  apply List.map_congr_left
  intro entry _
  exact dropCR_line

theorem parseDotEnv_file (hsize : (dotEnvFile entries).length ≤ maxDotEnvBytes) :
    parseDotEnv (dotEnvFile entries) =
      Record.ofEntries ((entries.takeWhile fun entry => (dotEnvLine entry).length < maxScanTokenSize).map
        fun entry => (encode entry.1, dotEnvValue (quoted entry.2))) := by
  rw [parseDotEnv, if_neg (Nat.not_lt.2 hsize), trimPrefix_file h, scanLines_file h, List.filterMap_map]
  congr 1
  rw [← List.filterMap_eq_map]
  apply List.filterMap_congr
  intro entry hentry
  exact dotEnvEntry_line (h entry (List.takeWhile_sublist _ |>.subset hentry))

end File

theorem read_map {entries : List (List Char × Bytes)} (hdistinct : (entries.map Prod.fst).Nodup)
    (f : List Char × Bytes → Bytes) {entry : List Char × Bytes} (hentry : entry ∈ entries) :
    (Record.ofEntries (entries.map fun entry => (encode entry.1, f entry))).read (encode entry.1) = some (f entry) := by
  apply Record.read_ofEntries_of_mem
  · have hkeys : Record.keys (entries.map fun entry => (encode entry.1, f entry)) = (entries.map Prod.fst).map encode := by
      rw [Record.keys, List.map_map, List.map_map]
      rfl
    rw [hkeys]
    exact hdistinct.map encode_injective
  · exact List.mem_map.2 ⟨entry, hentry, rfl⟩

/-- The file is read as the map it was written for just when no value holds a quote
and the scanner can hold each line. -/
theorem parseDotEnv_iff (entries : List (List Char × Bytes)) (hnames : ∀ entry ∈ entries, IsName entry.1)
    (hdistinct : (entries.map Prod.fst).Nodup) (hsize : (dotEnvFile entries).length ≤ maxDotEnvBytes) :
    (∀ name, (parseDotEnv (dotEnvFile entries)).read name = (Record.ofEntries (meant entries)).read name) ↔
      ∀ entry ∈ entries, quote ∉ entry.2 ∧ (dotEnvLine entry).length < maxScanTokenSize := by
  rw [parseDotEnv_file hnames hsize]
  constructor
  · intro h entry hentry
    have hread := h (encode entry.1)
    rw [meant, read_map hdistinct Prod.snd hentry] at hread
    obtain ⟨kept, hkept, hpair⟩ := List.mem_map.1 (Record.mem_of_read_ofEntries hread)
    have hmem := (List.takeWhile_sublist _).subset hkept
    have hname : kept.1 = entry.1 := encode_injective (congrArg Prod.fst hpair)
    have hsame : kept = entry := List.inj_on_of_nodup_map hdistinct hmem hentry hname
    subst hsame
    constructor
    · exact (dotEnvValue_quoted_iff _).1 (congrArg Prod.snd hpair)
    · have hshort := List.mem_takeWhile_imp hkept
      exact of_decide_eq_true hshort
  · intro h name
    have hall : entries.takeWhile (fun entry => (dotEnvLine entry).length < maxScanTokenSize) = entries := by
      rw [List.takeWhile_eq_self_iff]
      intro entry hentry
      exact decide_eq_true (h entry hentry).2
    rw [hall, meant]
    congr 2
    apply List.map_congr_left
    intro entry hentry
    rw [(dotEnvValue_quoted_iff entry.2).2 (h entry hentry).1]

/-- Two plain values. -/
theorem host_and_port_read :
    (parseDotEnv (dotEnvFile [(['H'], encode "a b".toList), (['P'], [0x38])])).read (encode ['H']) =
      some (encode "a b".toList) := by
  have hread := (parseDotEnv_iff [(['H'], encode "a b".toList), (['P'], [0x38])] (by unfold IsName; decide +kernel)
    (by decide) (by decide +kernel)).2 (by decide +kernel) (encode ['H'])
  exact hread.trans (by decide +kernel)

/-- `A="\""`, written for a value that is one quote. -/
theorem quote_cut_off :
    IsName ['A'] ∧ (dotEnvFile [(['A'], [quote])]).length ≤ maxDotEnvBytes ∧
      (parseDotEnv (dotEnvFile [(['A'], [quote])])).read (encode ['A']) = some [backslash] ∧
      (Record.ofEntries (meant [(['A'], [quote])])).read (encode ['A']) = some [quote] := by
  unfold IsName
  decide +kernel

end Gostman.Workspace.DotEnv
