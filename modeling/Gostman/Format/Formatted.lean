import Gostman.Format.Lexer
/-!
# The formatted text

A text is formatted just where it is a rendering of a document, and the result is
another rendering of the same document.  All renderings of a document have the same
tokens, so formatting changes only the white space, and a second time nothing.
-/

namespace Gostman.Format

open Gostman.Lib
open Reader

open scoped Gostman.Lib.Decided

/-! ## What `formatJson` accepts -/

theorem readValue_skipSpace (levels : Nat) (r : Reader) :
    readValue (levels + 1) r = readValue (levels + 1) r.skipSpace := by
  obtain ⟨before, -, -, hend⟩ := skipSpace_spec r
  rw [readValue, readValue, skipSpace_of_sees hend]

theorem formatJson_error {text : Units} {problem : Failure} (h : readValue (maxDepth + 1) ⟨0, text⟩ = .error problem) :
    formatJson text = .error problem := by
  rw [formatJson, h]
  rfl

theorem formatJson_ok {text out : Units} {r : Reader} (h : readValue (maxDepth + 1) ⟨0, text⟩ = .ok (out, r)) :
    formatJson text = if r.skipSpace.rest ≠ [] then fail r.skipSpace.position else .ok out := by
  rw [formatJson, h]
  rfl

theorem formatJson_iff {text out : Units} :
    formatJson text = .ok out ↔ ∃ doc, templates.Reads maxDepth doc text ∧ out = pretty (maxDepth + 1) 0 doc := by
  have hdepth : maxDepth + 1 - (maxDepth + 1) = 0 := Nat.sub_self _
  obtain ⟨before, hbefore, hskip, hend⟩ := skipSpace_spec ⟨0, text⟩
  constructor
  · intro h
    cases hread : readValue (maxDepth + 1) ⟨0, text⟩ with
    | error problem =>
      rw [formatJson_error hread] at h
      cases h
    | ok result =>
      obtain ⟨found, r⟩ := result
      rw [formatJson_ok hread] at h
      have hrest : r.skipSpace.rest = [] := by
        by_contra hmore
        rw [if_pos hmore] at h
        cases h
      rw [if_neg (not_not_intro hrest)] at h
      rw [readValue_skipSpace] at hread
      obtain ⟨doc, inside, hdoc, htook, hout⟩ := sound_readValue _ (Nat.le_refl _) _ _ _ hend hread
      obtain ⟨after, hafter, hlast, -⟩ := skipSpace_spec r
      rw [hdepth] at hout
      refine ⟨doc, ⟨before, inside, after, hbefore, hafter, hdoc, ?_⟩, (Except.ok.inj h).symm.trans hout⟩
      have hwhole := (hskip.append (htook.append hlast)).rest_eq
      rw [hrest, List.append_nil] at hwhole
      exact hwhole
  · rintro ⟨doc, ⟨front, inside, after, hfront, hafter, hdoc, rfl⟩, rfl⟩
    have htook : Took ⟨0, front ++ (inside ++ after)⟩ (front ++ (inside ++ after)) ⟨_, []⟩ :=
      ⟨(List.append_nil _).symm, rfl⟩
    obtain ⟨first, hfirst, hbehind⟩ := htook.split
    obtain ⟨last, hinside, hlast⟩ := hbehind.split
    have hdelimited : Delimited last.rest := by
      rw [hlast.rest_eq, List.append_nil]
      intro u hu
      obtain ⟨rest, rfl⟩ := List.head?_eq_some_iff.1 hu
      exact mem_stops_of_isSpace (hafter u List.mem_cons_self)
    have hread := complete_readValue _ (Nat.le_refl _) doc inside hdoc first last hinside hdelimited
    rw [← hfirst.skipSpace_eq hfront (hinside.sees_space (begins_renders hdoc)), ← readValue_skipSpace, hdepth] at hread
    have hdone : last.skipSpace.rest = [] := by
      rw [hlast.skipSpace_eq hafter rfl]
    rw [formatJson_ok hread, if_neg (not_not_intro hdone)]

theorem within_formatJson {text : Units} {problem : Failure} (h : formatJson text = .error problem) :
    ∃ offset : Int, problem = .problem offset ∧ 0 ≤ offset ∧ offset ≤ text.length := by
  have hwithin : Within ⟨0, text⟩ problem := by
    cases hread : readValue (maxDepth + 1) ⟨0, text⟩ with
    | error found =>
      rw [formatJson_error hread] at h
      cases h
      exact within_readValue _ (Nat.le_refl _) _ _ hread
    | ok result =>
      obtain ⟨out, r⟩ := result
      rw [formatJson_ok hread] at h
      have hmore : r.skipSpace.rest ≠ [] := by
        intro hrest
        rw [if_neg (not_not_intro hrest)] at h
        cases h
      rw [if_pos hmore] at h
      rw [readValue_skipSpace] at hread
      obtain ⟨before, -, hskip, hend⟩ := skipSpace_spec ⟨0, text⟩
      obtain ⟨doc, inside, -, htook, -⟩ := sound_readValue _ (Nat.le_refl _) _ _ _ hend hread
      obtain ⟨after, -, hlast, -⟩ := skipSpace_spec r
      exact (hskip.append (htook.append hlast)).within_iff.1 (within_here h)
  obtain ⟨offset, hproblem, hstart, hend⟩ := hwithin
  refine ⟨offset, hproblem, hstart, ?_⟩
  simpa only [Int.natCast_zero, Int.zero_add] using hend

/-! ## Two grammars -/

section Grammars

variable {g g' : Grammar} {P : UInt16 → Prop} (hspace : ∀ u, P u → g.isSpace u = true → g'.isSpace u = true)

include hspace in
theorem blank_mono {text : Units} (hunits : ∀ u ∈ text, P u) (h : g.Blank text) : g'.Blank text :=
  fun u hu => hspace u (hunits u hu) (h u hu)

section Members

variable {μ : Type} {Member Member' : μ → Units → Prop}

include hspace in
theorem separated_mono {members : List μ} {text : Units} (h : g.Separated Member members text)
    (hmember : ∀ member ∈ members, ∀ part, (∀ u ∈ part, P u) → Member member part → Member' member part)
    (hunits : ∀ u ∈ text, P u) : g'.Separated Member' members text := by
  induction h with
  | last hrendered hafter =>
    obtain ⟨htext, hblank⟩ := List.forall_mem_append.1 hunits
    exact .last (hmember _ List.mem_cons_self _ htext hrendered) (blank_mono hspace hblank hafter)
  | next hrendered hafter hbefore hothers ih =>
    obtain ⟨htext, hunits⟩ := List.forall_mem_append.1 hunits
    obtain ⟨hblank, hunits⟩ := List.forall_mem_append.1 hunits
    obtain ⟨hblank', hrest⟩ := List.forall_mem_append.1 (List.forall_mem_cons.1 hunits).2
    exact .next (hmember _ List.mem_cons_self _ htext hrendered) (blank_mono hspace hblank hafter)
      (blank_mono hspace hblank' hbefore) (ih (fun member hmem => hmember member (List.mem_cons_of_mem _ hmem)) hrest)

include hspace in
theorem listed_mono {members : List μ} {text : Units} (h : g.Listed Member members text)
    (hmember : ∀ member ∈ members, ∀ part, (∀ u ∈ part, P u) → Member member part → Member' member part)
    (hunits : ∀ u ∈ text, P u) : g'.Listed Member' members text := by
  obtain ⟨hnil, hblank⟩ | ⟨before, rest, hblank, hmembers, rfl⟩ := h
  · exact .inl ⟨hnil, blank_mono hspace hunits hblank⟩
  · obtain ⟨hbefore, hrest⟩ := List.forall_mem_append.1 hunits
    exact .inr ⟨before, rest, blank_mono hspace hbefore hblank, separated_mono hspace hmembers hmember hrest, rfl⟩

theorem mem_listed {tokensOf : μ → List Units} {members : List μ} {member : μ} (h : member ∈ members) {token : Units}
    (htoken : token ∈ tokensOf member) : token ∈ listed tokensOf members := by
  induction members with
  | nil => cases h
  | cons first rest ih =>
    cases rest with
    | nil =>
      obtain rfl := List.mem_singleton.1 h
      exact htoken
    | cons second rest =>
      rw [listed, List.mem_append]
      · obtain rfl | h := List.mem_cons.1 h
        · exact .inl htoken
        · exact .inr (List.mem_cons_of_mem _ (ih h))
      · exact fun h => List.cons_ne_nil _ _ h

end Members

variable {Q : Units → Prop} (hatom : ∀ token, Q token → g.IsAtom token → g'.IsAtom token)
  (hkey : ∀ token, Q token → g.IsKey token → g'.IsKey token)
  (hinside : ∀ (Value : Doc → Units → Prop) members inside, g.Listed (g.Pair Value) members inside →
    g.IsInside inside → g'.IsInside inside)

include hspace hatom hkey hinside in
/-- A grammar that has what stands in a text of another one has that text. -/
theorem renders_mono : ∀ levels doc text, g.Renders levels doc text → (∀ u ∈ text, P u) →
    (∀ token ∈ docTokens levels doc, Q token) → g'.Renders levels doc text
  | 0, _, _, h, _, _ => h.elim
  | levels + 1, .atom token, text, h, _, htokens => by
    obtain ⟨hisatom, rfl⟩ := h
    exact ⟨hatom text (htokens text List.mem_cons_self) hisatom, rfl⟩
  | levels + 1, .object members, text, h, hunits, htokens => by
    obtain ⟨inside, hmembers, hbraces, rfl⟩ := h
    have hparts : ∀ u ∈ inside, P u := fun u hu => hunits u (List.mem_cons_of_mem _ (List.mem_append_left _ hu))
    refine ⟨inside, listed_mono hspace hmembers ?_ hparts, hinside _ members inside hmembers hbraces, rfl⟩
    rintro ⟨key, doc⟩ hmem _ hpart ⟨hiskey, after, before, value, hafter, hbefore, hdoc, rfl⟩
    have htoken (token : Units) (h : token ∈ key :: [colon] :: docTokens levels doc) : Q token :=
      htokens token (List.mem_cons_of_mem _ (List.mem_append_left _ (mem_listed hmem h)))
    obtain ⟨-, hpart⟩ := List.forall_mem_append.1 hpart
    obtain ⟨hblank, hpart⟩ := List.forall_mem_append.1 hpart
    obtain ⟨hblank', hvalue⟩ := List.forall_mem_append.1 (List.forall_mem_cons.1 hpart).2
    refine ⟨hkey key (htoken key List.mem_cons_self) hiskey, after, before, value, blank_mono hspace hblank hafter,
      blank_mono hspace hblank' hbefore, ?_, rfl⟩
    exact renders_mono levels doc value hdoc hvalue fun token h =>
      htoken token (List.mem_cons_of_mem _ (List.mem_cons_of_mem _ h))
  | levels + 1, .array items, text, h, hunits, htokens => by
    obtain ⟨inside, hitems, rfl⟩ := h
    have hparts : ∀ u ∈ inside, P u := fun u hu => hunits u (List.mem_cons_of_mem _ (List.mem_append_left _ hu))
    refine ⟨inside, listed_mono hspace hitems ?_ hparts, rfl⟩
    intro doc hmem part hpart hdoc
    exact renders_mono levels doc part hdoc hpart fun token h =>
      htokens token (List.mem_cons_of_mem _ (List.mem_append_left _ (mem_listed hmem h)))

end Grammars

/-! ## The layout is a rendering -/

section Members

variable {μ : Type} {Member : μ → Units → Prop} {line : μ → Units}

theorem blank_pad (depth : Nat) : templates.Blank (lineFeed :: pad depth) := by
  refine List.forall_mem_cons.2 ⟨rfl, ?_⟩
  intro u hu
  rw [List.eq_of_mem_replicate hu]
  decide

theorem separated_lines {members : List μ} (hnil : members ≠ []) (h : ∀ member ∈ members, Member member (line member))
    (depth : Nat) :
    ∃ text, templates.Separated Member members text ∧
      [comma, lineFeed].intercalate ((members.map line).map (pad (depth + 1) ++ ·)) ++ lineFeed :: pad depth =
        pad (depth + 1) ++ text := by
  induction members with
  | nil => exact absurd rfl hnil
  | cons member members ih =>
    obtain ⟨hmember, hothers⟩ := List.forall_mem_cons.1 h
    cases members with
    | nil =>
      refine ⟨line member ++ lineFeed :: pad depth, .last hmember (blank_pad depth), ?_⟩
      rw [List.map_singleton, List.map_singleton, List.intercalate_singleton, List.append_assoc]
    | cons next members =>
      obtain ⟨text, htext, heq⟩ := ih (List.cons_ne_nil _ _) hothers
      refine ⟨_, .next hmember (List.forall_mem_nil _) (blank_pad (depth + 1)) htext, ?_⟩
      rw [List.map_cons, List.map_cons, List.map_cons, List.map_cons, List.intercalate_cons_cons]
      rw [List.map_cons, List.map_cons] at heq
      simp only [List.append_assoc, List.cons_append, List.nil_append]
      rw [heq]

theorem listed_block {members : List μ} (h : ∀ member ∈ members, Member member (line member)) (opening closing : UInt16)
    (depth : Nat) :
    ∃ inside, templates.Listed Member members inside ∧ inside.head? ≠ some 0x7B ∧
      block opening closing (members.map line) depth = opening :: (inside ++ [closing]) := by
  by_cases hnil : members = []
  · subst hnil
    exact ⟨[], .inl ⟨rfl, List.forall_mem_nil _⟩, (fun hhead => by cases hhead), rfl⟩
  · obtain ⟨text, htext, heq⟩ := separated_lines hnil h depth
    refine ⟨lineFeed :: pad (depth + 1) ++ text, .inr ⟨_, text, blank_pad (depth + 1), htext, rfl⟩, ?_, ?_⟩
    · intro hhead
      exact absurd (Option.some.inj hhead) (by decide)
    · have hlines : members.map line ≠ [] := fun hmap => hnil (List.map_eq_nil_iff.1 hmap)
      rw [block, if_neg hlines]
      rw [List.cons_append, ← heq]
      simp only [List.append_assoc, List.cons_append]

theorem rendered_of_listed {members : List μ} {text : Units} (h : templates.Listed Member members text) :
    ∀ member ∈ members, ∃ part, Member member part := by
  obtain ⟨rfl, -⟩ | ⟨before, rest, -, hmembers, -⟩ := h
  · exact List.forall_mem_nil _
  · induction hmembers with
    | last hrendered hafter => exact List.forall_mem_singleton.2 ⟨_, hrendered⟩
    | next hrendered hafter hbefore hothers ih => exact List.forall_mem_cons.2 ⟨⟨_, hrendered⟩, ih⟩

end Members

theorem renders_pretty : ∀ levels depth doc text, templates.Renders levels doc text →
    templates.Renders levels doc (pretty levels depth doc)
  | 0, _, _, _, h => h.elim
  | levels + 1, depth, .atom token, text, h => ⟨h.1, rfl⟩
  | levels + 1, depth, .object members, text, h => by
    obtain ⟨inside, hmembers, -, -⟩ := h
    have hlines : ∀ member ∈ members,
        templates.Pair (templates.Renders levels) member (pairLine levels (depth + 1) member) := by
      intro member hmem
      obtain ⟨part, hkey, after, before, value, -, -, hdoc, -⟩ := rendered_of_listed hmembers member hmem
      exact ⟨hkey, [], [blank], _, List.forall_mem_nil _, List.forall_mem_singleton.2 (by decide),
        renders_pretty levels (depth + 1) member.2 value hdoc, rfl⟩
    obtain ⟨inside, hinside, hbraces, hblock⟩ := listed_block hlines 0x7B 0x7D depth
    exact ⟨inside, hinside, hbraces, hblock⟩
  | levels + 1, depth, .array items, text, h => by
    obtain ⟨inside, hitems, -⟩ := h
    have hlines : ∀ doc ∈ items, templates.Renders levels doc (pretty levels (depth + 1) doc) := by
      intro doc hmem
      obtain ⟨part, hdoc⟩ := rendered_of_listed hitems doc hmem
      exact renders_pretty levels (depth + 1) doc part hdoc
    obtain ⟨inside, hinside, -, hblock⟩ := listed_block hlines 0x5B 0x5D depth
    exact ⟨inside, hinside, hblock⟩

theorem reads_pretty {doc : Doc} {text : Units} (h : templates.Reads maxDepth doc text) :
    templates.Reads maxDepth doc (pretty (maxDepth + 1) 0 doc) := by
  obtain ⟨before, inside, after, -, -, hdoc, -⟩ := h
  exact ⟨[], _, [], List.forall_mem_nil _, List.forall_mem_nil _, renders_pretty _ 0 doc inside hdoc,
    (List.append_nil _).symm⟩

/-! ## JSON -/

theorem isSpace_of_isJsonSpace {u : UInt16} (h : isJsonSpace u = true) : isSpace u = true := by
  rw [isSpace, h]
  rfl

theorem isInside_of_json {Value : Doc → Units → Prop} {members : List (Units × Doc)} {inside : Units}
    (h : json.Listed (json.Pair Value) members inside) : templates.IsInside inside := by
  -- An object of JSON begins with white space, a key or its end.
  have hblank {text rest : Units} (hspace : json.Blank text) (hrest : rest.head? ≠ some 0x7B) :
      (text ++ rest).head? ≠ some 0x7B := by
    cases text with
    | nil => exact hrest
    | cons u text =>
      intro hhead
      have hu := hspace u List.mem_cons_self
      rw [Option.some.inj hhead] at hu
      exact absurd hu (by decide)
  have hkey {member : Units × Doc} {text : Units} (hpair : json.Pair Value member text) (rest : Units) :
      (text ++ rest).head? ≠ some 0x7B := by
    obtain ⟨⟨inner, -, hkey⟩, after, before, value, -, -, -, rfl⟩ := hpair
    rw [hkey]
    intro hhead
    exact absurd (Option.some.inj hhead) (by decide)
  obtain ⟨-, hspace⟩ | ⟨before, rest, hspace, hmembers, rfl⟩ := h
  · have hwhole := @hblank inside [] hspace fun hhead => by cases hhead
    rw [List.append_nil] at hwhole
    exact hwhole
  · apply hblank hspace
    cases hmembers with
    | last hrendered hafter => exact hkey hrendered _
    | next hrendered hafter hbefore hothers => exact hkey hrendered _

theorem templates_of_json {doc : Doc} {text : Units} (h : json.Reads maxDepth doc text) :
    templates.Reads maxDepth doc text := by
  obtain ⟨before, inside, after, hbefore, hafter, hdoc, rfl⟩ := h
  refine ⟨before, inside, after, fun u hu => isSpace_of_isJsonSpace (hbefore u hu),
    fun u hu => isSpace_of_isJsonSpace (hafter u hu), ?_, rfl⟩
  apply renders_mono (P := fun _ => True) (Q := fun _ => True) _ _ _ _ _ doc inside hdoc (fun _ _ => trivial) (fun _ _ => trivial)
  · exact fun u _ hu => isSpace_of_isJsonSpace hu
  · rintro token - (hstring | hnumber | hliteral)
    · exact .inl hstring
    · exact .inr (.inl hnumber)
    · exact .inr (.inr (.inl hliteral))
  · exact fun token _ hstring => .inl hstring
  · exact fun Value members inside hlisted _ => isInside_of_json hlisted

/-- Without references and U+FEFF, what the formatter reads is JSON. -/
theorem json_of_templates {doc : Doc} {text : Units} (hmark : byteOrderMark ∉ text) (hplain : NoReference text)
    (h : templates.Reads maxDepth doc text) : json.Reads maxDepth doc text := by
  unfold NoReference at hplain
  rw [tokens_reads h] at hplain
  obtain ⟨before, inside, after, hbefore, hafter, hdoc, rfl⟩ := h
  have hspace (u : UInt16) (hu : u ≠ byteOrderMark) (hspaced : isSpace u = true) : isJsonSpace u = true := by
    unfold isSpace at hspaced
    rw [Bool.or_eq_true, beq_iff_eq] at hspaced
    exact hspaced.resolve_right hu
  have hunits : ∀ u ∈ before ++ (inside ++ after), u ≠ byteOrderMark := by
    rintro u hu rfl
    exact hmark hu
  obtain ⟨hfront, hunits⟩ := List.forall_mem_append.1 hunits
  obtain ⟨hmiddle, hback⟩ := List.forall_mem_append.1 hunits
  have hno {token : Units} (hnot : ¬ referenceOpen <+: token) (hreference : IsReference token) : False := by
    obtain ⟨inner, -, rfl⟩ := hreference
    exact hnot (List.prefix_append _ _)
  refine ⟨before, inside, after, fun u hu => hspace u (hfront u hu) (hbefore u hu),
    fun u hu => hspace u (hback u hu) (hafter u hu), ?_, rfl⟩
  apply renders_mono (P := (· ≠ byteOrderMark)) (Q := fun token => ¬ referenceOpen <+: token) _ _ _ _ _ doc inside hdoc hmiddle hplain
  · exact hspace
  · rintro token hnot (hstring | hnumber | hliteral | hreference)
    · exact .inl hstring
    · exact .inr (.inl hnumber)
    · exact .inr (.inr hliteral)
    · exact (hno hnot hreference).elim
  · rintro token hnot (hstring | hreference)
    · exact hstring
    · exact (hno hnot hreference).elim
  · exact fun _ _ _ _ _ => trivial

/-- `formatJson` is a faithful formatter. -/
theorem formatJson_faithful (text : Units) :
    (byteOrderMark ∉ text → NoReference text → ((∃ out, formatJson text = .ok out) ↔ json.Accepts maxDepth text)) ∧
      (∀ out, formatJson text = .ok out →
        (∃ doc, templates.Reads maxDepth doc text ∧ out = pretty (maxDepth + 1) 0 doc) ∧
          tokens out = tokens text ∧ formatJson out = .ok out) ∧
        ∀ problem, formatJson text = .error problem →
          ∃ offset : Int, problem = .problem offset ∧ 0 ≤ offset ∧ offset ≤ text.length := by
  refine ⟨?_, ?_, fun problem => within_formatJson⟩
  · intro hmark hplain
    constructor
    · rintro ⟨out, h⟩
      obtain ⟨doc, hdoc, -⟩ := formatJson_iff.1 h
      exact ⟨doc, json_of_templates hmark hplain hdoc⟩
    · rintro ⟨doc, hdoc⟩
      exact ⟨_, formatJson_iff.2 ⟨doc, templates_of_json hdoc, rfl⟩⟩
  · intro out h
    obtain ⟨doc, hdoc, rfl⟩ := formatJson_iff.1 h
    have hpretty := reads_pretty hdoc
    exact ⟨⟨doc, hdoc, rfl⟩, (tokens_reads hpretty).trans (tokens_reads hdoc).symm,
      formatJson_iff.2 ⟨doc, hpretty, rfl⟩⟩

/-- A list in an object, and its text as it is formatted. -/
def nestedText : Units := "\x7b\"a\":[1]\x7d".toList.map fun c => c.toNat.toUInt16

def nestedLines : Units := "\x7b\n  \"a\": [\n    1\n  ]\n\x7d".toList.map fun c => c.toNat.toUInt16

theorem formatJson_faithful_nested :
    json.Accepts maxDepth nestedText ∧ tokens nestedLines = tokens nestedText ∧
      formatJson nestedLines = .ok nestedLines := by
  have hformatted : formatJson nestedText = .ok nestedLines := rfl
  have htokens : tokens nestedText = [[123], [34, 97, 34], [58], [91], [49], [93], [125]] := by decide +kernel
  have hplain : NoReference nestedText := by
    unfold NoReference
    rw [htokens]
    decide
  obtain ⟨haccepts, hfaithful, -⟩ := formatJson_faithful nestedText
  exact ⟨(haccepts (by decide) hplain).1 ⟨nestedLines, hformatted⟩, (hfaithful nestedLines hformatted).2⟩

end Gostman.Format
