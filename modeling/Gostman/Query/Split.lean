import Gostman.Query.QueryString
/-!
# Where a URL splits

The base and the fragment of a URL are found again when a query is written
between them, unless braces that are open at the end of the base are closed
behind it.
-/

namespace Gostman.Query

open Gostman.Lib

/-! ## Masks -/

theorem length_masked (text : Text) : (masked text).length = text.length := by
  unfold masked
  rw [Token.length_masks, placeholders.texts_tokens]

/-- A text behind which another begins that no placeholder crosses into. -/
def Apart (text more : Text) : Prop :=
  placeholders.tokens (text ++ more) = placeholders.tokens text ++ placeholders.tokens more

theorem Apart.masked {text more : Text} (h : Apart text more) : masked (text ++ more) = masked text ++ masked more := by
  unfold Query.masked
  rw [h, Token.masks_append]

/-- No placeholder begins outside of those that are whole. -/
theorem apart_of_notMem {text : Text} (h : leftBrace ∉ masked text) (more : Text) : Apart text more := by
  apply placeholders.tokens_append
  intro first u rest htokens
  cases hfind : placeholders.find (u :: (Token.texts rest ++ more)) with
  | none => rfl
  | some items =>
    obtain ⟨name, others, -, -, -, heq⟩ := placeholder_eq_some.1 hfind
    obtain rfl : u = leftBrace := (List.cons.inj heq).1
    apply absurd _ h
    apply Token.mem_masks_of_unit_mem
    rw [htokens]
    exact List.mem_append_right _ List.mem_cons_self

theorem tokens_cons {u : UInt16} (h : u ≠ leftBrace) (rest : Text) :
    placeholders.tokens (u :: rest) = Token.unit u :: placeholders.tokens rest := by
  apply placeholders.tokens_unit
  cases hfind : placeholders.find (u :: rest) with
  | none => rfl
  | some items =>
    obtain ⟨name, others, -, -, -, heq⟩ := placeholder_eq_some.1 hfind
    exact absurd (List.cons.inj heq).1 h

theorem masked_cons {u : UInt16} (h : u ≠ leftBrace) (rest : Text) : masked (u :: rest) = u :: masked rest := by
  unfold masked
  rw [tokens_cons h, Token.masks_unit]

theorem apart_of_tokens {text more : Text} {tokens : List (Token UInt16)}
    (h : placeholders.tokens (text ++ more) = placeholders.tokens text ++ tokens) : Apart text more := by
  have htexts := congrArg Token.texts h
  rw [Token.texts_append, placeholders.texts_tokens, placeholders.texts_tokens, List.append_cancel_left_eq] at htexts
  have htake := (placeholders.tokens_take h).2
  rw [← htexts] at htake
  rw [Apart, h, htake]

/-- What is apart from two texts is so from the first. -/
theorem Apart.left {text middle more : Text} (h : Apart text (middle ++ more)) (hmiddle : Apart middle more) :
    Apart text middle ∧ Apart (text ++ middle) more := by
  have hall : placeholders.tokens (text ++ middle ++ more) =
      (placeholders.tokens text ++ placeholders.tokens middle) ++ placeholders.tokens more := by
    rw [List.append_assoc, h, hmiddle, List.append_assoc]
  have hfirst := (placeholders.tokens_take hall).1
  rw [Token.texts_append, placeholders.texts_tokens, placeholders.texts_tokens] at hfirst
  refine ⟨hfirst, ?_⟩
  rw [Apart, hall, hfirst]

/-! ## Cutting at a mark -/

theorem idxOf?_append_cons {first : Text} {mark : UInt16} (h : mark ∉ first) (rest : Text) :
    (first ++ mark :: rest).idxOf? mark = some first.length := by
  induction first with
  | nil => rw [List.nil_append, List.idxOf?_cons, beq_self_eq_true, if_pos rfl]; rfl
  | cons u first ih =>
    rw [List.mem_cons, not_or] at h
    have hne : (u == mark) = false := beq_false_of_ne fun heq => h.1 heq.symm
    rw [List.cons_append, List.idxOf?_cons, hne, ih h.2]
    rfl

theorem indexOutside_of_notMem {text : Text} {mark : UInt16} (h : mark ∉ masked text) :
    indexOutsidePlaceholders text mark = none :=
  List.idxOf?_eq_none_iff.2 h

theorem indexOutside_append {first rest : Text} {mark : UInt16} (hbrace : mark ≠ leftBrace) (h : mark ∉ masked first)
    (hapart : Apart first (mark :: rest)) : indexOutsidePlaceholders (first ++ mark :: rest) mark = some first.length := by
  unfold indexOutsidePlaceholders
  rw [hapart.masked, masked_cons hbrace, idxOf?_append_cons h, length_masked]

/-- A text is cut at the first mark outside of its placeholders, if it has one. -/
theorem split_at (mark : UInt16) (hblank : mark ≠ blank) (hbrace : mark ≠ leftBrace) (text : Text) :
    (mark ∉ masked text ∧ indexOutsidePlaceholders text mark = none) ∨
      ∃ first rest, text = first ++ mark :: rest ∧ Apart first (mark :: rest) ∧ mark ∉ masked first ∧
        indexOutsidePlaceholders text mark = some first.length := by
  by_cases hmem : mark ∈ masked text
  · right
    obtain ⟨tokens, others, heq, hnot⟩ := List.eq_append_cons_of_mem (Token.unit_mem_of_mem_masks hblank hmem)
    obtain ⟨hfirst, hrest⟩ := placeholders.tokens_take heq
    have htext : text = Token.texts tokens ++ mark :: Token.texts others := by
      rw [← Token.texts_unit, ← Token.texts_append, ← heq, placeholders.texts_tokens]
    have hapart : Apart (Token.texts tokens) (mark :: Token.texts others) := by
      rw [Token.texts_unit] at hrest
      rw [Apart, ← htext, hfirst, hrest, heq]
    have hmask : mark ∉ masked (Token.texts tokens) := by
      unfold masked
      rw [hfirst]
      intro hin
      exact hnot (Token.unit_mem_of_mem_masks hblank hin)
    refine ⟨_, _, htext, hapart, hmask, ?_⟩
    rw [htext]
    exact indexOutside_append hbrace hmask hapart
  · exact .inl ⟨hmem, indexOutside_of_notMem hmem⟩

/-! ## The parts of a URL -/

/-- A fragment has its mark at the front, or is not there. -/
def IsFragment (fragment : Text) : Prop :=
  fragment = [] ∨ ∃ rest, fragment = fragmentMark :: rest

theorem fragment_cut {before fragment : Text} (hfragment : IsFragment fragment) (hmask : fragmentMark ∉ masked before)
    (hapart : Apart before fragment) :
    (indexOutsidePlaceholders (before ++ fragment) fragmentMark).elim (before ++ fragment) (before ++ fragment).take = before ∧
      (indexOutsidePlaceholders (before ++ fragment) fragmentMark).elim [] (before ++ fragment).drop = fragment := by
  rcases hfragment with rfl | ⟨rest, rfl⟩
  · rw [List.append_nil, indexOutside_of_notMem hmask]
    exact ⟨rfl, rfl⟩
  · rw [indexOutside_append (by decide) hmask hapart]
    exact ⟨List.take_left, List.drop_left⟩

/-- The part of a URL before the fragment, and the fragment. -/
theorem exists_before (url : Text) :
    ∃ before fragment, url = before ++ fragment ∧ IsFragment fragment ∧ fragmentMark ∉ masked before ∧ Apart before fragment := by
  rcases split_at fragmentMark (by decide) (by decide) url with ⟨hmask, -⟩ | ⟨first, rest, heq, hapart, hmask, -⟩
  · refine ⟨url, [], (List.append_nil _).symm, .inl rfl, hmask, ?_⟩
    rw [Apart, List.append_nil, placeholders.tokens_nil, List.append_nil]
  · exact ⟨first, fragmentMark :: rest, heq, .inr ⟨rest, rfl⟩, hmask, hapart⟩

def queryPart (query : Text) : Text :=
  if query = [] then [] else queryMark :: query

structure IsParts (url : Text) (parts : UrlParts) : Prop where
  queryMark_notMem : queryMark ∉ masked parts.base
  fragmentMark_notMem : fragmentMark ∉ masked parts.base
  isFragment : IsFragment parts.fragment
  apart : ∃ rest, url = parts.base ++ rest ∧ Apart parts.base rest

theorem isParts_splitUrl (url : Text) : IsParts url (splitUrl url) := by
  obtain ⟨before, fragment, heq, hfragment, hmask, hapart⟩ := exists_before url
  obtain ⟨htake, hdrop⟩ := fragment_cut hfragment hmask hapart
  rw [← heq] at htake hdrop
  rcases split_at queryMark (by decide) (by decide) before with
    ⟨hquery, hindex⟩ | ⟨base, query, hbefore, hcut, hquery, hindex⟩
  · have hparts : splitUrl url = ⟨before, [], fragment⟩ := by
      unfold splitUrl
      dsimp only
      rw [htake, hdrop, hindex]
    rw [hparts]
    exact ⟨hquery, hmask, hfragment, fragment, heq, hapart⟩
  · have hparts : splitUrl url = ⟨base, query, fragment⟩ := by
      unfold splitUrl
      dsimp only
      rw [htake, hdrop, hindex, hbefore]
      dsimp only
      rw [List.take_left, ← List.drop_drop, List.drop_left, List.drop_one, List.tail_cons]
    rw [hparts]
    have hbase : fragmentMark ∉ masked base := by
      rw [hbefore, hcut.masked] at hmask
      intro hin
      exact hmask (List.mem_append_left _ hin)
    have hurl : url = base ++ (queryMark :: query ++ fragment) := by
      rw [heq, hbefore, List.append_assoc]
    refine ⟨hquery, hbase, hfragment, _, hurl, ?_⟩
    apply @apart_of_tokens _ _ (placeholders.tokens (queryMark :: query) ++ placeholders.tokens fragment)
    rw [← hurl, heq, hapart, hbefore, hcut, List.append_assoc]

/-- A URL that is put together from parts splits into them. -/
theorem splitUrl_build {base query fragment : Text} (hbase : queryMark ∉ masked base) (hmark : fragmentMark ∉ masked base)
    (hfragment : IsFragment fragment) (hquery : fragmentMark ∉ masked query) (hclosed : leftBrace ∉ masked query)
    (hapart : Apart base (queryPart query ++ fragment)) :
    splitUrl (base ++ queryPart query ++ fragment) = ⟨base, query, fragment⟩ := by
  have hpart : fragmentMark ∉ masked (queryPart query) ∧ leftBrace ∉ masked (queryPart query) := by
    unfold queryPart
    split_ifs with hempty
    · exact ⟨List.not_mem_nil, List.not_mem_nil⟩
    · rw [masked_cons (by decide), List.mem_cons, List.mem_cons, not_or, not_or]
      exact ⟨⟨by decide, hquery⟩, by decide, hclosed⟩
  obtain ⟨hleft, hwhole⟩ := hapart.left (apart_of_notMem hpart.2 fragment)
  have hbefore : fragmentMark ∉ masked (base ++ queryPart query) := by
    rw [hleft.masked, List.mem_append, not_or]
    exact ⟨hmark, hpart.1⟩
  obtain ⟨htake, hdrop⟩ := fragment_cut hfragment hbefore hwhole
  unfold splitUrl
  dsimp only
  rw [htake, hdrop]
  unfold queryPart at hleft ⊢
  split_ifs at hleft ⊢ with hempty
  · rw [List.append_nil, indexOutside_of_notMem hbase, hempty]
  · rw [indexOutside_append (by decide) hbase hleft]
    dsimp only
    rw [List.take_left, ← List.drop_drop, List.drop_left, List.drop_one, List.tail_cons]

/-! ## Braces that stay open -/

def Open (text : Text) : Prop :=
  ∃ before name, text = before ++ leftBrace :: leftBrace :: name ∧ rightBrace ∉ name

def Closes (text : Text) : Prop :=
  ∃ name rest, text = name ++ rightBrace :: rightBrace :: rest ∧ rightBrace ∉ name

theorem rightBrace_mem_of_closed {name first rest : Text} (h : closed name = first ++ rest) (hne : rest ≠ []) :
    rightBrace ∈ rest := by
  have hlast : (closed name).getLast? = some rightBrace := by
    have heq : closed name = leftBrace :: leftBrace :: (name ++ [rightBrace]) ++ [rightBrace] := by
      unfold closed
      simp only [List.cons_append, List.append_assoc, List.nil_append]
    rw [heq, List.getLast?_append, List.getLast?_singleton, Option.some_or]
  rw [h, List.getLast?_append_of_ne_nil _ hne] at hlast
  exact List.mem_of_getLast? hlast

theorem tokens_of_notMem_rightBrace {text : Text} (h : rightBrace ∉ text) :
    placeholders.tokens text = text.map Token.unit := by
  induction text with
  | nil => rfl
  | cons u rest ih =>
    rw [placeholders.tokens_unit, ih fun hmem => h (List.mem_cons_of_mem _ hmem)]
    · rfl
    · cases hfind : placeholders.find (u :: rest) with
      | none => rfl
      | some items =>
        obtain ⟨name, others, -, -, -, heq⟩ := placeholder_eq_some.1 hfind
        apply absurd _ h
        rw [heq]
        exact List.mem_append_left _ (@rightBrace_mem_of_closed name [] _ rfl (List.cons_ne_nil _ _))

/-- A text without a closing brace is in no placeholder that ends before it. -/
theorem tokens_append_notMem (text : Text) {more : Text} (h : rightBrace ∉ more) :
    ∃ tokens, placeholders.tokens (text ++ more) = tokens ++ more.map Token.unit := by
  induction hn : text.length using Nat.strongRecOn generalizing text with
  | _ n ih =>
    cases text with
    | nil => exact ⟨[], tokens_of_notMem_rightBrace h⟩
    | cons u rest =>
      rw [List.length_cons] at hn
      cases hfind : placeholders.find (u :: (rest ++ more)) with
      | none =>
        obtain ⟨tokens, htokens⟩ := ih rest.length (by omega) rest rfl
        refine ⟨Token.unit u :: tokens, ?_⟩
        rw [List.cons_append, placeholders.tokens_unit hfind, htokens, List.cons_append]
      | some items =>
        obtain ⟨name, others, -, -, hitems, heq⟩ := placeholder_eq_some.1 hfind
        rw [← List.cons_append] at heq hfind
        rcases List.append_eq_append_iff.1 heq with ⟨inner, hname, hmore⟩ | ⟨behind, hrest, hothers⟩
        · have hinner : inner = [] := by
            by_contra hne
            apply h
            rw [hmore]
            exact List.mem_append_left _ (rightBrace_mem_of_closed hname hne)
          rw [hinner, List.nil_append] at hmore
          refine ⟨[Token.found items], ?_⟩
          rw [heq, ← hitems] at hfind ⊢
          rw [placeholders.tokens_found hfind, ← hmore, tokens_of_notMem_rightBrace h]
          rfl
        · have hlength := congrArg List.length hrest
          have hpos : 0 < (closed name).length := Nat.succ_pos _
          rw [List.length_cons, List.length_append] at hlength
          obtain ⟨tokens, htokens⟩ := ih behind.length (by omega) behind rfl
          refine ⟨Token.found items :: tokens, ?_⟩
          rw [heq, ← hitems] at hfind ⊢
          rw [placeholders.tokens_found hfind, hothers, htokens, List.cons_append]

def PlainStart (text : Text) : Prop :=
  ∀ u rest, text = u :: rest → u ≠ leftBrace ∧ u ≠ rightBrace

theorem closed_eq_append {name first inner : Text} (h : closed name = first ++ inner) (hfirst : first ≠ []) :
    inner = [] ∨ (∃ u rest, inner = u :: rest ∧ (u = leftBrace ∨ u = rightBrace)) ∨
      ∃ opened left, first = leftBrace :: leftBrace :: opened ∧ name = opened ++ left ∧
        inner = left ++ [rightBrace, rightBrace] := by
  unfold closed at h
  cases first with
  | nil => exact absurd rfl hfirst
  | cons u first =>
    rw [List.cons_append, List.cons.injEq] at h
    cases first with
    | nil => exact .inr (.inl ⟨leftBrace, _, h.2.symm, .inl rfl⟩)
    | cons v opened =>
      rw [List.cons_append, List.cons.injEq] at h
      obtain ⟨hu, hv, hrest⟩ := h
      rcases List.append_eq_append_iff.1 hrest with ⟨left, hopened, hend⟩ | ⟨left, hname, hinner⟩
      · cases inner with
        | nil => exact .inl rfl
        | cons w others =>
          have hmem : w ∈ [rightBrace, rightBrace] := by
            rw [hend]
            exact List.mem_append_right _ List.mem_cons_self
          rw [List.mem_cons, List.mem_singleton, or_self] at hmem
          exact .inr (.inl ⟨w, others, rfl, .inr hmem⟩)
      · exact .inr (.inr ⟨opened, left, by rw [← hu, ← hv], hname, hinner⟩)

/-- A placeholder crosses from one text into another just where the braces that
the first leaves open are closed in the other. -/
theorem apart_iff {text more : Text} (hstart : PlainStart more) : Apart text more ↔ ¬ (Open text ∧ Closes more) := by
  constructor
  · intro hapart hboth
    obtain ⟨⟨before, name, htext, hname⟩, inner, rest, hmore, hinner⟩ := hboth
    have hnot : rightBrace ∉ leftBrace :: leftBrace :: name := by
      rw [List.mem_cons, List.mem_cons, not_or, not_or]
      exact ⟨by decide, by decide, hname⟩
    obtain ⟨tokens, htokens⟩ := tokens_append_notMem before hnot
    rw [← htext] at htokens
    have hlead := @Pattern.tokens_leftmost _ placeholders (text ++ more) tokens
      ((leftBrace :: name).map Token.unit ++ placeholders.tokens more) (Token.unit leftBrace)
      (by rw [hapart, htokens, List.append_assoc]; rfl)
    rw [Token.texts_append, Token.texts_map_unit, placeholders.texts_tokens] at hlead
    have hne : name ++ inner ≠ [] := by
      intro hnil
      obtain ⟨-, rfl⟩ := List.append_eq_nil_iff.1 hnil
      exact (hstart rightBrace _ hmore).2 rfl
    have hfound : placeholder (leftBrace :: (leftBrace :: name ++ more)) = some (closed (name ++ inner)) := by
      apply placeholder_eq_some.2
      refine ⟨name ++ inner, rest, hne, ?_, rfl, ?_⟩
      · rw [List.mem_append, not_or]
        exact ⟨hname, hinner⟩
      · rw [hmore]
        unfold closed
        simp only [List.cons_append, List.append_assoc, List.nil_append]
    have hnone : placeholder (leftBrace :: (leftBrace :: name ++ more)) = none := hlead
    rw [hfound] at hnone
    cases hnone
  · intro hnot
    apply placeholders.tokens_append
    intro first u rest htokens
    cases hfind : placeholders.find (u :: (Token.texts rest ++ more)) with
    | none => rfl
    | some items =>
      exfalso
      have hlead : placeholder (u :: Token.texts rest) = none := placeholders.tokens_leftmost text htokens
      have htext : text = Token.texts first ++ u :: Token.texts rest := by
        rw [← Token.texts_unit, ← Token.texts_append, ← htokens, placeholders.texts_tokens]
      obtain ⟨name, others, hne, hname, -, heq⟩ := placeholder_eq_some.1 hfind
      rw [← List.cons_append] at heq
      rcases List.append_eq_append_iff.1 heq with ⟨inner, hclosed, hmore⟩ | ⟨behind, hrest, -⟩
      · have hstarts : ∀ v others, inner = v :: others → ¬ (v = leftBrace ∨ v = rightBrace) := by
          intro v others hinner heither
          rw [hinner] at hmore
          obtain ⟨hleft, hright⟩ := hstart v _ hmore
          exact heither.elim hleft hright
        rcases closed_eq_append hclosed (List.cons_ne_nil _ _) with rfl | ⟨v, behind, hinner, heither⟩ | ⟨opened, left, hu, hsplit, hinner⟩
        · rw [List.append_nil] at hclosed
          rw [← hclosed, ← List.append_nil (closed name), placeholder_eq_some.2 ⟨name, [], hne, hname, rfl, rfl⟩] at hlead
          cases hlead
        · exact hstarts v behind hinner heither
        · apply hnot
          rw [hsplit, List.mem_append, not_or] at hname
          refine ⟨⟨Token.texts first, opened, ?_, hname.1⟩, left, others, ?_, hname.2⟩
          · rw [htext, hu]
          · rw [hmore, hinner, List.append_assoc]
            rfl
      · rw [hrest, placeholder_eq_some.2 ⟨name, behind, hne, hname, rfl, rfl⟩] at hlead
        cases hlead

end Gostman.Query
