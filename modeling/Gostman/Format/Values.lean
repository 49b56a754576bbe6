import Gostman.Format.Tokens
/-!
# Reading a value

A value is read where a rendering of a document stands with a separator or the end of
the text behind it, and what is given is the new layout of that document.  A reader
that fails names a place within the text.
-/

namespace Gostman.Format

open Gostman.Lib
open Reader

open scoped Gostman.Lib.Decided

/-! ## White space -/

theorem mem_stops_of_isSpace {u : UInt16} (h : isSpace u = true) : u ∈ stops := by
  unfold isSpace isJsonSpace at h
  simp only [Bool.or_eq_true, beq_iff_eq, or_assoc] at h
  unfold stops
  simp only [List.mem_cons, List.not_mem_nil, or_false]
  tauto

theorem skipSpace_spec (r : Reader) :
    ∃ before, templates.Blank before ∧ r.Took before r.skipSpace ∧ r.skipSpace.sees isSpace = false :=
  have ⟨htook, hend⟩ := took_while isSpace r
  ⟨_, fun _ hu => List.mem_takeWhile_imp hu, htook, hend⟩

theorem Reader.Took.skipSpace_eq {r later : Reader} {before : Units} (htook : r.Took before later)
    (hblank : templates.Blank before) (hend : later.sees isSpace = false) : r.skipSpace = later := by
  have hwhile : r.rest.takeWhile isSpace = before := htook.takeWhile_eq hblank hend
  rw [skipSpace, hwhile, ← htook.eq_advance]

theorem skipSpace_of_sees {r : Reader} (h : r.sees isSpace = false) : r.skipSpace = r :=
  (Took.nil r).skipSpace_eq (List.forall_mem_nil _) h

theorem sees_space_of_head {r : Reader} {u : UInt16} {rest : Units} (h : r.rest = u :: rest) (hu : isSpace u = false) :
    r.sees isSpace = false := by
  rw [sees_eq_false_iff, h]
  intro v hv
  cases hv
  exact hu

theorem delimited_of_blank {after rest : Units} {u : UInt16} (hblank : templates.Blank after) (hu : u ∈ stops) :
    Delimited (after ++ u :: rest) := by
  cases after with
  | nil => exact heads_cons hu
  | cons v after => exact heads_cons (mem_stops_of_isSpace (hblank v List.mem_cons_self))

/-! ## What a value begins with -/

/-- The text begins with a unit that neither is white space nor ends a value. -/
def Begins (text : Units) : Prop := ∃ u rest, text = u :: rest ∧ u ∉ stops

theorem Begins.append {text : Units} (h : Begins text) (more : Units) : Begins (text ++ more) := by
  obtain ⟨u, rest, rfl, hu⟩ := h
  exact ⟨u, rest ++ more, rfl, hu⟩

theorem begins_string {token : Units} (h : IsString token) : Begins token := by
  obtain ⟨inner, -, rfl⟩ := h
  exact ⟨_, _, rfl, by decide⟩

theorem begins_reference {token : Units} (h : IsReference token) : Begins token := by
  obtain ⟨inner, -, rfl⟩ := h
  exact ⟨_, _, rfl, by decide⟩

theorem not_mem_stops_of_isDigit {u : UInt16} (h : isDigit u = true) : u ∉ stops := by
  intro hu
  have hnone : ∀ v ∈ stops, isDigit v = false := by decide
  rw [hnone u hu] at h
  cases h

theorem begins_number {token : Units} (h : IsNumber token) : Begins token := by
  obtain ⟨sign, whole, fraction, exponent, hsign, hwhole, -, -, rfl⟩ := h
  obtain rfl | rfl := hsign
  · have htook : Reader.Took ⟨0, whole⟩ whole ⟨whole.length, []⟩ := ⟨(List.append_nil whole).symm, (Nat.zero_add _).symm⟩
    obtain ⟨u, rest, hrest, hu⟩ := sees_iff.1 (sees_whole hwhole htook)
    refine ⟨u, rest ++ (fraction ++ exponent), ?_, not_mem_stops_of_isDigit hu⟩
    rw [List.nil_append, ← List.cons_append, ← hrest]
  · exact ⟨_, _, rfl, by decide⟩

theorem begins_literal {token : Units} (h : token ∈ literals) : Begins token := by
  have hheads : ∀ literal ∈ literals, literal ≠ [] ∧ ∀ u ∈ literal.take 1, u ∉ stops := by decide
  obtain ⟨hnil, hhead⟩ := hheads token h
  obtain ⟨u, rest, rfl⟩ := List.exists_cons_of_ne_nil hnil
  exact ⟨u, rest, rfl, hhead u List.mem_cons_self⟩

theorem begins_renders {levels : Nat} {doc : Doc} {text : Units} (h : templates.Renders levels doc text) : Begins text := by
  cases levels with
  | zero => exact h.elim
  | succ levels =>
    cases doc with
    | atom token =>
      obtain ⟨hstring | hnumber | hliteral | hreference, rfl⟩ := h
      · exact begins_string hstring
      · exact begins_number hnumber
      · exact begins_literal hliteral
      · exact begins_reference hreference
    | object members =>
      obtain ⟨inside, -, -, rfl⟩ := h
      exact ⟨_, _, rfl, by decide⟩
    | array items =>
      obtain ⟨inside, -, rfl⟩ := h
      exact ⟨_, _, rfl, by decide⟩

theorem begins_pair {levels : Nat} {member : Units × Doc} {text : Units}
    (h : templates.Pair (templates.Renders levels) member text) : Begins text := by
  obtain ⟨hkey, after, before, value, -, -, -, rfl⟩ := h
  obtain hstring | hreference := hkey
  · exact (begins_string hstring).append _
  · exact (begins_reference hreference).append _

theorem Reader.Took.sees_space {r later : Reader} {text : Units} (htook : r.Took text later) (h : Begins text) :
    r.sees isSpace = false := by
  obtain ⟨u, rest, rfl, hu⟩ := h
  exact sees_space_of_head htook.head (Bool.eq_false_iff.2 fun hspace => hu (mem_stops_of_isSpace hspace))

theorem Reader.Took.at_stop {r later : Reader} {text : Units} (htook : r.Took text later) (h : Begins text) {u : UInt16}
    (hu : u ∈ stops) : r.at_ u = false := by
  obtain ⟨v, rest, rfl, hv⟩ := h
  unfold at_
  rw [htook.head]
  exact decide_eq_false fun heq => hv (Option.some.inj heq ▸ hu)

/-! ## The readers step by step -/

theorem readRest_error {closer : UInt16} {readMember : Reader → Read Units} {count : Nat} {r : Reader} {problem : Failure}
    (h : readMember r = .error problem) : readRest closer readMember (count + 1) r = .error problem := by
  rw [readRest, h]
  rfl

theorem readRest_ok {closer : UInt16} {readMember : Reader → Read Units} {count : Nat} {r after : Reader} {line : Units}
    (h : readMember r = .ok (line, after)) :
    readRest closer readMember (count + 1) r =
      if after.skipSpace.at_ closer then .ok ([line], after.skipSpace.advance 1)
      else if ¬after.skipSpace.at_ comma then fail after.skipSpace.position
      else if (after.skipSpace.advance 1).skipSpace.at_ closer then fail after.skipSpace.position
      else (readRest closer readMember count (after.skipSpace.advance 1).skipSpace).bind fun others =>
        .ok (line :: others.1, others.2) := by
  rw [readRest, h]
  rfl

theorem readPair_error {readValue : Reader → Read Units} {r : Reader} {problem : Failure} (h : readKey r = .error problem) :
    readPair readValue r = .error problem := by
  rw [readPair, h]
  rfl

theorem readPair_ok {readValue : Reader → Read Units} {r after : Reader} {key : Units} (h : readKey r = .ok (key, after)) :
    readPair readValue r =
      if ¬after.skipSpace.at_ colon then fail after.skipSpace.position
      else (readValue (after.skipSpace.advance 1).skipSpace).bind fun value =>
        .ok (key ++ colon :: blank :: value.1, value.2) := by
  rw [readPair, h]
  rfl

theorem readValue_cons {levels : Nat} {r : Reader} {u : UInt16} {rest : Units} (h : r.skipSpace.rest = u :: rest) :
    readValue (levels + 1) r =
      if r.skipSpace.startsWith referenceOpen then readReference r.skipSpace
      else if u = 0x7B then (readMembers 0x7D (readPair (readValue levels)) r.skipSpace).bind fun lines =>
        .ok (block 0x7B 0x7D lines.1 (maxDepth - levels), lines.2)
      else if u = 0x5B then (readMembers 0x5D (readValue levels) r.skipSpace).bind fun lines =>
        .ok (block 0x5B 0x5D lines.1 (maxDepth - levels), lines.2)
      else if u = quotationMark then readString r.skipSpace
      else readWord u r.skipSpace := by
  rw [readValue, h]
  rfl

theorem bind_eq_ok {α β : Type} {x : Except Failure α} {next : α → Except Failure β} {result : β}
    (h : x.bind next = .ok result) : ∃ value, x = .ok value ∧ next value = .ok result := by
  cases x with
  | error problem => cases h
  | ok value => exact ⟨value, rfl, h⟩

/-! ## What is accepted -/

section Members

variable {μ : Type} {Member : μ → Units → Prop} {line : μ → Units} {readMember : Reader → Read Units} {closer : UInt16}

/-- What the reader of a member accepts is a rendering of a member. -/
def Sound (Member : μ → Units → Prop) (line : μ → Units) (readMember : Reader → Read Units) : Prop :=
  ∀ r out later, r.sees isSpace = false → readMember r = .ok (out, later) →
    ∃ member text, Member member text ∧ r.Took text later ∧ out = line member

theorem separated_of_readRest (hsound : Sound Member line readMember) {count : Nat} {r later : Reader} {lines : List Units}
    (hspace : r.sees isSpace = false) (h : readRest closer readMember count r = .ok (lines, later)) :
    ∃ members text, templates.Separated Member members text ∧ r.Took (text ++ [closer]) later ∧
      lines = members.map line := by
  induction count generalizing r lines with
  | zero => cases h
  | succ count ih =>
    cases hread : readMember r with
    | error problem =>
      rw [readRest_error hread] at h
      cases h
    | ok result =>
      obtain ⟨out, behind⟩ := result
      obtain ⟨member, text, hmember, htook, rfl⟩ := hsound r out behind hspace hread
      obtain ⟨after, hafter, hskip, -⟩ := skipSpace_spec behind
      rw [readRest_ok hread] at h
      split_ifs at h with hclose hcomma htrailing
      · cases h
        obtain ⟨rest, hrest⟩ := at_iff.1 hclose
        exact ⟨[member], text ++ after, .last hmember hafter, (htook.append hskip).append (took_one hrest), rfl⟩
      · cases h
      · obtain ⟨others, hothers, hresult⟩ := bind_eq_ok h
        obtain ⟨rfl, rfl⟩ := Prod.mk.inj (Except.ok.inj hresult)
        obtain ⟨rest, hrest⟩ := at_iff.1 hcomma
        obtain ⟨before, hbefore, hnext, hend⟩ := skipSpace_spec (behind.skipSpace.advance 1)
        obtain ⟨members, texts, hmembers, htooks, hlines⟩ := ih hend hothers
        refine ⟨member :: members, _, .next hmember hafter hbefore hmembers, ?_, ?_⟩
        · have hwhole := htook.append (hskip.append ((took_one hrest).cons (hnext.append htooks)))
          simpa only [List.append_assoc, List.cons_append] using hwhole
        · rw [hlines]
          rfl
      · cases h

theorem listed_of_readMembers (hsound : Sound Member line readMember) {r later : Reader} {lines : List Units}
    {opening : UInt16} {rest : Units} (hrest : r.rest = opening :: rest)
    (h : readMembers closer readMember r = .ok (lines, later)) :
    ∃ members inside, templates.Listed Member members inside ∧ r.Took (opening :: (inside ++ [closer])) later ∧
      lines = members.map line := by
  obtain ⟨before, hbefore, hskip, hend⟩ := skipSpace_spec (r.advance 1)
  unfold readMembers at h
  simp only at h
  split_ifs at h with hclose
  · cases h
    obtain ⟨rest', hrest'⟩ := at_iff.1 hclose
    exact ⟨[], before, .inl ⟨rfl, hbefore⟩, (took_one hrest).cons (hskip.append (took_one hrest')), rfl⟩
  · obtain ⟨members, text, hmembers, htook, hlines⟩ := separated_of_readRest hsound hend h
    refine ⟨members, before ++ text, .inr ⟨before, text, hbefore, hmembers, rfl⟩, ?_, hlines⟩
    rw [List.append_assoc]
    exact (took_one hrest).cons (hskip.append htook)

end Members

def pairLine (levels depth : Nat) (member : Units × Doc) : Units :=
  member.1 ++ colon :: blank :: pretty levels depth member.2

theorem readKey_iff {r later : Reader} {key : Units} :
    readKey r = .ok (key, later) ↔ templates.IsKey key ∧ r.Took key later := by
  unfold readKey
  constructor
  · intro h
    split_ifs at h with hquote hopen
    · obtain ⟨hstring, htook⟩ := (readString_iff hquote).1 h
      exact ⟨.inl hstring, htook⟩
    · obtain ⟨hreference, htook⟩ := (readReference_iff hopen).1 h
      exact ⟨.inr hreference, htook⟩
    · cases h
  · rintro ⟨hstring | hreference, htook⟩
    · have hquote : r.at_ quotationMark = true := by
        obtain ⟨inner, -, rfl⟩ := hstring
        exact at_iff.2 ⟨_, htook.head⟩
      rw [if_pos hquote]
      exact (readString_iff hquote).2 ⟨hstring, htook⟩
    · obtain ⟨inner, hinner, rfl⟩ := hreference
      have hopen : r.startsWith referenceOpen = true := by
        refine List.isPrefixOf_iff_prefix.2 ⟨inner ++ referenceClose ++ later.rest, ?_⟩
        rw [htook.rest_eq]
        simp only [List.append_assoc]
      rw [if_neg, if_pos hopen]
      · exact (readReference_iff hopen).2 ⟨⟨inner, hinner, rfl⟩, htook⟩
      · intro hquote
        obtain ⟨rest, hrest⟩ := at_iff.1 hquote
        cases htook.head.symm.trans hrest

theorem sound_readPair {levels depth : Nat}
    (hvalue : Sound (templates.Renders levels) (pretty levels depth) (readValue levels)) :
    Sound (templates.Pair (templates.Renders levels)) (pairLine levels depth) (readPair (readValue levels)) := by
  intro r out later hspace h
  cases hkey : readKey r with
  | error problem =>
    rw [readPair_error hkey] at h
    cases h
  | ok result =>
    obtain ⟨key, behind⟩ := result
    rw [readPair_ok hkey] at h
    obtain ⟨hiskey, htook⟩ := readKey_iff.1 hkey
    split_ifs at h with hcolon
    · obtain ⟨⟨value, last⟩, hread, hresult⟩ := bind_eq_ok h
      obtain ⟨rfl, rfl⟩ := Prod.mk.inj (Except.ok.inj hresult)
      obtain ⟨rest, hrest⟩ := at_iff.1 hcolon
      obtain ⟨after, hafter, hskip, -⟩ := skipSpace_spec behind
      obtain ⟨before, hbefore, hnext, hend⟩ := skipSpace_spec (behind.skipSpace.advance 1)
      obtain ⟨doc, text, hdoc, htext, rfl⟩ := hvalue _ _ _ hend hread
      refine ⟨(key, doc), _, ⟨hiskey, after, before, text, hafter, hbefore, hdoc, rfl⟩, ?_, rfl⟩
      exact htook.append (hskip.append ((took_one hrest).cons (hnext.append htext)))
    · cases h

theorem sound_readValue : ∀ levels, levels ≤ maxDepth + 1 →
    Sound (templates.Renders levels) (pretty levels (maxDepth + 1 - levels)) (readValue levels)
  | 0, _ => by
    intro r out later _ h
    cases h
  | levels + 1, hlevels => by
    intro r out later hspace h
    have hdepth : maxDepth + 1 - levels = maxDepth - levels + 1 := by omega
    have ih := sound_readValue levels (Nat.le_of_succ_le hlevels)
    rw [hdepth] at ih
    cases hrest : r.rest with
    | nil =>
      rw [readValue, skipSpace_of_sees hspace, hrest] at h
      cases h
    | cons u rest =>
      have hskip := skipSpace_of_sees hspace
      rw [readValue_cons (by rw [hskip, hrest]), hskip] at h
      split_ifs at h with hopen hbrace hbracket hquote
      · obtain ⟨hreference, htook⟩ := (readReference_iff hopen).1 h
        exact ⟨.atom out, out, ⟨.inr (.inr (.inr hreference)), rfl⟩, htook, rfl⟩
      · obtain ⟨⟨lines, last⟩, hlines, hresult⟩ := bind_eq_ok h
        obtain ⟨rfl, rfl⟩ := Prod.mk.inj (Except.ok.inj hresult)
        subst hbrace
        obtain ⟨members, inside, hmembers, htook, rfl⟩ := listed_of_readMembers (sound_readPair ih) hrest hlines
        refine ⟨.object members, _, ⟨inside, hmembers, ?_, rfl⟩, htook, ?_⟩
        · intro hhead
          obtain ⟨behind, rfl⟩ := List.head?_eq_some_iff.1 hhead
          exact hopen (List.isPrefixOf_iff_prefix.2 ⟨_, htook.rest_eq.symm⟩)
        · rw [pretty, Nat.add_sub_add_right]
          rfl
      · obtain ⟨⟨lines, last⟩, hlines, hresult⟩ := bind_eq_ok h
        obtain ⟨rfl, rfl⟩ := Prod.mk.inj (Except.ok.inj hresult)
        subst hbracket
        obtain ⟨items, inside, hitems, htook, rfl⟩ := listed_of_readMembers ih hrest hlines
        refine ⟨.array items, _, ⟨inside, hitems, rfl⟩, htook, ?_⟩
        rw [pretty, Nat.add_sub_add_right]
      · subst hquote
        obtain ⟨hstring, htook⟩ := (readString_iff (at_iff.2 ⟨rest, hrest⟩)).1 h
        exact ⟨.atom out, out, ⟨.inl hstring, rfl⟩, htook, rfl⟩
      · unfold readWord at h
        split_ifs at h with hnumber
        · obtain ⟨hnumber, htook⟩ := number_of_readNumber h
          exact ⟨.atom out, out, ⟨.inr (.inl hnumber), rfl⟩, htook, rfl⟩
        · obtain ⟨hliteral, htook⟩ := literal_of_readLiteral h
          exact ⟨.atom out, out, ⟨.inr (.inr (.inl hliteral)), rfl⟩, htook, rfl⟩

/-! ## What is not rejected -/

section Members

variable {μ : Type} {Member : μ → Units → Prop} {line : μ → Units} {readMember : Reader → Read Units} {closer : UInt16}

/-- A rendering of a member is accepted where a separator or the end stands behind it. -/
def Complete (Member : μ → Units → Prop) (line : μ → Units) (readMember : Reader → Read Units) : Prop :=
  ∀ member text, Member member text → ∀ r later, r.Took text later → Delimited later.rest →
    readMember r = .ok (line member, later)

variable (hbegins : ∀ member text, Member member text → Begins text) (hcomplete : Complete Member line readMember)

include hbegins in
theorem begins_separated {members : List μ} {text : Units} (h : templates.Separated Member members text) : Begins text := by
  cases h with
  | last hmember hafter => exact (hbegins _ _ hmember).append _
  | next hmember hafter hbefore hothers => exact (hbegins _ _ hmember).append _

theorem length_separated {members : List μ} {text : Units} (h : templates.Separated Member members text) :
    members.length ≤ text.length + 1 := by
  induction h with
  | last hmember hafter => exact Nat.le_add_left _ _
  | next hmember hafter hbefore hothers ih =>
    simp only [List.length_append, List.length_cons]
    omega

include hbegins hcomplete in
theorem readRest_of_separated (hcloser : closer ∈ stops) (hspace : isSpace closer = false) (hcomma : closer ≠ comma)
    {members : List μ} {text : Units} (h : templates.Separated Member members text) {count : Nat}
    (hcount : members.length ≤ count) {r later : Reader} (htook : r.Took (text ++ [closer]) later) :
    readRest closer readMember count r = .ok (members.map line, later) := by
  induction h generalizing count r with
  | @last member text after hmember hafter =>
    obtain ⟨count, rfl⟩ := Nat.exists_eq_succ_of_ne_zero (Nat.ne_of_gt hcount)
    rw [List.append_assoc] at htook
    obtain ⟨mid, htext, hbehind⟩ := htook.split
    obtain ⟨last, hblank, hclose⟩ := hbehind.split
    have hread := hcomplete member text hmember r mid htext (by
      rw [hbehind.rest_eq, List.append_assoc]
      exact delimited_of_blank hafter hcloser)
    have hskip := hblank.skipSpace_eq hafter (sees_space_of_head hclose.head hspace)
    rw [readRest_ok hread, hskip, if_pos (at_iff.2 ⟨_, hclose.head⟩), hclose.one]
    rfl
  | @next member members text after before rest hmember hafter hbefore hothers ih =>
    obtain ⟨count, rfl⟩ := Nat.exists_eq_succ_of_ne_zero (Nat.ne_of_gt (Nat.zero_lt_of_lt hcount))
    simp only [List.append_assoc, List.cons_append] at htook
    obtain ⟨mid, htext, hbehind⟩ := htook.split
    obtain ⟨separator, hblank, hbehind'⟩ := hbehind.split
    obtain ⟨next, hblank', hrest⟩ := hbehind'.tail.split
    obtain ⟨last, hothersText, -⟩ := hrest.split
    have hread := hcomplete member text hmember r mid htext (by
      rw [hbehind.rest_eq, List.append_assoc]
      exact delimited_of_blank hafter (by decide))
    have hskip := hblank.skipSpace_eq hafter (sees_space_of_head hbehind'.head (by decide))
    have hfirst := begins_separated hbegins hothers
    have hskip' := hblank'.skipSpace_eq hbefore (hothersText.sees_space hfirst)
    have hclose : separator.at_ closer = false := by
      unfold at_
      rw [hbehind'.head]
      exact decide_eq_false fun heq => hcomma (Option.some.inj heq).symm
    rw [readRest_ok hread, hskip, if_neg (Bool.eq_false_iff.1 hclose), if_neg, hskip',
      if_neg (Bool.eq_false_iff.1 (hothersText.at_stop hfirst hcloser)), ih (Nat.le_of_succ_le_succ hcount) hrest]
    · rfl
    · exact not_not_intro (at_iff.2 ⟨_, hbehind'.head⟩)

include hbegins hcomplete in
theorem readMembers_of_listed (hcloser : closer ∈ stops) (hspace : isSpace closer = false) (hcomma : closer ≠ comma)
    {members : List μ} {inside : Units} (h : templates.Listed Member members inside) {opening : UInt16} {r later : Reader}
    (htook : r.Took (opening :: (inside ++ [closer])) later) :
    readMembers closer readMember r = .ok (members.map line, later) := by
  unfold readMembers
  simp only
  obtain ⟨rfl, hblank⟩ | ⟨before, rest, hblank, hmembers, rfl⟩ := h
  · obtain ⟨mid, hskip, hclose⟩ := htook.tail.split
    rw [hskip.skipSpace_eq hblank (sees_space_of_head hclose.head hspace), if_pos (at_iff.2 ⟨_, hclose.head⟩), hclose.one]
    rfl
  · have hlength : members.length ≤ r.rest.length := by
      have hle := length_separated hmembers
      rw [htook.rest_eq]
      simp only [List.length_append, List.length_cons]
      omega
    have htail := htook.tail
    rw [List.append_assoc] at htail
    obtain ⟨mid, hskip, hrest⟩ := htail.split
    obtain ⟨last, hothers, -⟩ := hrest.split
    have hfirst := begins_separated hbegins hmembers
    rw [hskip.skipSpace_eq hblank (hothers.sees_space hfirst), if_neg (Bool.eq_false_iff.1 (hothers.at_stop hfirst hcloser))]
    exact readRest_of_separated hbegins hcomplete hcloser hspace hcomma hmembers hlength hrest

end Members

theorem complete_readPair {levels depth : Nat}
    (hvalue : Complete (templates.Renders levels) (pretty levels depth) (readValue levels)) :
    Complete (templates.Pair (templates.Renders levels)) (pairLine levels depth) (readPair (readValue levels)) := by
  rintro ⟨key, doc⟩ _ ⟨hkey, after, before, value, hafter, hbefore, hdoc, rfl⟩ r later htook hend
  obtain ⟨mid, htext, hbehind⟩ := htook.split
  obtain ⟨separator, hblank, hbehind⟩ := hbehind.split
  obtain ⟨next, hblank', hvalued⟩ := hbehind.tail.split
  have hskip := hblank.skipSpace_eq hafter (sees_space_of_head hbehind.head (by decide))
  have hskip' := hblank'.skipSpace_eq hbefore (hvalued.sees_space (begins_renders hdoc))
  rw [readPair_ok (readKey_iff.2 ⟨hkey, htext⟩), hskip, if_neg (not_not_intro (at_iff.2 ⟨_, hbehind.head⟩)), hskip',
    hvalue doc value hdoc next later hvalued hend]
  rfl

theorem readWord_of_number {r later : Reader} {u : UInt16} {token rest : Units} (hrest : r.rest = u :: rest)
    (h : IsNumber token) (htook : r.Took token later) (hend : Delimited later.rest) :
    u ≠ 0x7B ∧ u ≠ 0x5B ∧ u ≠ quotationMark ∧ readWord u r = .ok (token, later) := by
  have hfirst : u = minus ∨ isDigit u = true := by
    obtain ⟨sign, whole, fraction, exponent, hsign, hwhole, -, -, rfl⟩ := h
    obtain ⟨mid, hbegun, hbehind⟩ := htook.split
    obtain ⟨last, hwholeText, -⟩ := hbehind.split
    obtain rfl | rfl := hsign
    · rw [took_nil_iff] at hbegun
      subst hbegun
      obtain ⟨v, rest', hrest', hv⟩ := sees_iff.1 (sees_whole hwhole hwholeText)
      cases hrest.symm.trans hrest'
      exact .inr hv
    · cases hrest.symm.trans hbegun.head
      exact .inl rfl
  refine ⟨?_, ?_, ?_, ?_⟩
  · rintro rfl
    exact absurd hfirst (by decide)
  · rintro rfl
    exact absurd hfirst (by decide)
  · rintro rfl
    exact absurd hfirst (by decide)
  · unfold readWord
    rw [if_pos hfirst]
    exact readNumber_of_number h htook hend

theorem readWord_of_literal {r later : Reader} {u : UInt16} {token rest : Units} (hrest : r.rest = u :: rest)
    (h : token ∈ literals) (htook : r.Took token later) :
    u ≠ 0x7B ∧ u ≠ 0x5B ∧ u ≠ quotationMark ∧ readWord u r = .ok (token, later) := by
  have hheads : ∀ literal ∈ literals, ∀ v ∈ literal.take 1,
      v ≠ 0x7B ∧ v ≠ 0x5B ∧ v ≠ quotationMark ∧ ¬(v = minus ∨ isDigit v = true) := by decide
  have hhead : u ∈ token.take 1 := by
    obtain ⟨v, text, rfl, -⟩ := begins_literal h
    cases hrest.symm.trans htook.head
    exact List.mem_cons_self
  obtain ⟨hbrace, hbracket, hquote, hword⟩ := hheads token h u hhead
  refine ⟨hbrace, hbracket, hquote, ?_⟩
  unfold readWord
  rw [if_neg hword]
  exact readLiteral_of_literal h htook

theorem not_startsWith_of_head {r : Reader} {u : UInt16} {rest : Units} (hrest : r.rest = u :: rest) (hu : u ≠ 0x7B) :
    ¬ r.startsWith referenceOpen = true := by
  intro hopen
  obtain ⟨behind, hbehind⟩ := List.isPrefixOf_iff_prefix.1 hopen
  exact hu (List.cons.inj (hbehind.trans hrest)).1.symm

theorem complete_readValue : ∀ levels, levels ≤ maxDepth + 1 →
    Complete (templates.Renders levels) (pretty levels (maxDepth + 1 - levels)) (readValue levels)
  | 0, _ => fun _ _ h => h.elim
  | levels + 1, hlevels => by
    intro doc text h r later htook hend
    have hdepth : maxDepth + 1 - levels = maxDepth - levels + 1 := by omega
    have ih := complete_readValue levels (Nat.le_of_succ_le hlevels)
    rw [hdepth] at ih
    have hskip := skipSpace_of_sees (htook.sees_space (begins_renders h))
    have hrest : ∃ u rest, r.rest = u :: rest := by
      obtain ⟨u, rest, rfl, -⟩ := begins_renders h
      exact ⟨u, _, htook.head⟩
    obtain ⟨u, rest, hrest⟩ := hrest
    rw [readValue_cons (by rw [hskip, hrest]), hskip]
    cases doc with
    | atom token =>
      obtain ⟨hatom, rfl⟩ := h
      obtain hstring | hnumber | hliteral | hreference := hatom
      · have hquote : u = quotationMark := by
          obtain ⟨inner, -, rfl⟩ := hstring
          cases hrest.symm.trans htook.head
          rfl
        subst hquote
        rw [if_neg (not_startsWith_of_head hrest (by decide)), if_neg (by decide), if_neg (by decide), if_pos rfl]
        exact (readString_iff (at_iff.2 ⟨rest, hrest⟩)).2 ⟨hstring, htook⟩
      · obtain ⟨hbrace, hbracket, hquote, hread⟩ := readWord_of_number hrest hnumber htook hend
        rw [if_neg (not_startsWith_of_head hrest hbrace), if_neg hbrace, if_neg hbracket, if_neg hquote, hread]
        rfl
      · obtain ⟨hbrace, hbracket, hquote, hread⟩ := readWord_of_literal hrest hliteral htook
        rw [if_neg (not_startsWith_of_head hrest hbrace), if_neg hbrace, if_neg hbracket, if_neg hquote, hread]
        rfl
      · have hopen : r.startsWith referenceOpen = true := by
          obtain ⟨inner, -, rfl⟩ := hreference
          refine List.isPrefixOf_iff_prefix.2 ⟨inner ++ referenceClose ++ later.rest, ?_⟩
          rw [htook.rest_eq]
          simp only [List.append_assoc]
        rw [if_pos hopen]
        exact (readReference_iff hopen).2 ⟨hreference, htook⟩
    | object members =>
      obtain ⟨inside, hmembers, hinside, rfl⟩ := h
      cases hrest.symm.trans htook.head
      have hopen : ¬ r.startsWith referenceOpen = true := by
        -- Behind the brace stands no second one.
        intro hopen
        obtain ⟨behind, hbehind⟩ := List.isPrefixOf_iff_prefix.1 hopen
        have htail := (List.cons.inj (hbehind.trans htook.head)).2
        cases inside with
        | nil => exact absurd (List.cons.inj htail).1 (by decide)
        | cons v inside => exact hinside (congrArg some (List.cons.inj htail).1.symm)
      rw [if_neg hopen, if_pos rfl, readMembers_of_listed (fun _ _ => begins_pair) (complete_readPair ih) (by decide)
        (by decide) (by decide) hmembers htook, pretty, Nat.add_sub_add_right]
      rfl
    | array items =>
      obtain ⟨inside, hitems, rfl⟩ := h
      cases hrest.symm.trans htook.head
      rw [if_neg (not_startsWith_of_head htook.head (by decide)), if_neg (by decide), if_pos rfl,
        readMembers_of_listed (fun _ _ => begins_renders) ih (by decide) (by decide) (by decide) hitems htook, pretty,
        Nat.add_sub_add_right]
      rfl

/-! ## Where a reader fails -/

/-- The failure is a problem at a place of the text, of which the reader has read a part. -/
def Within (r : Reader) (problem : Failure) : Prop :=
  ∃ offset : Int, problem = .problem offset ∧ 0 ≤ offset ∧ offset ≤ r.position + r.rest.length

theorem Reader.Took.within_iff {r later : Reader} {text : Units} (htook : r.Took text later) {problem : Failure} :
    Within later problem ↔ Within r problem := by
  have hsize : later.position + later.rest.length = r.position + r.rest.length := by
    rw [htook.position_eq, htook.rest_eq, List.length_append]
    omega
  unfold Within
  rw [← Int.natCast_add, ← Int.natCast_add, hsize]

theorem within_of_fail {α : Type} {r : Reader} {offset : Int} {problem : Failure}
    (h : (fail offset : Except Failure α) = .error problem) (hstart : 0 ≤ offset)
    (hend : offset ≤ r.position + r.rest.length) : Within r problem := by
  cases h
  exact ⟨offset, rfl, hstart, hend⟩

theorem within_here {α : Type} {r : Reader} {problem : Failure}
    (h : (fail r.position : Except Failure α) = .error problem) : Within r problem :=
  within_of_fail h (Int.natCast_nonneg _) (by omega)

theorem bind_eq_error {α β : Type} {x : Except Failure α} {next : α → Except Failure β} {problem : Failure}
    (h : x.bind next = .error problem) : x = .error problem ∨ ∃ value, x = .ok value ∧ next value = .error problem := by
  cases x with
  | error found =>
    cases h
    exact .inl rfl
  | ok value => exact .inr ⟨value, rfl, h⟩

theorem within_readReference {r : Reader} {problem : Failure} (h : readReference r = .error problem) : Within r problem := by
  unfold readReference at h
  cases hfound : firstAt referenceClose (r.rest.drop referenceOpen.length) with
  | none =>
    rw [hfound] at h
    exact within_here h
  | some place =>
    rw [hfound] at h
    cases h

theorem within_readHex {digits : Nat} {r : Reader} {problem : Failure} (h : readHex digits r = .error problem) :
    Within r problem := by
  induction digits generalizing r with
  | zero => cases h
  | succ digits ih =>
    rw [readHex] at h
    split_ifs at h with hsees
    · obtain ⟨u, rest, hrest, -⟩ := sees_iff.1 hsees
      exact (took_one hrest).within_iff.1 (ih h)
    · exact within_here h

theorem within_readEscape {r : Reader} (hbegun : 1 ≤ r.position) {problem : Failure} (h : readEscape r = .error problem) :
    Within r problem := by
  unfold readEscape at h
  cases hrest : r.rest with
  | nil =>
    rw [hrest] at h
    exact within_of_fail h (by omega) (by omega)
  | cons u rest =>
    rw [hrest] at h
    simp only at h
    split_ifs at h with hsimple hu
    · exact within_of_fail h (by omega) (by omega)
    · exact (took_one hrest).within_iff.1 (within_readHex h)

theorem within_readUnits {start units : Nat} {r : Reader} (hbegun : 1 ≤ r.position) (hstart : start ≤ r.position)
    (hunits : r.rest.length < units) {problem : Failure} (h : readUnits start units r = .error problem) :
    Within r problem := by
  induction units generalizing r with
  | zero => cases hunits
  | succ units ih =>
    cases hrest : r.rest with
    | nil =>
      rw [readUnits, hrest] at h
      exact within_of_fail h (Int.natCast_nonneg _) (by omega)
    | cons u rest =>
      rw [readUnits_cons hrest] at h
      have hone := took_one hrest
      have hnext : (r.advance 1).position = r.position + 1 := rfl
      have hlength : (r.advance 1).rest.length + 1 = r.rest.length := by
        rw [hone.rest_eq]
        rfl
      split_ifs at h with hquote hslash hline hcontrol
      · obtain hescape | ⟨next, hescape, hbehind⟩ := bind_eq_error h
        · exact hone.within_iff.1 (within_readEscape (by omega) hescape)
        · obtain ⟨escape, -, htook⟩ := readEscape_iff.1 hescape
          have hposition := htook.position_eq
          have hshorter : next.rest.length ≤ (r.advance 1).rest.length := by
            rw [htook.rest_eq, List.length_append]
            omega
          exact (hone.append htook).within_iff.1 (ih (by omega) (by omega) (by omega) hbehind)
      · exact hone.within_iff.1 (within_of_fail h (by omega) (by omega))
      · exact hone.within_iff.1 (within_of_fail h (by omega) (by omega))
      · exact hone.within_iff.1 (ih (by omega) (by omega) (by omega) h)

theorem within_readString {r : Reader} (hquote : r.at_ quotationMark = true) {problem : Failure}
    (h : readString r = .error problem) : Within r problem := by
  obtain ⟨rest, hrest⟩ := at_iff.1 hquote
  have hone := took_one hrest
  unfold readString at h
  cases hunits : readUnits r.position r.rest.length (r.advance 1) with
  | error found =>
    rw [hunits] at h
    cases h
    apply hone.within_iff.1
    apply within_readUnits (Nat.le_add_left 1 _) (Nat.le_add_right _ 1) _ hunits
    rw [hone.rest_eq]
    exact Nat.lt_succ_self _
  | ok later =>
    rw [hunits] at h
    cases h

theorem within_readKey {r : Reader} {problem : Failure} (h : readKey r = .error problem) : Within r problem := by
  unfold readKey at h
  split_ifs at h with hquote hopen
  · exact within_readString hquote h
  · exact within_readReference h
  · exact within_here h

theorem within_readDigits {start : Nat} {r : Reader} (hstart : start ≤ r.position) {problem : Failure}
    (h : readDigits start r = .error problem) : Within r problem := by
  unfold readDigits at h
  split_ifs at h with hsees
  exact within_of_fail h (Int.natCast_nonneg _) (by omega)

theorem within_readNumber {r : Reader} {problem : Failure} (h : readNumber r = .error problem) : Within r problem := by
  obtain ⟨sign, -, hbegun⟩ := took_readMinus r
  have hposition := hbegun.position_eq
  obtain hwhole | ⟨whole, hread, h⟩ := bind_eq_error h
  · apply hbegun.within_iff.1
    unfold readWhole at hwhole
    split_ifs at hwhole with hzero
    exact within_readDigits (by omega) hwhole
  · obtain ⟨text, -, htook, -⟩ := readWhole_iff.1 hread
    have hposition' := htook.position_eq
    obtain hfraction | ⟨fraction, hread, h⟩ := bind_eq_error h
    · apply (hbegun.append htook).within_iff.1
      unfold readFraction at hfraction
      split_ifs at hfraction with hpoint
      obtain ⟨rest, hrest⟩ := at_iff.1 hpoint
      have hone := took_one hrest
      have hnext := hone.position_eq
      exact hone.within_iff.1 (within_readDigits (by omega) hfraction)
    · obtain ⟨text', -, htook', -⟩ := readFraction_iff.1 hread
      have hposition'' := htook'.position_eq
      obtain hexponent | ⟨exponent, hread, h⟩ := bind_eq_error h
      · apply (hbegun.append (htook.append htook')).within_iff.1
        unfold readExponent at hexponent
        split_ifs at hexponent with hmark
        obtain ⟨mark, rest, hrest, -⟩ := sees_iff.1 hmark
        obtain ⟨sign', -, hsigned⟩ := exists_sign (fraction.advance 1)
        have hwhole := (took_one hrest).cons hsigned
        have hnext := hwhole.position_eq
        exact hwhole.within_iff.1 (within_readDigits (by omega) hexponent)
      · cases h

theorem within_readWord {u : UInt16} {r : Reader} {problem : Failure} (h : readWord u r = .error problem) :
    Within r problem := by
  unfold readWord at h
  split_ifs at h with hnumber
  · exact within_readNumber h
  · unfold readLiteral at h
    cases hfound : literals.find? r.startsWith with
    | none =>
      rw [hfound] at h
      exact within_here h
    | some literal =>
      rw [hfound] at h
      cases h

section Members

variable {μ : Type} {Member : μ → Units → Prop} {line : μ → Units} {readMember : Reader → Read Units} {closer : UInt16}
  (hsound : Sound Member line readMember)
  (hmember : ∀ r problem, r.sees isSpace = false → readMember r = .error problem → Within r problem)

include hsound hmember in
theorem within_readRest {count : Nat} {r : Reader} (hspace : r.sees isSpace = false) (hcount : r.rest.length < count)
    {problem : Failure} (h : readRest closer readMember count r = .error problem) : Within r problem := by
  induction count generalizing r with
  | zero => cases hcount
  | succ count ih =>
    cases hread : readMember r with
    | error found =>
      rw [readRest_error hread] at h
      cases h
      exact hmember r _ hspace hread
    | ok result =>
      obtain ⟨out, behind⟩ := result
      obtain ⟨member, text, -, htook, -⟩ := hsound r out behind hspace hread
      obtain ⟨after, -, hskip, -⟩ := skipSpace_spec behind
      have hseparator := htook.append hskip
      rw [readRest_ok hread] at h
      split_ifs at h with hclose hcomma htrailing
      · exact hseparator.within_iff.1 (within_here h)
      · obtain ⟨rest, hrest⟩ := at_iff.1 hcomma
        obtain ⟨before, -, hnext, hend⟩ := skipSpace_spec (behind.skipSpace.advance 1)
        have hwhole := hseparator.append ((took_one hrest).cons hnext)
        obtain hothers | ⟨others, -, h⟩ := bind_eq_error h
        · apply hwhole.within_iff.1
          apply ih hend _ hothers
          have hlength := congrArg List.length hwhole.rest_eq
          simp only [List.length_append, List.length_cons] at hlength
          omega
        · cases h
      · exact hseparator.within_iff.1 (within_here h)

include hsound hmember in
theorem within_readMembers {r : Reader} {u : UInt16} {rest : Units} (hrest : r.rest = u :: rest) {problem : Failure}
    (h : readMembers closer readMember r = .error problem) : Within r problem := by
  obtain ⟨before, -, hskip, hend⟩ := skipSpace_spec (r.advance 1)
  have hwhole := (took_one hrest).cons hskip
  unfold readMembers at h
  simp only at h
  split_ifs at h with hclose
  apply hwhole.within_iff.1
  apply within_readRest hsound hmember hend _ h
  have hlength := congrArg List.length hwhole.rest_eq
  simp only [List.length_append, List.length_cons] at hlength
  omega

end Members

theorem within_readPair {readValue : Reader → Read Units}
    (hvalue : ∀ r problem, r.sees isSpace = false → readValue r = .error problem → Within r problem) (r : Reader)
    (problem : Failure) (h : readPair readValue r = .error problem) : Within r problem := by
  cases hkey : readKey r with
  | error found =>
    rw [readPair_error hkey] at h
    cases h
    exact within_readKey hkey
  | ok result =>
    obtain ⟨key, behind⟩ := result
    obtain ⟨-, htook⟩ := readKey_iff.1 hkey
    obtain ⟨after, -, hskip, -⟩ := skipSpace_spec behind
    have hseparator := htook.append hskip
    rw [readPair_ok hkey] at h
    split_ifs at h with hcolon
    · obtain ⟨rest, hrest⟩ := at_iff.1 hcolon
      obtain ⟨before, -, hnext, hend⟩ := skipSpace_spec (behind.skipSpace.advance 1)
      obtain hread | ⟨value, -, h⟩ := bind_eq_error h
      · exact (hseparator.append ((took_one hrest).cons hnext)).within_iff.1 (hvalue _ _ hend hread)
      · cases h
    · exact hseparator.within_iff.1 (within_here h)

theorem within_readValue : ∀ levels, levels ≤ maxDepth + 1 → ∀ r problem, readValue levels r = .error problem →
    Within r problem
  | 0, _ => fun r problem h => within_here h
  | levels + 1, hlevels => by
    intro r problem h
    have ih := within_readValue levels (Nat.le_of_succ_le hlevels)
    have hsound := sound_readValue levels (Nat.le_of_succ_le hlevels)
    obtain ⟨before, -, hskip, -⟩ := skipSpace_spec r
    apply hskip.within_iff.1
    cases hrest : r.skipSpace.rest with
    | nil =>
      rw [readValue, hrest] at h
      exact within_here h
    | cons u rest =>
      rw [readValue_cons hrest] at h
      split_ifs at h with hopen hbrace hbracket hquote
      · exact within_readReference h
      · obtain hlines | ⟨lines, -, h⟩ := bind_eq_error h
        · exact within_readMembers (sound_readPair hsound) (fun r problem _ => within_readPair (fun r problem _ => ih r problem) r problem)
            hrest hlines
        · cases h
      · obtain hlines | ⟨lines, -, h⟩ := bind_eq_error h
        · exact within_readMembers hsound (fun r problem _ => ih r problem) hrest hlines
        · cases h
      · subst hquote
        exact within_readString (at_iff.2 ⟨rest, hrest⟩) h
      · exact within_readWord h

end Gostman.Format
