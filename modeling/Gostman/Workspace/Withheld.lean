import Gostman.Go.JsonKept
import Gostman.Workspace.Secrets
/-!
# Secret variables stay out of the files

The text behind `WithoutSecretVariables` is what goes into the file of an
environment, a folder or the workspace.  It shows no secret exactly where the
reader of the variables does not fail behind one: a text it fails on is
written as it stands, with all that was read before.
-/

namespace Gostman.Workspace

open Lib Go.Json

/-! ## The reader -/

theorem length_of_readMember {first : Bool} {bytes rest raw : Bytes} {name : List Char}
    (h : readMember first bytes = some ((name, raw), rest)) : rest.length < bytes.length := by
  obtain ⟨lead, rfl, hraw, -, -⟩ := exists_of_readMember h
  obtain ⟨b, tail, rfl, -⟩ := scanFrom_beginValue hraw
  rw [List.length_append, List.length_append, List.length_cons]
  omega

theorem more_of_readMember {first : Bool} {bytes rest raw : Bytes} {name : List Char}
    (h : readMember first bytes = some ((name, raw), rest)) : more bytes = true := by
  simp only [readMember, Option.bind_eq_bind, Option.bind_eq_some_iff, Prod.exists] at h
  obtain ⟨_, _, hname, -⟩ := h
  unfold readName at hname
  unfold more
  cases first with
  | true =>
    rw [if_pos rfl, readString] at hname
    split_ifs at hname with hhead
    cases hpeek : peek bytes with
    | nil =>
      rw [hpeek] at hhead
      cases hhead
    | cons b tail =>
      rw [hpeek, List.head?_cons, Option.some.injEq] at hhead
      rw [hhead]
      rfl
  | false =>
    obtain ⟨behind, hpass, -⟩ := Option.bind_eq_some_iff.1 (by simpa using hname)
    obtain ⟨blanks, rfl, hblanks, hspace⟩ := exists_of_pass hpass
    rw [peek_append hblanks, peek_of_head hspace]
    rfl

theorem readEntries_fuel {fuel other : Nat} {first : Bool} {bytes : Bytes}
    (hfuel : bytes.length < fuel) (hother : bytes.length < other) :
    readEntries fuel first bytes = readEntries other first bytes := by
  induction fuel generalizing other first bytes with
  | zero => omega
  | succ fuel ih =>
    obtain ⟨other, rfl⟩ := Nat.exists_eq_succ_of_ne_zero (n := other) (by omega)
    simp only [readEntries]
    split_ifs
    · split
      · rfl
      · rename_i name raw rest hmember
        have hlt := length_of_readMember hmember
        have hfewer : rest.length < other := by omega
        rw [ih (by omega) hfewer]
    · rfl

def entriesFrom (first : Bool) (bytes : Bytes) : List VariableEntry × Bool :=
  readEntries (bytes.length + 1) first bytes

theorem entriesFrom_member {first : Bool} {bytes rest raw : Bytes} {name : List Char}
    (h : readMember first bytes = some ((name, raw), rest)) :
    entriesFrom first bytes =
      (⟨name, raw⟩ :: (entriesFrom false rest).1, (entriesFrom false rest).2) := by
  have hlt := length_of_readMember h
  have hrest : entriesFrom false rest = readEntries bytes.length false rest :=
    readEntries_fuel (Nat.lt_succ_self _) hlt
  rw [hrest, entriesFrom, readEntries, if_pos (more_of_readMember h), h]

theorem entriesFrom_end {first : Bool} {bytes : Bytes} (h : more bytes = false) :
    entriesFrom first bytes = ([], true) := by
  simp [entriesFrom, readEntries, h]

theorem entriesFrom_error {first : Bool} {bytes : Bytes} (hmore : more bytes = true)
    (h : readMember first bytes = none) : entriesFrom first bytes = ([], false) := by
  simp [entriesFrom, readEntries, hmore, h]

/-- Where the reader goes on without an error, the value before has ended. -/
theorem separate_of_entriesFrom {bytes : Bytes} (h : (entriesFrom false bytes).2 = true) :
    Separate bytes := by
  cases hmore : more bytes with
  | true =>
    cases hmember : readMember false bytes with
    | none =>
      rw [entriesFrom_error hmore hmember] at h
      cases h
    | some found =>
      obtain ⟨⟨name, raw⟩, rest⟩ := found
      obtain ⟨lead, rfl, -, hlead, -⟩ := exists_of_readMember hmember
      exact hlead rfl _
  | false =>
    obtain ⟨blanks, hbytes, hblanks⟩ := exists_blanks bytes
    unfold more at hmore
    cases hpeek : peek bytes with
    | nil =>
      rw [hpeek, List.append_nil] at hbytes
      subst hbytes
      cases bytes with
      | nil => exact separate_nil
      | cons b bytes => exact separate_cons.2 (not_isNumberByte_of_isSpace (hblanks b (by simp)))
    | cons b tail =>
      rw [hpeek] at hmore hbytes
      have hb : isNumberByte b = false := by
        simp only [Bool.and_eq_false_iff, bne_eq_false_iff_eq] at hmore
        rcases hmore with rfl | rfl <;> decide
      rw [hbytes]
      exact separate_append hb hblanks tail

/-- The values of the entries read are values. -/
theorem isValue_of_mem_readEntries {fuel : Nat} {first : Bool} {bytes : Bytes}
    {entry : VariableEntry} (h : entry ∈ (readEntries fuel first bytes).1) :
    IsValue entry.raw := by
  induction fuel generalizing first bytes with
  | zero => cases h
  | succ fuel ih =>
    simp only [readEntries] at h
    split_ifs at h
    · split at h
      · cases h
      · rename_i name raw rest hmember
        obtain ⟨lead, -, hraw, -, -⟩ := exists_of_readMember hmember
        rcases List.mem_cons.1 h with rfl | hlater
        · exact hraw
        · exact ih hlater
    · cases h

theorem isValue_of_mem_streamEntries {text : Bytes} {entry : VariableEntry}
    (h : entry ∈ (streamEntries text).1) : IsValue entry.raw := by
  unfold streamEntries at h
  split_ifs at h
  · cases h
  · split at h
    · cases h
    · exact isValue_of_mem_readEntries h

theorem separate_encodeEntries (entries : List VariableEntry) :
    Separate (encodeEntries false entries) := by
  cases entries with
  | nil => exact separate_cons.2 (by decide)
  | cons entry entries => exact separate_cons.2 (by decide)

/-- Entries that are written are read as they were. -/
theorem entriesFrom_encode {entries : List VariableEntry} (h : ∀ entry ∈ entries, IsValue entry.raw)
    (first : Bool) : entriesFrom first (encodeEntries first entries) = (entries, true) := by
  induction entries generalizing first with
  | nil => exact entriesFrom_end rfl
  | cons entry entries ih =>
    have hread := readMember_quote first true entry.name (h entry (by simp))
      (separate_encodeEntries entries)
    have hlist : encodeEntries first (entry :: entries) = (if first then [] else [0x2C]) ++
        (encode (quote true entry.name) ++ 0x3A :: (entry.raw ++ encodeEntries false entries)) := by
      simp [encodeEntries, encodeEntry]
    rw [hlist, entriesFrom_member hread, ih (fun e he => h e (by simp [he]))]

theorem not_isBlank_of_pass {text rest : Bytes} (h : pass 0x7B text = some rest) (fuel : Nat) :
    isBlank fuel text = false := by
  obtain ⟨blanks, rfl, hblanks, -⟩ := exists_of_pass h
  clear h
  induction blanks generalizing fuel with
  | nil =>
    cases fuel with
    | zero => rfl
    | succ fuel => simp [isBlank, Go.isSpace]
  | cons b blanks ih =>
    cases fuel with
    | zero => rfl
    | succ fuel =>
      have hb := hblanks b (by simp)
      have hlt : b < 0x80 := by
        simp only [isSpace, Bool.or_eq_true, beq_iff_eq] at hb
        rcases hb with ((rfl | rfl) | rfl) | rfl <;> decide
      rw [List.cons_append, isBlank, if_pos hlt, ih fuel (fun c hc => hblanks c (by simp [hc])),
        Bool.and_false]

theorem streamEntries_of_pass {text rest : Bytes} (h : pass 0x7B text = some rest) :
    streamEntries text = entriesFrom true rest := by
  simp [streamEntries, not_isBlank_of_pass h, h, entriesFrom]

/-- Variables that are written are read as they were. -/
theorem streamEntries_encode {entries : List VariableEntry}
    (h : ∀ entry ∈ entries, IsValue entry.raw) :
    streamEntries (encodeVariableEntries entries) = (entries, true) := by
  have hopen : pass 0x7B (encodeVariableEntries entries) = some (encodeEntries true entries) := by
    unfold encodeVariableEntries Go.Json.pass
    rw [peek_of_head (by decide)]
    rfl
  rw [streamEntries_of_pass hopen, entriesFrom_encode h]

/-! ## One value in place of another -/

/-- The reader takes these entries from one place between members to another. -/
inductive Reads : Bool → Bytes → List VariableEntry → Bool → Bytes → Prop where
  | stop (first : Bool) (bytes : Bytes) : Reads first bytes [] first bytes
  | next {first last : Bool} {bytes rest left raw : Bytes} {name : List Char}
      {entries : List VariableEntry} :
      readMember first bytes = some ((name, raw), rest) → Reads false rest entries last left →
        Reads first bytes (⟨name, raw⟩ :: entries) last left

/-- In the text `before ++ raw ++ rest` the reader takes the member with this
name, and its value is this `raw`. -/
def HoldsMember (before raw rest : Bytes) (name : List Char) : Prop :=
  ∃ body entries first bytes, pass 0x7B (before ++ (raw ++ rest)) = some body ∧
    Reads true body entries first bytes ∧
    readMember first bytes = some ((name, raw), rest)

/-- The texts differ in nothing but the JSON value of one secret member. -/
def DifferInSecret (metaText text other : Bytes) : Prop :=
  ∃ before raw value rest name, isSecret metaText name = true ∧
    text = before ++ (raw ++ rest) ∧ other = before ++ (value ++ rest) ∧
    HoldsMember before raw rest name ∧ IsValue value

theorem Reads.entriesFrom_eq {first last : Bool} {bytes left : Bytes}
    {entries : List VariableEntry} (h : Reads first bytes entries last left) :
    entriesFrom first bytes =
      (entries ++ (entriesFrom last left).1, (entriesFrom last left).2) := by
  induction h with
  | stop first bytes => rfl
  | next hread _ ih => rw [entriesFrom_member hread, ih, List.cons_append]

theorem HoldsMember.streamEntries_eq {before raw rest : Bytes} {name : List Char}
    (h : HoldsMember before raw rest name) :
    ∃ entries, streamEntries (before ++ (raw ++ rest)) =
      (entries ++ ⟨name, raw⟩ :: (entriesFrom false rest).1, (entriesFrom false rest).2) := by
  obtain ⟨body, entries, first, bytes, hopen, hreads, hmember⟩ := h
  refine ⟨entries, ?_⟩
  rw [streamEntries_of_pass hopen, hreads.entriesFrom_eq, entriesFrom_member hmember]

/-- Behind a member the reader goes on the same, whatever value it has. -/
theorem Reads.swap {first last : Bool} {bytes left rest raw : Bytes} {name : List Char}
    {entries : List VariableEntry} (h : Reads first bytes entries last left)
    (hmember : readMember last left = some ((name, raw), rest)) :
    ∃ lead, bytes = lead ++ (raw ++ rest) ∧ (first = false → ∀ other, Separate (lead ++ other)) ∧
      ∀ value, IsValue value → Separate rest →
        entriesFrom first (lead ++ (value ++ rest)) =
          (entries ++ ⟨name, value⟩ :: (entriesFrom false rest).1, (entriesFrom false rest).2) := by
  induction h with
  | stop first bytes =>
    obtain ⟨lead, hbytes, -, hlead, hkept⟩ := exists_of_readMember hmember
    refine ⟨lead, hbytes, hlead, ?_⟩
    intro value hvalue hrest
    rw [entriesFrom_member (hkept value rest hvalue hrest), List.nil_append]
  | @next _ _ _ _ _ taken _ _ hread _ ih =>
    obtain ⟨behind, rfl, hbehind, hlater⟩ := ih hmember
    obtain ⟨lead, rfl, hraw, hlead, hkept⟩ := exists_of_readMember hread
    refine ⟨lead ++ (taken ++ behind), by simp only [List.append_assoc], ?_, ?_⟩
    · intro hfirst other
      rw [List.append_assoc]
      exact hlead hfirst _
    · intro value hvalue hrest
      rw [List.append_assoc, List.append_assoc,
        entriesFrom_member (hkept _ _ hraw (hbehind rfl (value ++ rest))), hlater value hvalue hrest,
        List.cons_append]

/-- The reader of a text that holds a member, and of the text with another
value in its place. -/
theorem HoldsMember.swap {before raw rest : Bytes} {name : List Char}
    (h : HoldsMember before raw rest name) :
    ∃ entries, ∀ value, IsValue value → Separate rest →
      streamEntries (before ++ (value ++ rest)) =
        (entries ++ ⟨name, value⟩ :: (entriesFrom false rest).1, (entriesFrom false rest).2) := by
  obtain ⟨body, entries, first, bytes, hopen, hreads, hmember⟩ := h
  obtain ⟨lead, rfl, -, hkept⟩ := hreads.swap hmember
  obtain ⟨blanks, htext, hblanks, hspace⟩ := exists_of_pass hopen
  have hbefore : before = blanks ++ 0x7B :: lead := by
    have hsame : before ++ (raw ++ rest) = (blanks ++ 0x7B :: lead) ++ (raw ++ rest) := by
      rw [htext, List.append_assoc, List.cons_append]
    exact List.append_cancel_right hsame
  refine ⟨entries, ?_⟩
  intro value hvalue hrest
  have hother : pass 0x7B (before ++ (value ++ rest)) = some (lead ++ (value ++ rest)) := by
    rw [hbefore, List.append_assoc]
    exact pass_append hspace hblanks _
  rw [streamEntries_of_pass hother, hkept value hvalue hrest]

/-! ## What is withheld -/

/-- The text that is written shows no secret: the reader finds no secret
member in it, and it is the same for any two texts that differ in the value of
one. -/
structure KeepsSecrets (variableText metaText : Bytes) : Prop where
  unread : ∀ entry ∈ (streamEntries (withoutSecretVariables variableText metaText).1).1,
    isSecret metaText entry.name = false
  alike : ∀ other, DifferInSecret metaText variableText other →
    (withoutSecretVariables other metaText).1 = (withoutSecretVariables variableText metaText).1

theorem nonempty_of_isSecret {metaText : Bytes} {name : List Char}
    (h : isSecret metaText name = true) : (secretVariables metaText).isEmpty = false := by
  unfold isSecret at h
  cases hflags : secretVariables metaText with
  | nil =>
    rw [hflags] at h
    cases h
  | cons flag flags => rfl

theorem withoutSecretVariables_of_error {variableText metaText : Bytes}
    (h : (streamEntries variableText).2 = false) :
    withoutSecretVariables variableText metaText = (variableText, []) := by
  simp [withoutSecretVariables, parseVariableEntries, h]

/-- Where no secret member is read, the text stays as it is. -/
theorem withoutSecretVariables_of_none {variableText metaText : Bytes}
    (h : ∀ entry ∈ (streamEntries variableText).1, isSecret metaText entry.name = false) :
    (withoutSecretVariables variableText metaText).1 = variableText := by
  have hremoved : ((streamEntries variableText).1.filter fun entry =>
      isSecret metaText entry.name) = [] := by
    rw [List.filter_eq_nil_iff]
    intro entry hentry
    rw [h entry hentry]
    simp
  cases hok : (streamEntries variableText).2 with
  | false => rw [withoutSecretVariables_of_error hok]
  | true =>
    simp only [withoutSecretVariables, parseVariableEntries, hok, if_true, hremoved,
      List.isEmpty_nil]
    split_ifs <;> rfl

/-- Where one is read and all is read, what is kept is written anew. -/
theorem withoutSecretVariables_of_mem {variableText metaText : Bytes} {entry : VariableEntry}
    (hok : (streamEntries variableText).2 = true)
    (hentry : entry ∈ (streamEntries variableText).1)
    (hsecret : isSecret metaText entry.name = true) :
    (withoutSecretVariables variableText metaText).1 =
      encodeVariableEntries ((streamEntries variableText).1.filter fun entry =>
        !isSecret metaText entry.name) := by
  have hremoved : ((streamEntries variableText).1.filter fun entry =>
      isSecret metaText entry.name).isEmpty = false := by
    rw [List.isEmpty_eq_false_iff_exists_mem]
    exact ⟨entry, List.mem_filter.2 ⟨hentry, hsecret⟩⟩
  simp [withoutSecretVariables, parseVariableEntries, hok, nonempty_of_isSecret hsecret, hremoved]

/-- The entries that are kept are none of the secret ones. -/
theorem unread_of_ok {variableText metaText : Bytes} (hok : (streamEntries variableText).2 = true) :
    ∀ entry ∈ (streamEntries (withoutSecretVariables variableText metaText).1).1,
      isSecret metaText entry.name = false := by
  by_cases hnone : ∀ entry ∈ (streamEntries variableText).1, isSecret metaText entry.name = false
  · rw [withoutSecretVariables_of_none hnone]
    exact hnone
  · push Not at hnone
    obtain ⟨secret, hmem, hsecret⟩ := hnone
    rw [Bool.ne_false_iff] at hsecret
    rw [withoutSecretVariables_of_mem hok hmem hsecret, streamEntries_encode]
    · intro entry hentry
      have hkept := (List.mem_filter.1 hentry).2
      simpa using hkept
    · intro entry hentry
      exact isValue_of_mem_streamEntries (List.mem_filter.1 hentry).1

/-- The value of a secret member does not show. -/
theorem alike_of_ok {variableText metaText other : Bytes}
    (hok : (streamEntries variableText).2 = true) (h : DifferInSecret metaText variableText other) :
    (withoutSecretVariables other metaText).1 = (withoutSecretVariables variableText metaText).1 := by
  obtain ⟨before, raw, value, rest, name, hsecret, rfl, rfl, hholds, hvalue⟩ := h
  have hrest : (entriesFrom false rest).2 = true := by
    obtain ⟨_, hstream⟩ := hholds.streamEntries_eq
    rwa [hstream] at hok
  obtain ⟨entries, hswap⟩ := hholds.swap
  have hraw : IsValue raw := by
    obtain ⟨_, _, _, _, _, _, hmember⟩ := hholds
    obtain ⟨_, _, hraw, _, _⟩ := exists_of_readMember hmember
    exact hraw
  have hthis := hswap raw hraw (separate_of_entriesFrom hrest)
  have hthat := hswap value hvalue (separate_of_entriesFrom hrest)
  -- both are read to the end, and what is kept of them is the same
  rw [withoutSecretVariables_of_mem (by rw [hthat]; exact hrest)
      (by rw [hthat]; exact List.mem_append_right _ (List.mem_cons_self ..)) hsecret,
    withoutSecretVariables_of_mem hok
      (by rw [hthis]; exact List.mem_append_right _ (List.mem_cons_self ..)) hsecret,
    hthis, hthat]
  simp [hsecret]

theorem not_differInSecret {variableText metaText other : Bytes}
    (hnone : ∀ entry ∈ (streamEntries variableText).1, isSecret metaText entry.name = false) :
    ¬ DifferInSecret metaText variableText other := by
  rintro ⟨before, raw, value, rest, name, hsecret, rfl, rfl, hholds, -⟩
  obtain ⟨entries, hstream⟩ := hholds.streamEntries_eq
  have hfalse := hnone ⟨name, raw⟩ (by rw [hstream]; exact List.mem_append_right _ (List.mem_cons_self ..))
  rw [hsecret] at hfalse
  cases hfalse

/-- No secret shows exactly where the reader of the variables does not fail
behind a secret member. -/
theorem keepsSecrets_iff (variableText metaText : Bytes) :
    KeepsSecrets variableText metaText ↔
      ((streamEntries variableText).2 = false →
        ∀ entry ∈ (streamEntries variableText).1, isSecret metaText entry.name = false) := by
  constructor
  · intro h herror
    have hunread := h.unread
    rwa [withoutSecretVariables_of_error herror] at hunread
  · intro h
    cases hok : (streamEntries variableText).2 with
    | true => exact ⟨unread_of_ok hok, fun other hdiffer => alike_of_ok hok hdiffer⟩
    | false =>
      refine ⟨?_, fun other hdiffer => absurd hdiffer (not_differInSecret (h hok))⟩
      rw [withoutSecretVariables_of_error hok]
      exact h hok

/-- The variables `{"k":"s","x":` with `{"k":{"secret":true}}` as their meta
text: the text breaks off behind the secret, and is written with it. -/
theorem not_keepsSecrets_brokenOff :
    ¬ KeepsSecrets (encode "\x7b\"k\":\"s\",\"x\":".toList)
      (encode "\x7b\"k\":\x7b\"secret\":true\x7d\x7d".toList) := by
  intro h
  have hentry := h.unread ⟨['k'], encode ['"', 's', '"']⟩ (by decide)
  revert hentry
  decide

end Gostman.Workspace
