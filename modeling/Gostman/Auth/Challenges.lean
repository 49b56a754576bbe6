import Gostman.Lib.Decided
import Gostman.Lib.Record
import Gostman.Lib.Utf8
import Mathlib.Data.Nat.Basic
/-!
# Challenges of authentication headers

`challengeScanner` and `parseChallenges` of `engine/auth_digest.go`.  Texts are
byte strings.  Reading a byte or a slice that is out of range gives `none`, as
the program stops there; that it never happens is shown by reading the same
text as what is left of it.
-/

namespace Gostman.Auth

open Gostman.Lib

open scoped Gostman.Lib.Decided

def ascii (text : String) : Bytes :=
  encode text.toList

/-- What is called of the Unicode tables: the case mappings of texts that are
not ASCII, in which ASCII that is no letter stays, `norm.NFC`, trimming and
folding. -/
structure Unicode where
  lowerRunes : Bytes → Bytes
  upperRunes : Bytes → Bytes
  upperRunes_mem : ∀ text b, b ∈ ascii "\", \t" → b ∈ text → b ∈ upperRunes text
  trimSpace : Bytes → Bytes
  nfc : Bytes → Bytes
  equalFold : Bytes → Bytes → Bool

def lowerByte (b : UInt8) : UInt8 :=
  if 65 ≤ b.toNat ∧ b.toNat ≤ 90 then b + 32 else b

def upperByte (b : UInt8) : UInt8 :=
  if 97 ≤ b.toNat ∧ b.toNat ≤ 122 then b - 32 else b

def isASCII (text : Bytes) : Bool :=
  text.all fun b => b.toNat < 128

/-- `strings.ToLower`, which maps a text of ASCII byte by byte. -/
def Unicode.toLower (unicode : Unicode) (text : Bytes) : Bytes :=
  if isASCII text then text.map lowerByte else unicode.lowerRunes text

def Unicode.toUpper (unicode : Unicode) (text : Bytes) : Bytes :=
  if isASCII text then text.map upperByte else unicode.upperRunes text

structure AuthChallenge where
  scheme : Bytes
  params : Record Bytes Bytes

structure ChallengeScanner where
  text : Bytes
  pos : Nat

/-! ## The scanner -/

namespace ChallengeScanner

/-- The loops of `skip`, `token` and `value`: on to the first byte that is not
accepted, or to the end. -/
def advance (text : Bytes) (accepts : UInt8 → Bool) (pos : Nat) : Nat :=
  if h : pos < text.length then if accepts text[pos] then advance text accepts (pos + 1) else pos else pos
termination_by text.length - pos

def slice (text : Bytes) (start stop : Nat) : Option Bytes :=
  if start ≤ stop ∧ stop ≤ text.length then some ((text.take stop).drop start) else none

def skip (s : ChallengeScanner) (separators : Bytes) : ChallengeScanner :=
  { s with pos := advance s.text (· ∈ separators) s.pos }

def done (s : ChallengeScanner) : Bool :=
  s.pos ≥ s.text.length

def peek (s : ChallengeScanner) : Option UInt8 :=
  s.text[s.pos]?

def token (s : ChallengeScanner) : Option (Bytes × ChallengeScanner) :=
  let stop := advance s.text (· ∉ ascii " \t,=") s.pos
  (slice s.text s.pos stop).map fun name => (name, { s with pos := stop })

/-- The loop of `value` inside of quotes. -/
def quotedFrom (text : Bytes) (pos : Nat) (quoted : Bytes) : Option (Bytes × Nat) :=
  if h : pos < text.length then
    if text[pos] = 34 then some (quoted, pos)
    else
      let written := if text[pos] = 92 ∧ pos + 1 < text.length then pos + 1 else pos
      match text[written]? with
      | none => none
      | some b => quotedFrom text (written + 1) (quoted ++ [b])
  else some (quoted, pos)
termination_by text.length - pos
decreasing_by
  split_ifs <;> omega

def value (unicode : Unicode) (s : ChallengeScanner) : Option (Bytes × ChallengeScanner) :=
  let bare := fun _ : Unit =>
    let stop := advance s.text (· ≠ 44) s.pos
    (slice s.text s.pos stop).map fun text => (unicode.trimSpace text, { s with pos := stop })
  if s.done then bare ()
  else
    match s.peek with
    | none => none
    | some b =>
        if b ≠ 34 then bare ()
        else (quotedFrom s.text (s.pos + 1) []).map fun (quoted, pos) => (quoted, { s with pos := pos + 1 })

end ChallengeScanner

/-! ## The parser -/

structure Parsing where
  scanner : ChallengeScanner
  challenges : List AuthChallenge

/-- `challenges[len(challenges)-1].params[name] = value`. -/
def setLast (challenges : List AuthChallenge) (name value : Bytes) : List AuthChallenge :=
  match challenges.getLast? with
  | none => challenges
  | some last => challenges.dropLast ++ [{ last with params := last.params.put name value }]

inductive Round (α : Type)
  | stop
  | next (state : α)

def equalsNext (s : ChallengeScanner) : Option Bool :=
  if s.done then some false else s.peek.map (· = 61)

/-- One round of the inner loop of `parseChallenges`. -/
def round (unicode : Unicode) (state : Parsing) : Option (Round Parsing) :=
  let s := state.scanner.skip (ascii " \t,")
  if s.done then some .stop
  else
    match s.token with
    | none => none
    | some (name, s) =>
        let s := s.skip (ascii " \t")
        match equalsNext s with
        | none => none
        | some equals =>
            if equals ∧ state.challenges ≠ [] then
              (({ s with pos := s.pos + 1 } : ChallengeScanner).skip (ascii " \t")).value unicode |>.map fun (value, s) =>
                .next ⟨s, setLast state.challenges (unicode.toLower name) value⟩
            else some (.next ⟨s, state.challenges ++ [⟨unicode.toLower name, []⟩]⟩)

/-! ## What is left of the text -/

namespace ChallengeScanner

def rest (s : ChallengeScanner) : Bytes :=
  s.text.drop s.pos

theorem done_iff (s : ChallengeScanner) : s.done = true ↔ s.rest = [] := by
  rw [done, decide_eq_true_eq, rest, List.drop_eq_nil_iff]

theorem peek_eq (s : ChallengeScanner) : s.peek = s.rest.head? := by
  rw [peek, rest, List.head?_drop]

theorem advance_eq (text : Bytes) (accepts : UInt8 → Bool) (pos : Nat) :
    advance text accepts pos = pos + ((text.drop pos).takeWhile accepts).length := by
  fun_induction advance text accepts pos with
  | case1 pos h haccepts ih =>
      rw [ih, List.drop_eq_getElem_cons h, List.takeWhile_cons, if_pos haccepts, List.length_cons]
      omega
  | case2 pos h haccepts =>
      rw [List.drop_eq_getElem_cons h, List.takeWhile_cons, if_neg haccepts]
      rfl
  | case3 pos h =>
      rw [List.drop_eq_nil_of_le (not_lt.1 h)]
      rfl

theorem drop_advance (text : Bytes) (accepts : UInt8 → Bool) (pos : Nat) :
    text.drop (advance text accepts pos) = (text.drop pos).dropWhile accepts := by
  rw [advance_eq, ← List.drop_drop]
  generalize text.drop pos = left
  induction left with
  | nil => rfl
  | cons b left ih =>
      rw [List.takeWhile_cons, List.dropWhile_cons]
      split_ifs
      · exact ih
      · rfl

theorem slice_advance {text : Bytes} (accepts : UInt8 → Bool) {pos : Nat} (h : pos ≤ text.length) :
    slice text pos (advance text accepts pos) = some ((text.drop pos).takeWhile accepts) := by
  have hle := (List.takeWhile_prefix accepts (l := text.drop pos)).length_le
  rw [List.length_drop] at hle
  rw [advance_eq, slice, if_pos ⟨Nat.le_add_right _ _, by omega⟩, List.drop_take, Nat.add_sub_cancel_left]
  exact congrArg some (List.prefix_iff_eq_take.1 (List.takeWhile_prefix accepts)).symm

theorem rest_skip (s : ChallengeScanner) (separators : Bytes) :
    (s.skip separators).rest = s.rest.dropWhile (· ∈ separators) :=
  drop_advance s.text _ s.pos

theorem lt_of_not_done {s : ChallengeScanner} (h : ¬ s.done = true) : s.pos < s.text.length := by
  rw [done, decide_eq_true_eq] at h
  omega

theorem token_eq {s : ChallengeScanner} (h : ¬ s.done = true) :
    ∃ after, s.token = some (s.rest.takeWhile (· ∉ ascii " \t,="), after) ∧ after.rest = s.rest.dropWhile (· ∉ ascii " \t,=") := by
  refine ⟨{ s with pos := advance s.text (· ∉ ascii " \t,=") s.pos }, ?_, drop_advance s.text _ s.pos⟩
  rw [token, slice_advance _ (Nat.le_of_lt (lt_of_not_done h))]
  rfl

/-- A quoted value and what is left behind its closing quote. -/
def unquote : Bytes → Bytes × Bytes
  | [] => ([], [])
  | [b] => if b = 34 then ([], []) else ([b], [])
  | b :: c :: left =>
      if b = 34 then ([], c :: left)
      else if b = 92 then (c :: (unquote left).1, (unquote left).2)
      else (b :: (unquote (c :: left)).1, (unquote (c :: left)).2)

theorem unquote_quote (left : Bytes) : unquote (34 :: left) = ([], left) := by
  cases left <;> rfl

theorem unquote_escaped (c : UInt8) (left : Bytes) :
    unquote (92 :: c :: left) = (c :: (unquote left).1, (unquote left).2) := rfl

theorem unquote_plain {b : UInt8} (hquote : b ≠ 34) (hescape : b ≠ 92) (left : Bytes) :
    unquote (b :: left) = (b :: (unquote left).1, (unquote left).2) := by
  cases left with
  | nil => exact if_neg hquote
  | cons c left => rw [unquote, if_neg hquote, if_neg hescape]

/-- The loop inside of quotes, as what it makes of the rest of the text. -/
theorem quotedFrom_eq (text : Bytes) (pos : Nat) (quoted : Bytes) :
    ∃ stop, quotedFrom text pos quoted = some (quoted ++ (unquote (text.drop pos)).1, stop) ∧
      text.drop (stop + 1) = (unquote (text.drop pos)).2 := by
  fun_induction quotedFrom text pos quoted with
  | case1 pos quoted h hquote =>
      rw [List.drop_eq_getElem_cons h, hquote, unquote_quote, List.append_nil]
      exact ⟨pos, rfl, rfl⟩
  | case2 pos quoted h hother written hnone =>
      have hwritten : written < text.length := by
        change (if text[pos] = 92 ∧ pos + 1 < text.length then pos + 1 else pos) < text.length
        split_ifs with hescape
        · exact hescape.2
        · exact h
      rw [List.getElem?_eq_getElem hwritten] at hnone
      cases hnone
  | case3 pos quoted h hother written b hb ih =>
      have hstep : unquote (text.drop pos) =
          (b :: (unquote (text.drop (written + 1))).1, (unquote (text.drop (written + 1))).2) := by
        rw [List.drop_eq_getElem_cons h]
        by_cases hescape : text[pos] = 92
        · by_cases hnext : pos + 1 < text.length
          · have hwritten : written = pos + 1 := if_pos ⟨hescape, hnext⟩
            rw [hwritten, List.getElem?_eq_getElem hnext, Option.some.injEq] at hb
            rw [hwritten, List.drop_eq_getElem_cons hnext, hescape, hb, unquote_escaped]
          · have hwritten : written = pos := if_neg fun hboth => hnext hboth.2
            have hend : text.drop (pos + 1) = [] := List.drop_eq_nil_of_le (by omega)
            rw [hwritten, List.getElem?_eq_getElem h, Option.some.injEq] at hb
            rw [hwritten, hend, ← hb, hescape]
            rfl
        · have hwritten : written = pos := if_neg fun hboth => hescape hboth.1
          rw [hwritten, List.getElem?_eq_getElem h, Option.some.injEq] at hb
          rw [hwritten, unquote_plain hother hescape, hb]
      obtain ⟨stop, hquoted, hleft⟩ := ih
      refine ⟨stop, ?_, ?_⟩
      · rw [hquoted, hstep, List.append_assoc]
        rfl
      · rw [hleft, hstep]
  | case4 pos quoted h =>
      rw [List.drop_eq_nil_of_le (not_lt.1 h)]
      refine ⟨pos, ?_, ?_⟩
      · rw [unquote, List.append_nil]
      · exact List.drop_eq_nil_of_le (by omega)

def readValue (unicode : Unicode) (left : Bytes) : Bytes × Bytes :=
  if left.head? = some 34 then unquote (left.drop 1)
  else (unicode.trimSpace (left.takeWhile (· ≠ 44)), left.dropWhile (· ≠ 44))

theorem value_eq (unicode : Unicode) {s : ChallengeScanner} (h : s.pos ≤ s.text.length) :
    ∃ after, s.value unicode = some ((readValue unicode s.rest).1, after) ∧ after.rest = (readValue unicode s.rest).2 := by
  have hbare : (slice s.text s.pos (advance s.text (· ≠ 44) s.pos)).map
      (fun text => (unicode.trimSpace text, ({ s with pos := advance s.text (· ≠ 44) s.pos } : ChallengeScanner))) =
        some (unicode.trimSpace (s.rest.takeWhile (· ≠ 44)), { s with pos := advance s.text (· ≠ 44) s.pos }) := by
    rw [slice_advance _ h]
    rfl
  have hleft := drop_advance s.text (· ≠ 44) s.pos
  unfold value readValue
  by_cases hquote : s.rest.head? = some 34
  · have hopen : ¬ s.done = true := by
      rw [done_iff]
      intro hend
      rw [hend] at hquote
      cases hquote
    obtain ⟨stop, hquoted, hbehind⟩ := quotedFrom_eq s.text (s.pos + 1) []
    have hdrop : s.text.drop (s.pos + 1) = s.rest.drop 1 := by rw [rest, List.drop_drop]
    rw [hdrop] at hquoted hbehind
    refine ⟨{ s with pos := stop + 1 }, ?_, ?_⟩
    · rw [if_neg hopen, if_pos hquote, peek_eq, hquote]
      simp only [ne_eq, not_true_eq_false, if_false]
      rw [hquoted]
      rfl
    · rw [if_pos hquote]
      exact hbehind
  · refine ⟨{ s with pos := advance s.text (· ≠ 44) s.pos }, ?_, ?_⟩
    · rw [if_neg hquote]
      by_cases hdone : s.done = true
      · rw [if_pos hdone]
        exact hbare
      · rw [if_neg hdone, peek_eq]
        cases hhead : s.rest.head? with
        | none =>
            rw [List.head?_eq_none_iff, ← done_iff] at hhead
            exact absurd hhead hdone
        | some b =>
            have hne : b ≠ 34 := by
              rintro rfl
              exact hquote hhead
            dsimp only
            rw [if_pos hne]
            exact hbare
    · rw [if_neg hquote]
      exact hleft

end ChallengeScanner

/-- `Round`, of what a state is made of. -/
def Round.map {α β : Type} (f : α → β) : Round α → Round β
  | .stop => .stop
  | .next state => .next (f state)

def Parsing.view (state : Parsing) : Bytes × List AuthChallenge :=
  (state.scanner.rest, state.challenges)

def roundOn (unicode : Unicode) (text : Bytes) (challenges : List AuthChallenge) : Round (Bytes × List AuthChallenge) :=
  let left := text.dropWhile (· ∈ ascii " \t,")
  if left = [] then .stop
  else
    let name := unicode.toLower (left.takeWhile (· ∉ ascii " \t,="))
    let behind := (left.dropWhile (· ∉ ascii " \t,=")).dropWhile (· ∈ ascii " \t")
    if behind.head? = some 61 ∧ challenges ≠ [] then
      let (value, after) := ChallengeScanner.readValue unicode ((behind.drop 1).dropWhile (· ∈ ascii " \t"))
      .next (after, setLast challenges name value)
    else .next (behind, challenges ++ [⟨name, []⟩])

theorem equalsNext_eq (s : ChallengeScanner) : equalsNext s = some (decide (s.rest.head? = some 61)) := by
  unfold equalsNext
  split_ifs with hdone
  · rw [(s.done_iff).1 hdone]
    rfl
  · rw [s.peek_eq]
    cases hrest : s.rest with
    | nil => exact absurd ((s.done_iff).2 hrest) hdone
    | cons b left => simp

theorem skip_within {s : ChallengeScanner} (separators : Bytes) (h : s.pos ≤ s.text.length) :
    (s.skip separators).pos ≤ (s.skip separators).text.length := by
  have hle := (List.takeWhile_prefix (· ∈ separators) (l := s.text.drop s.pos)).length_le
  rw [List.length_drop] at hle
  unfold ChallengeScanner.skip
  dsimp only
  rw [ChallengeScanner.advance_eq]
  omega

/-- A round never reads out of range, and does what `roundOn` says. -/
theorem round_eq (unicode : Unicode) (state : Parsing) :
    ∃ outcome, round unicode state = some outcome ∧ outcome.map Parsing.view = roundOn unicode state.scanner.rest state.challenges := by
  obtain ⟨scanner, challenges⟩ := state
  have hskip := scanner.rest_skip (ascii " \t,")
  unfold round roundOn
  dsimp only
  rw [← hskip]
  generalize scanner.skip (ascii " \t,") = s
  by_cases hdone : s.done = true
  · refine ⟨.stop, ?_, ?_⟩
    · rw [if_pos hdone]
    · rw [if_pos ((s.done_iff).1 hdone)]
      rfl
  · have hne : ¬ s.rest = [] := fun hempty => hdone ((s.done_iff).2 hempty)
    obtain ⟨after, htoken, hafter⟩ := ChallengeScanner.token_eq hdone
    have hbehind := after.rest_skip (ascii " \t")
    rw [hafter] at hbehind
    rw [if_neg hdone, if_neg hne, htoken]
    dsimp only
    rw [equalsNext_eq, ← hbehind]
    dsimp only
    by_cases hequals : (after.skip (ascii " \t")).rest.head? = some 61 ∧ challenges ≠ []
    · have hopen : ¬ (after.skip (ascii " \t")).done = true := by
        rw [ChallengeScanner.done_iff]
        intro hend
        rw [hend] at hequals
        cases hequals.1
      have hlt := ChallengeScanner.lt_of_not_done hopen
      generalize hs : after.skip (ascii " \t") = next at hequals hopen hlt
      have hnext : ({ next with pos := next.pos + 1 } : ChallengeScanner).rest = next.rest.drop 1 := by
        rw [ChallengeScanner.rest, ChallengeScanner.rest, List.drop_drop]
      have hwithin := skip_within (s := { next with pos := next.pos + 1 }) (ascii " \t") hlt
      obtain ⟨last, hvalue, hlast⟩ := ChallengeScanner.value_eq unicode hwithin
      rw [ChallengeScanner.rest_skip, hnext] at hvalue hlast
      refine ⟨.next ⟨last, setLast challenges (unicode.toLower (s.rest.takeWhile (· ∉ ascii " \t,=")))
        (ChallengeScanner.readValue unicode ((next.rest.drop 1).dropWhile (· ∈ ascii " \t"))).1⟩, ?_, ?_⟩
      · rw [if_pos (by simpa using hequals), hvalue]
        rfl
      · rw [if_pos hequals, ← hlast]
        rfl
    · refine ⟨.next ⟨after.skip (ascii " \t"), challenges ++
        [⟨unicode.toLower (s.rest.takeWhile (· ∉ ascii " \t,=")), []⟩]⟩, ?_, ?_⟩
      · rw [if_neg (by simpa using hequals)]
      · rw [if_neg hequals]
        rfl

/-! ## The loop ends -/

theorem length_unquote (text : Bytes) : (ChallengeScanner.unquote text).2.length ≤ text.length := by
  fun_induction ChallengeScanner.unquote text with
  | case1 => exact Nat.le_refl 0
  | case2 => exact Nat.zero_le _
  | case3 b _ => exact Nat.zero_le _
  | case4 c left => exact Nat.le_succ _
  | case5 c left _ ih =>
      simp only [List.length_cons]
      omega
  | case6 b c left _ _ ih =>
      simp only [List.length_cons] at ih ⊢
      omega

theorem length_readValue (unicode : Unicode) (left : Bytes) :
    (ChallengeScanner.readValue unicode left).2.length ≤ left.length := by
  unfold ChallengeScanner.readValue
  split_ifs
  · have hle := length_unquote (left.drop 1)
    rw [List.length_drop] at hle
    omega
  · exact (List.dropWhile_sublist _).length_le

theorem setLast_ne_nil {challenges : List AuthChallenge} (h : challenges ≠ []) (name value : Bytes) :
    setLast challenges name value ≠ [] := by
  unfold setLast
  rw [List.getLast?_eq_some_getLast h]
  simp

/-- The round that consumes nothing comes before the first challenge. -/
def weight (text : Bytes) (challenges : List AuthChallenge) : Nat :=
  2 * text.length + if challenges = [] then 1 else 0

theorem roundOn_lt {unicode : Unicode} {text left : Bytes} {challenges next : List AuthChallenge}
    (h : roundOn unicode text challenges = .next (left, next)) : weight left next < weight text challenges := by
  have hskip := (List.dropWhile_sublist (· ∈ ascii " \t,") (l := text)).length_le
  have hhead := List.head?_dropWhile_not (· ∈ ascii " \t,") text
  unfold roundOn at h
  dsimp only at h
  generalize text.dropWhile (· ∈ ascii " \t,") = start at h hskip hhead
  cases start with
  | nil => cases h
  | cons b start =>
      rw [if_neg (List.cons_ne_nil b start)] at h
      have hblank : b ∉ ascii " \t,":= by simpa using hhead
      have htoken := (List.dropWhile_sublist (· ∉ ascii " \t,=") (l := b :: start)).length_le
      have hbehind := (List.dropWhile_sublist (· ∈ ascii " \t") (l := (b :: start).dropWhile (· ∉ ascii " \t,="))).length_le
      unfold weight
      split_ifs at h with hequals
      · obtain ⟨hsign, hne⟩ := hequals
        injection h with h
        obtain ⟨rfl, rfl⟩ := Prod.mk.inj h
        rw [if_neg (setLast_ne_nil hne _ _), if_neg hne]
        generalize ((b :: start).dropWhile (· ∉ ascii " \t,=")).dropWhile (· ∈ ascii " \t") = behind at hsign hbehind
        cases behind with
        | nil => cases hsign
        | cons c behind =>
            have hvalue := length_readValue unicode ((List.drop 1 (c :: behind)).dropWhile (· ∈ ascii " \t"))
            have hblanks := (List.dropWhile_sublist (· ∈ ascii " \t") (l := List.drop 1 (c :: behind))).length_le
            simp only [List.length_cons, List.drop_succ_cons, List.drop_zero] at *
            omega
      · injection h with h
        obtain ⟨rfl, rfl⟩ := Prod.mk.inj h
        rw [if_neg (by simp)]
        by_cases hsign : b = 61
        · have hstop : (b :: start).dropWhile (· ∉ ascii " \t,=") = b :: start := by
            rw [hsign]
            rfl
          have hstay : (b :: start).dropWhile (· ∈ ascii " \t") = b :: start := by
            rw [hsign]
            rfl
          rw [hstop, hstay] at hequals
          have hempty : challenges = [] := by
            by_contra hne
            exact hequals ⟨by rw [hsign]; rfl, hne⟩
          rw [if_pos hempty]
          omega
        · have hname : b ∉ ascii " \t,=" := by
            intro hmem
            have hcases : ∀ c ∈ ascii " \t,=", c ∈ ascii " \t," ∨ c = 61 := by decide
            rcases hcases b hmem with hin | heq
            · exact hblank hin
            · exact hsign heq
          have hshorter : ((b :: start).dropWhile (· ∉ ascii " \t,=")).length ≤ start.length := by
            rw [List.dropWhile_cons, if_pos (by simpa using hname)]
            exact (List.dropWhile_sublist _).length_le
          simp only [List.length_cons] at *
          omega

/-- The inner loop of `parseChallenges`. -/
def parseHeader (unicode : Unicode) (state : Parsing) : Option (List AuthChallenge) :=
  match _hround : round unicode state with
  | none => none
  | some .stop => some state.challenges
  | some (.next next) => parseHeader unicode next
termination_by weight state.scanner.rest state.challenges
decreasing_by
  obtain ⟨outcome, houtcome, hview⟩ := round_eq unicode state
  rw [_hround, Option.some.injEq] at houtcome
  subst houtcome
  exact roundOn_lt hview.symm

def parseChallenges (unicode : Unicode) (headers : List Bytes) : Option (List AuthChallenge) :=
  headers.foldlM (fun challenges header => parseHeader unicode ⟨⟨header, 0⟩, challenges⟩) []

def parseOn (unicode : Unicode) (text : Bytes) (challenges : List AuthChallenge) : List AuthChallenge :=
  match _hround : roundOn unicode text challenges with
  | .stop => challenges
  | .next (left, next) => parseOn unicode left next
termination_by weight text challenges
decreasing_by exact roundOn_lt _hround

theorem parseOn_of_next {unicode : Unicode} {text left : Bytes} {challenges next : List AuthChallenge}
    (h : roundOn unicode text challenges = .next (left, next)) :
    parseOn unicode text challenges = parseOn unicode left next := by
  rw [parseOn]
  split
  · next hstop => rw [h] at hstop; cases hstop
  · next left' next' hnext =>
      rw [h] at hnext
      injection hnext with hnext
      obtain ⟨rfl, rfl⟩ := Prod.mk.inj hnext
      rfl

theorem parseOn_of_stop {unicode : Unicode} {text : Bytes} {challenges : List AuthChallenge}
    (h : roundOn unicode text challenges = .stop) : parseOn unicode text challenges = challenges := by
  rw [parseOn]
  split
  · rfl
  · next left next hnext => rw [h] at hnext; cases hnext

/-- No header makes the loop read out of range. -/
theorem parseHeader_eq (unicode : Unicode) (state : Parsing) :
    parseHeader unicode state = some (parseOn unicode state.scanner.rest state.challenges) := by
  obtain ⟨outcome, houtcome, hview⟩ := round_eq unicode state
  rw [parseHeader]
  split
  · next hround => rw [hround] at houtcome; cases houtcome
  · next hround =>
      rw [hround, Option.some.injEq] at houtcome
      subst houtcome
      rw [parseOn_of_stop hview.symm]
  · next next hround =>
      rw [hround, Option.some.injEq] at houtcome
      subst houtcome
      rw [parseOn_of_next hview.symm]
      exact parseHeader_eq unicode next
termination_by weight state.scanner.rest state.challenges
decreasing_by exact roundOn_lt hview.symm

theorem parseChallenges_eq (unicode : Unicode) (headers : List Bytes) :
    parseChallenges unicode headers = some (headers.foldl (fun challenges header => parseOn unicode header challenges) []) := by
  unfold parseChallenges
  generalize ([] : List AuthChallenge) = challenges
  induction headers generalizing challenges with
  | nil => rfl
  | cons header rest ih =>
      rw [List.foldlM_cons, parseHeader_eq]
      exact ih (parseOn unicode header challenges)

end Gostman.Auth
