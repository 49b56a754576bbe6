import Gostman.Format.Reader
import Gostman.Lib.Decided
import Gostman.Lib.Yields
/-!
# Reading a token

A reader of `jsonFormat.js` for a string, a number, a literal or a reference succeeds
where such a token stands, and only there, and it gives the token as it stands.
-/

namespace Gostman.Format

open Gostman.Lib

open scoped Gostman.Lib.Decided

/-! ## Moving on -/

structure Reader.Took (r : Reader) (text : Units) (later : Reader) : Prop where
  rest_eq : r.rest = text ++ later.rest
  position_eq : later.position = r.position + text.length

namespace Reader

theorem Took.nil (r : Reader) : r.Took [] r := ⟨rfl, rfl⟩

theorem Took.append {r s t : Reader} {text more : Units} (h : r.Took text s) (h' : s.Took more t) : r.Took (text ++ more) t := by
  constructor
  · rw [h.rest_eq, h'.rest_eq, List.append_assoc]
  · rw [h'.position_eq, h.position_eq, List.length_append, Nat.add_assoc]

theorem Took.split {r later : Reader} {text more : Units} (h : r.Took (text ++ more) later) :
    ∃ mid, r.Took text mid ∧ mid.Took more later := by
  obtain ⟨hrest, hposition⟩ := h
  rw [List.length_append] at hposition
  refine ⟨⟨r.position + text.length, more ++ later.rest⟩, ⟨?_, rfl⟩, rfl, ?_⟩
  · rw [hrest, List.append_assoc]
  · rw [hposition, Nat.add_assoc]

theorem Took.cons {r s t : Reader} {u : UInt16} {more : Units} (h : r.Took [u] s) (h' : s.Took more t) : r.Took (u :: more) t :=
  h.append h'

theorem took_advance {r : Reader} {text rest : Units} (h : r.rest = text ++ rest) : r.Took text (r.advance text.length) := by
  constructor
  · rw [h]
    simp [advance, h]
  · rfl

theorem Took.eq_advance {r later : Reader} {text : Units} (h : r.Took text later) : later = r.advance text.length := by
  obtain ⟨position, rest⟩ := later
  obtain ⟨hrest, hposition⟩ := h
  simp only at hrest hposition
  simp [advance, hrest, hposition]

theorem Took.head {r later : Reader} {u : UInt16} {text : Units} (h : r.Took (u :: text) later) :
    r.rest = u :: (text ++ later.rest) := h.rest_eq

theorem Took.tail {r later : Reader} {u : UInt16} {text : Units} (h : r.Took (u :: text) later) :
    (r.advance 1).Took text later := by
  obtain ⟨mid, hone, htext⟩ := @Took.split r later [u] text h
  rw [hone.eq_advance] at htext
  exact htext

theorem took_nil_iff {r later : Reader} : r.Took [] later ↔ r = later := by
  constructor
  · exact fun h => h.eq_advance.symm
  · rintro rfl
    exact Took.nil r

theorem Took.one {r later : Reader} {u : UInt16} (h : r.Took [u] later) : r.advance 1 = later := h.eq_advance.symm

theorem Took.upTo {r later : Reader} {text : Units} (h : r.Took text later) : r.upTo later = text := by
  rw [Reader.upTo, h.rest_eq, h.position_eq, Nat.add_sub_cancel_left, List.take_left]

theorem at_iff {r : Reader} {u : UInt16} : r.at_ u = true ↔ ∃ rest, r.rest = u :: rest := by
  unfold at_
  rw [decide_eq_true_iff, List.head?_eq_some_iff]

theorem sees_iff {r : Reader} {p : UInt16 → Bool} : r.sees p = true ↔ ∃ u rest, r.rest = u :: rest ∧ p u = true := by
  unfold sees
  cases r.rest with
  | nil => simp
  | cons u rest => simp

theorem took_one {r : Reader} {u : UInt16} {rest : Units} (h : r.rest = u :: rest) : r.Took [u] (r.advance 1) :=
  @took_advance r [u] rest h

end Reader

open Reader

/-! ## Strings -/

theorem readHex_iff {digits : Nat} {r later : Reader} :
    readHex digits r = .ok later ↔
      ∃ text, text.length = digits ∧ (∀ u ∈ text, isHexDigit u = true) ∧ r.Took text later := by
  induction digits generalizing r with
  | zero =>
    constructor
    · intro h
      cases h
      exact ⟨[], rfl, List.forall_mem_nil _, Took.nil _⟩
    · rintro ⟨text, hlength, -, htook⟩
      rw [List.length_eq_zero_iff] at hlength
      subst hlength
      rw [took_nil_iff] at htook
      rw [htook]
      rfl
  | succ digits ih =>
    rw [readHex]
    constructor
    · intro h
      split_ifs at h with hsees
      · obtain ⟨u, rest, hrest, hu⟩ := sees_iff.1 hsees
        obtain ⟨text, hlength, hhex, htook⟩ := ih.1 h
        exact ⟨u :: text, congrArg (· + 1) hlength, List.forall_mem_cons.2 ⟨hu, hhex⟩, (took_one hrest).cons htook⟩
      · cases h
    · rintro ⟨text, hlength, hhex, htook⟩
      cases text with
      | nil => cases hlength
      | cons u text =>
        obtain ⟨hu, hhex⟩ := List.forall_mem_cons.1 hhex
        rw [if_pos (sees_iff.2 ⟨u, _, htook.head, hu⟩)]
        exact ih.2 ⟨text, Nat.succ.inj hlength, hhex, htook.tail⟩

theorem readEscape_iff {r later : Reader} :
    readEscape r = .ok later ↔ ∃ text, IsEscape text ∧ r.Took text later := by
  unfold readEscape
  constructor
  · intro h
    cases hrest : r.rest with
    | nil =>
      rw [hrest] at h
      cases h
    | cons u rest =>
      rw [hrest] at h
      simp only at h
      split_ifs at h with hsimple hu
      · cases h
        exact ⟨[u], .inl ⟨u, hsimple, rfl⟩, took_one hrest⟩
      · cases h
      · rw [Decidable.not_not] at hu
        subst hu
        obtain ⟨digits, hlength, hhex, htook⟩ := readHex_iff.1 h
        exact ⟨lowerU :: digits, .inr ⟨digits, hlength, hhex, rfl⟩, (took_one hrest).cons htook⟩
  · rintro ⟨text, ⟨u, hsimple, rfl⟩ | ⟨digits, hlength, hhex, rfl⟩, htook⟩
    · rw [htook.head]
      simp only
      rw [if_pos hsimple, htook.one]
    · rw [htook.head]
      simp only
      rw [if_neg (by decide), if_neg (fun hne => hne rfl)]
      exact readHex_iff.2 ⟨digits, hlength, hhex, htook.tail⟩

theorem readUnits_cons {start units : Nat} {r : Reader} {u : UInt16} {rest : Units} (h : r.rest = u :: rest) :
    readUnits start (units + 1) r =
      if u = quotationMark then .ok (r.advance 1)
      else if u = backslash then (readEscape (r.advance 1)).bind (readUnits start units)
      else if u = lineFeed ∨ u = carriageReturn then fail (((r.advance 1).position : Int) - 1)
      else if u < blank then fail (((r.advance 1).position : Int) - 1)
      else readUnits start units (r.advance 1) := by
  rw [readUnits, h]
  simp only
  cases readEscape (r.advance 1) with
  | error problem => rfl
  | ok next => rfl

theorem inner_of_readUnits {start units : Nat} {r later : Reader} (h : readUnits start units r = .ok later) :
    ∃ inner, Inner inner ∧ r.Took (inner ++ [quotationMark]) later := by
  induction units generalizing r with
  | zero => cases h
  | succ units ih =>
    cases hrest : r.rest with
    | nil =>
      rw [readUnits, hrest] at h
      cases h
    | cons u rest =>
      rw [readUnits_cons hrest] at h
      have hone := took_one hrest
      split_ifs at h with hquote hslash hline hcontrol
      · cases h
        rw [← hquote]
        exact ⟨[], .nil, hone⟩
      · cases hescape : readEscape (r.advance 1) with
        | error problem =>
          rw [hescape] at h
          cases h
        | ok next =>
          rw [hescape] at h
          obtain ⟨escape, hknown, hbehind⟩ := readEscape_iff.1 hescape
          obtain ⟨inner, hinner, htook⟩ := ih h
          refine ⟨backslash :: (escape ++ inner), .escaped hknown hinner, ?_⟩
          rw [← hslash, List.cons_append, List.append_assoc]
          exact hone.cons (hbehind.append htook)
      · cases h
      · cases h
      · obtain ⟨inner, hinner, htook⟩ := ih h
        exact ⟨u :: inner, .plain (UInt16.not_lt.1 hcontrol) hquote hslash hinner, hone.cons htook⟩

theorem readUnits_of_inner {inner : Units} (h : Inner inner) (start : Nat) {units : Nat} {r later : Reader}
    (hunits : inner.length < units) (htook : r.Took (inner ++ [quotationMark]) later) :
    readUnits start units r = .ok later := by
  induction h generalizing units r with
  | nil =>
    obtain ⟨units, rfl⟩ := Nat.exists_eq_succ_of_ne_zero (Nat.ne_of_gt hunits)
    rw [readUnits_cons htook.head, if_pos rfl, htook.one]
  | @plain u rest visible quote slash inner ih =>
    obtain ⟨units, rfl⟩ := Nat.exists_eq_succ_of_ne_zero (Nat.ne_of_gt (Nat.zero_lt_of_lt hunits))
    rw [readUnits_cons htook.head, if_neg quote, if_neg slash, if_neg, if_neg (UInt16.not_lt.2 visible)]
    · exact ih (Nat.lt_of_succ_lt_succ hunits) htook.tail
    · -- A line break is below the blank.
      rintro (rfl | rfl)
      · exact absurd visible (by decide)
      · exact absurd visible (by decide)
  | @escaped escape rest known inner ih =>
    obtain ⟨units, rfl⟩ := Nat.exists_eq_succ_of_ne_zero (Nat.ne_of_gt (Nat.zero_lt_of_lt hunits))
    rw [List.cons_append, List.append_assoc] at htook
    obtain ⟨mid, hescape, hbehind⟩ := htook.tail.split
    rw [readUnits_cons htook.head, if_neg (by decide), if_pos rfl, readEscape_iff.2 ⟨escape, known, hescape⟩]
    apply ih _ hbehind
    rw [List.length_cons, List.length_append] at hunits
    omega

theorem readString_iff {r later : Reader} {token : Units} (hquote : r.at_ quotationMark = true) :
    readString r = .ok (token, later) ↔ IsString token ∧ r.Took token later := by
  obtain ⟨rest, hrest⟩ := at_iff.1 hquote
  unfold readString
  constructor
  · intro h
    cases hunits : readUnits r.position r.rest.length (r.advance 1) with
    | error problem =>
      rw [hunits] at h
      cases h
    | ok last =>
      rw [hunits] at h
      cases h
      obtain ⟨inner, hinner, htook⟩ := inner_of_readUnits hunits
      have hwhole := (took_one hrest).cons htook
      rw [hwhole.upTo]
      exact ⟨⟨inner, hinner, rfl⟩, hwhole⟩
  · rintro ⟨⟨inner, hinner, rfl⟩, htook⟩
    have hlength : inner.length < r.rest.length := by
      rw [htook.rest_eq]
      simp only [List.length_append, List.length_cons]
      omega
    rw [readUnits_of_inner hinner _ hlength htook.tail]
    simp only
    rw [htook.upTo]

/-! ## Numbers -/

theorem sees_eq_false_iff {r : Reader} {p : UInt16 → Bool} :
    r.sees p = false ↔ ∀ u, r.rest.head? = some u → p u = false := by
  unfold sees
  cases r.rest with
  | nil => simp
  | cons u rest => simp

theorem took_while (p : UInt16 → Bool) (r : Reader) :
    r.Took (r.rest.takeWhile p) (r.advance (r.rest.takeWhile p).length) ∧
      (r.advance (r.rest.takeWhile p).length).sees p = false := by
  have htook := @took_advance r (r.rest.takeWhile p) _ (List.takeWhile_append_dropWhile).symm
  refine ⟨htook, sees_eq_false_iff.2 ?_⟩
  intro u hu
  have hrest : (r.advance (r.rest.takeWhile p).length).rest = r.rest.dropWhile p := by
    apply @List.append_cancel_left _ (r.rest.takeWhile p)
    rw [← htook.rest_eq, List.takeWhile_append_dropWhile]
  have hhead := List.head?_dropWhile_not p r.rest
  rw [← hrest, hu] at hhead
  exact hhead

theorem Reader.Took.takeWhile_eq {p : UInt16 → Bool} {r later : Reader} {text : Units} (htook : r.Took text later)
    (hall : ∀ u ∈ text, p u = true) (hend : later.sees p = false) : r.rest.takeWhile p = text := by
  rw [htook.rest_eq, List.takeWhile_append_of_pos hall]
  cases hrest : later.rest with
  | nil => rw [List.takeWhile_nil, List.append_nil]
  | cons u rest =>
    rw [List.takeWhile_cons_of_neg, List.append_nil]
    rw [sees_eq_false_iff.1 hend u (by rw [hrest]; rfl)]
    exact Bool.false_ne_true

theorem readDigits_iff {start : Nat} {r later : Reader} :
    readDigits start r = .ok later ↔ ∃ text, IsDigits text ∧ r.Took text later ∧ later.sees isDigit = false := by
  unfold readDigits
  constructor
  · intro h
    split_ifs at h with hsees
    · cases h
      obtain ⟨u, rest, hrest, hu⟩ := sees_iff.1 hsees
      obtain ⟨htook, hend⟩ := took_while isDigit r
      refine ⟨r.rest.takeWhile isDigit, ⟨?_, fun u hu => List.mem_takeWhile_imp hu⟩, htook, hend⟩
      rw [hrest, List.takeWhile_cons_of_pos hu]
      exact List.cons_ne_nil _ _
    · cases h
  · rintro ⟨text, ⟨hnil, hdigits⟩, htook, hend⟩
    obtain ⟨u, rest, rfl⟩ := List.exists_cons_of_ne_nil hnil
    rw [if_pos (sees_iff.2 ⟨u, _, htook.head, hdigits u List.mem_cons_self⟩), htook.takeWhile_eq hdigits hend,
      ← htook.eq_advance]

theorem readWhole_iff {start : Nat} {r later : Reader} :
    readWhole start r = .ok later ↔
      ∃ text, IsWhole text ∧ r.Took text later ∧ (text = [zero] ∨ later.sees isDigit = false) := by
  unfold readWhole
  constructor
  · intro h
    split_ifs at h with hzero
    · cases h
      obtain ⟨rest, hrest⟩ := at_iff.1 hzero
      exact ⟨[zero], .inl rfl, took_one hrest, .inl rfl⟩
    · obtain ⟨text, hdigits, htook, hend⟩ := readDigits_iff.1 h
      refine ⟨text, .inr ⟨hdigits, fun hhead => ?_⟩, htook, .inr hend⟩
      obtain ⟨rest, rfl⟩ := List.head?_eq_some_iff.1 hhead
      exact hzero (at_iff.2 ⟨_, htook.head⟩)
  · rintro ⟨text, rfl | ⟨hdigits, hhead⟩, htook, hend⟩
    · rw [if_pos (at_iff.2 ⟨_, htook.head⟩), htook.one]
    · obtain ⟨u, rest, rfl⟩ := List.exists_cons_of_ne_nil hdigits.1
      have hu : u ≠ zero := fun hu => hhead (congrArg some hu)
      rw [if_neg]
      · refine readDigits_iff.2 ⟨_, hdigits, htook, hend.resolve_left ?_⟩
        exact fun hone => hu (List.cons.inj hone).1
      · intro hzero
        obtain ⟨rest, hrest⟩ := at_iff.1 hzero
        exact hu (List.cons.inj (htook.head.symm.trans hrest)).1

theorem readFraction_iff {start : Nat} {r later : Reader} :
    readFraction start r = .ok later ↔
      ∃ text, IsFraction text ∧ r.Took text later ∧ (text = [] ∧ later.at_ point = false ∨
        text ≠ [] ∧ later.sees isDigit = false) := by
  unfold readFraction
  constructor
  · intro h
    split_ifs at h with hpoint
    · obtain ⟨rest, hrest⟩ := at_iff.1 hpoint
      obtain ⟨digits, hdigits, htook, hend⟩ := readDigits_iff.1 h
      exact ⟨point :: digits, .inr ⟨digits, hdigits, rfl⟩, (took_one hrest).cons htook,
        .inr ⟨List.cons_ne_nil _ _, hend⟩⟩
    · cases h
      exact ⟨[], .inl rfl, Took.nil _, .inl ⟨rfl, Bool.eq_false_iff.2 hpoint⟩⟩
  · rintro ⟨text, rfl | ⟨digits, hdigits, rfl⟩, htook, hend⟩
    · obtain ⟨-, hend⟩ := hend.resolve_right fun h => h.1 rfl
      rw [took_nil_iff] at htook
      subst htook
      rw [if_neg (Bool.eq_false_iff.1 hend)]
    · obtain ⟨-, hend⟩ := hend.resolve_left fun h => List.cons_ne_nil _ _ h.1
      rw [if_pos (at_iff.2 ⟨_, htook.head⟩)]
      exact readDigits_iff.2 ⟨digits, hdigits, htook.tail, hend⟩

theorem took_sign {r later : Reader} {sign : Units} (hsign : sign = [] ∨ sign = [plus] ∨ sign = [minus])
    (htook : r.Took sign later) (hend : sign = [] → later.sees isSign = false) :
    (if r.sees isSign then r.advance 1 else r) = later := by
  obtain rfl | rfl | rfl := hsign
  · rw [took_nil_iff] at htook
    subst htook
    rw [if_neg (Bool.eq_false_iff.1 (hend rfl))]
  · rw [if_pos (sees_iff.2 ⟨_, _, htook.head, rfl⟩), htook.one]
  · rw [if_pos (sees_iff.2 ⟨_, _, htook.head, rfl⟩), htook.one]

theorem exists_sign (r : Reader) :
    ∃ sign, (sign = [] ∨ sign = [plus] ∨ sign = [minus]) ∧
      r.Took sign (if r.sees isSign then r.advance 1 else r) := by
  split_ifs with hsees
  · obtain ⟨u, rest, hrest, hu⟩ := sees_iff.1 hsees
    unfold isSign at hu
    rw [Bool.or_eq_true, beq_iff_eq, beq_iff_eq] at hu
    obtain rfl | rfl := hu
    · exact ⟨[plus], .inr (.inl rfl), took_one hrest⟩
    · exact ⟨[minus], .inr (.inr rfl), took_one hrest⟩
  · exact ⟨[], .inl rfl, Took.nil r⟩

theorem not_sign_of_digit {u : UInt16} (h : isDigit u = true) : isSign u = false := by
  rw [Bool.eq_false_iff]
  intro hsign
  unfold isSign at hsign
  rw [Bool.or_eq_true, beq_iff_eq, beq_iff_eq] at hsign
  obtain rfl | rfl := hsign
  · exact absurd h (by decide)
  · exact absurd h (by decide)

theorem readExponent_iff {start : Nat} {r later : Reader} :
    readExponent start r = .ok later ↔
      ∃ text, IsExponent text ∧ r.Took text later ∧ (text = [] ∧ later.sees isExponentMark = false ∨
        text ≠ [] ∧ later.sees isDigit = false) := by
  unfold readExponent
  constructor
  · intro h
    split_ifs at h with hmark
    · obtain ⟨mark, rest, hrest, hu⟩ := sees_iff.1 hmark
      obtain ⟨sign, hsign, hbegun⟩ := exists_sign (r.advance 1)
      obtain ⟨digits, hdigits, htook, hend⟩ := readDigits_iff.1 h
      exact ⟨mark :: (sign ++ digits), .inr ⟨mark, sign, digits, hu, hsign, hdigits, rfl⟩,
        (took_one hrest).cons (hbegun.append htook), .inr ⟨List.cons_ne_nil _ _, hend⟩⟩
    · cases h
      exact ⟨[], .inl rfl, Took.nil _, .inl ⟨rfl, Bool.eq_false_iff.2 hmark⟩⟩
  · rintro ⟨text, rfl | ⟨mark, sign, digits, hmark, hsign, hdigits, rfl⟩, htook, hend⟩
    · obtain ⟨-, hend⟩ := hend.resolve_right fun h => h.1 rfl
      rw [took_nil_iff] at htook
      subst htook
      rw [if_neg (Bool.eq_false_iff.1 hend)]
    · obtain ⟨-, hend⟩ := hend.resolve_left fun h => List.cons_ne_nil _ _ h.1
      obtain ⟨mid, hbegun, hbehind⟩ := htook.tail.split
      rw [if_pos (sees_iff.2 ⟨mark, _, htook.head, hmark⟩)]
      simp only
      rw [took_sign hsign hbegun]
      · exact readDigits_iff.2 ⟨digits, hdigits, hbehind, hend⟩
      · intro _
        obtain ⟨u, rest, rfl⟩ := List.exists_cons_of_ne_nil hdigits.1
        rw [sees_eq_false_iff, hbehind.head]
        intro v hv
        cases hv
        exact not_sign_of_digit (hdigits.2 u List.mem_cons_self)

theorem took_readMinus (r : Reader) : ∃ sign, (sign = [] ∨ sign = [minus]) ∧ r.Took sign (readMinus r) := by
  unfold readMinus
  split_ifs with hminus
  · obtain ⟨rest, hrest⟩ := at_iff.1 hminus
    exact ⟨[minus], .inr rfl, took_one hrest⟩
  · exact ⟨[], .inl rfl, Took.nil r⟩

theorem number_of_readNumber {r later : Reader} {token : Units} (h : readNumber r = .ok (token, later)) :
    IsNumber token ∧ r.Took token later := by
  obtain ⟨sign, hsign, hbegun⟩ := took_readMinus r
  unfold readNumber at h
  cases hwhole : readWhole r.position (readMinus r) with
  | error problem =>
    rw [hwhole] at h
    cases h
  | ok second =>
    rw [hwhole, ok_bind] at h
    cases hfraction : readFraction r.position second with
    | error problem =>
      rw [hfraction] at h
      cases h
    | ok third =>
      rw [hfraction, ok_bind] at h
      cases hexponent : readExponent r.position third with
      | error problem =>
        rw [hexponent] at h
        cases h
      | ok last =>
        rw [hexponent] at h
        cases h
        obtain ⟨whole, hwhole, hfirst, -⟩ := readWhole_iff.1 hwhole
        obtain ⟨fraction, hfraction, hsecond, -⟩ := readFraction_iff.1 hfraction
        obtain ⟨exponent, hexponent, hthird, -⟩ := readExponent_iff.1 hexponent
        have htook := hbegun.append (hfirst.append (hsecond.append hthird))
        rw [htook.upTo]
        exact ⟨⟨sign, whole, fraction, exponent, hsign, hwhole, hfraction, hexponent, rfl⟩, htook⟩

def stops : List UInt16 := [blank, 0x09, lineFeed, carriageReturn, byteOrderMark, comma, 0x7D, 0x5D]

def Heads (units : List UInt16) (text : Units) : Prop := ∀ u, text.head? = some u → u ∈ units

def Delimited (text : Units) : Prop := Heads stops text

theorem Heads.mono {units more : List UInt16} {text : Units} (h : Heads units text) (hmore : units ⊆ more) :
    Heads more text := fun u hu => hmore (h u hu)

theorem heads_cons {units : List UInt16} {u : UInt16} {text : Units} (h : u ∈ units) : Heads units (u :: text) := by
  intro v hv
  cases hv
  exact h

theorem Heads.not_sees {units : List UInt16} {p : UInt16 → Bool} {r : Reader} (h : Heads units r.rest)
    (hp : ∀ u ∈ units, p u = false) : r.sees p = false :=
  sees_eq_false_iff.2 fun u hu => hp u (h u hu)

theorem Heads.not_at {units : List UInt16} {r : Reader} {u : UInt16} (h : Heads units r.rest) (hu : u ∉ units) :
    r.at_ u = false :=
  decide_eq_false fun hhead => hu (h u hhead)

theorem mem_marks_of_isExponentMark {u : UInt16} (h : isExponentMark u = true) : u ∈ [(0x65 : UInt16), 0x45] := by
  unfold isExponentMark at h
  rw [Bool.or_eq_true, beq_iff_eq, beq_iff_eq] at h
  simpa only [List.mem_cons, List.not_mem_nil, or_false] using h

theorem heads_exponent {exponent : Units} {r later : Reader} (h : IsExponent exponent) (htook : r.Took exponent later)
    (hend : Delimited later.rest) : Heads (0x65 :: 0x45 :: stops) r.rest := by
  obtain rfl | ⟨mark, sign, digits, hmark, -, -, rfl⟩ := h
  · rw [took_nil_iff] at htook
    subst htook
    exact hend.mono fun u hu => List.mem_cons_of_mem _ (List.mem_cons_of_mem _ hu)
  · rw [htook.head]
    exact heads_cons (List.mem_append_left stops (mem_marks_of_isExponentMark hmark))

theorem heads_fraction {fraction : Units} {r later : Reader} (h : IsFraction fraction) (htook : r.Took fraction later)
    (hend : Heads (0x65 :: 0x45 :: stops) later.rest) : Heads (point :: 0x65 :: 0x45 :: stops) r.rest := by
  obtain rfl | ⟨digits, -, rfl⟩ := h
  · rw [took_nil_iff] at htook
    subst htook
    exact hend.mono fun u hu => List.mem_cons_of_mem _ hu
  · rw [htook.head]
    exact heads_cons List.mem_cons_self

theorem sees_whole {whole : Units} {r later : Reader} (h : IsWhole whole) (htook : r.Took whole later) :
    r.sees isDigit = true := by
  obtain rfl | ⟨⟨hnil, hdigits⟩, -⟩ := h
  · exact sees_iff.2 ⟨zero, _, htook.head, rfl⟩
  · obtain ⟨u, rest, rfl⟩ := List.exists_cons_of_ne_nil hnil
    exact sees_iff.2 ⟨u, _, htook.head, hdigits u List.mem_cons_self⟩

theorem readMinus_eq {sign : Units} {r later : Reader} (hsign : sign = [] ∨ sign = [minus]) (htook : r.Took sign later)
    (hdigit : later.sees isDigit = true) : readMinus r = later := by
  unfold readMinus
  obtain rfl | rfl := hsign
  · rw [took_nil_iff] at htook
    subst htook
    rw [if_neg]
    intro hminus
    obtain ⟨rest, hrest⟩ := at_iff.1 hminus
    obtain ⟨u, rest', hrest', hu⟩ := sees_iff.1 hdigit
    cases hrest.symm.trans hrest'
    exact absurd hu (by decide)
  · rw [if_pos (at_iff.2 ⟨_, htook.head⟩), htook.one]

theorem readNumber_of_number {r later : Reader} {token : Units} (h : IsNumber token) (htook : r.Took token later)
    (hend : Delimited later.rest) : readNumber r = .ok (token, later) := by
  obtain ⟨sign, whole, fraction, exponent, hsign, hwhole, hfraction, hexponent, rfl⟩ := h
  obtain ⟨first, hbegun, hbehind⟩ := htook.split
  obtain ⟨second, hfirst, hbehind⟩ := hbehind.split
  obtain ⟨third, hsecond, hthird⟩ := hbehind.split
  have hheads := heads_exponent hexponent hthird hend
  have hdigit : third.sees isDigit = false := hheads.not_sees (by decide)
  have hread : readWhole r.position first = .ok second :=
    readWhole_iff.2 ⟨whole, hwhole, hfirst, .inr ((heads_fraction hfraction hsecond hheads).not_sees (by decide))⟩
  have hread' : readFraction r.position second = .ok third := by
    refine readFraction_iff.2 ⟨fraction, hfraction, hsecond, ?_⟩
    by_cases hnil : fraction = []
    · subst hnil
      rw [took_nil_iff] at hsecond
      subst hsecond
      exact .inl ⟨rfl, hheads.not_at (by decide)⟩
    · exact .inr ⟨hnil, hdigit⟩
  have hread'' : readExponent r.position third = .ok later := by
    refine readExponent_iff.2 ⟨exponent, hexponent, hthird, ?_⟩
    by_cases hnil : exponent = []
    · exact .inl ⟨hnil, hend.not_sees (by decide)⟩
    · exact .inr ⟨hnil, hend.not_sees (by decide)⟩
  unfold readNumber
  rw [readMinus_eq hsign hbegun (sees_whole hwhole hfirst), hread, ok_bind, hread', ok_bind, hread'', ok_bind, htook.upTo]
  rfl

/-! ## Literals and references -/

theorem literal_of_readLiteral {r later : Reader} {token : Units} (h : readLiteral r = .ok (token, later)) :
    token ∈ literals ∧ r.Took token later := by
  unfold readLiteral at h
  cases hfound : literals.find? r.startsWith with
  | none =>
    rw [hfound] at h
    cases h
  | some literal =>
    rw [hfound] at h
    obtain ⟨rfl, rfl⟩ := Prod.mk.inj (Except.ok.inj h)
    have hstarts : r.startsWith literal = true := List.find?_some hfound
    obtain ⟨rest, hrest⟩ := List.isPrefixOf_iff_prefix.1 hstarts
    exact ⟨List.mem_of_find?_eq_some hfound, took_advance hrest.symm⟩

theorem readLiteral_of_literal {r later : Reader} {token : Units} (h : token ∈ literals) (htook : r.Took token later) :
    readLiteral r = .ok (token, later) := by
  have hfound : literals.find? r.startsWith = some token := by
    have hstarts : r.startsWith token = true := List.isPrefixOf_iff_prefix.2 ⟨later.rest, htook.rest_eq.symm⟩
    obtain ⟨found, hfound⟩ := Option.isSome_iff_exists.1 (List.find?_isSome.2 ⟨token, h, hstarts⟩)
    have hother : r.startsWith found = true := List.find?_some hfound
    -- No two literals begin with the same unit.
    have hheads : ∀ a ∈ literals, ∀ b ∈ literals, a.head? = b.head? → a = b := by decide
    have hhead {literal : Units} (hmem : literal ∈ literals) (hbegins : r.startsWith literal = true) :
        r.rest.head? = literal.head? := by
      have hnil : ∀ a ∈ literals, a ≠ [] := by decide
      obtain ⟨rest, hrest⟩ := List.isPrefixOf_iff_prefix.1 hbegins
      rw [← hrest, List.head?_append_of_ne_nil _ (hnil literal hmem)]
    have hmem := List.mem_of_find?_eq_some hfound
    rw [hfound, hheads found hmem token h ((hhead hmem hother).symm.trans (hhead h hstarts))]
  unfold readLiteral
  rw [hfound]
  simp only
  rw [← htook.eq_advance]

theorem readReference_iff {r later : Reader} {token : Units} (hopen : r.startsWith referenceOpen = true) :
    readReference r = .ok (token, later) ↔ IsReference token ∧ r.Took token later := by
  obtain ⟨behind, hbehind⟩ := List.isPrefixOf_iff_prefix.1 hopen
  have hlength (inner : Units) : (referenceOpen ++ (inner ++ referenceClose)).length =
      referenceOpen.length + inner.length + referenceClose.length := by
    simp only [List.length_append]
    omega
  unfold readReference
  rw [← hbehind, List.drop_left]
  constructor
  · intro h
    cases hfound : firstAt referenceClose behind with
    | none =>
      rw [hfound] at h
      cases h
    | some place =>
      rw [hfound] at h
      cases h
      obtain ⟨inner, rest, rfl, rfl⟩ := firstAt_spec hfound
      have hrest : r.rest = referenceOpen ++ (inner ++ referenceClose) ++ rest := by
        rw [← hbehind]
        simp only [List.append_assoc]
      have htook := took_advance hrest
      rw [hlength] at htook
      rw [htook.upTo]
      exact ⟨⟨inner, (firstAt_behind_iff rest).1 hfound, rfl⟩, htook⟩
  · rintro ⟨⟨inner, hinner, rfl⟩, htook⟩
    have hrest : behind = inner ++ (referenceClose ++ later.rest) := by
      apply List.append_cancel_left
      rw [hbehind, htook.rest_eq]
      simp only [List.append_assoc]
    rw [hrest, (firstAt_behind_iff later.rest).2 hinner]
    simp only
    rw [← hlength, ← htook.eq_advance, htook.upTo]

end Gostman.Format
