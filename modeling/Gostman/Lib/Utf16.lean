import Gostman.Lib.Utf8
/-!
# Texts as code units

UTF-16, and what the codings of texts have in common: a character of ASCII is
one unit, and no other character begins with such a unit.
-/

namespace Gostman.Lib

/-- A unit of a character below U+10000, or the two of a character above. -/
def utf16Char (c : Char) : List UInt16 :=
  if c.toNat < 0x10000 then [UInt16.ofNat c.toNat]
  else
    [UInt16.ofNat (0xD800 + (c.toNat - 0x10000) / 0x400), UInt16.ofNat (0xDC00 + (c.toNat - 0x10000) % 0x400)]

def utf16 (text : List Char) : List UInt16 :=
  text.flatMap utf16Char

/-- The characters of code units, with U+FFFD for a surrogate that stands alone. -/
def scalars : List UInt16 → List Char
  | [] => []
  | u :: rest =>
      if 0xD800 ≤ u.toNat ∧ u.toNat < 0xDC00 then
        match rest with
        | v :: others =>
            if 0xDC00 ≤ v.toNat ∧ v.toNat < 0xE000 then
              Char.ofNat (0x10000 + (u.toNat - 0xD800) * 0x400 + (v.toNat - 0xDC00)) :: scalars others
            else '\uFFFD' :: scalars (v :: others)
        | [] => ['\uFFFD']
      else if 0xDC00 ≤ u.toNat ∧ u.toNat < 0xE000 then '\uFFFD' :: scalars rest
      else Char.ofNat u.toNat :: scalars rest

/-- A coding of texts in which the characters of ASCII are single units. -/
structure Coding (β : Type) where
  code : Char → List β
  unit : Char → β
  code_ascii : ∀ c, c.toNat < 128 → code c = [unit c]
  unit_inj : ∀ c d, c.toNat < 128 → d.toNat < 128 → unit c = unit d → c = d
  code_apart : ∀ c, 128 ≤ c.toNat → ∃ first rest, code c = first :: rest ∧ ∀ d, d.toNat < 128 → first ≠ unit d

namespace Coding

variable {β : Type} (coding : Coding β)

def text (text : List Char) : List β :=
  text.flatMap coding.code

theorem code_ne_nil (c : Char) : coding.code c ≠ [] := by
  rcases Nat.lt_or_ge c.toNat 128 with hascii | hother
  · rw [coding.code_ascii c hascii]
    exact List.cons_ne_nil _ _
  · obtain ⟨first, rest, hcode, -⟩ := coding.code_apart c hother
    rw [hcode]
    exact List.cons_ne_nil _ _

theorem text_append (first second : List Char) : coding.text (first ++ second) = coding.text first ++ coding.text second :=
  List.flatMap_append

theorem text_ne_nil {text : List Char} (h : text ≠ []) : coding.text text ≠ [] := by
  obtain ⟨c, rest, rfl⟩ := List.exists_cons_of_ne_nil h
  unfold Coding.text
  rw [List.flatMap_cons]
  intro hnil
  exact coding.code_ne_nil c (List.append_eq_nil_iff.1 hnil).1

/-- A text of ASCII has a unit for each character. -/
theorem text_ascii {text : List Char} (h : ∀ c ∈ text, c.toNat < 128) : coding.text text = text.map coding.unit := by
  induction text with
  | nil => rfl
  | cons c rest ih =>
    unfold Coding.text at ih ⊢
    rw [List.flatMap_cons, coding.code_ascii c (h c (List.mem_cons_self ..)),
      ih fun d hd => h d (List.mem_cons_of_mem _ hd)]
    rfl

/-- In a text of ASCII a text is found where its units are. -/
theorem prefix_iff {form text : List Char} (h : ∀ c ∈ text, c.toNat < 128) :
    coding.text form <+: coding.text text ↔ form <+: text := by
  constructor
  · intro hstarts
    induction form generalizing text with
    | nil => exact List.nil_prefix
    | cons c form ih =>
      rw [coding.text_ascii h] at hstarts
      unfold Coding.text at hstarts
      rw [List.flatMap_cons] at hstarts
      cases text with
      | nil =>
        rw [List.map_nil, List.prefix_nil] at hstarts
        exact absurd (List.append_eq_nil_iff.1 hstarts).1 (coding.code_ne_nil c)
      | cons d rest =>
        have hd := h d (List.mem_cons_self ..)
        have hrest : ∀ c ∈ rest, c.toNat < 128 := fun c hc => h c (List.mem_cons_of_mem _ hc)
        rcases Nat.lt_or_ge c.toNat 128 with hascii | hother
        · rw [coding.code_ascii c hascii, List.singleton_append, List.map_cons, List.cons_prefix_cons] at hstarts
          obtain rfl := coding.unit_inj c d hascii hd hstarts.1
          rw [List.cons_prefix_cons]
          refine ⟨rfl, ih hrest ?_⟩
          rw [coding.text_ascii hrest]
          exact hstarts.2
        · obtain ⟨first, more, hcode, hapart⟩ := coding.code_apart c hother
          rw [hcode, List.cons_append, List.map_cons, List.cons_prefix_cons] at hstarts
          exact absurd hstarts.1 (hapart d hd)
  · rintro ⟨rest, rfl⟩
    rw [coding.text_append]
    exact List.prefix_append _ _

end Coding

theorem toNat_ofNat_unit {n : Nat} (h : n < 65536) : (UInt16.ofNat n).toNat = n :=
  Nat.mod_eq_of_lt h

theorem toNat_lt (c : Char) : c.toNat < 0x110000 := by
  have hvalid : c.toNat < 0xD800 ∨ 0xDFFF < c.toNat ∧ c.toNat < 0x110000 := c.valid
  omega

/-! ## Units and characters -/

theorem toNat_ofNat_scalar {n : Nat} (h : n < 0xD800 ∨ 0xDFFF < n ∧ n < 0x110000) : (Char.ofNat n).toNat = n := by
  have hvalid : n.isValidChar := h
  unfold Char.ofNat
  rw [dif_pos hvalid]
  rfl

/-- The characters of the units of a text, in front of more, are the text's. -/
theorem scalars_utf16Char (c : Char) (rest : List UInt16) : scalars (utf16Char c ++ rest) = c :: scalars rest := by
  have hvalid : c.toNat < 0xD800 ∨ 0xDFFF < c.toNat ∧ c.toNat < 0x110000 := c.valid
  have hchar : Char.ofNat c.toNat = c := Char.ofNat_toNat c
  unfold utf16Char
  split_ifs with hlow
  · rw [List.singleton_append, scalars.eq_def]
    dsimp only
    rw [toNat_ofNat_unit hlow, if_neg (by omega), if_neg (by omega), hchar]
  · have hhigh : 0xD800 + (c.toNat - 0x10000) / 0x400 < 65536 := by omega
    have hrest : 0xDC00 + (c.toNat - 0x10000) % 0x400 < 65536 := by omega
    rw [List.cons_append, List.singleton_append, scalars.eq_def]
    dsimp only
    rw [toNat_ofNat_unit hhigh, if_pos (by omega)]
    rw [toNat_ofNat_unit hrest, if_pos (by omega)]
    have hsum : 0x10000 + (0xD800 + (c.toNat - 0x10000) / 0x400 - 0xD800) * 0x400 +
        (0xDC00 + (c.toNat - 0x10000) % 0x400 - 0xDC00) = c.toNat := by
      omega
    rw [hsum, hchar]

theorem scalars_utf16 (text : List Char) : scalars (utf16 text) = text := by
  induction text with
  | nil => rfl
  | cons c rest ih => rw [utf16, List.flatMap_cons, scalars_utf16Char, ← utf16, ih]

/-- Reading units as characters and writing them again keeps their number. -/
theorem length_utf16_scalars (units : List UInt16) : (utf16 (scalars units)).length = units.length := by
  have hfiller : (utf16Char '\uFFFD').length = 1 := by decide
  fun_induction scalars units with
  | case1 => rfl
  | case2 u hu v others hv ih =>
    have hchar := @toNat_ofNat_scalar (0x10000 + (u.toNat - 0xD800) * 0x400 + (v.toNat - 0xDC00)) (by omega)
    have hpair : (utf16Char (Char.ofNat (0x10000 + (u.toNat - 0xD800) * 0x400 + (v.toNat - 0xDC00)))).length = 2 := by
      unfold utf16Char
      rw [hchar, if_neg (by omega)]
      rfl
    rw [utf16, List.flatMap_cons, List.length_append, ← utf16, ih, hpair, List.length_cons, List.length_cons]
    omega
  | case3 u hu v others hv ih =>
    rw [utf16, List.flatMap_cons, List.length_append, ← utf16, ih, hfiller]
    simp only [List.length_cons]
    omega
  | case4 u hu => exact hfiller
  | case5 u rest hu hlow ih =>
    rw [utf16, List.flatMap_cons, List.length_append, ← utf16, ih, hfiller, List.length_cons]
    omega
  | case6 u rest hu hlow ih =>
    have hbound : u.toNat < 65536 := u.toNat_lt
    have hchar := @toNat_ofNat_scalar u.toNat (by omega)
    have hone : (utf16Char (Char.ofNat u.toNat)).length = 1 := by
      unfold utf16Char
      rw [hchar, if_pos hbound]
      rfl
    rw [utf16, List.flatMap_cons, List.length_append, ← utf16, ih, hone, List.length_cons]
    omega

/-- A unit that is no surrogate is a character of its own. -/
theorem scalars_unit {u : UInt16} (h : u.toNat < 0xD800) (rest : List UInt16) :
    scalars (u :: rest) = Char.ofNat u.toNat :: scalars rest := by
  rw [scalars.eq_def]
  dsimp only
  rw [if_neg (by omega), if_neg (by omega)]

theorem scalars_append_unit {u : UInt16} (h : u.toNat < 0xD800) (units rest : List UInt16) :
    scalars (units ++ u :: rest) = scalars units ++ Char.ofNat u.toNat :: scalars rest := by
  fun_induction scalars units with
  | case1 => exact scalars_unit h rest
  | case2 v hv w others hw ih =>
    rw [List.cons_append, List.cons_append, scalars.eq_def]
    dsimp only
    rw [if_pos hv, if_pos hw, ih, List.cons_append]
  | case3 v hv w others hw ih =>
    rw [List.cons_append, List.cons_append, scalars.eq_def]
    dsimp only
    rw [if_pos hv, if_neg hw, ← List.cons_append, ih, List.cons_append]
  | case4 v hv =>
    rw [List.singleton_append, scalars.eq_def]
    dsimp only
    rw [if_pos hv, if_neg (by omega), scalars_unit h, List.singleton_append]
  | case5 v others hv hlow ih =>
    rw [List.cons_append, scalars.eq_def]
    dsimp only
    rw [if_neg hv, if_pos hlow, ih, List.cons_append]
  | case6 v others hv hlow ih =>
    rw [List.cons_append, scalars.eq_def]
    dsimp only
    rw [if_neg hv, if_neg hlow, ih, List.cons_append]

theorem utf16Char_ofNat {u : UInt16} (h : u.toNat < 0xD800) : utf16Char (Char.ofNat u.toNat) = [u] := by
  have hchar := @toNat_ofNat_scalar u.toNat (.inl h)
  unfold utf16Char
  rw [hchar, if_pos (by omega), UInt16.ofNat_toNat]

def WellFormed (units : List UInt16) : Prop :=
  utf16 (scalars units) = units

instance (units : List UInt16) : Decidable (WellFormed units) :=
  inferInstanceAs (Decidable (utf16 (scalars units) = units))

/-- Around a unit that is no surrogate, both sides are judged by themselves. -/
theorem wellFormed_append_unit {u : UInt16} (h : u.toNat < 0xD800) (units rest : List UInt16) :
    WellFormed (units ++ u :: rest) ↔ WellFormed units ∧ WellFormed rest := by
  have hwhole : utf16 (scalars (units ++ u :: rest)) = utf16 (scalars units) ++ u :: utf16 (scalars rest) := by
    rw [scalars_append_unit h]
    unfold utf16
    rw [List.flatMap_append, List.flatMap_cons, utf16Char_ofNat h, List.singleton_append]
  unfold WellFormed
  rw [hwhole]
  constructor
  · intro heq
    obtain ⟨hunits, hrest⟩ := List.append_inj heq (length_utf16_scalars units)
    rw [List.cons.injEq] at hrest
    exact ⟨hunits, hrest.2⟩
  · intro hboth
    rw [hboth.1, hboth.2]

def utf8Coding : Coding UInt8 where
  code := String.utf8EncodeChar
  unit c := UInt8.ofNat c.toNat
  code_ascii c h := encodeChar_of_ascii h
  unit_inj c d hc hd h := by
    have hnat := congrArg UInt8.toNat h
    rw [toNat_ofNat_ascii hc, toNat_ofNat_ascii hd] at hnat
    exact Char.toNat_inj.1 hnat
  code_apart c h := by
    obtain ⟨first, rest, hcode⟩ := List.exists_cons_of_ne_nil (encodeChar_ne_nil c)
    refine ⟨first, rest, hcode, ?_⟩
    rintro d hd rfl
    have hle := le_of_mem_encodeChar h (b := UInt8.ofNat d.toNat) (by rw [hcode]; exact List.mem_cons_self ..)
    rw [toNat_ofNat_ascii hd] at hle
    omega

theorem utf8Coding_text (text : List Char) : utf8Coding.text text = encode text := rfl

def utf16Coding : Coding UInt16 where
  code := utf16Char
  unit c := UInt16.ofNat c.toNat
  code_ascii c h := by
    unfold utf16Char
    rw [if_pos (by omega)]
  unit_inj c d hc hd h := by
    have hnat := congrArg UInt16.toNat h
    rw [toNat_ofNat_unit (by omega), toNat_ofNat_unit (by omega)] at hnat
    exact Char.toNat_inj.1 hnat
  code_apart c h := by
    unfold utf16Char
    by_cases hlow : c.toNat < 0x10000
    · rw [if_pos hlow]
      refine ⟨_, _, rfl, ?_⟩
      intro d hd heq
      have hnat := congrArg UInt16.toNat heq
      rw [toNat_ofNat_unit (by omega), toNat_ofNat_unit (by omega)] at hnat
      omega
    · rw [if_neg hlow]
      refine ⟨_, _, rfl, ?_⟩
      intro d hd heq
      have hbound := toNat_lt c
      have hnat := congrArg UInt16.toNat heq
      rw [toNat_ofNat_unit (by omega), toNat_ofNat_unit (by omega)] at hnat
      omega

end Gostman.Lib
