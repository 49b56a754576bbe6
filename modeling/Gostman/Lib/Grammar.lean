import Gostman.Lib.Reading
/-!
# Readings and grammars

A grammar says which bytes a value may be written as.  A reading follows it
when it takes from the front of a byte string exactly what was written for the
value it gives, whatever follows.
-/

namespace Gostman.Lib

universe u

variable {α β ε : Type u}

def Reads (read : Reading α) (written : α → Bytes → Prop) : Prop :=
  ∀ bytes value rest, read bytes = some (value, rest) ↔ ∃ front, written value front ∧ bytes = front ++ rest

inductive InRow (written : α → Bytes → Prop) : List α → Bytes → Prop where
  | nil : InRow written [] []
  | cons {value values front back} (hvalue : written value front) (hvalues : InRow written values back) :
      InRow written (value :: values) (front ++ back)

def Paired (first : α → Bytes → Prop) (second : β → Bytes → Prop) (pair : α × β) (bytes : Bytes) : Prop :=
  ∃ front back, first pair.1 front ∧ second pair.2 back ∧ bytes = front ++ back

def UpTo (written : ε ⊕ α → Bytes → Prop) (found : List α × ε) (bytes : Bytes) : Prop :=
  Paired (InRow fun value => written (.inr value)) (fun stop => written (.inl stop)) found bytes

variable {read : Reading α} {written : α → Bytes → Prop}

theorem Reads.congr (h : Reads read written) {other : α → Bytes → Prop}
    (heq : ∀ value front, written value front ↔ other value front) : Reads read other := by
  intro bytes value rest
  simp only [h bytes value rest, heq]

theorem reads_none : Reads (fun _ => (none : Option (α × Bytes))) fun _ _ => False := by
  intro bytes value rest
  simp

theorem reads_pure (value : α) :
    Reads (fun bytes => some (value, bytes)) fun other front => other = value ∧ front = [] := by
  intro bytes other rest
  constructor
  · intro h
    obtain ⟨rfl, rfl⟩ := Prod.mk.inj (Option.some.inj h)
    exact ⟨[], ⟨rfl, rfl⟩, rfl⟩
  · rintro ⟨front, ⟨rfl, rfl⟩, rfl⟩
    rfl

theorem Reads.map (h : Reads read written) (f : α → β) :
    Reads (through read fun value => some (f value)) fun result front =>
      ∃ value, result = f value ∧ written value front := by
  intro bytes result rest
  rw [through_eq_some]
  constructor
  · rintro ⟨value, hread, hresult⟩
    obtain ⟨front, hfront, rfl⟩ := (h bytes value rest).1 hread
    exact ⟨front, ⟨value, (Option.some.inj hresult).symm, hfront⟩, rfl⟩
  · rintro ⟨front, ⟨value, rfl, hfront⟩, rfl⟩
    exact ⟨value, (h _ value rest).2 ⟨front, hfront, rfl⟩, rfl⟩

theorem reads_takeBytes (count : Nat) :
    Reads (takeBytes count) fun value front => value = front ∧ front.length = count := by
  intro bytes value rest
  constructor
  · intro h
    obtain ⟨hcount, h⟩ := Option.ite_none_left_eq_some.1 h
    obtain ⟨rfl, rfl⟩ := Prod.mk.inj (Option.some.inj h)
    exact ⟨_, ⟨rfl, List.length_take_of_le (by omega)⟩, (List.take_append_drop count bytes).symm⟩
  · rintro ⟨front, ⟨rfl, hlength⟩, rfl⟩
    exact takeBytes_append hlength rest

theorem Reads.inTurn (h : Reads read written) {second : Reading β} {other : β → Bytes → Prop}
    (h' : Reads second other) : Reads (inTurn read second) (Paired written other) := by
  intro bytes pair rest
  rw [inTurn_eq_some]
  constructor
  · rintro ⟨bytes', hfirst, hsecond⟩
    obtain ⟨front, hfront, rfl⟩ := (h bytes _ _).1 hfirst
    obtain ⟨back, hback, rfl⟩ := (h' _ _ _).1 hsecond
    exact ⟨front ++ back, ⟨front, back, hfront, hback, rfl⟩, (List.append_assoc front back rest).symm⟩
  · rintro ⟨_, ⟨front, back, hfront, hback, rfl⟩, rfl⟩
    exact ⟨back ++ rest, (h _ _ _).2 ⟨front, hfront, List.append_assoc front back rest⟩,
      (h' _ _ _).2 ⟨back, hback, rfl⟩⟩

/-- A number of values is read as a row of so many. -/
theorem Reads.times (h : Reads read written) (count : Nat) :
    Reads (times read count) fun values front => values.length = count ∧ InRow written values front := by
  induction count with
  | zero =>
      intro bytes values rest
      constructor
      · intro hread
        obtain ⟨rfl, rfl⟩ := Prod.mk.inj (Option.some.inj hread)
        exact ⟨[], ⟨rfl, .nil⟩, rfl⟩
      · rintro ⟨front, ⟨hlength, hrow⟩, rfl⟩
        obtain rfl := List.length_eq_zero_iff.1 hlength
        cases hrow
        rfl
  | succ count ih =>
      intro bytes values rest
      rw [times_succ_eq_some]
      constructor
      · rintro ⟨value, bytes', others, hread, htimes, rfl⟩
        obtain ⟨front, hfront, rfl⟩ := (h _ _ _).1 hread
        obtain ⟨back, ⟨hlength, hrow⟩, rfl⟩ := (ih _ _ _).1 htimes
        exact ⟨front ++ back, ⟨congrArg (· + 1) hlength, .cons hfront hrow⟩,
          (List.append_assoc front back rest).symm⟩
      · rintro ⟨front, ⟨hlength, hrow⟩, rfl⟩
        cases hrow with
        | nil => exact absurd hlength (Nat.succ_ne_zero count).symm
        | cons hvalue hvalues =>
            exact ⟨_, _, _, (h _ _ _).2 ⟨_, hvalue, List.append_assoc _ _ rest⟩,
              (ih _ _ _).2 ⟨_, ⟨Nat.succ.inj hlength, hvalues⟩, rfl⟩, rfl⟩

section Ending

variable {reader : Reading (ε ⊕ α)} {grammar : ε ⊕ α → Bytes → Prop}

/-- With more steps than bytes, values up to an end are read as they are written, if
each takes a byte at least. -/
theorem Reads.untilEnd (h : Reads reader grammar) (hpos : ∀ {value front}, grammar value front → front ≠ [])
    (fuel : Nat) : ∀ bytes found rest, bytes.length < fuel →
      (untilEnd reader fuel bytes = some (found, rest) ↔
        ∃ front, UpTo grammar found front ∧ bytes = front ++ rest) := by
  induction fuel with
  | zero => exact fun bytes _ _ hlength => absurd hlength (Nat.not_lt_zero _)
  | succ fuel ih =>
      intro bytes found rest hlength
      rw [untilEnd_succ_eq_some]
      constructor
      · rintro (⟨stop, hread, rfl⟩ | ⟨value, bytes', values, stop, hread, huntil, rfl⟩)
        · obtain ⟨front, hfront, rfl⟩ := (h _ _ _).1 hread
          exact ⟨front, ⟨[], front, .nil, hfront, rfl⟩, rfl⟩
        · obtain ⟨front, hfront, rfl⟩ := (h _ _ _).1 hread
          have hshorter := List.length_pos_iff.2 (hpos hfront)
          rw [List.length_append] at hlength
          obtain ⟨_, ⟨row, last, hrow, hlast, rfl⟩, rfl⟩ := (ih bytes' _ rest (by omega)).1 huntil
          exact ⟨front ++ row ++ last, ⟨front ++ row, last, .cons hfront hrow, hlast, rfl⟩, by simp⟩
      · rintro ⟨_, ⟨row, last, hrow, hlast, rfl⟩, rfl⟩
        obtain ⟨values, stop⟩ := found
        cases hrow with
        | nil => exact .inl ⟨stop, (h _ _ _).2 ⟨last, hlast, by simp⟩, rfl⟩
        | @cons value values front back hvalue hvalues =>
            have hshorter := List.length_pos_iff.2 (hpos hvalue)
            simp only [List.length_append] at hlength
            refine .inr ⟨value, back ++ (last ++ rest), values, stop, ?_, ?_, rfl⟩
            · exact (h _ _ _).2 ⟨front, hvalue, by simp⟩
            · refine (ih _ _ rest (by simp only [List.length_append]; omega)).2 ?_
              exact ⟨back ++ last, ⟨back, last, hvalues, hlast, rfl⟩, by simp⟩

theorem Reads.toEnd (h : Reads reader grammar) (hpos : ∀ {value front}, grammar value front → front ≠ []) :
    Reads (toEnd reader) (UpTo grammar) :=
  fun bytes found rest => h.untilEnd hpos (bytes.length + 1) bytes found rest (Nat.lt_succ_self _)

end Ending

def Ended (ends : α → Option ε) (written : α → Bytes → Prop) : ε ⊕ α → Bytes → Prop
  | .inl stop, front => ∃ value, ends value = some stop ∧ written value front
  | .inr value, front => ends value = none ∧ written value front

theorem Reads.orEnd (h : Reads read written) (ends : α → Option ε) :
    Reads (orEnd ends read) (Ended ends written) := by
  refine (h.map fun value => (ends value).elim (Sum.inr value) Sum.inl).congr ?_
  rintro (stop | value) front
  · constructor
    · rintro ⟨value, heq, hwritten⟩
      cases hend : ends value with
      | none => rw [hend] at heq; exact absurd heq Sum.inl_ne_inr
      | some other =>
          rw [hend] at heq
          obtain rfl := Sum.inl.inj heq
          exact ⟨value, hend, hwritten⟩
    · rintro ⟨value, hend, hwritten⟩
      exact ⟨value, by rw [hend]; rfl, hwritten⟩
  · constructor
    · rintro ⟨other, heq, hwritten⟩
      cases hend : ends other with
      | none =>
          rw [hend] at heq
          obtain rfl := Sum.inr.inj heq
          exact ⟨hend, hwritten⟩
      | some stop => rw [hend] at heq; exact absurd heq Sum.inr_ne_inl
    · rintro ⟨hend, hwritten⟩
      exact ⟨value, by rw [hend]; rfl, hwritten⟩

/-- A key that ends the row, or one that does not and its value. -/
def EndedPair (ends : α → Option ε) (first : α → Bytes → Prop) (second : β → Bytes → Prop) :
    ε ⊕ (α × β) → Bytes → Prop
  | .inl stop, front => ∃ value, ends value = some stop ∧ first value front
  | .inr pair, front => ends pair.1 = none ∧ Paired first second pair front

theorem Reads.inTurnOrEnd (h : Reads read written) {second : Reading β} {other : β → Bytes → Prop}
    (h' : Reads second other) (ends : α → Option ε) :
    Reads (inTurnOrEnd ends read second) (EndedPair ends written other) := by
  have hpair := h.inTurn h'
  intro bytes found rest
  constructor
  · intro hread
    obtain ⟨⟨value, bytes'⟩, hfirst, hnext⟩ := Option.bind_eq_some_iff.1 hread
    obtain ⟨front, hfront, rfl⟩ := (h _ _ _).1 hfirst
    simp only at hnext
    split at hnext
    case h_1 stop hend =>
      obtain ⟨rfl, rfl⟩ := Prod.mk.inj (Option.some.inj hnext)
      exact ⟨front, ⟨value, hend, hfront⟩, rfl⟩
    case h_2 hend =>
      obtain ⟨⟨next, rest'⟩, hsecond, heq⟩ := Option.map_eq_some_iff.1 hnext
      obtain ⟨rfl, rfl⟩ := Prod.mk.inj heq
      obtain ⟨back, hback, rfl⟩ := (h' _ _ _).1 hsecond
      exact ⟨front ++ back, ⟨hend, front, back, hfront, hback, rfl⟩, by simp⟩
  · rintro ⟨front, hfound, rfl⟩
    unfold Lib.inTurnOrEnd
    rcases found with stop | ⟨value, next⟩
    · obtain ⟨value, hend, hfront⟩ := hfound
      rw [(h _ value rest).2 ⟨front, hfront, rfl⟩, Option.bind_some]
      simp only [hend]
    · obtain ⟨hend, hboth⟩ := hfound
      obtain ⟨bytes', hfirst, hsecond⟩ := inTurn_eq_some.1 ((hpair _ _ rest).2 ⟨front, hboth, rfl⟩)
      rw [hfirst, Option.bind_some]
      simp only [hend]
      exact Option.map_eq_some_iff.2 ⟨(next, rest), hsecond, rfl⟩

/-! ## Numbers -/

theorem foldl_ofBigEndian (bytes : Bytes) (start : Nat) :
    bytes.foldl (fun value b => 256 * value + b.toNat) start =
      start * 256 ^ bytes.length + ofBigEndian bytes := by
  unfold ofBigEndian
  induction bytes generalizing start with
  | nil => simp
  | cons b bytes ih =>
      rw [List.foldl_cons, List.foldl_cons, ih, ih (256 * 0 + b.toNat), List.length_cons, Nat.pow_succ]
      ring

theorem ofBigEndian_cons (b : UInt8) (bytes : Bytes) :
    ofBigEndian (b :: bytes) = b.toNat * 256 ^ bytes.length + ofBigEndian bytes := by
  rw [ofBigEndian, List.foldl_cons, foldl_ofBigEndian, Nat.mul_zero, Nat.zero_add]

theorem ofBigEndian_lt (bytes : Bytes) : ofBigEndian bytes < 256 ^ bytes.length := by
  induction bytes with
  | nil => exact Nat.one_pos
  | cons b bytes ih =>
      have hbyte := b.toNat_lt
      have hle : b.toNat * 256 ^ bytes.length ≤ 255 * 256 ^ bytes.length :=
        Nat.mul_le_mul_right _ (by omega)
      rw [ofBigEndian_cons, List.length_cons, Nat.pow_succ]
      omega

theorem bigEndian_congr {width value other : Nat} (h : value % 256 ^ width = other % 256 ^ width) :
    bigEndian width value = bigEndian width other := by
  induction width with
  | zero => rfl
  | succ width ih =>
      have hlow : value % 256 ^ width = other % 256 ^ width := by
        have := congrArg (· % 256 ^ width) h
        simpa only [Nat.pow_succ, Nat.mod_mul_right_mod] using this
      have hhigh : value / 256 ^ width % 256 = other / 256 ^ width % 256 := by
        rw [Nat.pow_succ, Nat.mod_mul, Nat.mod_mul, hlow] at h
        exact Nat.eq_of_mul_eq_mul_left (Nat.pow_pos (by decide)) (Nat.add_left_cancel h)
      rw [bigEndian, bigEndian, ih hlow]
      congr 1
      exact UInt8.toNat_inj.1 (by simpa using hhigh)

theorem bigEndian_ofBigEndian (bytes : Bytes) : bigEndian bytes.length (ofBigEndian bytes) = bytes := by
  induction bytes with
  | nil => rfl
  | cons b bytes ih =>
      have hpos : 0 < 256 ^ bytes.length := Nat.pow_pos (by decide)
      have hlow : (b.toNat * 256 ^ bytes.length + ofBigEndian bytes) % 256 ^ bytes.length =
          ofBigEndian bytes % 256 ^ bytes.length := by
        rw [Nat.mul_comm, Nat.mul_add_mod]
      have hhigh : (b.toNat * 256 ^ bytes.length + ofBigEndian bytes) / 256 ^ bytes.length = b.toNat := by
        rw [Nat.mul_comm, Nat.mul_add_div hpos, Nat.div_eq_of_lt (ofBigEndian_lt bytes), Nat.add_zero]
      rw [List.length_cons, ofBigEndian_cons, bigEndian, hhigh, bigEndian_congr hlow, ih]
      simp

theorem reads_unsigned (width : Nat) :
    Reads (unsigned width) fun value front => value < 256 ^ width ∧ front = bigEndian width value := by
  intro bytes value rest
  constructor
  · intro h
    obtain ⟨⟨front, rest'⟩, htake, h⟩ := Option.map_eq_some_iff.1 h
    obtain ⟨rfl, rfl⟩ := Prod.mk.inj h
    obtain ⟨_, ⟨rfl, rfl⟩, rfl⟩ := (reads_takeBytes width _ _ _).1 htake
    exact ⟨front, ⟨ofBigEndian_lt front, (bigEndian_ofBigEndian front).symm⟩, rfl⟩
  · rintro ⟨front, ⟨hvalue, rfl⟩, rfl⟩
    exact unsigned_append hvalue rest

end Gostman.Lib
