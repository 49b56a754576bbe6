import Mathlib.Data.Nat.Log
import Mathlib.Data.Nat.ModEq
import Mathlib.Tactic.Ring
/-!
# Floating point numbers

Finite floating point numbers are multiples of the smallest positive double,
2 to the power of -1074, and stand here as that multiple.  The two zeros are one.
-/

namespace Gostman.Lib

/-- The one, as a multiple of the smallest positive double. -/
def one : Nat := 2 ^ 1074

inductive Number where
  | finite (multiple : Int)
  | nan
  | infinite (negative : Bool)
  deriving DecidableEq

def signed (negative : Bool) (magnitude : Nat) : Int :=
  if negative then -magnitude else magnitude

/-- The number of an exponent and a fraction: `width` bits of fraction, `top`
the exponent of what is not finite, and `shift` what the smallest number of
the format is, as a power of two. -/
def decodeFloat (width top shift : Nat) (negative : Bool) (exponent fraction : Nat) : Number :=
  if exponent = top then if fraction = 0 then .infinite negative else .nan
  else if exponent = 0 then .finite (signed negative (fraction * 2 ^ shift))
  else .finite (signed negative ((2 ^ width + fraction) * 2 ^ (exponent - 1 + shift)))

def float64 (bits : Nat) : Number :=
  decodeFloat 52 2047 0 (bits / 2 ^ 63 % 2 = 1) (bits / 2 ^ 52 % 2 ^ 11) (bits % 2 ^ 52)

def float32 (bits : Nat) : Number :=
  decodeFloat 23 255 925 (bits / 2 ^ 31 % 2 = 1) (bits / 2 ^ 23 % 2 ^ 8) (bits % 2 ^ 23)

def float16 (bits : Nat) : Number :=
  decodeFloat 10 31 1050 (bits / 2 ^ 15 % 2 = 1) (bits / 2 ^ 10 % 2 ^ 5) (bits % 2 ^ 10)

/-- The number is a finite double: below 2 to the power of 53 times a power of
two that is not too large. -/
def IsDouble (multiple : Int) : Prop :=
  multiple.natAbs < 2 ^ 52 ∨
    2 ^ (multiple.natAbs.log2 - 52) ∣ multiple.natAbs ∧ multiple.natAbs.log2 - 52 ≤ 2045

structure Double where
  multiple : Int
  isDouble : IsDouble multiple

def magnitudeBits (magnitude : Nat) : Nat :=
  if magnitude < 2 ^ 52 then magnitude
  else
    let shift := magnitude.log2 - 52
    (shift + 1) * 2 ^ 52 + (magnitude / 2 ^ shift - 2 ^ 52)

def float64Bits (multiple : Int) : Nat :=
  (if multiple < 0 then 2 ^ 63 else 0) + magnitudeBits multiple.natAbs

/-- The bits of a magnitude leave the sign free and give it back. -/
theorem magnitudeBits_spec {magnitude : Nat}
    (h : magnitude < 2 ^ 52 ∨
      2 ^ (magnitude.log2 - 52) ∣ magnitude ∧ magnitude.log2 - 52 ≤ 2045) :
    ∃ exponent fraction, magnitudeBits magnitude = exponent * 2 ^ 52 + fraction ∧
      exponent < 2047 ∧ fraction < 2 ^ 52 ∧
      (if exponent = 0 then fraction else (2 ^ 52 + fraction) * 2 ^ (exponent - 1)) = magnitude := by
  unfold magnitudeBits
  split
  case isTrue hsmall =>
    exact ⟨0, magnitude, by rw [Nat.zero_mul, Nat.zero_add], by decide, hsmall, if_pos rfl⟩
  case isFalse hlarge =>
    obtain ⟨hdvd, hshift⟩ := h.resolve_left hlarge
    have hne : magnitude ≠ 0 := by
      rintro rfl
      exact hlarge (by decide)
    have hlog : 52 ≤ magnitude.log2 := (Nat.le_log2 hne).2 (Nat.le_of_not_lt hlarge)
    generalize hs : magnitude.log2 - 52 = shift at hdvd hshift
    have hlow : 2 ^ 52 ≤ magnitude / 2 ^ shift := by
      rw [Nat.le_div_iff_mul_le (Nat.two_pow_pos shift), ← Nat.pow_add]
      have hexp : 52 + shift = magnitude.log2 := by omega
      rw [hexp]
      exact Nat.log2_self_le hne
    have hhigh : magnitude / 2 ^ shift < 2 ^ 53 := by
      rw [Nat.div_lt_iff_lt_mul (Nat.two_pow_pos shift), ← Nat.pow_add]
      have hexp : 53 + shift = magnitude.log2 + 1 := by omega
      rw [hexp]
      exact Nat.lt_log2_self
    refine ⟨shift + 1, magnitude / 2 ^ shift - 2 ^ 52, rfl, by omega, by omega, ?_⟩
    rw [if_neg (Nat.succ_ne_zero shift), Nat.add_sub_cancel, Nat.add_sub_cancel' hlow,
      Nat.div_mul_cancel hdvd]

theorem signed_natAbs (multiple : Int) : signed (multiple < 0) multiple.natAbs = multiple := by
  unfold signed
  split
  case isTrue h =>
    have hneg := of_decide_eq_true h
    omega
  case isFalse h =>
    have hpos : ¬ multiple < 0 := fun hneg => h (decide_eq_true hneg)
    omega

/-- A finite double is the double of its bits. -/
theorem float64_float64Bits {multiple : Int} (h : IsDouble multiple) :
    float64Bits multiple < 2 ^ 64 ∧ float64 (float64Bits multiple) = .finite multiple := by
  obtain ⟨exponent, fraction, hbits, hexponent, hfraction, hvalue⟩ := magnitudeBits_spec h
  have hmagnitude : magnitudeBits multiple.natAbs < 2 ^ 63 := by
    rw [hbits]
    omega
  have hsign : float64Bits multiple / 2 ^ 63 % 2 = if multiple < 0 then 1 else 0 := by
    unfold float64Bits
    split <;> omega
  have hexp : float64Bits multiple / 2 ^ 52 % 2 ^ 11 = exponent := by
    unfold float64Bits
    rw [hbits]
    split <;> omega
  have hfrac : float64Bits multiple % 2 ^ 52 = fraction := by
    unfold float64Bits
    rw [hbits]
    split <;> omega
  constructor
  · unfold float64Bits
    split <;> omega
  · have hnegative : decide (float64Bits multiple / 2 ^ 63 % 2 = 1) = decide (multiple < 0) := by
      rw [hsign]
      split <;> simp_all
    unfold float64 decodeFloat
    rw [hexp, hfrac, if_neg (by omega), hnegative]
    split
    case isTrue hzero =>
      rw [if_pos hzero] at hvalue
      rw [Nat.pow_zero, Nat.mul_one, hvalue, signed_natAbs]
    case isFalse hnonzero =>
      rw [if_neg hnonzero] at hvalue
      rw [Nat.add_zero, hvalue, signed_natAbs]

end Gostman.Lib

/-!
# Doubles in decimal

The double nearest to a fraction, and the fewest decimal digits that are read
as a double again.
-/

namespace Gostman.Lib

/-- `digits` times ten to the power of `exponent`, as a fraction. -/
def powered (digits : Nat) (exponent : Int) : Nat × Nat :=
  if 0 ≤ exponent then (digits * 10 ^ exponent.toNat, 1) else (digits, 10 ^ (-exponent).toNat)

/-- The magnitude of the nearest double, of two the even one; `none` where it
is too large. -/
def nearest (fraction : Nat × Nat) : Option Nat :=
  let scaled := fraction.1 * one
  let width := fraction.2 * 2 ^ ((scaled / fraction.2).log2 - 52)
  let below := scaled / width
  let twice := 2 * (scaled % width)
  let rounded := if width < twice ∨ width = twice ∧ below % 2 = 1 then below + 1 else below
  let magnitude := rounded * 2 ^ ((scaled / fraction.2).log2 - 52)
  if magnitude < 2 ^ 1024 * one then some magnitude else none

/-- Where the decimal point of a magnitude stands: it is below this power of
ten, and not below the one before. -/
def pointOf (magnitude : Nat) : Int :=
  if one ≤ magnitude then (Nat.toDigits 10 (magnitude / one)).length
  else
    match (List.range 324).find? fun zeros => one ≤ magnitude * 10 ^ (zeros + 1) with
    | some zeros => -zeros
    | none => -324

/-- The number of so many digits that is read as the magnitude again and is
nearest to it. -/
def digitsOf (magnitude count : Nat) : Option Nat :=
  let point := pointOf magnitude
  let (above, below) := powered magnitude (count - point)
  let low := above / (below * one)
  let twice := 2 * (above % (below * one))
  let fits := fun digits => nearest (powered digits (point - count)) = some magnitude
  let nearer := if twice < below * one ∨ twice = below * one ∧ low % 2 = 0 then low else low + 1
  let other := if nearer = low then low + 1 else low
  if fits nearer then some nearer else if fits other then some other else none

/-- The fewest digits that are read as the magnitude again, and the place of
their decimal point. -/
def shortest (magnitude : Nat) : List Char × Int :=
  let point := pointOf magnitude
  match (List.range' 1 17).findSome? fun count => (digitsOf magnitude count).map (·, count) with
  | some (digits, count) =>
      if digits = 10 ^ count then (['1'], point + 1) else (Nat.toDigits 10 digits, point)
  | none => ([], point)

end Gostman.Lib

/-!
# Floating point arithmetic

Sums, differences and products of doubles, each rounded to the nearest double,
and the comparisons and roundings of a standard library.
-/

namespace Gostman.Lib

def ofFraction (negative : Bool) (fraction : Nat × Nat) : Number :=
  match nearest fraction with
  | some magnitude => .finite (signed negative magnitude)
  | none => .infinite negative

/-- The double nearest to a multiple of the smallest one. -/
def ofMultiple (multiple : Int) : Number :=
  ofFraction (multiple < 0) (multiple.natAbs, one)

namespace Number

def add : Number → Number → Number
  | finite first, finite second => ofMultiple (first + second)
  | nan, _ | _, nan => nan
  | infinite first, infinite second => if first = second then infinite first else nan
  | infinite negative, _ | _, infinite negative => infinite negative

def neg : Number → Number
  | finite multiple => finite (-multiple)
  | nan => nan
  | infinite negative => infinite !negative

def sub (first second : Number) : Number :=
  first.add second.neg

def mul : Number → Number → Number
  | finite first, finite second =>
      ofFraction (first * second < 0) ((first * second).natAbs, one * one)
  | nan, _ | _, nan => nan
  | infinite negative, finite multiple | finite multiple, infinite negative =>
      if multiple = 0 then nan else infinite (negative != decide (multiple < 0))
  | infinite first, infinite second => infinite (first != second)

def less : Number → Number → Bool
  | finite first, finite second => first < second
  | finite _, infinite negative => !negative
  | infinite negative, finite _ => negative
  | infinite first, infinite second => first && !second
  | nan, _ | _, nan => false

def min (first second : Number) : Number :=
  if first = infinite true ∨ second = infinite true then infinite true
  else if first = nan ∨ second = nan then nan
  else if second.less first then second else first

def max (first second : Number) : Number :=
  if first = infinite false ∨ second = infinite false then infinite false
  else if first = nan ∨ second = nan then nan
  else if first.less second then second else first

def round : Number → Number
  | finite multiple => finite (signed (multiple < 0) ((2 * multiple.natAbs + one) / (2 * one) * one))
  | other => other

/-- The whole part, `int(value)`, of a number that is not negative. -/
def whole : Number → Nat
  | finite multiple => (multiple / one).toNat
  | _ => 0

def ofNat (n : Nat) : Number :=
  finite (n * one)

end Number

end Gostman.Lib
