import Gostman.Lib.Doubles
/-!
# Numerals

A number of a JSON text as it is written, the double JavaScript reads it as,
and the text `String(number)` writes for that.
-/

namespace Gostman.Js

open Gostman.Lib

/-! ## Reading -/

/-- A sign, digits and where their decimal point stands. -/
structure Decimal where
  negative : Bool
  digits : Nat
  exponent : Int

def natOf (digits : List Char) : Nat :=
  digits.foldl (fun value digit => 10 * value + (digit.toNat - '0'.toNat)) 0

/-- The digits at the start of a text, which must not be missing. -/
def readDigits (chars : List Char) : Option (List Char × List Char) :=
  match chars.span (·.isDigit) with
  | ([], _) => none
  | (digits, rest) => some (digits, rest)

def readExponent : List Char → Option Int
  | [] => some 0
  | c :: '-' :: rest =>
      if c = 'e' ∨ c = 'E' then
        match readDigits rest with
        | some (digits, []) => some (-natOf digits)
        | _ => none
      else none
  | c :: rest =>
      if c = 'e' ∨ c = 'E' then
        match readDigits (if rest.head? = some '+' then rest.tail else rest) with
        | some (digits, []) => some (natOf digits)
        | _ => none
      else none

def readDecimal (chars : List Char) : Option Decimal := do
  let negative := chars.head? = some '-'
  let (whole, rest) ← readDigits (if negative then chars.tail else chars)
  guard (whole = ['0'] ∨ whole.head? ≠ some '0')
  let (fraction, rest) ←
    match rest with
    | '.' :: rest => readDigits rest
    | _ => some ([], rest)
  let exponent ← readExponent rest
  return ⟨negative, natOf (whole ++ fraction), exponent - fraction.length⟩

structure Numeral where
  text : String
  isDecimal : (readDecimal text.toList).isSome
deriving DecidableEq

def Numeral.decimal (numeral : Numeral) : Decimal :=
  (readDecimal numeral.text.toList).get numeral.isDecimal

def Numeral.number (numeral : Numeral) : Number :=
  let decimal := numeral.decimal
  match nearest (powered decimal.digits decimal.exponent) with
  | some magnitude => .finite (signed decimal.negative magnitude)
  | none => .infinite decimal.negative

/-! ## Writing -/

/-- `Number::toString` of a positive number, from its digits. -/
def writeDigits (digits : List Char) (point : Int) : List Char :=
  let count := digits.length
  if count ≤ point ∧ point ≤ 21 then digits ++ List.replicate (point.toNat - count) '0'
  else if 0 < point ∧ point ≤ 21 then digits.take point.toNat ++ '.' :: digits.drop point.toNat
  else if -6 < point ∧ point ≤ 0 then '0' :: '.' :: List.replicate (-point).toNat '0' ++ digits
  else
    let exponent := (if 0 < point then '+' else '-') :: Nat.toDigits 10 (point - 1).natAbs
    match digits with
    | [digit] => digit :: 'e' :: exponent
    | _ => digits.take 1 ++ '.' :: digits.drop 1 ++ 'e' :: exponent

def numberText : Number → String
  | .nan => "NaN"
  | .infinite negative => if negative then "-Infinity" else "Infinity"
  | .finite multiple =>
      if multiple = 0 then "0"
      else
        let (digits, point) := shortest multiple.natAbs
        String.ofList ((if multiple < 0 then ['-'] else []) ++ writeDigits digits point)

def Numeral.rewritten (numeral : Numeral) : String :=
  numberText numeral.number

end Gostman.Js
