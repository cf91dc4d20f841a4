import EventSchema.Decimal.Shortest
import EventSchema.Json.Basic

/-!
# JSON numerals

A literal without fraction and exponent that fits 64 bits is an integer.  Every other literal is a
binary number, read from as many leading digits as fit 64 bits without sign.
-/

namespace EventSchema

namespace Number

/-- Whole numbers that 64 bits hold lie below this bound. -/
def wordBound : Nat := 0x10000000000000000

/-- One more digit, as long as 64 bits hold the result. -/
def push? (significand digit : Nat) : Option Nat :=
  let next := significand * 10 + digit
  if next < wordBound then some next else none

/-- The value of a decimal digit. -/
def digit (c : Char) : Nat := c.toNat - '0'.toNat

/-- The leading digits that fit, and the number of digits left out behind them. -/
def gatherWhole (digits : List Char) : Nat × Nat :=
  digits.foldl (fun (significand, dropped) c =>
    match dropped, push? significand (digit c) with
    | 0, some next => (next, 0)
    | _, _ => (significand, dropped + 1)) (0, 0)

/-- The significand extended by the digits of a fraction that fit, and the number of those. -/
def gatherFraction (significand : Nat) : List Char → Nat × Nat
  | [] => (significand, 0)
  | c :: rest =>
    match push? significand (digit c) with
    | some next => let (s, places) := gatherFraction next rest; (s, places + 1)
    | none => (significand, 0)

/-- The value of an exponent: an optional sign and at least one digit, and nothing behind them. -/
def exponent? (text : List Char) : Option Int :=
  let value (digits : List Char) : Option Int :=
    if !digits.isEmpty && digits.all Char.isDigit then
      some (digits.foldl (fun n c => n * 10 + (digit c : Int)) 0)
    else none
  match text with
  | '+' :: rest => value rest
  | '-' :: rest => (value rest).map (- ·)
  | rest => value rest

/-- The exponent that follows the digits of a literal, zero if there is none. -/
def trailingExponent? : List Char → Option Int
  | [] => some 0
  | c :: rest => if c = 'e' ∨ c = 'E' then exponent? rest else none

/-- Whether digits form the whole part of a literal: at least one, and no zero in front of others. -/
def isWhole : List Char → Bool
  | [] => false
  | ['0'] => true
  | c :: _ => c != '0'

/-- The number that a literal without sign stands for, with the sign of the literal given. -/
def readUnsigned? (negative : Bool) (text : List Char) : Option Number :=
  let (whole, rest) := text.span Char.isDigit
  if !isWhole whole then none else
    let (significand, dropped) := gatherWhole whole
    match rest with
    | [] =>
      if dropped = 0 ∧ !negative then some (.int significand)
      else if dropped = 0 ∧ 0 < significand ∧ 2 * significand ≤ wordBound then some (.int (-significand))
      else (Binary64.ofDecimal? negative significand dropped).map .real
    | '.' :: tail =>
      let (fraction, rest) := tail.span Char.isDigit
      if fraction.isEmpty then none else
        let (significand, places) := gatherFraction significand fraction
        (trailingExponent? rest).bind fun exponent =>
          (Binary64.ofDecimal? negative significand (dropped - places + exponent)).map .real
    | rest =>
      (trailingExponent? rest).bind fun exponent =>
        (Binary64.ofDecimal? negative significand (dropped + exponent)).map .real

/-- The number that a literal stands for. -/
def read? : List Char → Option Number
  | '-' :: rest => readUnsigned? true rest
  | text => readUnsigned? false text

/-- Binary numbers are written without an exponent from 0.00001 up to sixteen whole digits, and a
whole number ends in {lit}`.0`. -/
def layout : Decimal.Layout := ⟨-5, 15, ".0", "+"⟩

/-- The text of a number. -/
def write : Number → String
  | .int n => toString n
  | .real x => layout.write x

end Number

end EventSchema
