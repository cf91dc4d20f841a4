import EventSchema.Decimal.Binary64

/-!
# Shortest decimal text of a finite number

The digits of a number are the fewest that read back as that number, and of those the nearest.
They are found on ever finer decimal grids: if any point of a grid rounds to the number, one of the
two neighbours of the number on that grid does.  How digits are laid out is one record.
-/

namespace EventSchema

/-- A positive decimal: a whole number of units of a power of ten. -/
structure Decimal where
  digits : Nat
  places : Int
deriving DecidableEq, Repr

namespace Decimal

/-- How the digits of a number are written out. -/
structure Layout where
  /-- The least exponent of the leading digit that is written without an exponent. -/
  lowest : Int
  /-- The greatest exponent of the leading digit that is written without an exponent. -/
  highest : Int
  /-- What follows a whole number written without an exponent. -/
  wholeMark : String
  /-- What stands before an exponent that is not negative. -/
  plusMark : String

/-- The number of decimal digits of a natural number. -/
def width (n : Nat) : Nat := (Nat.toDigits 10 n).length

/-- The exponent of the leading decimal digit of a positive quotient. -/
def leadingPlace (num den : Nat) : Int :=
  if den ≤ num then (width (num / den) : Int) - 1
  else if den % num = 0 ∧ Nat.pow 10 (width (den / num) - 1) = den / num then
    1 - (width (den / num) : Int)
  else -(width (den / num) : Int)

/--
The real numbers that round to a given number, in units of a fraction {lit}`num / den`: those from
{lit}`low` to {lit}`high`, the ends included when {lit}`closed` holds.
-/
structure Basin where
  low : Nat
  centre : Nat
  high : Nat
  closed : Bool
  num : Nat
  den : Nat

/-- The basin of a number; its lower half is narrower at a power of two. -/
def Basin.of (x : Binary64) : Basin :=
  let m := x.significand
  let power := x.exponent - 2
  { low := if m = Binary64.fractions ∧ x.magnitude ≥ 2 * Binary64.fractions then 4 * m - 1 else 4 * m - 2
    centre := 4 * m
    high := 4 * m + 2
    closed := m % 2 = 0
    num := Nat.pow 2 power.toNat
    den := Nat.pow 2 (-power).toNat }

/-- Whether {lit}`d` units of a power of ten lie in the basin. -/
def Basin.holds (b : Basin) (places : Int) (d : Nat) : Bool :=
  let unit := b.num * Nat.pow 10 (-places).toNat
  let here := d * (b.den * Nat.pow 10 places.toNat)
  if b.closed then b.low * unit ≤ here ∧ here ≤ b.high * unit
  else b.low * unit < here ∧ here < b.high * unit

/-- The neighbour on one grid that lies in the basin, the nearer of two, the even one of a tie. -/
def Basin.onGrid? (b : Basin) (places : Int) : Option Decimal :=
  let unit := b.num * Nat.pow 10 (-places).toNat
  let step := b.den * Nat.pow 10 places.toNat
  let value := b.centre * unit
  let d := value / step
  let below := value - d * step
  let above := (d + 1) * step - value
  match b.holds places d && decide (0 < d), b.holds places (d + 1) with
  | true, true =>
    some ⟨if below < above ∨ (below = above ∧ d % 2 = 0) then d else d + 1, places⟩
  | true, false => some ⟨d, places⟩
  | false, true => some ⟨d + 1, places⟩
  | false, false => none

/-- The shortest decimal that reads back as a positive number. -/
def shortest (x : Binary64) : Decimal :=
  let b := Basin.of x
  let lead := leadingPlace (b.centre * b.num) b.den
  ((List.range 17).findSome? fun (n : Nat) => b.onGrid? (lead - (n : Int))).getD ⟨b.centre, 0⟩

/-- The digits of a decimal without zeros at its end, and the exponent of the leading one. -/
def significant (d : Decimal) : List Char × Int :=
  let all := Nat.toDigits 10 d.digits
  (all.reverse.dropWhile (· == '0') |>.reverse, (all.length : Int) - 1 + d.places)

/-- Digits written without an exponent. -/
def Layout.positional (layout : Layout) (digits : List Char) (lead : Int) : String :=
  let zeros (n : Int) : List Char := List.replicate n.toNat '0'
  if lead < 0 then
    String.ofList ('0' :: '.' :: (zeros (-lead - 1) ++ digits))
  else
    let whole := lead.toNat + 1
    if digits.length ≤ whole then
      String.ofList (digits ++ zeros (whole - digits.length)) ++ layout.wholeMark
    else
      String.ofList (digits.take whole ++ '.' :: digits.drop whole)

/-- Digits written with an exponent. -/
def Layout.scientific (layout : Layout) (digits : List Char) (lead : Int) : String :=
  let fraction := digits.drop 1
  let point := if fraction.isEmpty then [] else '.' :: fraction
  String.ofList (digits.take 1 ++ point) ++ "e" ++
    (if lead < 0 then "-" else layout.plusMark) ++ toString lead.natAbs

/-- The text of a finite number. -/
def Layout.write (layout : Layout) (x : Binary64) : String :=
  let sign := if x.negative then "-" else ""
  if x.isZero then
    sign ++ "0" ++ layout.wholeMark
  else
    let (digits, lead) := (shortest x).significant
    sign ++
      if layout.lowest ≤ lead ∧ lead ≤ layout.highest then layout.positional digits lead
      else layout.scientific digits lead

/-- The exponents of all finite numbers are written out, and a whole number has no point. -/
def plain : Layout := ⟨-400, 400, "", ""⟩

end Decimal

end EventSchema
