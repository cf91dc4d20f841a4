/-!
# Finite binary floating-point numbers

A finite number of 64 bits is a sign and an encoded magnitude below the first code that is not
finite.  All arithmetic here is exact on natural numbers, followed by one rounding of a quotient to
the nearest number, ties to the even code.

Main results:

- {lit}`Binary64.same_refl`, {lit}`Binary64.same_comm`: numeric equality, which does not tell the
  two zeros apart, is reflexive and symmetric.
- {lit}`Binary64.same_iff`: equal numbers are equal codes or two zeros.
-/

namespace EventSchema

/-- The number of codes that share an exponent: a fraction has 52 bits. -/
def Binary64.fractions : Nat := 0x10000000000000

/-- Codes from here on are not finite: there are 2047 exponents below. -/
def Binary64.overflowCode : Nat := 0x7FF0000000000000

/-- A finite number: its sign, and its exponent and fraction as one code. -/
structure Binary64 where
  negative : Bool
  magnitude : Nat
  finite : magnitude < Binary64.overflowCode
deriving DecidableEq

namespace Binary64

/-- The number without a magnitude, of the given sign. -/
def zero (negative : Bool) : Binary64 := ⟨negative, 0, by decide⟩

/-- Whether the number is one of the two zeros. -/
def isZero (x : Binary64) : Bool := x.magnitude == 0

/-- Numeric equality: the two zeros are equal. -/
def same (x y : Binary64) : Bool := x == y || (x.isZero && y.isZero)

theorem same_iff {x y : Binary64} : x.same y = true ↔ x = y ∨ (x.isZero ∧ y.isZero) := by
  simp [same]

@[simp]
theorem same_refl (x : Binary64) : x.same x = true := by
  simp [same]

theorem same_comm (x y : Binary64) : x.same y = y.same x := by
  rw [Bool.eq_iff_iff, same_iff, same_iff]
  exact or_congr eq_comm and_comm

/-! ## Decoding -/

/-- The whole number that the magnitude multiplies by a power of two. -/
def significand (x : Binary64) : Nat :=
  if x.magnitude < fractions then x.magnitude else fractions + x.magnitude % fractions

/-- The power of two that goes with the significand. -/
def exponent (x : Binary64) : Int :=
  ((max (x.magnitude / fractions) 1 : Nat) : Int) - 1075

/-- The magnitude as a quotient of natural numbers. -/
def ratio (x : Binary64) : Nat × Nat :=
  if x.exponent < 0 then (x.significand, Nat.pow 2 (-x.exponent).toNat)
  else (x.significand * Nat.pow 2 x.exponent.toNat, 1)

/-! ## Rounding -/

/-- The nearest natural number to a quotient; a half goes to the even neighbour. -/
def roundQuotient (num den : Nat) : Nat :=
  let whole := num / den
  let twice := 2 * (num % den)
  if twice < den then whole
  else if twice > den then whole + 1
  else whole + whole % 2

/--
The code of the magnitude nearest to {lit}`num / den`.

The power of two is chosen so that the rounded significand has 53 bits, or is the least power that
a code can express; a significand that rounds up to 54 bits carries into the exponent of the code.
-/
def roundCode (num den : Nat) : Nat :=
  if num = 0 then 0 else
    let guess : Int := (num.log2 : Int) - (den.log2 : Int) - 52
    let scaled (power : Int) : Nat × Nat :=
      if power < 0 then (num * Nat.pow 2 (-power).toNat, den) else (num, den * Nat.pow 2 power.toNat)
    let below := scaled guess
    let power := max (if below.1 / below.2 < fractions then guess - 1 else guess) (-1074)
    let (n, d) := scaled power
    (power + 1074).toNat * fractions + roundQuotient n d

/-- The number nearest to {lit}`num / den`, unless it is not finite. -/
def ofRatio? (negative : Bool) (num den : Nat) : Option Binary64 :=
  let code := roundCode num den
  if h : code < overflowCode then some ⟨negative, code, h⟩ else none

/--
The number nearest to a significand and a power of ten, unless it is not finite.  Powers far out of
range are decided without being computed.
-/
def nearest? (negative : Bool) (significand : Nat) (places : Int) : Option Binary64 :=
  if significand = 0 then some (zero negative)
  else if 400 < places then none
  else if places < -((significand.log2 : Int) + 400) then some (zero negative)
  else ofRatio? negative (significand * Nat.pow 10 places.toNat) (Nat.pow 10 (-places).toNat)

/-! ## Scaling by powers of ten -/

/-- The magnitude code of the number nearest to a power of ten. -/
def powerOfTen (places : Nat) : Nat × Nat :=
  match ofRatio? false (Nat.pow 10 places) 1 with
  | some p => p.ratio
  | none => (0, 1)

/-- The rounded product with a rounded power of ten. -/
def raise? (x : Binary64) (places : Nat) : Option Binary64 :=
  let (n, d) := x.ratio
  let (p, q) := powerOfTen places
  ofRatio? x.negative (n * p) (d * q)

/-- The rounded quotient by a rounded power of ten. -/
def lower? (x : Binary64) (places : Nat) : Option Binary64 :=
  let (n, d) := x.ratio
  let (p, q) := powerOfTen places
  ofRatio? x.negative (n * q) (d * p)

/-- The greatest power of ten that is finite. -/
def greatestPlaces : Nat := 308

/--
The number written as a significand and a power of ten: the significand is rounded, then scaled by
a rounded power.  Below the greatest power a second division follows, and after two divisions
nothing is left of a significand of 64 bits.
-/
def ofDecimal? (negative : Bool) (significand : Nat) (places : Int) : Option Binary64 := do
  let x ← ofRatio? negative significand 1
  if x.isZero then
    return zero negative
  if 0 ≤ places then
    if places ≤ greatestPlaces then x.raise? places.toNat else none
  else
    let down := (-places).toNat
    if down ≤ greatestPlaces then
      x.lower? down
    else do
      let y ← x.lower? greatestPlaces
      if down ≤ 2 * greatestPlaces then y.lower? (down - greatestPlaces) else return zero negative

end Binary64

end EventSchema
