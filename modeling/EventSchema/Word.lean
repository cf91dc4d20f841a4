/-!
# Integers of 64 bits

Numeric identifiers are integers of 64 bits with sign.  A result that does not fit is no result.

Main results:

- {lit}`Word.fit?_eq_some_iff`: what fits is kept as it is.
-/

namespace EventSchema

namespace Word

/-- The integers that 64 bits with sign hold lie below this bound, and not below its negative. -/
def bound : Int := 0x8000000000000000

/-- An integer, if 64 bits with sign hold it. -/
def fit? (n : Int) : Option Int := if -bound ≤ n ∧ n < bound then some n else none

theorem fit?_eq_some_iff {n m : Int} : fit? n = some m ↔ n = m ∧ -bound ≤ n ∧ n < bound := by
  unfold fit?
  split
  · simp_all
  · rename_i h
    simp only [reduceCtorEq, false_iff]
    exact fun hm => h hm.2

/-- The product, if it fits. -/
def mul? (a b : Int) : Option Int := fit? (a * b)

/-- The sum, if it fits. -/
def add? (a b : Int) : Option Int := fit? (a + b)

/-- The value of one or more decimal digits. -/
def digits? (text : List Char) : Option Nat :=
  if !text.isEmpty && text.all Char.isDigit then
    some (text.foldl (fun n c => n * 10 + (c.toNat - '0'.toNat)) 0)
  else none

/-- The integer that a text stands for: digits behind an optional sign. -/
def ofText? (text : String) : Option Int :=
  match text.toList with
  | '-' :: rest => (digits? rest).bind fun n => fit? (-n)
  | '+' :: rest => (digits? rest).bind fun n => fit? n
  | rest => (digits? rest).bind fun n => fit? n

end Word

end EventSchema
