/-!
# Dates and times of day

A moment is a date, a time of day, or a date and a time, then possibly with its distance from
universal time.  Its usual form has a capital T between date and time, a capital Z for universal
time, and up to nine digits behind the seconds without zeros at the end.
-/

namespace EventSchema

namespace Toml

namespace Moment

/-- Text in the usual form, and what follows it. -/
abbrev Step : Type := Option (List Char × List Char)

/-- The value of two digits, which lies in a range, and what follows them. -/
def two? (low high : Nat) : List Char → Option (Nat × List Char)
  | a :: b :: rest =>
    let n := (a.toNat - '0'.toNat) * 10 + (b.toNat - '0'.toNat)
    if a.isDigit ∧ b.isDigit ∧ low ≤ n ∧ n ≤ high then some (n, rest) else none
  | _ => none

/-- What follows an expected character. -/
def skip? (expected : Char) : List Char → Option (List Char)
  | c :: rest => if c = expected then some rest else none
  | [] => none

/-- A number of two digits. -/
def padded (n : Nat) : List Char := [Nat.digitChar (n / 10), Nat.digitChar (n % 10)]

/-- The number of days in a month. -/
def daysIn (year month : Nat) : Nat :=
  if month = 2 then if year % 4 = 0 ∧ (year % 100 ≠ 0 ∨ year % 400 = 0) then 29 else 28
  else if [4, 6, 9, 11].contains month then 30
  else 31

/-- A date. -/
def date? (text : List Char) : Step := do
  let (century, rest) ← two? 0 99 text
  let (yearOfCentury, rest) ← two? 0 99 rest
  let (month, rest) ← two? 1 12 (← skip? '-' rest)
  let (day, rest) ← two? 1 (daysIn (century * 100 + yearOfCentury) month) (← skip? '-' rest)
  return (padded century ++ padded yearOfCentury ++ '-' :: padded month ++ '-' :: padded day, rest)

/-- The digits behind the seconds. -/
def fraction? : List Char → Step
  | '.' :: rest =>
    let (digits, rest) := rest.span Char.isDigit
    let kept := ((digits.take 9).reverse.dropWhile (· == '0')).reverse
    if digits.isEmpty then none else some (if kept.isEmpty then [] else '.' :: kept, rest)
  | rest => some ([], rest)

/-- A time of day. -/
def time? (text : List Char) : Step := do
  let (hour, rest) ← two? 0 23 text
  let (minute, rest) ← two? 0 59 (← skip? ':' rest)
  let (second, rest) ← two? 0 60 (← skip? ':' rest)
  let (fraction, rest) ← fraction? rest
  return (padded hour ++ ':' :: padded minute ++ ':' :: padded second ++ fraction, rest)

/-- The distance from universal time. -/
def offset? : List Char → Step
  | [] => some ([], [])
  | c :: rest =>
    if c = 'Z' ∨ c = 'z' then some (['Z'], rest)
    else if c = '+' ∨ c = '-' then do
      let (hour, rest) ← two? 0 23 rest
      let (minute, rest) ← two? 0 59 (← skip? ':' rest)
      let sign := if hour = 0 ∧ minute = 0 then '+' else c
      return (sign :: padded hour ++ ':' :: padded minute, rest)
    else none

/-- A date with what may follow it. -/
def dated? (text : List Char) : Step := do
  let (date, rest) ← date? text
  match rest with
  | [] => return (date, [])
  | c :: rest =>
    if c = 'T' ∨ c = 't' ∨ c = ' ' then
      let (time, rest) ← time? rest
      let (offset, rest) ← offset? rest
      return (date ++ 'T' :: time ++ offset, rest)
    else none

/-- The usual form of a moment. -/
def ofText? (text : List Char) : Option String :=
  match (dated? text).orElse fun _ => time? text with
  | some (form, []) => some (String.ofList form)
  | _ => none

end Moment

end Toml

end EventSchema
