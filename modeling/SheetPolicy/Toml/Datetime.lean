import SheetPolicy.Text.Digits
import SheetPolicy.Text.Scanner

/-!
Dates and times of configuration files, brought into one normal form: digits in full, a capital `T`
between date and time, and no zeros at the end of a fraction.
-/

namespace SheetPolicy.Toml.Datetime

/-- Takes a number of exactly so many digits. -/
def digits (width : Nat) : Scanner Nat := do
  let run ← (List.replicate width ()).mapM fun _ => Scanner.satisfy Char.isDigit
  return Text.numberIn 10 run

/-- Takes a number of two digits within bounds. -/
def pair (least most : Nat) : Scanner Nat := do
  let n ← digits 2
  Scanner.require (least ≤ n && n ≤ most)
  return n

/-- A number with zeros in front up to a width. -/
def padded (width n : Nat) : String :=
  let text := toString n
  String.ofList (List.replicate (width - text.length) '0') ++ text

def isLeapYear (year : Nat) : Bool :=
  (year % 4 == 0 && year % 100 != 0) || year % 400 == 0

def daysIn (year month : Nat) : Nat :=
  if month = 2 then (if isLeapYear year then 29 else 28)
  else if month ∈ [4, 6, 9, 11] then 30
  else 31

def date : Scanner String := do
  let year ← digits 4
  Scanner.char '-'
  let month ← pair 1 12
  Scanner.char '-'
  let day ← pair 1 (daysIn year month)
  return padded 4 year ++ "-" ++ padded 2 month ++ "-" ++ padded 2 day

/-- The fraction of a second, to nine places. -/
def fraction : Scanner String := do
  Scanner.char '.'
  let run ← Scanner.takeWhile1 Char.isDigit
  let kept := ((run.take 9).reverse.dropWhile (· == '0')).reverse
  return if kept.isEmpty then "" else "." ++ String.ofList kept

def time : Scanner String := do
  let hour ← pair 0 23
  Scanner.char ':'
  let minute ← pair 0 59
  Scanner.char ':'
  let second ← pair 0 60
  let rest ← Scanner.optional fraction
  return padded 2 hour ++ ":" ++ padded 2 minute ++ ":" ++ padded 2 second ++ rest.getD ""

/-- The distance from universal time. -/
def offset : Scanner String := do
  match ← Scanner.next with
  | 'Z' => return "Z"
  | 'z' => return "Z"
  | sign => do
    Scanner.require (sign == '+' || sign == '-')
    let hour ← pair 0 23
    Scanner.char ':'
    let minute ← pair 0 59
    let isWest := sign == '-' && 0 < hour + minute
    return (if isWest then "-" else "+") ++ padded 2 hour ++ ":" ++ padded 2 minute

/-- A time that follows a date. -/
def timeOfDate : Scanner String := do
  let _ ← Scanner.satisfy fun c => c == 'T' || c == 't' || c == ' '
  let clock ← time
  let distance ← Scanner.optional offset
  return "T" ++ clock ++ distance.getD ""

/-- A date, a date with a time, or a time of day. -/
def scan : Scanner String :=
  (do
    let day ← date
    let clock ← Scanner.optional timeOfDate
    return day ++ clock.getD "") <|> time

end SheetPolicy.Toml.Datetime
