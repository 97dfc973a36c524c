import SwiftTidy.Data.Document

/-!
# Values of TOML that are written without quotes

Truth values, whole numbers in four bases, floats, and dates and times. A value is read from exactly the
characters that make it up.
-/

namespace SwiftTidy.Data.Toml

/-! ## Digits -/

/-- The value of a digit in a base up to sixteen. -/
def digitIn? (base : Nat) (c : Char) : Option Nat :=
  let value? :=
    if '0' ≤ c && c ≤ '9' then some (c.toNat - '0'.toNat)
    else if 'a' ≤ c && c ≤ 'f' then some (c.toNat - 'a'.toNat + 10)
    else if 'A' ≤ c && c ≤ 'F' then some (c.toNat - 'A'.toNat + 10)
    else none
  value?.filter (· < base)

/-- The digits that follow a digit. An underscore may stand between two digits. -/
def moreDigits? (base : Nat) : List Char → Option (List Nat)
  | [] => some []
  | '_' :: c :: rest => do return (← digitIn? base c) :: (← moreDigits? base rest)
  | c :: rest => do return (← digitIn? base c) :: (← moreDigits? base rest)

def digits? (base : Nat) : List Char → Option (List Nat)
  | [] => none
  | c :: rest => do return (← digitIn? base c) :: (← moreDigits? base rest)

def ofDigits (base : Nat) (ds : List Nat) : Nat := ds.foldl (fun n d => n * base + d) 0

/-! ## Numbers -/

/-- A whole number. It is read if it fits 64 bits, with or without a sign, and passed over if it fits
128 bits. -/
def whole (n : Int) : Document :=
  if -Int.pow 2 63 ≤ n && n < Int.pow 2 64 then .number (some (.int n))
  else if -Int.pow 2 127 ≤ n && n < Int.pow 2 128 then .number none
  else .excess

/-- The float nearest to a number times a power of ten, unless that is out of range. -/
def nearest? (digits : List Nat) (exponent : Int) : Option Float :=
  let n := ofDigits 10 digits
  let size : Int := exponent + (digits.dropWhile (· == 0)).length
  if n == 0 || size < -400 then some 0
  else if 400 < size then none
  else
    let x := Float.ofScientific n (exponent < 0) exponent.natAbs
    if x.isInf then none else some x

def signed : List Char → Bool × List Char
  | '-' :: cs => (true, cs)
  | '+' :: cs => (false, cs)
  | cs => (false, cs)

/-- The exponent of a float, behind its mark. -/
def exponent? (cs : List Char) : Option Int :=
  let (negative, rest) := signed cs
  (digits? 10 rest).map fun ds =>
    let n : Int := ofDigits 10 ds
    if negative then -n else n

/-- The digits before the point of a number in base ten. A zero in front stands alone. -/
def leading? (cs : List Char) : Option (List Nat) :=
  (digits? 10 cs).filter fun ds => ds.head? != some 0 || ds.length == 1

/-- A number in base ten, without its sign. -/
def decimal? (negative : Bool) (cs : List Char) : Option Document := do
  let isMark (c : Char) : Bool := c == 'e' || c == 'E'
  let mantissa := cs.takeWhile fun c => !isMark c
  let mark := cs.dropWhile fun c => !isMark c
  let exponent ← if mark.isEmpty then some 0 else exponent? (mark.drop 1)
  let digits ← leading? (mantissa.takeWhile (· != '.'))
  let point := mantissa.dropWhile (· != '.')
  let fraction ← if point.isEmpty then some [] else digits? 10 (point.drop 1)
  if mark.isEmpty && point.isEmpty then
    let n : Int := ofDigits 10 digits
    return whole (if negative then -n else n)
  else
    match nearest? (digits ++ fraction) (exponent - fraction.length) with
    | some x => return .number (some (.real (if negative then -x else x)))
    | none => return .excess

/-- A number. -/
def number? (cs : List Char) : Option Document :=
  match cs with
  | '0' :: 'x' :: rest => (digits? 16 rest).map fun ds => whole (ofDigits 16 ds)
  | '0' :: 'o' :: rest => (digits? 8 rest).map fun ds => whole (ofDigits 8 ds)
  | '0' :: 'b' :: rest => (digits? 2 rest).map fun ds => whole (ofDigits 2 ds)
  | _ =>
    match signed cs with
    | (negative, ['i', 'n', 'f']) =>
      let inf : Float := 1 / 0
      some (.number (some (.real (if negative then -inf else inf))))
    | (_, ['n', 'a', 'n']) => some (.number (some (.real (0 / 0))))
    | (negative, rest) => decimal? negative rest

/-! ## Dates and times -/

/-- Exactly `n` digits, as characters, and what follows them. -/
def figures? (n : Nat) (cs : List Char) : Option (List Char × List Char) :=
  let ds := cs.take n
  if ds.length == n && ds.all Char.isDigit then some (ds, cs.drop n) else none

def ofFigures (ds : List Char) : Nat := ofDigits 10 (ds.map fun d => d.toNat - '0'.toNat)

/-- The number of days of a month. -/
def daysIn (year month : Nat) : Nat :=
  if month == 2 then
    if (year % 4 == 0 && year % 100 != 0) || year % 400 == 0 then 29 else 28
  else if month == 4 || month == 6 || month == 9 || month == 11 then 30
  else 31

/-- A date, in the form in which it is kept, and what follows it. -/
def date? (cs : List Char) : Option (List Char × List Char) := do
  let (year, rest) ← figures? 4 cs
  let '-' :: rest := rest | none
  let (month, rest) ← figures? 2 rest
  let '-' :: rest := rest | none
  let (day, rest) ← figures? 2 rest
  guard (1 ≤ ofFigures month && ofFigures month ≤ 12)
  guard (1 ≤ ofFigures day && ofFigures day ≤ daysIn (ofFigures year) (ofFigures month))
  return (year ++ '-' :: month ++ '-' :: day, rest)

/-- The seconds of a time with their fraction, in the form in which they are kept. A fraction has nine
places at most and no zeros at its end. -/
def seconds? : List Char → Option (List Char × List Char)
  | ':' :: cs => do
    let (second, rest) ← figures? 2 cs
    guard (ofFigures second ≤ 60)
    match rest with
    | '.' :: rest =>
      let fraction := rest.takeWhile Char.isDigit
      guard !fraction.isEmpty
      let kept := ((fraction.take 9).reverse.dropWhile (· == '0')).reverse
      let shown := if kept.isEmpty then [] else '.' :: kept
      return (':' :: second ++ shown, rest.dropWhile Char.isDigit)
    | _ => return (':' :: second, rest)
  | cs => some (":00".toList, cs)

/-- A time, in the form in which it is kept, and what follows it. -/
def time? (cs : List Char) : Option (List Char × List Char) := do
  let (hour, rest) ← figures? 2 cs
  let ':' :: rest := rest | none
  let (minute, rest) ← figures? 2 rest
  guard (ofFigures hour ≤ 23 && ofFigures minute ≤ 59)
  let (second, rest) ← seconds? rest
  return (hour ++ ':' :: minute ++ second, rest)

/-- The offset of a time, in the form in which it is kept. -/
def zone? : List Char → Option (List Char)
  | [] => some []
  | ['Z'] | ['z'] => some ['Z']
  | sign :: cs => do
    guard (sign == '+' || sign == '-')
    let (hour, rest) ← figures? 2 cs
    let ':' :: rest := rest | none
    let (minute, rest) ← figures? 2 rest
    guard (rest.isEmpty && ofFigures hour ≤ 23 && ofFigures minute ≤ 59)
    let sign := if ofFigures hour == 0 && ofFigures minute == 0 then '+' else sign
    return sign :: hour ++ ':' :: minute

/-- A date, a time, or both, in the form in which they are kept. -/
def moment? (cs : List Char) : Option (List Char) :=
  match date? cs with
  | some (date, []) => some date
  | some (date, mark :: rest) => do
    guard (mark == 'T' || mark == 't' || mark == ' ')
    let (time, rest) ← time? rest
    return date ++ 'T' :: time ++ (← zone? rest)
  | none =>
    match time? cs with
    | some (time, []) => some time
    | _ => none

def momentField : String := "$__toml_private_datetime"

def momentDocument (cs : List Char) : Document :=
  .table [(some momentField, .text (some (String.ofList cs)))]

/-! ## Values without quotes -/

/-- The value that is made up of exactly the given characters. -/
def scalar? (cs : List Char) : Option Document :=
  if cs == "true".toList then some (.bool true)
  else if cs == "false".toList then some (.bool false)
  else (number? cs).or ((moment? cs).map momentDocument)

end SwiftTidy.Data.Toml
