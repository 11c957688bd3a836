import ModelAssembly.Datum
/-!
Values in TOML files that are written without quotes or brackets: truth values, numbers, dates and
times. Each is told from the characters that it is written with.
-/

namespace ModelAssembly.Toml

-- Characters that such a value may be written with. A blank is none of them, though one may stand
-- between a date and a time.
def isScalarChar (c : Char) : Bool :=
  c.isAlphanum || c == '+' || c == '-' || c == '_' || c == '.' || c == ':'

-- The digits of a number whose underscores all stand between two digits.
def digits? (isDigit : Char → Bool) : List Char → Option (List Char)
  | [] => none
  | [c] => if isDigit c then some [c] else none
  | c :: '_' :: r => if isDigit c then (digits? isDigit r).map (c :: ·) else none
  | c :: r => if isDigit c then (digits? isDigit r).map (c :: ·) else none

def digitValue (c : Char) : Nat :=
  if c.isDigit then c.toNat - '0'.toNat
  else if 'a' ≤ c then c.toNat - 'a'.toNat + 10
  else c.toNat - 'A'.toNat + 10

def natOfDigits (base : Nat) (digits : List Char) : Nat :=
  digits.foldl (fun n c => n * base + digitValue c) 0

-- Decimal digits without a zero in front.
def decimal? (cs : List Char) : Option Nat := do
  match ← digits? Char.isDigit cs with
  | '0' :: _ :: _ => none
  | ds => some (natOfDigits 10 ds)

def dropSign : List Char → List Char
  | '+' :: r => r
  | '-' :: r => r
  | cs => cs

def isHexDigit (c : Char) : Bool :=
  c.isDigit || ('a' ≤ c && c ≤ 'f') || ('A' ≤ c && c ≤ 'F')

def isOctalDigit (c : Char) : Bool := '0' ≤ c && c ≤ '7'

def isBinaryDigit (c : Char) : Bool := c == '0' || c == '1'

-- A whole number. A sign goes with decimal digits only.
def integer? : List Char → Option Int
  | '0' :: 'x' :: r => (digits? isHexDigit r).map fun ds => Int.ofNat (natOfDigits 16 ds)
  | '0' :: 'o' :: r => (digits? isOctalDigit r).map fun ds => Int.ofNat (natOfDigits 8 ds)
  | '0' :: 'b' :: r => (digits? isBinaryDigit r).map fun ds => Int.ofNat (natOfDigits 2 ds)
  | '-' :: r => (decimal? r).map fun n => -Int.ofNat n
  | cs => (decimal? (dropSign cs)).map Int.ofNat

-- The mantissa, as its digits before and after the point, and the exponent of a number with a
-- fraction or an exponent.
def fraction? (cs : List Char) : Option (List Char × List Char × Int) := do
  let whole := cs.takeWhile fun c => c.isDigit || c == '_'
  let r := cs.drop whole.length
  let _ ← decimal? whole
  let whole ← digits? Char.isDigit whole
  let (part, r) ← match r with
    | '.' :: r =>
      let part := r.takeWhile fun c => c.isDigit || c == '_'
      pure (← digits? Char.isDigit part, r.drop part.length)
    | r => pure ([], r)
  match r with
  | [] => if part.isEmpty then none else some (whole, part, 0)
  | e :: r =>
    if e ≠ 'e' && e ≠ 'E' then none else
      let n := natOfDigits 10 (← digits? Char.isDigit (dropSign r))
      some (whole, part, if r.head? = some '-' then -Int.ofNat n else Int.ofNat n)

-- The number is less than half a step above the greatest binary floating-point number of 64 bits.
def isFinite (number : List Char × List Char × Int) : Bool :=
  let (whole, part, exponent) := number
  let mantissa := natOfDigits 10 (whole ++ part)
  let scale := exponent - Int.ofNat part.length
  let limit := Nat.pow 2 1024 - Nat.pow 2 970
  if mantissa = 0 then true
  else if scale ≥ 400 then false
  else if scale ≥ 0 then mantissa * Nat.pow 10 scale.toNat < limit
  else if (whole.length : Int) + exponent ≤ 300 then true
  else mantissa < limit * Nat.pow 10 (-scale).toNat

-- A floating-point number.
def float? (cs : List Char) : Option Datum :=
  let cs := dropSign cs
  if cs = ['i', 'n', 'f'] ∨ cs = ['n', 'a', 'n'] then some .real
  else (fraction? cs).map fun number => if isFinite number then .real else .outOfRange

-- Two digits that are no more than `limit`, if no less than `least`.
def twoDigits? (least limit : Nat) : List Char → Option (Nat × List Char)
  | a :: b :: r =>
    let n := natOfDigits 10 [a, b]
    if a.isDigit && b.isDigit && least ≤ n && n ≤ limit then some (n, r) else none
  | _ => none

def daysIn (year month : Nat) : Nat :=
  if month = 2 then
    if year % 4 = 0 ∧ (year % 100 ≠ 0 ∨ year % 400 = 0) then 29 else 28
  else if month = 4 ∨ month = 6 ∨ month = 9 ∨ month = 11 then 30
  else 31

-- What follows a date in `cs`.
def date? (cs : List Char) : Option (List Char) := do
  let year := cs.take 4
  if year.length ≠ 4 || !year.all Char.isDigit then none
  match cs.drop 4 with
  | '-' :: r =>
    let (month, r) ← twoDigits? 1 12 r
    match r with
    | '-' :: r => return (← twoDigits? 1 (daysIn (natOfDigits 10 year) month) r).2
    | _ => none
  | _ => none

-- What follows a time of day in `cs`. The seconds, and their fraction, may be left out.
def time? (cs : List Char) : Option (List Char) := do
  let (_, r) ← twoDigits? 0 23 cs
  match r with
  | ':' :: r =>
    let (_, r) ← twoDigits? 0 59 r
    match r with
    | ':' :: r =>
      let (_, r) ← twoDigits? 0 60 r
      match r with
      | '.' :: c :: r => if c.isDigit then some (r.dropWhile Char.isDigit) else none
      | '.' :: [] => none
      | r => some r
    | r => some r
  | _ => none

-- The distance of a local time from universal time, or nothing.
def isOffset : List Char → Bool
  | [] | ['Z'] | ['z'] => true
  | s :: r =>
    (s == '+' || s == '-') &&
      match twoDigits? 0 23 r with
      | some (_, ':' :: r) => (twoDigits? 0 59 r).any (·.2.isEmpty)
      | _ => false

-- A date, a time of day, or both.
def isMoment (cs : List Char) : Bool :=
  match date? cs with
  | none => time? cs == some []
  | some [] => true
  | some (separator :: r) =>
    (separator == 'T' || separator == 't' || separator == ' ') && (time? r).any isOffset

-- Whole numbers are kept if 128 bits hold them, with or without a sign.
def inRange (n : Int) : Bool := -(Int.pow 2 127) ≤ n && n < Int.pow 2 128

-- The value that is written so.
def scalar? (cs : List Char) : Option Datum :=
  if cs = ['t', 'r', 'u', 'e'] then some (.bool true)
  else if cs = ['f', 'a', 'l', 's', 'e'] then some (.bool false)
  else match integer? cs with
    | some n => some (if inRange n then .int n else .outOfRange)
    | none =>
      if isMoment cs then some (.moment (String.ofList cs)) else float? cs

-- Reads a value of this sort.
def scalar (cs : List Char) : Option (Datum × List Char) := do
  let written := cs.takeWhile isScalarChar
  let r := cs.drop written.length
  match date? written, r with
  | some [], ' ' :: c :: _ =>
    if c.isDigit then
      let time := (r.drop 1).takeWhile isScalarChar
      return (← scalar? (written ++ ' ' :: time), r.drop (time.length + 1))
    else
      return (← scalar? written, r)
  | _, _ => return (← scalar? written, r)

end ModelAssembly.Toml
