import Retrace.Limit
import Retrace.Toml.Item

/-! Words of a TOML document.

A number, a date or a truth value is a word without any white space; only a date and a time may
have a blank between them. `scalar?` says what a word stands for. Underscores stand between digits
of numbers, and whole numbers fit into 64 bits. -/
namespace Retrace.Toml

/-! ### Digits -/

def isHex (c : Char) : Bool :=
  c.isDigit || ('a' ≤ c && c ≤ 'f') || ('A' ≤ c && c ≤ 'F')

def isOctal (c : Char) : Bool := '0' ≤ c && c ≤ '7'

def isBinary (c : Char) : Bool := c == '0' || c == '1'

def hexValue (c : Char) : Nat :=
  if c.isDigit then c.toNat - '0'.toNat
  else if 'a' ≤ c then c.toNat - 'a'.toNat + 10
  else c.toNat - 'A'.toNat + 10

def numberOf (base : Nat) (digits : List Char) : Nat :=
  digits.foldl (fun n c => base * n + hexValue c) 0

/-- Each underscore stands between two digits. -/
def separated (isDigit : Char → Bool) : List Char → Bool
  | [] => false
  | [c] => isDigit c
  | c :: '_' :: rest => isDigit c && separated isDigit rest
  | c :: rest => isDigit c && separated isDigit rest

def digits? (isDigit : Char → Bool) (word : List Char) : Option (List Char) :=
  if separated isDigit word then some (word.filter (· ≠ '_')) else none

/-! ### Whole numbers -/

def sign (word : List Char) : Bool × List Char :=
  match word with
  | '-' :: rest => (true, rest)
  | '+' :: rest => (false, rest)
  | rest => (false, rest)

/-- A decimal number does not begin with zero, unless it is zero. -/
def decimal? (word : List Char) : Option (List Char) :=
  match word with
  | '0' :: _ :: _ => none
  | word => digits? Char.isDigit word

def inWord (n : Int) : Option Item :=
  if -Limit.signedLong ≤ n ∧ n < Limit.signedLong then some (.integer n) else none

def integer? (word : List Char) : Option Item :=
  match word with
  | '0' :: 'x' :: rest => (digits? isHex rest).bind fun ds => inWord (numberOf 16 ds)
  | '0' :: 'o' :: rest => (digits? isOctal rest).bind fun ds => inWord (numberOf 8 ds)
  | '0' :: 'b' :: rest => (digits? isBinary rest).bind fun ds => inWord (numberOf 2 ds)
  | word =>
    let (negative, rest) := sign word
    (decimal? rest).bind fun ds =>
      let n : Int := numberOf 10 ds
      inWord (if negative then -n else n)

/-! ### Numbers with a fraction -/

def isExponentMark (c : Char) : Bool := c == 'e' || c == 'E'

/-- A word cut at its first mark, if there is one. -/
def cutAt (mark : Char → Bool) (word : List Char) : List Char × Option (List Char) :=
  match word.dropWhile fun c => !mark c with
  | [] => (word, none)
  | _ :: rest => (word.takeWhile fun c => !mark c, some rest)

/-- The number `digits · 10 ^ exponent`, unless it is too large. -/
def double? (digits : List Char) (exponent : Int) : Option Float :=
  let n := numberOf 10 digits
  let reach : Int := digits.length + exponent
  if n = 0 ∨ reach < -400 then some 0
  else if 400 < reach then none
  else
    let f := Float.ofScientific n (exponent < 0) exponent.natAbs
    if f.isInf then none else some f

def exponent? : Option (List Char) → Option Int
  | none => some 0
  | some word =>
    let (negative, rest) := sign word
    (digits? Char.isDigit rest).map fun ds =>
      let n : Int := numberOf 10 ds
      if negative then -n else n

def fraction? : Option (List Char) → Option (List Char)
  | none => some []
  | some word => digits? Char.isDigit word

def signed (negative : Bool) (f : Float) : Item := .float (if negative then -f else f).toBits

def float? (word : List Char) : Option Item := do
  let (negative, rest) := sign word
  if rest == ['i', 'n', 'f'] then return signed negative (1 / 0)
  else if rest == ['n', 'a', 'n'] then return signed negative (0 / 0)
  else
    let (mantissa, exponent) := cutAt isExponentMark rest
    let (whole, fraction) := cutAt (· == '.') mantissa
    if exponent.isNone && fraction.isNone then none
    else
      let wholeDigits ← decimal? whole
      let fractionDigits ← fraction? fraction
      let shift ← exponent? exponent
      let f ← double? (wholeDigits ++ fractionDigits) (shift - fractionDigits.length)
      return signed negative f

/-! ### Dates and times -/

/-- The number that exactly two digits make. -/
def pair? : List Char → Option (Nat × List Char)
  | a :: b :: rest =>
    if a.isDigit && b.isDigit then some (numberOf 10 [a, b], rest) else none
  | _ => none

def expect (c : Char) : List Char → Option (List Char)
  | d :: rest => if d == c then some rest else none
  | [] => none

def isLeap (year : Nat) : Bool := year % 4 == 0 && (year % 100 != 0 || year % 400 == 0)

def daysIn (year month : Nat) : Nat :=
  if month = 2 then (if isLeap year then 29 else 28)
  else if month = 4 ∨ month = 6 ∨ month = 9 ∨ month = 11 then 30
  else 31

def fullDate? (word : List Char) : Option (List Char) := do
  let (century, rest) ← pair? word
  let (decade, rest) ← pair? rest
  let (month, rest) ← pair? (← expect '-' rest)
  let (day, rest) ← pair? (← expect '-' rest)
  let year := 100 * century + decade
  if 1 ≤ month ∧ month ≤ 12 ∧ 1 ≤ day ∧ day ≤ daysIn year month then return rest else none

def secondFraction? : List Char → Option (List Char)
  | '.' :: rest =>
    if rest.head?.any Char.isDigit then some (rest.dropWhile Char.isDigit) else none
  | rest => some rest

def time? (word : List Char) : Option (List Char) := do
  let (hour, rest) ← pair? word
  let (minute, rest) ← pair? (← expect ':' rest)
  let (second, rest) ← pair? (← expect ':' rest)
  if hour ≤ 23 ∧ minute ≤ 59 ∧ second ≤ 60 then secondFraction? rest else none

def isOffset (word : List Char) : Bool :=
  match word with
  | [] => true
  | ['Z'] => true
  | ['z'] => true
  | c :: rest =>
    (c == '+' || c == '-') &&
      ((do
        let (hour, rest) ← pair? rest
        let (minute, rest) ← pair? (← expect ':' rest)
        return hour ≤ 23 && minute ≤ 59 && rest.isEmpty).getD false)

def isDelimiter (c : Char) : Bool := c == 'T' || c == 't' || c == ' '

def isDate (word : List Char) : Bool :=
  match fullDate? word with
  | some [] => true
  | some (c :: rest) => isDelimiter c && (time? rest).any isOffset
  | none => (time? word).any List.isEmpty

/-! ### Words -/

def scalar? (word : List Char) : Option Item :=
  if word == ['t', 'r', 'u', 'e'] then some (.boolean true)
  else if word == ['f', 'a', 'l', 's', 'e'] then some (.boolean false)
  else if isDate word then some (.date (String.ofList word))
  else (float? word).or (integer? word)

end Retrace.Toml
