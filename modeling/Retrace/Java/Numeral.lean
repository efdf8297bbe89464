import Retrace.Java.Form

/-! Number literals.

Each of the six kinds of number literal has a function that measures the longest literal of its
kind at the front of a text. `numeral?` takes the longest of them all, and of equally long ones
the first in the order decimal, hexadecimal, octal, binary, decimal fraction, hexadecimal
fraction. -/
namespace Retrace.Java.Numeral

def isHexDigit (c : Char) : Bool :=
  c.isDigit || ('a' ≤ c && c ≤ 'f') || ('A' ≤ c && c ≤ 'F')

def isOctalDigit (c : Char) : Bool :=
  '0' ≤ c && c ≤ '7'

def isBinaryDigit (c : Char) : Bool :=
  c == '0' || c == '1'

/-- The length of the longest run of digits with underscores between them, when `seen` characters
have been looked at, of which `best` make a run, and `gap` underscores stand behind it. -/
def separatedFrom (isDigit : Char → Bool) (many : Bool) (seen best gap : Nat) : List Char → Nat
  | [] => best
  | c :: cs =>
    if isDigit c then separatedFrom isDigit many (seen + 1) (seen + 1) 0 cs
    else if c == '_' && 0 < best && (gap == 0 || many) then
      separatedFrom isDigit many (seen + 1) best (gap + 1) cs
    else best

def positive? (n : Nat) : Option Nat :=
  if 0 < n then some n else none

/-- Digits with single underscores between them. -/
def digits? (isDigit : Char → Bool) (cs : List Char) : Option Nat :=
  positive? (separatedFrom isDigit false 0 0 0 cs)

/-- Zero alone, or a number that does not begin with zero. -/
def plain? : List Char → Option Nat
  | [] => none
  | c :: cs =>
    if c == '0' then some 1
    else if !c.isDigit then none
    else
      let direct := separatedFrom Char.isDigit true 0 0 0 cs
      if 0 < direct then some (1 + direct)
      else
        match cs with
        | '_' :: rest =>
          let later := separatedFrom Char.isDigit true 0 0 0 rest
          if 0 < later then some (2 + later) else some 1
        | _ => some 1

/-- One when the text begins with one of the characters, else zero. -/
def one (chars : List Char) : List Char → Nat
  | c :: _ => if chars.contains c then 1 else 0
  | [] => 0

def oneOf? (chars : List Char) (cs : List Char) : Option Nat :=
  positive? (one chars cs)

/-- Matches the second part behind the first and adds the lengths. -/
def both (first second : List Char → Option Nat) (cs : List Char) : Option Nat :=
  (first cs).bind fun n => (second (cs.drop n)).map (n + ·)

/-- Matches what it can of an optional part. -/
def maybe (part : List Char → Option Nat) (cs : List Char) : Option Nat :=
  some ((part cs).getD 0)

def longest (a b : Option Nat) : Option Nat :=
  match a, b with
  | some m, some n => some (max m n)
  | some m, none => some m
  | none, b => b

def zeroAnd (marks : List Char) : List Char → Option Nat :=
  both (oneOf? ['0']) (oneOf? marks)

def long : List Char → Option Nat :=
  maybe (oneOf? ['l', 'L'])

def sign : List Char → Option Nat :=
  maybe (oneOf? ['+', '-'])

def size : List Char → Option Nat :=
  oneOf? ['f', 'F', 'd', 'D']

def exponent : List Char → Option Nat :=
  both (oneOf? ['e', 'E']) (both sign (digits? Char.isDigit))

def decimal? : List Char → Option Nat :=
  both plain? long

def hexadecimal? : List Char → Option Nat :=
  both (zeroAnd ['x', 'X']) (both (digits? isHexDigit) long)

def octal? (cs : List Char) : Option Nat :=
  longest (both (zeroAnd ['o', 'O']) (both (digits? isOctalDigit) long) cs)
    (both (oneOf? ['0']) (both (digits? isOctalDigit) long) cs)

def binary? : List Char → Option Nat :=
  both (zeroAnd ['b', 'B']) (both (digits? isBinaryDigit) long)

def decimalFraction? (cs : List Char) : Option Nat :=
  let digits := digits? Char.isDigit
  let tail := both (maybe exponent) (maybe size)
  longest (both digits (both (oneOf? ['.']) (both (maybe digits) tail)) cs)
    (longest (both (oneOf? ['.']) (both digits tail) cs)
      (longest (both plain? (both exponent (maybe size)) cs)
        (both plain? (both (maybe exponent) size) cs)))

def hexFraction? (cs : List Char) : Option Nat :=
  let digits := digits? isHexDigit
  let point := oneOf? ['.']
  let power := both (oneOf? ['p', 'P']) (both sign (both plain? (maybe size)))
  let mark := zeroAnd ['x', 'X']
  longest (both mark (both digits (both (maybe point) (maybe power))) cs)
    (both mark (both (maybe digits) (both point (both digits (maybe power)))) cs)

/-- Keeps the first of the longest. -/
def better (best : Option (Form × Nat)) (form : Form) (length : Option Nat) :
    Option (Form × Nat) :=
  match best, length with
  | some (f, m), some n => if m < n then some (form, n) else some (f, m)
  | none, some n => some (form, n)
  | best, none => best

def numeral? (cs : List Char) : Option (Form × Nat) :=
  let kinds : List (Form × (List Char → Option Nat)) :=
    [(.decimalIntegerLiteral, decimal?), (.hexIntegerLiteral, hexadecimal?),
      (.octalIntegerLiteral, octal?), (.binaryIntegerLiteral, binary?),
      (.decimalFloatingPointLiteral, decimalFraction?),
      (.hexFloatingPointLiteral, hexFraction?)]
  kinds.foldl (fun best k => better best k.1 (k.2 cs)) none

end Retrace.Java.Numeral
