import Retrace.Decimal.Shortest
import Retrace.Json.Value

/-! Writing JSON.

A value is written without any white space, or with each item on a line of its own, indented by
two spaces a level. Only quotes, backslashes and control characters are escaped. A number in
double precision has the fewest digits that read back; it is written with a point from `1e-5` up
to `1e16`, and with an exponent outside. -/
namespace Retrace.Json

/-! ### Strings -/

def hexDigit (n : Nat) : Char :=
  if n < 10 then Char.ofNat ('0'.toNat + n) else Char.ofNat ('a'.toNat + (n - 10))

def escape (c : Char) : List Char :=
  match c with
  | '"' => ['\\', '"']
  | '\\' => ['\\', '\\']
  | '\x08' => ['\\', 'b']
  | '\x0c' => ['\\', 'f']
  | '\n' => ['\\', 'n']
  | '\r' => ['\\', 'r']
  | '\t' => ['\\', 't']
  | c =>
    if c.toNat < 32 then ['\\', 'u', '0', '0', hexDigit (c.toNat / 16), hexDigit (c.toNat % 16)]
    else [c]

def stringChars (s : String) : List Char :=
  '"' :: s.toList.flatMap escape ++ ['"']

/-! ### Numbers -/

def digitChars (n : Nat) : List Char := Nat.toDigits 10 n

def intChars (n : Int) : List Char :=
  if n < 0 then '-' :: digitChars n.natAbs else digitChars n.natAbs

/-- Digits with a point behind the first `before` of them, or in front of zeros and digits. -/
def positional (digits : List Char) (before : Int) : List Char :=
  if before ≤ 0 then
    ['0', '.'] ++ List.replicate (-before).toNat '0' ++ digits
  else if digits.length ≤ before.toNat then
    digits ++ List.replicate (before.toNat - digits.length) '0' ++ ['.', '0']
  else digits.take before.toNat ++ ['.'] ++ digits.drop before.toNat

def scientific (digits : List Char) (before : Int) : List Char :=
  let exponent := before - 1
  let sign := if exponent < 0 then '-' else '+'
  let fraction := if digits.length ≤ 1 then [] else '.' :: digits.drop 1
  digits.take 1 ++ fraction ++ ['e', sign] ++ digitChars exponent.natAbs

def decimalChars (d : Decimal) : List Char :=
  let digits := digitChars d.digits
  let before := digits.length + d.exponent
  if -5 < before && before ≤ 16 then positional digits before else scientific digits before

def doubleChars (bits : UInt64) : List Char :=
  let (negative, decimal) := Decimal.ofBits bits
  let body := match decimal with
    | some d => decimalChars d
    | none => ['0', '.', '0']
  if negative then '-' :: body else body

def numberChars : Number → List Char
  | .whole n => intChars n
  | .double bits => doubleChars bits

/-! ### Values -/

def wordChars (s : String) : List Char := s.toList

mutual

def compactChars : Value → List Char
  | .null => wordChars "null"
  | .bool b => wordChars (if b then "true" else "false")
  | .number n => numberChars n
  | .string s => stringChars s
  | .array items => '[' :: compactItems [] items ++ [']']
  | .object members => '{' :: compactMembers [] members ++ ['}']

/-- Each item with `lead` in front of the first and a comma in front of the others. -/
def compactItems (lead : List Char) : List Value → List Char
  | [] => []
  | v :: rest => lead ++ compactChars v ++ compactItems [','] rest

def compactMembers (lead : List Char) : List (String × Value) → List Char
  | [] => []
  | m :: rest => lead ++ compactMember m ++ compactMembers [','] rest

def compactMember : String × Value → List Char
  | (k, v) => stringChars k ++ ':' :: compactChars v

end

def newLine (level : Nat) : List Char := '\n' :: List.replicate (2 * level) ' '

/-- What stands behind the last of some items: nothing if there are none. -/
def closing {α : Type} (level : Nat) (items : List α) : List Char :=
  if items.isEmpty then [] else newLine level

mutual

/-- Writes a value whose own line is indented by `level` steps. -/
def prettyChars (level : Nat) : Value → List Char
  | .null => wordChars "null"
  | .bool b => wordChars (if b then "true" else "false")
  | .number n => numberChars n
  | .string s => stringChars s
  | .array items => '[' :: prettyItems (level + 1) [] items ++ closing level items ++ [']']
  | .object members =>
    '{' :: prettyMembers (level + 1) [] members ++ closing level members ++ ['}']

def prettyItems (level : Nat) (lead : List Char) : List Value → List Char
  | [] => []
  | v :: rest => lead ++ newLine level ++ prettyChars level v ++ prettyItems level [','] rest

def prettyMembers (level : Nat) (lead : List Char) : List (String × Value) → List Char
  | [] => []
  | m :: rest => lead ++ newLine level ++ prettyMember level m ++ prettyMembers level [','] rest

def prettyMember (level : Nat) : String × Value → List Char
  | (k, v) => stringChars k ++ ':' :: ' ' :: prettyChars level v

end

def write (pretty : Bool) (v : Value) : String :=
  String.ofList (if pretty then prettyChars 0 v else compactChars v)

def compact (v : Value) : String := write false v

end Retrace.Json
