import Retrace.Fault
import Retrace.Json.Value
import Retrace.Limit

/-! Reading numbers.

`scan` measures the number at the front of a text and takes it apart; `Numeral.value?` is what it
stands for. A number with a fraction or an exponent, one that is too large to be whole, and minus
zero are numbers in double precision: as many digits as fit into 64 bits, times or divided by the
power of ten that the others leave. A number beyond the largest double has no value. -/
namespace Retrace.Json

structure Numeral where
  negative : Bool
  whole : List Char
  fraction : Option (List Char)
  exponent : Option (Bool × List Char)

namespace Numeral

def digitsAt (cs : List Char) : List Char := cs.takeWhile Char.isDigit

/-- Where a digit has to stand and none does. -/
def missing (rest : List Char) : JsonFault :=
  if rest.isEmpty then .eof else .malformed

/-- A whole part does not begin with zero, unless it is zero. -/
def scanWhole (cs : List Char) : Except JsonFault (List Char × List Char) :=
  let digits := digitsAt cs
  if digits.isEmpty then .error (missing cs)
  else if digits.head? == some '0' && 1 < digits.length then .error .malformed
  else .ok (digits, cs.drop digits.length)

def scanFraction (cs : List Char) : Except JsonFault (Option (List Char) × List Char) :=
  match cs with
  | '.' :: rest =>
    let digits := digitsAt rest
    if digits.isEmpty then .error (missing rest) else .ok (some digits, rest.drop digits.length)
  | cs => .ok (none, cs)

def scanSign : List Char → Bool × List Char
  | '+' :: rest => (false, rest)
  | '-' :: rest => (true, rest)
  | cs => (false, cs)

def isExponentMark (c : Char) : Bool := c == 'e' || c == 'E'

def scanExponent (cs : List Char) : Except JsonFault (Option (Bool × List Char) × List Char) :=
  match cs with
  | c :: rest =>
    if isExponentMark c then
      let (negative, rest) := scanSign rest
      let digits := digitsAt rest
      if digits.isEmpty then .error (missing rest)
      else .ok (some (negative, digits), rest.drop digits.length)
    else .ok (none, cs)
  | [] => .ok (none, [])

/-- The number at the front of a text and what is left behind it. -/
def scan (cs : List Char) : Except JsonFault (Numeral × List Char) := do
  let negative := cs.head? == some '-'
  let (whole, cs) ← scanWhole (if negative then cs.drop 1 else cs)
  let (fraction, cs) ← scanFraction cs
  let (exponent, cs) ← scanExponent cs
  return (⟨negative, whole, fraction, exponent⟩, cs)

/-! ### Values -/

def digitValue (c : Char) : Nat := c.toNat - '0'.toNat

/-- The digits taken so far as a number, and how many digits of the whole part were left out. -/
structure Significand where
  value : Nat
  left : Nat

def takeWhole (s : Significand) (c : Char) : Significand :=
  let next := 10 * s.value + digitValue c
  if s.left == 0 && next < Limit.long then ⟨next, 0⟩ else ⟨s.value, s.left + 1⟩

/-- Takes digits of the fraction up to the first that does not fit. -/
def takeFraction (value taken : Nat) : List Char → Nat × Nat
  | [] => (value, taken)
  | c :: cs =>
    let next := 10 * value + digitValue c
    if next < Limit.long then takeFraction next (taken + 1) cs else (value, taken)

def powerOfTen (n : Nat) : Float := Float.ofScientific 1 false n

/-- Divides by large powers of ten as long as the exponent is out of reach. -/
def scaleDown : Nat → Float → Nat → Float
  | 0, _, _ => 0
  | fuel + 1, f, n =>
    if n ≤ 308 then f / powerOfTen n
    else if f == 0 then f
    else scaleDown fuel (f / powerOfTen 308) (n - 308)

def scaled? (significand : Nat) (exponent : Int) : Option Float :=
  let f := significand.toUInt64.toFloat
  if exponent < 0 then some (scaleDown 8 f exponent.natAbs)
  else if 308 < exponent then (if significand == 0 then some f else none)
  else
    let g := f * powerOfTen exponent.toNat
    if g.isInf then none else some g

def signedDouble (negative : Bool) (f : Float) : Number :=
  .double (if negative then -f else f).toBits

/-- The exponent as it is written; `none` when it is out of all proportion. -/
def written? : Option (Bool × List Char) → Option Int
  | none => some 0
  | some (negative, digits) =>
    let n := digits.foldl (fun n c => if n < Limit.signedWord then 10 * n + digitValue c else n) 0
    if n < Limit.signedWord then some (if negative then -(n : Int) else n) else none

def double? (x : Numeral) : Option Number :=
  let s := x.whole.foldl takeWhole ⟨0, 0⟩
  let (value, taken) := takeFraction s.value 0 (x.fraction.getD [])
  match written? x.exponent with
  | some e => (scaled? value (s.left - taken + e)).map (signedDouble x.negative)
  | none =>
    if value == 0 || x.exponent.any Prod.fst then some (signedDouble x.negative 0) else none

def value? (x : Numeral) : Option Number :=
  let s := x.whole.foldl takeWhole ⟨0, 0⟩
  if x.fraction.isSome || x.exponent.isSome || s.left != 0 then double? x
  else if !x.negative then some (.whole s.value)
  else if s.value == 0 || Limit.signedLong < s.value then double? x
  else some (.whole (-(s.value : Int)))

end Numeral

end Retrace.Json
