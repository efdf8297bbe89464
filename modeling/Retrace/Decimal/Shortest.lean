import Retrace.Limit

/-! The shortest decimal that reads back.

A binary fraction `m * 2 ^ q` is the nearest one to every real number of an interval around it.
Among the decimals inside that interval, `shortest` finds one with the fewest digits, and of
those the nearest to the fraction. For each number of digits only the two neighbours of the
fraction on the grid of such decimals have to be looked at. -/
namespace Retrace

/-- A positive decimal `digits * 10 ^ exponent`. -/
structure Decimal where
  digits : Nat
  exponent : Int
  deriving DecidableEq, Repr

namespace Decimal

/-- Numbers as multiples of one unit, `1 / scale`: the fraction and the ends of its interval. -/
structure Interval where
  low : Nat
  middle : Nat
  high : Nat
  scale : Nat
  closed : Bool

/-- The interval of `m * 2 ^ q`. Below a power of two the binary fractions lie twice as dense, so
there the lower half of the interval is half as wide. -/
def interval (m : Nat) (q : Int) (power : Bool) : Interval :=
  let up := Nat.pow 2 (q - 2).toNat
  ⟨(4 * m - if power then 1 else 2) * up, 4 * m * up, (4 * m + 2) * up, Nat.pow 2 (2 - q).toNat,
    m % 2 == 0⟩

def Interval.holds (i : Interval) (n : Nat) : Bool :=
  if i.closed then i.low ≤ n && n ≤ i.high else i.low < n && n < i.high

def distance (a b : Nat) : Nat := (a - b) + (b - a)

/-- The number of decimal digits in front of the point of `n / scale`. -/
def wholeDigits (n scale : Nat) : Nat :=
  if n < scale then 0 else (Nat.toDigits 10 (n / scale)).length

/-- The number of zeros behind the point of `n / scale`, when that is below one. -/
def leadingZeros (scale : Nat) : Nat → Nat → Nat
  | 0, _ => 0
  | fuel + 1, n => if scale ≤ 10 * n then 0 else 1 + leadingZeros scale fuel (10 * n)

/-- The position of the first digit: the value is below `10 ^ position`, and not below a tenth
of that. -/
def position (i : Interval) : Int :=
  if i.scale ≤ i.middle then wholeDigits i.middle i.scale
  else -(leadingZeros i.scale 400 i.middle : Int)

/-- The two neighbours of the fraction among the multiples of `10 ^ e`, and the nearer of those
that the interval holds. -/
def onGrid (i : Interval) (e : Int) : Option Nat :=
  let unit := Nat.pow 10 e.toNat * i.scale
  let stretch := Nat.pow 10 (-e).toNat
  let j : Interval := ⟨i.low * stretch, i.middle * stretch, i.high * stretch, i.scale, i.closed⟩
  let below := j.middle / unit
  let above := below + 1
  match j.holds (below * unit), j.holds (above * unit) with
  | true, true =>
    some (if distance (above * unit) j.middle < distance (below * unit) j.middle then above
      else below)
  | true, false => some below
  | false, true => some above
  | false, false => none

def firstGrid (i : Interval) (top : Int) : Nat → Nat → Option Decimal
  | 0, _ => none
  | fuel + 1, count =>
    let e := top - count
    match onGrid i e with
    | some n => if n == 0 then firstGrid i top fuel (count + 1) else some ⟨n, e⟩
    | none => firstGrid i top fuel (count + 1)

/-- Moves zeros at the end of the digits into the exponent. -/
def stripZeros : Nat → Decimal → Decimal
  | 0, d => d
  | fuel + 1, d =>
    if d.digits % 10 == 0 then stripZeros fuel ⟨d.digits / 10, d.exponent + 1⟩ else d

def shortest (m : Nat) (q : Int) (power : Bool) : Decimal :=
  let i := interval m q power
  stripZeros 20 ((firstGrid i (position i) 20 1).getD ⟨m, 0⟩)

/-! ### Doubles -/

/-- A finite number in double precision: its sign and, unless it is zero, its fraction. -/
structure Parts where
  negative : Bool
  mantissa : Nat
  exponent : Int
  power : Bool

/-- The bit of a fraction that is not written down. -/
def hiddenBit : Nat := 4503599627370496

def partsOfBits (bits : UInt64) : Parts :=
  let fraction := bits.toNat % hiddenBit
  let biased : Nat := bits.toNat / hiddenBit % 2048
  let negative := Limit.signedLong ≤ bits.toNat
  if biased == 0 then ⟨negative, fraction, -1074, false⟩
  else ⟨negative, hiddenBit + fraction, (biased : Int) - 1075, fraction == 0 && 1 < biased⟩

def ofBits (bits : UInt64) : Bool × Option Decimal :=
  let p := partsOfBits bits
  (p.negative, if p.mantissa == 0 then none else some (shortest p.mantissa p.exponent p.power))

end Decimal

end Retrace
