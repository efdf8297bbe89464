/-! Patterns for paths.

In a pattern `?` stands for any byte and `*` for any number of bytes, but for slashes; `[…]` is a
class of characters, and a backslash takes away the meaning of what follows it. Two stars between
slashes stand for any number of directories. `Glob.accepts` compares a pattern with a whole
path. -/
namespace Retrace.Disk.Glob

inductive Token
  | literal (c : Char)
  | anyByte
  | star
  | oneOf (negated : Bool) (ranges : List (Char × Char))
  /-- `**/` at the front. -/
  | anyPrefix
  /-- `/**/` in between. -/
  | anyBetween
  /-- `/**` at the end. -/
  | anySuffix
  deriving DecidableEq, Repr

/-! ### Reading -/

/-- Where a class of characters stands: at its first character, or behind a dash that may continue
a range. -/
structure ClassState where
  ranges : List (Char × Char) := []
  first : Bool := true
  inRange : Bool := false

namespace ClassState

def add (s : ClassState) (c : Char) : ClassState := ⟨(c, c) :: s.ranges, false, false⟩

/-- Ends a range, which must not go downwards. -/
def extend? (s : ClassState) (c : Char) : Option ClassState :=
  match s.ranges with
  | (low, _) :: rest => if c < low then none else some ⟨(low, c) :: rest, false, false⟩
  | [] => none

/-- A dash at the end stands for itself. -/
def result (s : ClassState) : List (Char × Char) :=
  if s.inRange then ('-', '-') :: s.ranges else s.ranges

def next? (s : ClassState) (c : Char) : Option ClassState :=
  if s.inRange then s.extend? c
  else if c == '-' && !s.first then some {s with inRange := true}
  else some (s.add c)

end ClassState

/-- The ranges of a class and how many characters it takes, its closing bracket included. -/
def classAt? (s : ClassState) (taken : Nat) : List Char → Option (List (Char × Char) × Nat)
  | [] => none
  | c :: rest =>
    if c == ']' && !s.first then some (s.result, taken + 1)
    else (s.next? c).bind fun s => classAt? s (taken + 1) rest

/-- The class behind an opening bracket. -/
def oneOf? (cs : List Char) : Option (Token × Nat) :=
  let negated := cs.head?.any fun c => c == '!' || c == '^'
  let body := if negated then cs.drop 1 else cs
  (classAt? {} 0 body).map fun (ranges, taken) =>
    (.oneOf negated ranges, if negated then taken + 1 else taken)

/-- Two stars in front of `rest`, with what has been found before, the latest first: the tokens
after them and whether they take the slash that follows. -/
def twoStars (prior : Option Char) (found : List Token) (rest : List Char) : List Token × Bool :=
  match found, rest.head? with
  | [], none => ([.anyPrefix], false)
  | [], some '/' => ([.anyPrefix], true)
  | t :: earlier, none =>
    if prior == some '/' then ((kept t .anySuffix) :: earlier, false) else (.star :: found, false)
  | t :: earlier, some '/' =>
    if prior == some '/' then ((kept t .anyBetween) :: earlier, true) else (.star :: found, false)
  | found, _ => (.star :: found, false)
where
  kept (t other : Token) : Token := if t == .anyPrefix || t == .anySuffix then t else other

def tokens? (prior : Option Char) (found : List Token) : List Char → Option (List Token)
  | [] => some found.reverse
  | '?' :: rest => tokens? (some '?') (.anyByte :: found) rest
  | '*' :: '*' :: rest =>
    let (found, slash) := twoStars prior found rest
    if slash then tokens? (some '/') found (rest.drop 1) else tokens? (some '*') found rest
  | '*' :: rest => tokens? (some '*') (.star :: found) rest
  | '[' :: rest =>
    match oneOf? rest with
    | some (t, taken) => tokens? (some ']') (t :: found) (rest.drop taken)
    | none => none
  | '\\' :: c :: rest => tokens? (some c) (.literal c :: found) rest
  | ['\\'] => none
  | c :: rest => tokens? (some c) (.literal c :: found) rest
termination_by cs => cs.length
decreasing_by all_goals (simp only [List.length_drop, List.length_cons]; omega)

/-! ### Matching -/

abbrev Bytes := List UInt8

def slash : UInt8 := '/'.toUInt8

def literalRest (c : Char) (bs : Bytes) : List Bytes :=
  let encoded := String.utf8EncodeChar c
  if encoded.isPrefixOf bs then [bs.drop encoded.length] else []

def starRests : Bytes → List Bytes
  | [] => [[]]
  | b :: rest => (b :: rest) :: if b == slash then [] else starRests rest

def afterSlashes : Bytes → List Bytes
  | [] => []
  | b :: rest => if b == slash then rest :: afterSlashes rest else afterSlashes rest

def suffixes : Bytes → List Bytes
  | [] => [[]]
  | b :: rest => (b :: rest) :: suffixes rest

def inRanges (ranges : List (Char × Char)) (b : UInt8) : Bool :=
  ranges.any fun (low, high) => low.toNat ≤ b.toNat && b.toNat ≤ high.toNat

/-- What may be left of a path when a token has matched its front. -/
def rests : Token → Bytes → List Bytes
  | .literal c, bs => literalRest c bs
  | .anyByte, b :: rest => if b == slash then [] else [rest]
  | .star, bs => starRests bs
  | .oneOf negated ranges, b :: rest => if inRanges ranges b == negated then [] else [rest]
  | .anyPrefix, bs => bs :: afterSlashes bs
  | .anyBetween, b :: rest => if b == slash then rest :: afterSlashes rest else []
  | .anySuffix, b :: rest => if b == slash then suffixes rest else []
  | _, [] => []

def accepts (pattern : List Token) (path : Bytes) : Bool :=
  pattern == [.anyPrefix] ||
    (pattern.foldl (fun states t => (states.flatMap (rests t)).eraseDups) [path]).contains []

end Retrace.Disk.Glob
