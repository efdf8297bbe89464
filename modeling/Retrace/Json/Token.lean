import Retrace.Json.Numeral

/-! JSON tokens.

A text is cut into tokens up to its end or to the first place that begins no token or breaks one
off. Strings and numbers are well formed or not regardless of what they stand for: a lone
surrogate or a number that is too large matters only where the value is asked for. A `Scan` keeps
both answers. -/
namespace Retrace.Json

structure Scan (α : Type) where
  value : Except JsonFault α
  /-- What is wrong with the form. -/
  fault : Option JsonFault

inductive Token
  | openArray
  | closeArray
  | openObject
  | closeObject
  | comma
  | colon
  | null
  | bool (b : Bool)
  | string (s : Scan String)
  | number (n : Scan Number)
  /-- A word that is none of the three, and how it fails. -/
  | misspelt (fault : JsonFault)
  | stray

namespace Token

def isBlank (c : Char) : Bool :=
  c == ' ' || c == '\n' || c == '\t' || c == '\r'

/-! ### Strings -/

/-- What a string is made of: characters, and code units written in hexadecimal. -/
inductive Piece
  | char (c : Char)
  | unit (n : Nat)

structure StringScan where
  pieces : List Piece
  length : Nat
  fault : Option JsonFault

def hexValue? (c : Char) : Option Nat :=
  if c.isDigit then some (c.toNat - '0'.toNat)
  else if 'a' ≤ c && c ≤ 'f' then some (c.toNat - 'a'.toNat + 10)
  else if 'A' ≤ c && c ≤ 'F' then some (c.toNat - 'A'.toNat + 10)
  else none

def hexUnit? : List Char → Option Nat
  | [a, b, c, d] => do
    let a ← hexValue? a
    let b ← hexValue? b
    let c ← hexValue? c
    let d ← hexValue? d
    return ((a * 16 + b) * 16 + c) * 16 + d
  | _ => none

/-- Four digits that are not there: cut off when fewer than four bytes are left. -/
def unitFault (rest : List Char) : JsonFault :=
  if (String.ofList (rest.take 4)).utf8ByteSize < 4 then .eof else .malformed

def shortEscape? : Char → Option Char
  | '"' => some '"'
  | '\\' => some '\\'
  | '/' => some '/'
  | 'b' => some '\x08'
  | 'f' => some '\x0c'
  | 'n' => some '\n'
  | 'r' => some '\r'
  | 't' => some '\t'
  | _ => none

/-- Scans up to the closing quote; `seen` characters of the string have been scanned before. -/
def scanString (pieces : List Piece) (seen : Nat) : List Char → StringScan
  | '"' :: _ => ⟨pieces.reverse, seen + 1, none⟩
  | '\\' :: 'u' :: a :: b :: c :: d :: rest =>
    match hexUnit? [a, b, c, d] with
    | some n => scanString (.unit n :: pieces) (seen + 6) rest
    | none => ⟨pieces.reverse, seen, some .malformed⟩
  | '\\' :: 'u' :: rest => ⟨pieces.reverse, seen, some (unitFault rest)⟩
  | '\\' :: e :: rest =>
    match shortEscape? e with
    | some c => scanString (.char c :: pieces) (seen + 2) rest
    | none => ⟨pieces.reverse, seen, some .malformed⟩
  | ['\\'] => ⟨pieces.reverse, seen, some .eof⟩
  | c :: rest =>
    if c.toNat < 32 then ⟨pieces.reverse, seen, some .malformed⟩
    else scanString (.char c :: pieces) (seen + 1) rest
  | [] => ⟨pieces.reverse, seen, some .eof⟩

def isHigh (n : Nat) : Bool := 0xD800 ≤ n && n < 0xDC00

def isLow (n : Nat) : Bool := 0xDC00 ≤ n && n < 0xE000

def pairChar (high low : Nat) : Char :=
  Char.ofNat ((high - 0xD800) * 0x400 + (low - 0xDC00) + 0x10000)

/-- Puts surrogates together; a lone one is malformed. -/
def assemble (fault : Option JsonFault) (done : List Char) :
    List Piece → Except JsonFault (List Char)
  | [] => match fault with
    | some f => .error f
    | none => .ok done.reverse
  | .char c :: rest => assemble fault (c :: done) rest
  | .unit n :: rest =>
    if isLow n then .error .malformed
    else if isHigh n then
      match rest with
      | .unit m :: rest =>
        if isLow m then assemble fault (pairChar n m :: done) rest else .error .malformed
      | [] => .error (fault.getD .malformed)
      | _ => .error .malformed
    else assemble fault (Char.ofNat n :: done) rest

def StringScan.toScan (s : StringScan) : Scan String :=
  ⟨(assemble s.fault [] s.pieces).map String.ofList, s.fault⟩

/-! ### Numbers -/

def numberScan (r : Except JsonFault (Numeral × List Char)) : Scan Number :=
  match r with
  | .error f => ⟨.error f, some .malformed⟩
  | .ok (x, _) =>
    match x.value? with
    | some n => ⟨.ok n, none⟩
    | none => ⟨.error .malformed, none⟩

/-! ### Words -/

/-- Compares the rest of a word letter by letter. -/
def matchWord : List Char → List Char → Option JsonFault
  | [], _ => none
  | _ :: _, [] => some .eof
  | w :: ws, c :: cs => if w == c then matchWord ws cs else some .malformed

def word (token : Token) (letters cs : List Char) : Token × Nat :=
  match matchWord letters cs with
  | none => (token, letters.length)
  | some f => (misspelt f, cs.length)

/-! ### Texts -/

/-- The token that begins with `c`, and how many of the characters behind belong to it. With a
broken token all of them do. -/
def first (c : Char) (cs : List Char) : Token × Nat :=
  match c with
  | '[' => (openArray, 0)
  | ']' => (closeArray, 0)
  | '{' => (openObject, 0)
  | '}' => (closeObject, 0)
  | ',' => (comma, 0)
  | ':' => (colon, 0)
  | 'n' => word null ['u', 'l', 'l'] cs
  | 't' => word (bool true) ['r', 'u', 'e'] cs
  | 'f' => word (bool false) ['a', 'l', 's', 'e'] cs
  | '"' =>
    let s := scanString [] 0 cs
    (string s.toScan, if s.fault.isSome then cs.length else s.length)
  | c =>
    if c == '-' || c.isDigit then
      let r := Numeral.scan (c :: cs)
      match r with
      | .ok (_, rest) => (number (numberScan r), cs.length - rest.length)
      | .error _ => (number (numberScan r), cs.length)
    else (stray, cs.length)

def tokensFrom (found : List Token) : List Char → List Token
  | [] => found.reverse
  | c :: cs =>
    if isBlank c then tokensFrom found cs
    else
      let (t, n) := first c cs
      tokensFrom (t :: found) (cs.drop n)
termination_by cs => cs.length
decreasing_by
  · simp
  · simp only [List.length_drop, List.length_cons]
    omega

def tokens (text : String) : List Token := tokensFrom [] text.toList

end Token

end Retrace.Json
