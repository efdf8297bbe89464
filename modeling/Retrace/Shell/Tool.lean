import Retrace.Limit
import Retrace.Text.Words

/-! Tools of the shell.

A tool takes its arguments and says what it writes and how it ends. `echo` writes its arguments;
`printf` writes them by a format, over and over until all have been used. -/
namespace Retrace.Shell

abbrev Bytes := List UInt8

def bytesOf (s : String) : Bytes := s.toUTF8.toList

structure Report where
  out : Bytes := []
  complaint : String := ""
  status : Nat := 0
  deriving DecidableEq, Repr

namespace Tool

/-! ### Escapes -/

def isOctal (c : Char) : Bool := '0' ≤ c && c ≤ '7'

def octalValue (digits : List Char) : Nat :=
  digits.foldl (fun n c => 8 * n + (c.toNat - '0'.toNat)) 0

def control? : Char → Option UInt8
  | 'a' => some 7
  | 'b' => some 8
  | 't' => some 9
  | 'n' => some 10
  | 'v' => some 11
  | 'f' => some 12
  | 'r' => some 13
  | '\\' => some 92
  | _ => none

/-- What stands behind a backslash: a byte, and how many characters say so. -/
inductive Escape
  | byte (b : UInt8) (taken : Nat)
  | stop
  | none

def octalAt (cs : List Char) (limit : Nat) : Option (UInt8 × Nat) :=
  match (cs.take limit).takeWhile isOctal with
  | [] => none
  | digits => some ((octalValue digits).toUInt8, digits.length)

/-- In an argument an octal number follows a zero, in a format it need not. -/
def escapeAt (inFormat : Bool) (cs : List Char) : Escape :=
  match cs with
  | [] => .none
  | c :: rest =>
    match control? c with
    | some b => .byte b 1
    | none =>
      if inFormat then
        if c == '"' then .byte 34 1
        else
          match octalAt cs 3 with
          | some (b, n) => .byte b n
          | none => .none
      else if c == 'c' then .stop
      else if c == '0' then
        match octalAt rest 3 with
        | some (b, n) => .byte b (n + 1)
        | none => .byte 0 1
      else .none

/-! ### Echo -/

def charBytes (c : Char) : Bytes := String.utf8EncodeChar c

/-- The bytes of an argument and whether more may follow. -/
def unescape (found : Bytes) : List Char → Bytes × Bool
  | [] => (found.reverse, true)
  | '\\' :: rest =>
    match escapeAt false rest with
    | .byte b n => unescape (b :: found) (rest.drop n)
    | .stop => (found.reverse, false)
    | .none => unescape (92 :: found) rest
  | c :: rest => unescape ((charBytes c).reverse ++ found) rest
termination_by cs => cs.length
decreasing_by all_goals (simp only [List.length_drop, List.length_cons]; omega)

def echoWords : List String → Bytes × Bool
  | [] => ([], true)
  | [s] => unescape [] s.toList
  | s :: rest =>
    match unescape [] s.toList with
    | (bs, false) => (bs, false)
    | (bs, true) =>
      let (more, open?) := echoWords rest
      (bs ++ 32 :: more, open?)

def echo (arguments : List String) : Report :=
  match arguments with
  | "-n" :: rest => {out := (echoWords rest).1}
  | _ =>
    let (bs, more) := echoWords arguments
    {out := if more then bs ++ [10] else bs}

/-! ### Printf -/

structure Printing where
  /-- The latest byte first. -/
  written : Bytes
  arguments : List String
  /-- An argument has been asked for. -/
  asked : Bool
  stopped : Bool
  complaint : String
  status : Nat

namespace Printing

def put (p : Printing) (bs : Bytes) : Printing := {p with written := bs.reverse ++ p.written}

def next (p : Printing) : String × Printing :=
  match p.arguments with
  | [] => ("", {p with asked := true})
  | a :: rest => (a, {p with arguments := rest, asked := true})

def putNumber (p : Printing) : Printing :=
  let (a, p) := p.next
  let cs := a.toList
  let digits := if cs.head? == some '-' then cs.drop 1 else cs
  match Text.natural? Limit.signedLong digits with
  | some n => p.put (bytesOf (if cs.head? == some '-' then "-" ++ toString n else toString n))
  | none =>
    if a == "" then p.put (bytesOf "0")
    else
      {p.put (bytesOf "0") with
        complaint := p.complaint ++ "printf: " ++ a ++ ": expected numeric value\n"
        status := 1}

def directive (p : Printing) (c : Char) : Printing :=
  match c with
  | '%' => p.put [37]
  | 's' =>
    let (a, p) := p.next
    p.put (bytesOf a)
  | 'c' =>
    let (a, p) := p.next
    p.put ((bytesOf a).take 1)
  | 'b' =>
    let (a, p) := p.next
    let (bs, more) := unescape [] a.toList
    {p.put bs with stopped := !more}
  | 'd' => p.putNumber
  | 'i' => p.putNumber
  | 'u' => p.putNumber
  | c =>
    {p with
      stopped := true
      complaint := p.complaint ++ "printf: %" ++ String.singleton c ++ ": invalid directive\n"
      status := 1}

/-- Writes the format once. -/
def pass (p : Printing) : List Char → Printing
  | [] => p
  | '\\' :: rest =>
    match escapeAt true rest with
    | .byte b n => pass (p.put [b]) (rest.drop n)
    | .stop => p
    | .none => pass (p.put [92]) rest
  | '%' :: c :: rest =>
    let p := p.directive c
    if p.stopped then p else pass p rest
  | c :: rest => pass (p.put (charBytes c)) rest
termination_by cs => cs.length
decreasing_by all_goals (simp only [List.length_drop, List.length_cons]; omega)

/-- Writes the format again as long as it uses up arguments. -/
def passes (format : List Char) : Nat → Printing → Printing
  | 0, p => p
  | fuel + 1, p =>
    let q := pass {p with asked := false} format
    if q.stopped || !q.asked || q.arguments.isEmpty then q else passes format fuel q

end Printing

def printf (arguments : List String) : Report :=
  match arguments with
  | [] => {complaint := "printf: usage: printf format [arg ...]\n", status := 2}
  | format :: rest =>
    let p := Printing.passes format.toList (rest.length + 1) ⟨[], rest, false, false, "", 0⟩
    ⟨p.written.reverse, p.complaint, p.status⟩

/-! ### Tests -/

def truth (b : Bool) : Report := {status := if b then 0 else 1}

def integer? (s : String) : Option Int :=
  match s.toList with
  | '-' :: digits => (Text.natural? Limit.signedLong digits).map fun n => -(n : Int)
  | cs => (Text.natural? Limit.signedLong cs).map Int.ofNat

def compare? (operator : String) (a b : Int) : Option Bool :=
  match operator with
  | "-eq" => some (a == b)
  | "-ne" => some (a != b)
  | "-lt" => some (a < b)
  | "-le" => some (a ≤ b)
  | "-gt" => some (b < a)
  | "-ge" => some (b ≤ a)
  | _ => none

/-- What a condition comes to. `isFile` and `isDirectory` know the disk. -/
def condition (isFile isDirectory : String → Bool) : List String → Report
  | [] => truth false
  | "!" :: rest =>
    let r := condition isFile isDirectory rest
    if r.status ≤ 1 then truth (r.status == 1) else r
  | [s] => truth (s ≠ "")
  | ["-n", s] => truth (s ≠ "")
  | ["-z", s] => truth (s == "")
  | ["-e", s] => truth (isFile s || isDirectory s)
  | ["-f", s] => truth (isFile s)
  | ["-d", s] => truth (isDirectory s)
  | [a, "=", b] => truth (a == b)
  | [a, "!=", b] => truth (a ≠ b)
  | [a, operator, b] =>
    match integer? a, integer? b with
    | some m, some n =>
      match compare? operator m n with
      | some b => truth b
      | none => {complaint := "test: " ++ operator ++ ": unexpected operator\n", status := 2}
    | _, _ => {complaint := "test: Illegal number\n", status := 2}
  | _ => {complaint := "test: too many arguments\n", status := 2}

/-! ### Time -/

/-- The milliseconds of a number of seconds with at most one point. -/
def milliseconds? (s : String) : Option Nat :=
  let cs := s.toList
  let whole := cs.takeWhile Char.isDigit
  let value := whole.foldl (fun n c => 10 * n + (c.toNat - '0'.toNat)) 0
  match cs.drop whole.length with
  | [] => if whole.isEmpty then none else some (1000 * value)
  | '.' :: fraction =>
    if fraction.all Char.isDigit && !(whole.isEmpty && fraction.isEmpty) then
      let digits := (fraction ++ ['0', '0', '0']).take 3
      some (1000 * value + digits.foldl (fun n c => 10 * n + (c.toNat - '0'.toNat)) 0)
    else none
  | _ => none

end Tool

end Retrace.Shell
