import Retrace.Java.Lexeme
import Retrace.Java.Numeral
import Retrace.Text.IdentifierChar

/-! The lexer.

`lex` cuts a text into lexemes and leaves out white space and comments. Symbols are taken as long
as they can be, except that `>` always stands alone, since it may close a list of type arguments;
inside a string the rules are those of `stringStep` and `blockStep`. Each step takes at least one
character, so the lexer ends with its text. -/
namespace Retrace.Java.Lexer

/-- What the text at hand is part of. A hole in a string holds code again, up to the brace that
closes it. -/
inductive Mode
  | quote
  | block
  | hole (braces : Nat)
  deriving DecidableEq, Repr

/-- What the next lexeme is, if it is one, how many characters it takes beyond its first, and in
which mode the text goes on. -/
structure Step where
  kind : Option LexemeKind
  more : Nat
  modes : List Mode

def isSpace (c : Char) : Bool :=
  c == ' ' || ('\t' ≤ c && c ≤ '\r')

/-- The symbols of more than one character, longer ones first. -/
def longSymbols : List (List Char) :=
  [['<', '<', '='], ['.', '.', '.'], ['-', '>'], [':', ':'], ['+', '+'], ['-', '-'], ['&', '&'],
    ['|', '|'], ['=', '='], ['!', '='], ['<', '='], ['<', '<'], ['+', '='], ['-', '='],
    ['*', '='], ['/', '='], ['&', '='], ['|', '='], ['^', '='], ['%', '=']]

def shortSymbols : List Char :=
  ['(', ')', '{', '}', '[', ']', ';', ',', '.', '@', '=', '>', '<', '!', '~', '?', ':', '+', '-',
    '*', '/', '&', '|', '^', '%']

def countWhile (p : Char → Bool) (cs : List Char) : Nat :=
  (cs.takeWhile p).length

/-- The number of characters up to and including the end of a block comment. -/
def commentEnd? (seen : Nat) : List Char → Option Nat
  | '*' :: '/' :: _ => some (seen + 2)
  | _ :: cs => commentEnd? (seen + 1) cs
  | [] => none

/-- The number of characters up to and including the end of a character literal. -/
def characterEnd? (seen : Nat) : List Char → Option Nat
  | '\\' :: _ :: cs => characterEnd? (seen + 2) cs
  | '\'' :: _ => if 0 < seen then some (seen + 1) else none
  | '\n' :: _ => none
  | '\\' :: [] => none
  | _ :: cs => characterEnd? (seen + 1) cs
  | [] => none

/-- The number of characters beyond the first of a comment, a number, a character literal or a
symbol. -/
def comment? (c : Char) (cs : List Char) : Option Nat :=
  match c, cs with
  | '/', '/' :: rest => some (1 + countWhile (· ≠ '\n') rest)
  | '/', '*' :: rest => (commentEnd? 0 rest).map (1 + ·)
  | _, _ => none

def number? (c : Char) (cs : List Char) : Option (Form × Nat) :=
  if c.isDigit || c == '.' then (Numeral.numeral? (c :: cs)).map fun (f, n) => (f, n - 1)
  else none

def symbol? (c : Char) (cs : List Char) : Option Nat :=
  match longSymbols.find? fun s => s.isPrefixOf (c :: cs) with
  | some s => some (s.length - 1)
  | none => if shortSymbols.contains c then some 0 else none

/-- Counts braces inside a hole; `none` when this one closes it. -/
def afterBrace (c : Char) : List Mode → Option (List Mode)
  | .hole n :: modes =>
    if c == '{' then some (.hole (n + 1) :: modes)
    else if c == '}' then (if n == 0 then none else some (.hole (n - 1) :: modes))
    else some (.hole n :: modes)
  | modes => some modes

def quoteStart (cs : List Char) (modes : List Mode) : Step :=
  match cs with
  | '"' :: '"' :: _ => ⟨some .openBlock, 2, .block :: modes⟩
  | _ => ⟨some .openQuote, 0, .quote :: modes⟩

def codeStep (c : Char) (cs : List Char) (modes : List Mode) : Step :=
  if isSpace c then ⟨none, 0, modes⟩
  else if isIdentifierStart c then ⟨some .word, countWhile isIdentifierPart cs, modes⟩
  else if c == '"' then quoteStart cs modes
  else if c == '\'' then
    match characterEnd? 0 cs with
    | some n => ⟨some (.literal .characterLiteral), n, modes⟩
    | none => ⟨some .stray, 0, modes⟩
  else
    match comment? c cs with
    | some n => ⟨none, n, modes⟩
    | none =>
      match number? c cs with
      | some (form, n) => ⟨some (.literal form), n, modes⟩
      | none =>
        match symbol? c cs with
        | some n =>
          match afterBrace c modes with
          | some modes => ⟨some .symbol, n, modes⟩
          | none => ⟨some .closeHole, 0, modes.tail⟩
        | none => ⟨some .stray, 0, modes⟩
where
  isIdentifierStart := Text.isIdentifierStart
  isIdentifierPart := Text.isIdentifierPart

/-- The number of characters of an escape behind its backslash. -/
def escape? : List Char → Option Nat
  | 'x' :: a :: b :: _ => if isHex a && isHex b then some 3 else none
  | 'u' :: '{' :: cs =>
    let n := countWhile isHex cs
    if 0 < n && (cs.drop n).head? == some '}' then some (n + 3) else none
  | 'u' :: a :: b :: c :: d :: _ => if [a, b, c, d].all isHex then some 5 else none
  | c :: cs =>
    if isOctal c then some (1 + min 2 (countWhile isOctal cs))
    else if c == 'x' || c == 'u' then none
    else some 1
  | [] => none
where
  isHex := Numeral.isHexDigit
  isOctal := Numeral.isOctalDigit

def isPlain (c : Char) : Bool :=
  c ≠ '"' && c ≠ '\\'

def stringStep (c : Char) (cs : List Char) (modes : List Mode) : Step :=
  if c == '"' then ⟨some .closeQuote, 0, modes.tail⟩
  else if c == '\\' then
    if cs.head? == some '{' then ⟨some .openHole, 1, .hole 0 :: modes⟩
    else
      match escape? cs with
      | some n => ⟨some (.piece .escapeSequence), n, modes⟩
      | none => ⟨some .stray, 0, modes⟩
  else ⟨some (.piece .stringFragment), countWhile isPlain cs, modes⟩

/-- The characters whose escapes are nodes inside a text block. -/
def shortEscapes : List Char :=
  ['b', 'f', 'n', 'r', 't', 's', '\'', '"', '\\']

/-- How far a fragment that begins with a quote goes: up to the next quote that is not escaped. -/
def quotedRun (seen : Nat) : List Char → Nat
  | '\\' :: '"' :: cs => quotedRun (seen + 2) cs
  | '\\' :: _ => seen
  | '"' :: _ => seen
  | _ :: cs => quotedRun (seen + 1) cs
  | [] => seen

def blockStep (c : Char) (cs : List Char) (modes : List Mode) : Step :=
  if c == '"' then
    match cs with
    | '"' :: '"' :: _ => ⟨some .closeBlock, 2, modes.tail⟩
    | _ => ⟨some (.piece .multilineStringFragment), quotedRun 0 cs, modes⟩
  else if c == '\\' then
    match cs.head? with
    | some d => ⟨some (if shortEscapes.contains d then .piece .escapeSequence else .bare), 1, modes⟩
    | none => ⟨some .stray, 0, modes⟩
  else ⟨some (.piece .multilineStringFragment), countWhile isPlain cs, modes⟩

def step (c : Char) (cs : List Char) (modes : List Mode) : Step :=
  match modes with
  | .quote :: _ => stringStep c cs modes
  | .block :: _ => blockStep c cs modes
  | _ => codeStep c cs modes

def lexFrom (modes : List Mode) (p : Point) (found : List Lexeme) : List Char → List Lexeme
  | [] => found.reverse
  | c :: cs =>
    let s := step c cs modes
    let taken := c :: cs.take s.more
    let q := p.advance taken
    let found :=
      match s.kind with
      | some kind => ⟨kind, String.ofList taken, p, q⟩ :: found
      | none => found
    lexFrom s.modes q found (cs.drop s.more)
termination_by cs => cs.length
decreasing_by
  simp only [List.length_drop, List.length_cons]
  omega

/-- Where the text begins once a byte order mark is passed over. -/
def skipMark (cs : List Char) : Point × List Char :=
  match cs with
  | '\uFEFF' :: rest => (Point.origin.after '\uFEFF', rest)
  | cs => (Point.origin, cs)

def lex (cs : List Char) : List Lexeme :=
  let (p, rest) := skipMark cs
  lexFrom [] p [] rest

/-- Where the first lexeme or comment stands, or the end of a text that has none. -/
def firstPoint (cs : List Char) : Point :=
  let (p, rest) := skipMark cs
  p.advance (rest.takeWhile isSpace)

end Retrace.Java.Lexer
