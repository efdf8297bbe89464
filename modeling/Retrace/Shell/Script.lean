/-! Scripts.

A checker may be a script. The language is the plain part of what shells understand: simple
commands with quotes, parameters, assignments and redirections, lists and pipelines of commands,
groups, choices, and loops over words. `Script.ofText?` reads a script and fails on anything
else. -/
namespace Retrace.Shell

inductive Part
  | text (s : String)
  /-- The value of a parameter; without quotes it is cut into words. -/
  | parameter (quoted : Bool) (name : String)
  deriving DecidableEq, Repr

abbrev Word := List Part

inductive Direction
  | input
  | output
  | append
  | duplicate
  deriving DecidableEq, Repr

structure Redirection where
  stream : Nat
  direction : Direction
  target : Word
  deriving DecidableEq, Repr

inductive Script
  | skip
  | simple (line : Nat) (assignments : List (String × Word)) (words : List Word)
      (redirections : List Redirection)
  | sequence (first second : Script)
  | both (first second : Script)
  | either (first second : Script)
  | negate (s : Script)
  | pipe (first second : Script)
  | group (s : Script) (redirections : List Redirection)
  | subshell (s : Script) (redirections : List Redirection)
  | choice (condition yes no : Script)
  | each (name : String) (words : List Word) (body : Script)
  deriving Repr

/-! ### Tokens -/

inductive Lexeme
  | word (w : Word)
  | redirect (stream : Option Nat) (direction : Direction)
  | operator (s : String)
  deriving DecidableEq, Repr

structure Token where
  lexeme : Lexeme
  line : Nat
  deriving DecidableEq, Repr

def isNameStart (c : Char) : Bool := c.isAlpha || c == '_'

def isNameChar (c : Char) : Bool := c.isAlphanum || c == '_'

def isSpecialParameter (c : Char) : Bool :=
  c.isDigit || c == '@' || c == '*' || c == '#' || c == '?' || c == '$'

/-- The parameter behind a dollar sign, and how many characters name it. -/
def parameterAt? (cs : List Char) : Option (String × Nat) :=
  match cs with
  | '{' :: rest =>
    let name := rest.takeWhile (· ≠ '}')
    if name.length < rest.length && !name.isEmpty then
      some (String.ofList name, name.length + 2)
    else none
  | c :: _ =>
    if isSpecialParameter c then some (String.singleton c, 1)
    else if isNameStart c then
      let name := cs.takeWhile isNameChar
      some (String.ofList name, name.length)
    else none
  | [] => none

/-- Inside of double quotes a backslash quotes only a few characters. -/
def isQuotable (c : Char) : Bool := c == '$' || c == '"' || c == '\\' || c == '\x60'

/-- The parts between double quotes, and how many characters they take with the closing quote. -/
def doubleQuoted (found : List Part) (taken : Nat) : List Char → Option (List Part × Nat)
  | [] => none
  | '"' :: _ => some (found.reverse, taken + 1)
  | '\\' :: '\n' :: rest => doubleQuoted found (taken + 2) rest
  | '\\' :: c :: rest =>
    let s := if isQuotable c then String.singleton c else String.ofList ['\\', c]
    doubleQuoted (.text s :: found) (taken + 2) rest
  | '$' :: rest =>
    match parameterAt? rest with
    | some (name, n) =>
      doubleQuoted (.parameter true name :: found) (taken + 1 + n) (rest.drop n)
    | none =>
      if rest.head? == some '(' then none else doubleQuoted (.text "$" :: found) (taken + 1) rest
  | c :: rest =>
    if c == '\x60' then none
    else doubleQuoted (.text (String.singleton c) :: found) (taken + 1) rest
termination_by cs => cs.length
decreasing_by all_goals (simp only [List.length_drop, List.length_cons]; omega)

structure Lexing where
  line : Nat
  /-- The word that has begun, its latest part first. -/
  open? : Option (List Part)
  found : List Token

namespace Lexing

def flush (l : Lexing) : Lexing :=
  match l.open? with
  | some parts => {l with open? := none, found := ⟨.word parts.reverse, l.line⟩ :: l.found}
  | none => l

def add (l : Lexing) (p : Part) : Lexing := {l with open? := some (p :: l.open?.getD [])}

def addAll (l : Lexing) (ps : List Part) : Lexing :=
  {l with open? := some (ps.reverse ++ l.open?.getD [])}

def emit (l : Lexing) (x : Lexeme) : Lexing :=
  let l := l.flush
  {l with found := ⟨x, l.line⟩ :: l.found}

def newLine (l : Lexing) : Lexing :=
  let l := l.emit (.operator "\n")
  {l with line := l.line + 1}

def digit? : Part → Option Nat
  | .text s =>
    match s.toList with
    | [c] => if c.isDigit then some (c.toNat - '0'.toNat) else none
    | _ => none
  | .parameter _ _ => none

/-- A redirection; one digit directly in front of it names its stream. -/
def redirect (l : Lexing) (d : Direction) : Lexing :=
  match l.open? with
  | some [p] =>
    match digit? p with
    | some n => {l with open? := none, found := ⟨.redirect (some n) d, l.line⟩ :: l.found}
    | none => l.emit (.redirect none d)
  | _ => l.emit (.redirect none d)

end Lexing

def lex (l : Lexing) : List Char → Option (List Token)
  | [] => some l.flush.found.reverse
  | '\\' :: '\n' :: rest => lex {l with line := l.line + 1} rest
  | '\\' :: c :: rest => lex (l.add (.text (String.singleton c))) rest
  | '\'' :: rest =>
    let body := rest.takeWhile (· ≠ '\'')
    if body.length < rest.length then
      lex (l.add (.text (String.ofList body))) (rest.drop (body.length + 1))
    else none
  | '"' :: rest =>
    match doubleQuoted [] 0 rest with
    | some (parts, n) => lex (l.addAll (if parts.isEmpty then [.text ""] else parts)) (rest.drop n)
    | none => none
  | '$' :: rest =>
    match parameterAt? rest with
    | some (name, n) => lex (l.add (.parameter false name)) (rest.drop n)
    | none => if rest.head? == some '(' then none else lex (l.add (.text "$")) rest
  | '&' :: '&' :: rest => lex (l.emit (.operator "&&")) rest
  | '|' :: '|' :: rest => lex (l.emit (.operator "||")) rest
  | '>' :: '>' :: rest => lex (l.redirect .append) rest
  | '>' :: '&' :: rest => lex (l.redirect .duplicate) rest
  | '<' :: '<' :: _ => none
  | c :: rest =>
    if c == ' ' || c == '\t' then lex l.flush rest
    else if c == '\n' then lex l.newLine rest
    else if c == '#' && l.open?.isNone then
      lex l (rest.drop (rest.takeWhile (· ≠ '\n')).length)
    else if c == '>' then lex (l.redirect .output) rest
    else if c == '<' then lex (l.redirect .input) rest
    else if c == ';' || c == '|' || c == '(' || c == ')' then
      lex (l.emit (.operator (String.singleton c))) rest
    else if c == '&' || c == '\x60' then none
    else lex (l.add (.text (String.singleton c))) rest
termination_by cs => cs.length
decreasing_by all_goals (simp only [List.length_drop, List.length_cons]; omega)

/-! ### Commands -/

namespace Script

/-- A word without any parameters. -/
def plain? (w : Word) : Option String :=
  (w.mapM fun (p : Part) =>
    match p with
    | .text s => some s
    | .parameter _ _ => none).map String.join

def isOperator (s : String) : List Token → Bool
  | ⟨.operator o, _⟩ :: _ => o == s
  | _ => false

def keyword? : List Token → Option String
  | ⟨.word w, _⟩ :: _ => plain? w
  | _ => none

def isKeyword (s : String) (ts : List Token) : Bool := keyword? ts == some s

def expectKeyword (s : String) (ts : List Token) : Option (List Token) :=
  if isKeyword s ts then some ts.tail else none

def closers : List String := ["then", "else", "elif", "fi", "do", "done", "\x7d"]

/-- No command begins here. -/
def isEnd (ts : List Token) : Bool :=
  ts.isEmpty || isOperator ")" ts || ((keyword? ts).any closers.contains)

def skipBreaks : List Token → List Token
  | ⟨.operator o, l⟩ :: rest => if o == "\n" then skipBreaks rest else ⟨.operator o, l⟩ :: rest
  | ts => ts

def redirections (found : List Redirection) :
    List Token → Option (List Redirection × List Token)
  | ⟨.redirect n d, _⟩ :: ⟨.word w, _⟩ :: rest =>
    let stream := n.getD (if d == .input then 0 else 1)
    redirections (⟨stream, d, w⟩ :: found) rest
  | ⟨.redirect _ _, _⟩ :: _ => none
  | ts => some (found.reverse, ts)

/-- `name=value` at the front of a word. -/
def assignmentParts (name : List Char) : Word → Option (String × Word)
  | .text s :: rest =>
    match s.toList.span (· ≠ '=') with
    | (front, '=' :: value) =>
      let whole := name ++ front
      if whole.head?.any isNameStart && whole.all isNameChar then
        some (String.ofList whole, .text (String.ofList value) :: rest)
      else none
    | (front, _) => assignmentParts (name ++ front) rest
  | _ => none

structure Simple where
  assignments : List (String × Word) := []
  words : List Word := []
  redirections : List Redirection := []

def Simple.addWord (s : Simple) (w : Word) : Simple :=
  match s.words, assignmentParts [] w with
  | [], some a => {s with assignments := s.assignments ++ [a]}
  | ws, _ => {s with words := ws ++ [w]}

def simpleCommand (s : Simple) : List Token → Option (Simple × List Token)
  | ⟨.word w, _⟩ :: rest => simpleCommand (s.addWord w) rest
  | ⟨.redirect n d, _⟩ :: ⟨.word w, _⟩ :: rest =>
    let r : Redirection := ⟨n.getD (if d == .input then 0 else 1), d, w⟩
    simpleCommand {s with redirections := s.redirections ++ [r]} rest
  | ⟨.redirect _ _, _⟩ :: _ => none
  | ts => some (s, ts)

def wordsOf (found : List Word) : List Token → List Word × List Token
  | ⟨.word w, _⟩ :: rest => wordsOf (w :: found) rest
  | ts => (found.reverse, ts)

/-- What may stand between a loop's words and its body. -/
def loopBreak : List Token → List Token
  | ⟨.operator ";", _⟩ :: rest => skipBreaks rest
  | ts => skipBreaks ts

def lineOf : List Token → Nat
  | t :: _ => t.line
  | [] => 1

mutual

def list? : Nat → List Token → Option (Script × List Token)
  | 0, _ => none
  | fuel + 1, ts => do
    let ts := skipBreaks ts
    if isEnd ts then return (.skip, ts)
    else
      let (first, rest) ← chain? fuel ts
      if isOperator ";" rest || isOperator "\n" rest then
        let (second, rest) ← list? fuel rest.tail
        return (.sequence first second, rest)
      else return (first, rest)

/-- Commands that hang on the outcome of those in front of them. -/
def chain? : Nat → List Token → Option (Script × List Token)
  | 0, _ => none
  | fuel + 1, ts => do
    let (first, rest) ← pipeline? fuel ts
    chainFrom? fuel first rest

def chainFrom? : Nat → Script → List Token → Option (Script × List Token)
  | 0, _, _ => none
  | fuel + 1, first, ts => do
    if isOperator "&&" ts then
      let (second, rest) ← pipeline? fuel (skipBreaks ts.tail)
      chainFrom? fuel (.both first second) rest
    else if isOperator "||" ts then
      let (second, rest) ← pipeline? fuel (skipBreaks ts.tail)
      chainFrom? fuel (.either first second) rest
    else return (first, ts)

def pipeline? : Nat → List Token → Option (Script × List Token)
  | 0, _ => none
  | fuel + 1, ts => do
    if isKeyword "!" ts then
      let (s, rest) ← pipeline? fuel ts.tail
      return (.negate s, rest)
    else
      let (first, rest) ← command? fuel ts
      if isOperator "|" rest then
        let (second, rest) ← pipeline? fuel (skipBreaks rest.tail)
        return (.pipe first second, rest)
      else return (first, rest)

def command? : Nat → List Token → Option (Script × List Token)
  | 0, _ => none
  | fuel + 1, ts => do
    if isOperator "(" ts then
      let (s, rest) ← list? fuel ts.tail
      if isOperator ")" rest then
        let (rs, rest) ← redirections [] rest.tail
        return (.subshell s rs, rest)
      else none
    else if isKeyword "\x7b" ts then
      let (s, rest) ← list? fuel ts.tail
      let (rs, rest) ← redirections [] (← expectKeyword "\x7d" rest)
      return (.group s rs, rest)
    else if isKeyword "if" ts then choice? fuel ts.tail
    else if isKeyword "for" ts then loop? fuel ts.tail
    else
      let (s, rest) ← simpleCommand {} ts
      if s.words.isEmpty && s.assignments.isEmpty && s.redirections.isEmpty then none
      else return (.simple (lineOf ts) s.assignments s.words s.redirections, rest)

def choice? : Nat → List Token → Option (Script × List Token)
  | 0, _ => none
  | fuel + 1, ts => do
    let (condition, rest) ← list? fuel ts
    let (yes, rest) ← list? fuel (← expectKeyword "then" rest)
    if isKeyword "elif" rest then
      let (no, rest) ← choice? fuel rest.tail
      return (.choice condition yes no, rest)
    else if isKeyword "else" rest then
      let (no, rest) ← list? fuel rest.tail
      return (.choice condition yes no, ← expectKeyword "fi" rest)
    else return (.choice condition yes .skip, ← expectKeyword "fi" rest)

def loop? : Nat → List Token → Option (Script × List Token)
  | 0, _ => none
  | fuel + 1, ts => do
    let name ← keyword? ts
    let rest ← expectKeyword "in" (skipBreaks ts.tail)
    let (words, rest) := wordsOf [] rest
    let (body, rest) ← list? fuel (← expectKeyword "do" (loopBreak rest))
    return (.each name words body, ← expectKeyword "done" rest)

end

def ofText? (text : String) : Option Script := do
  let tokens ← lex ⟨1, none, []⟩ text.toList
  let (s, rest) ← list? (8 * tokens.length + 8) tokens
  if rest.isEmpty then return s else none

end Script

end Retrace.Shell
