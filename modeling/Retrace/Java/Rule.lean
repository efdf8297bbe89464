import Retrace.Java.Tree

/-! Grammar rules.

A grammar gives each of its categories a rule. A rule is read against the lexemes that are left:
it fails, or it takes some of them and gives the nodes they make. Of two alternatives the second
is tried only when the first fails, and repetitions take as much as they can. A construct that
begins with itself, as a sum begins with a term, is read by `chain`: the base gives a first node,
and as long as the links of the chain match, a link grows the node by one level.

`Rule.read` spends a unit of fuel on each step; `Rule.fuelFor` is ample for a grammar in which
categories refer to one another without end only by way of lexemes. -/
namespace Retrace.Java

inductive Rule (C : Type)
  /-- Takes one lexeme and gives no node. -/
  | take (accepts : Lexeme → Bool)
  /-- Takes symbols that touch one another, the last of which touches none of `notBefore`. -/
  | glued (texts notBefore : List String)
  /-- Takes one lexeme and gives a node without children. -/
  | leaf (form : Form) (accepts : Lexeme → Bool)
  | nothing
  | call (category : C)
  | sequence (first second : Rule C)
  | either (first second : Rule C)
  | many (rule : Rule C)
  | under (slot : Field) (rule : Rule C)
  | node (form : Form) (rule : Rule C)
  /-- Fails unless all nodes of the rule have an accepted form. -/
  | only (accepts : Form → Bool) (rule : Rule C)
  | ahead (rule : Rule C)
  | notAhead (rule : Rule C)
  | chain (base link : Rule C)
  /-- Within the link of a chain: puts the chain's node, if its form is accepted, in front of the
  nodes of the rule and makes a node of them all. -/
  | grow (form : Form) (slot : Option Field) (accepts : Form → Bool) (rule : Rule C)

instance {C : Type} : AndThen (Rule C) := ⟨fun a b => .sequence a (b ())⟩

instance {C : Type} : OrElse (Rule C) := ⟨fun a b => .either a (b ())⟩

namespace Rule

/-- The lexemes that are left and the point at which the last taken one ended. -/
structure Input where
  rest : List Lexeme
  reached : Point

/-- The point at which a node begins that is read from here. -/
def Input.start (i : Input) : Point :=
  match i.rest with
  | l :: _ => l.start
  | [] => i.reached

def next (accepts : Lexeme → Bool) (i : Input) : Option (Lexeme × Input) :=
  match i.rest with
  | l :: rest => if accepts l then some (l, ⟨rest, l.stop⟩) else none
  | [] => none

/-- Takes the symbols one after the other, each touching the one before it. -/
def takeGlued (notBefore : List String) (before : Option Lexeme) : List String → Input →
    Option Input
  | [], i =>
    match before, i.rest with
    | some a, b :: _ => if a.touches b && notBefore.any fun t => b.isSymbol t then none else some i
    | _, _ => some i
  | t :: ts, i =>
    match next (Lexeme.isSymbol t) i with
    | some (l, j) =>
      if before.all fun a => a.touches l then takeGlued notBefore (some l) ts j else none
    | none => none

def wordOf (form : Form) (l : Lexeme) : Option String :=
  if form == .identifier then some l.text else none

def leafOf (form : Form) (l : Lexeme) : Tree :=
  .node form none l.start l.stop (wordOf form l) []

variable {C : Type} (grammar : C → Rule C)

mutual

/-- Reads a rule; `left` is the node that a link of a chain grows. -/
def read : Nat → Rule C → Option Tree → Input → Option (List Tree × Input)
  | 0, _, _, _ => none
  | fuel + 1, rule, left, i =>
    match rule with
    | take accepts => (next accepts i).map fun (_, j) => ([], j)
    | glued texts notBefore => (takeGlued notBefore none texts i).map fun j => ([], j)
    | leaf form accepts => (next accepts i).map fun (l, j) => ([leafOf form l], j)
    | nothing => some ([], i)
    | call category => read fuel (grammar category) none i
    | sequence first second =>
      match read fuel first none i with
      | none => none
      | some (xs, j) =>
        match read fuel second none j with
        | none => none
        | some (ys, k) => some (xs ++ ys, k)
    | either first second =>
      match read fuel first left i with
      | some found => some found
      | none => read fuel second left i
    | many rule => readMany fuel rule [] i
    | under slot rule =>
      (read fuel rule none i).map fun (xs, j) => (xs.map (Tree.under (some slot)), j)
    | node form rule =>
      (read fuel rule none i).map fun (xs, j) => ([.node form none i.start j.reached none xs], j)
    | only accepts rule =>
      match read fuel rule none i with
      | some (xs, j) => if xs.all fun t => accepts t.form then some (xs, j) else none
      | none => none
    | ahead rule => (read fuel rule none i).map fun _ => ([], i)
    | notAhead rule =>
      match read fuel rule none i with
      | some _ => none
      | none => some ([], i)
    | chain base link =>
      match read fuel base none i with
      | some ([t], j) => readChain fuel link t j
      | _ => none
    | grow form slot accepts rule =>
      match left with
      | some t =>
        if accepts t.form then
          (read fuel rule none i).map fun (xs, j) =>
            ([.node form none t.start j.reached none (t.under slot :: xs)], j)
        else none
      | none => none

/-- Reads a rule until it fails or takes nothing. -/
def readMany : Nat → Rule C → List Tree → Input → Option (List Tree × Input)
  | 0, _, _, _ => none
  | fuel + 1, rule, found, i =>
    match read fuel rule none i with
    | none => some (found.reverse, i)
    | some (xs, j) =>
      if j.reached == i.reached then some (found.reverse, i)
      else readMany fuel rule (xs.reverse ++ found) j

/-- Grows a node until no link matches. -/
def readChain : Nat → Rule C → Tree → Input → Option (List Tree × Input)
  | 0, _, _, _ => none
  | fuel + 1, link, t, i =>
    match read fuel link (some t) i with
    | some ([u], j) => readChain fuel link u j
    | _ => some ([t], i)

end

/-- Each lexeme is reached by way of a bounded number of steps. -/
def fuelFor (lexemes : List Lexeme) : Nat :=
  4096 * (lexemes.length + 2)

/-- Reads a rule that has to take all lexemes. -/
def readAll (rule : Rule C) (lexemes : List Lexeme) : Option (List Tree) :=
  match read grammar (fuelFor lexemes) rule none ⟨lexemes, Point.origin⟩ with
  | some (trees, ⟨[], _⟩) => some trees
  | _ => none

/-! ### Combinations -/

def symbol (text : String) : Rule C := take (Lexeme.isSymbol text)

def keyword (text : String) : Rule C := take (Lexeme.isWord text)

def ofKind (kind : LexemeKind) : Rule C := take fun l => l.kind == kind

def choice : List (Rule C) → Rule C
  | [] => notAhead nothing
  | [r] => r
  | r :: rs => either r (choice rs)

def perhaps (r : Rule C) : Rule C := either r nothing

def oneOrMore (r : Rule C) : Rule C := sequence r (many r)

/-- One or more, with a symbol between them. -/
def separated (mark : String) (r : Rule C) : Rule C :=
  sequence r (many (sequence (symbol mark) r))

def list (r : Rule C) : Rule C := perhaps (separated "," r)

def enclosed (opening closing : String) (r : Rule C) : Rule C :=
  sequence (symbol opening) (sequence r (symbol closing))

end Rule

end Retrace.Java
