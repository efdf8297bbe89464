import Retrace.Java.Tree
import Retrace.Path

/-! Source files as tables of nodes.

The syntax tree of a file is kept as an array in which a node comes before its children and the
children of a node follow in the order of the text, so that the numbers of the nodes follow the
order of the text. `ofTree` numbers a tree this way: the subtree of node `i` takes the numbers
from `i` up to `i + size`. A number that no node has stands for an empty node. -/
namespace Retrace.Source
open Java

structure Node where
  form : Form
  range : Range
  start : Nat
  stop : Nat
  parent : Option Nat
  children : List Nat
  fields : List (Field × Nat)
  word : Option String
  deriving DecidableEq, Repr, Inhabited

/-! ### Numbering -/

/-- The numbers of consecutive subtrees, the first of which begins at `first`. -/
def numbers (first : Nat) : List Tree → List Nat
  | [] => []
  | t :: ts => first :: numbers (first + t.size) ts

def fieldNumbers (first : Nat) : List Tree → List (Field × Nat)
  | [] => []
  | t :: ts =>
    match t.slot with
    | some slot => (slot, first) :: fieldNumbers (first + t.size) ts
    | none => fieldNumbers (first + t.size) ts

mutual

/-- Appends the nodes of a tree to the nodes numbered so far. -/
def place (parent : Option Nat) (nodes : Array Node) : Tree → Array Node
  | .node form _ start stop word children =>
    let number := nodes.size
    placeAll number
      (nodes.push ⟨form, rangeBetween start stop, start.offset, stop.offset, parent,
        numbers (number + 1) children, fieldNumbers (number + 1) children, word⟩)
      children

def placeAll (parent : Nat) (nodes : Array Node) : List Tree → Array Node
  | [] => nodes
  | t :: ts => placeAll parent (place (some parent) nodes t) ts

end

def ofTree (t : Tree) : Array Node := place none #[] t

mutual

theorem size_place (parent : Option Nat) (nodes : Array Node) (t : Tree) :
    (place parent nodes t).size = nodes.size + t.size := by
  cases t with
  | node form field start stop word children =>
    simp only [place, size_placeAll, Array.size_push, Tree.size]
    omega

theorem size_placeAll (parent : Nat) (nodes : Array Node) (ts : List Tree) :
    (placeAll parent nodes ts).size = nodes.size + Tree.sizeAll ts := by
  cases ts with
  | nil => rfl
  | cons t ts =>
    simp only [placeAll, size_placeAll, size_place, Tree.sizeAll]
    omega

end

/-! ### Files -/

structure File where
  path : String
  text : String
  nodes : Array Node
  hasErrors : Bool
  deriving DecidableEq, Repr, Inhabited

namespace File

def node (f : File) (i : Nat) : Node := f.nodes.getD i default

def form (f : File) (i : Nat) : Form := (f.node i).form

def range (f : File) (i : Nat) : Range := (f.node i).range

def parent? (f : File) (i : Nat) : Option Nat := (f.node i).parent

def children (f : File) (i : Nat) : List Nat := (f.node i).children

/-- The first child under a field. -/
def child? (f : File) (i : Nat) (slot : Field) : Option Nat :=
  ((f.node i).fields.find? fun e => e.1 == slot).map Prod.snd

/-- All children under a field, in the order of the text. -/
def childrenUnder (f : File) (i : Nat) (slot : Field) : List Nat :=
  ((f.node i).fields.filter fun e => e.1 == slot).map Prod.snd

/-- The field under which a node hangs off its parent. -/
def slot? (f : File) (i : Nat) : Option Field :=
  (f.parent? i).bind fun p => ((f.node p).fields.find? fun e => e.2 == i).map Prod.fst

def word? (f : File) (i : Nat) : Option String := (f.node i).word

def nameNode? (f : File) (i : Nat) : Option Nat := f.child? i .name

def name? (f : File) (i : Nat) : Option String := (f.nameNode? i).bind f.word?

/-- The nodes above a node, nearest first. -/
def ancestors (f : File) (i : Nat) : List Nat :=
  match f.parent? i with
  | none => []
  | some p => if p < i then p :: f.ancestors p else []
termination_by i

def depth (f : File) (i : Nat) : Nat := (f.ancestors i).length

/-- What stands inside of any number of parentheses. -/
def unparenthesized (f : File) (i : Nat) : Nat :=
  if f.form i == .parenthesizedExpression then
    match f.children i with
    | [] => i
    | c :: _ => if i < c ∧ c < f.nodes.size then f.unparenthesized c else i
  else i
termination_by f.nodes.size - i

/-- The characters between two byte offsets, the first of which is a boundary. -/
def slice (lower upper : Nat) (offset : Nat) : List Char → List Char
  | [] => []
  | c :: cs =>
    if offset < lower then slice lower upper (offset + c.utf8Size) cs
    else if offset < upper then c :: slice lower upper (offset + c.utf8Size) cs
    else []

def sourceText (f : File) (i : Nat) : String :=
  String.ofList (slice (f.node i).start (f.node i).stop 0 f.text.toList)

def simpleName (f : File) : String := Path.simpleName f.path

def numbersOf (f : File) : List Nat := List.range f.nodes.size

/-- A text that tells a node from every other. -/
def describe (f : File) (i : Nat) : String :=
  f.path ++ s!"#{i} " ++ (f.form i).name ++ " @ " ++ (f.range i).text

end File

end Retrace.Source
