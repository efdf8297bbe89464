import Retrace.Java.Lexeme

/-! Syntax trees.

A node has a form, the field under which it hangs off its parent, the points between which it
stands and its children in the order of the text. Identifiers keep their word. -/
namespace Retrace.Java

inductive Tree
  | node (form : Form) (slot : Option Field) (start stop : Point) (word : Option String)
      (children : List Tree)
  deriving Repr, Inhabited

namespace Tree

def form : Tree → Form
  | node f _ _ _ _ _ => f

def slot : Tree → Option Field
  | node _ f _ _ _ _ => f

def start : Tree → Point
  | node _ _ p _ _ _ => p

def stop : Tree → Point
  | node _ _ _ p _ _ => p

def children : Tree → List Tree
  | node _ _ _ _ _ cs => cs

def under (slot : Option Field) : Tree → Tree
  | node form _ start stop word children => node form slot start stop word children

mutual

/-- The number of nodes. -/
def size : Tree → Nat
  | node _ _ _ _ _ children => 1 + sizeAll children

def sizeAll : List Tree → Nat
  | [] => 0
  | t :: ts => size t + sizeAll ts

end

theorem size_pos (t : Tree) : 0 < t.size := by
  cases t
  simp only [size]
  omega

end Tree

end Retrace.Java
