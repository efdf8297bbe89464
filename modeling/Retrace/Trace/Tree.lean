import Retrace.Limit
import Retrace.Source.Range
import Retrace.Table
import Retrace.Text.Words

/-! Execution trees.

A tree is a list of nodes. The first is its root and stands for no code; every other node has a
parent, and a node lists its children in the order in which they ran. A node's own ranges are the
code that it ran itself. It may link to the place in the code that started it, know how often its
loop had gone round, and hold the values that variables took. -/
namespace Retrace.Trace
open Source

/-- A range in a file. -/
structure Link where
  range : Range
  file : String
  deriving DecidableEq, Repr

structure SymbolicValue where
  traceId : String
  iteration : UInt32
  value : String
  deriving DecidableEq, Repr

abbrev ValueTable := Table String (List SymbolicValue)

structure Node where
  parentIndex : Option Nat
  traceId : String
  ranges : List Range := []
  children : Array Nat := #[]
  link : Option Link := none
  outLinks : List Link := []
  outIndex : Option Nat := none
  iteration : Option UInt32 := none
  methodName : Option String := none
  values : ValueTable := Table.empty
  deriving DecidableEq, Repr, Inhabited

namespace Node

def root : Node := {parentIndex := none, traceId := "root"}

def isRoot (n : Node) : Bool := n.parentIndex.isNone

/-- The trace id as a number; the root has none. -/
def numericId? (n : Node) : Option Nat := Text.natural? Limit.word n.traceId.toList

def coversLine (n : Node) (line : UInt32) : Bool := n.ranges.any fun r => r.coversLine line

def addValue (n : Node) (name : String) (v : SymbolicValue) : Node :=
  {n with values := n.values.alter name fun vs => vs.getD [] ++ [v]}

end Node

structure Tree where
  nodes : Array Node
  deriving DecidableEq, Repr, Inhabited

namespace Tree

def bare : Tree := ⟨#[Node.root]⟩

def size (t : Tree) : Nat := t.nodes.size

def get? (t : Tree) (i : Nat) : Option Node := t.nodes[i]?

def root (t : Tree) : Node := t.nodes.getD 0 Node.root

def modify (t : Tree) (i : Nat) (f : Node → Node) : Tree := ⟨t.nodes.modify i f⟩

/-- A new last node, listed by its parent. -/
def push (t : Tree) (parent : Nat) (n : Node) : Tree :=
  let i := t.nodes.size
  ⟨(t.nodes.modify parent fun p => {p with children := p.children.push i}).push n⟩

def childOf (parent id : Nat) : Node := {parentIndex := some parent, traceId := toString id}

theorem size_modify (t : Tree) (i : Nat) (f : Node → Node) : (t.modify i f).size = t.size := by
  simp [modify, size]

theorem size_push (t : Tree) (parent : Nat) (n : Node) : (t.push parent n).size = t.size + 1 := by
  simp [push, size]

end Tree

end Retrace.Trace
