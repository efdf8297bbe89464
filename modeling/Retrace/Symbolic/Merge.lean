import Retrace.Path
import Retrace.Symbolic.Assignment
import Retrace.Symbolic.Declarations
import Retrace.Trace.Tree

/-! Merging assignments into a tree.

An assignment belongs to the first node of a tree that was started from the file of the assignment
and that ran the line of the assignment itself. Its value is kept there under the name that is
declared on that line, or else under the name that the checker uses. What belongs to no node is
reported as a miss. -/
namespace Retrace.Symbolic
open Trace

structure Miss where
  name : String
  file : Option String
  line : Option UInt32
  deriving DecidableEq, Repr

structure MergeReport where
  matched : Nat
  misses : List Miss
  deriving DecidableEq, Repr

structure Place where
  file : String
  line : UInt32
  deriving DecidableEq, Repr

namespace Assignment

/-- Files are told apart by their simple names. -/
def place? (a : Assignment) : Option Place :=
  match a.file, a.line with
  | some file, some line => some ⟨Path.simpleName file, line⟩
  | _, _ => none

def declaredName (d : DeclarationIndex) (a : Assignment) : String :=
  ((a.place?).bind fun p => d.first? p.file p.line).getD a.name

end Assignment

/-- The node ran the line, and was started from the file. -/
def hosts (p : Place) (n : Node) : Bool :=
  (n.link.any fun link => link.file.endsWith p.file) && n.coversLine p.line

def host? (t : Tree) (p : Place) : Option Nat := t.nodes.findIdx? (hosts p)

/-- The round of the loop that the node is, or else how many values have been found by now. -/
def valueAt (n : Node) (matched : Nat) (a : Assignment) : SymbolicValue :=
  ⟨n.traceId, n.iteration.getD (matched + 1).toUInt32, a.value⟩

structure Merging where
  tree : Tree
  matched : Nat
  /-- The latest first. -/
  missed : List Miss

namespace Merging

def ofTree (t : Tree) : Merging := ⟨t, 0, []⟩

def miss (m : Merging) (d : DeclarationIndex) (a : Assignment) : Merging :=
  {m with missed := ⟨a.declaredName d, a.file, a.line⟩ :: m.missed}

def hit (m : Merging) (d : DeclarationIndex) (a : Assignment) (i : Nat) : Merging :=
  {m with
    tree := m.tree.modify i fun n => n.addValue (a.declaredName d) (valueAt n m.matched a)
    matched := m.matched + 1}

def add (d : DeclarationIndex) (m : Merging) (a : Assignment) : Merging :=
  match a.place?.bind (host? m.tree) with
  | some i => m.hit d a i
  | none => m.miss d a

end Merging

/-- Merges assignments in order. Merging them again keeps their values once more. -/
def merge (d : DeclarationIndex) (assignments : List Assignment) (t : Tree) :
    Tree × MergeReport :=
  let m := assignments.foldl (Merging.add d) (Merging.ofTree t)
  (m.tree, ⟨m.matched, m.missed.reverse⟩)

end Retrace.Symbolic
