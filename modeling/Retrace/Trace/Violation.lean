import Retrace.Instrument.TracePoint
import Retrace.Trace.Tree

/-! Checking a tree.

`Tree.violations` says in which places a tree breaks the rules that hold of every reconstructed
one: parents and children know of each other, each child is listed once, the rounds of a loop
count up from one, and a node's own ranges keep clear of the places of its children. Places are
compared by lines and columns, so that a node may share a line with its child. -/
namespace Retrace.Trace
open Source Instrument

structure Violation where
  node : Nat
  message : String
  deriving DecidableEq, Repr

def Violation.text (v : Violation) : String := s!"node {v.node}: " ++ v.message

namespace Tree

/-! ### Parents and children -/

def parentViolations (t : Tree) (i : Nat) (n : Node) : List Violation :=
  match n.parentIndex with
  | none => if i = 0 then [] else [⟨i, "only the root may lack a parent"⟩]
  | some p =>
    if i = 0 then [⟨i, "root has a parent"⟩]
    else
      match t.get? p with
      | none => [⟨i, s!"parent {p} out of bounds"⟩]
      | some m =>
        let listed := m.children.toList.count i
        if listed = 1 then [] else [⟨i, s!"listed {listed} times by parent {p}"⟩]

def pointsBack (t : Tree) (i child : Nat) : Bool :=
  ((t.get? child).bind Node.parentIndex) == some i

def childViolations (t : Tree) (i : Nat) (n : Node) : List Violation :=
  (n.children.toList.filter fun c => !pointsBack t i c).map fun c =>
    ⟨i, s!"child {c} does not point back"⟩

/-! ### Rounds -/

def countedChild? (t : Tree) (child : Nat) : Option (Nat × String × UInt32) :=
  (t.get? child).bind fun c => c.iteration.map fun round => (child, c.traceId, round)

/-- The rounds of each loop are `1, 2, …` among the children of a node. -/
def roundViolations (seen : List String) : List (Nat × String × UInt32) → List Violation
  | [] => []
  | (child, traceId, round) :: rest =>
    let expected := (seen.count traceId + 1).toUInt32
    let found := roundViolations (traceId :: seen) rest
    if round = expected then found
    else ⟨child, s!"iteration {round} where {expected} was expected"⟩ :: found

/-! ### Own ranges and children -/

/-- The file of the code that a node stands for. -/
def codeFile? (p : Project) (points : PointMap) (n : Node) : Option String :=
  (n.numericId?.bind points.get?).map fun point => (p.file point.ref.file).path

def pointExtent? (p : Project) (points : PointMap) (id : Nat) : Option Range :=
  (points.get? id).bind fun point =>
    let f := p.file point.ref.file
    if point.kind.isLoop then (f.child? point.ref.node .body).map f.range
    else some (f.range point.ref.node)

/-- The place that a child takes up in the code of its parent. A link into another file takes up
none. -/
def childExtent? (t : Tree) (p : Project) (points : PointMap) (file : Option String)
    (child : Nat) : Option Range :=
  (t.get? child).bind fun c =>
    match c.link with
    | some link => if file.any fun f => Path.same f link.file then some link.range else none
    | none => c.numericId?.bind (pointExtent? p points)

def overlapViolations (t : Tree) (p : Project) (points : PointMap) (i : Nat) (n : Node) :
    List Violation :=
  n.children.toList.flatMap fun c =>
    match childExtent? t p points (codeFile? p points n) c with
    | none => []
    | some extent =>
      (n.ranges.filter fun r => r.overlaps extent).map fun r =>
        ⟨i, s!"range {r.text} overlaps child {c} at {extent.text}"⟩

/-! ### All rules -/

def nodeViolations (t : Tree) (p : Project) (points : PointMap) (i : Nat) (n : Node) :
    List Violation :=
  parentViolations t i n ++ childViolations t i n ++
    roundViolations [] (n.children.toList.filterMap (countedChild? t)) ++
    overlapViolations t p points i n

def violations (t : Tree) (p : Project) (points : PointMap) : List Violation :=
  t.nodes.toList.zipIdx.flatMap fun (n, i) => nodeViolations t p points i n

end Tree

end Retrace.Trace
