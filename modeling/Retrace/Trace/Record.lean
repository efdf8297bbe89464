import Retrace.Fault
import Retrace.Limit
import Retrace.Source.Record
import Retrace.Trace.Tree

/-! Trees as JSON.

A tree is written as the array of its nodes, a node as an object of its fields, and a link as an
object of the bounds of its range and of its file. `Tree.ofText` reads a tree back. A node, a
range or a value may also be given as the array of its fields. What a node may lack can be left
out or null; the other fields are needed, and none may be given twice.

`Tree.ofNodes` asks that the first node is the root and that every other node has a parent in the
tree. -/
namespace Retrace.Trace
open Source Json

/-! ### Writing -/

def Link.toValue (l : Link) : Value :=
  match l.range.toValue with
  | .object members => .object (members ++ [("file", .string l.file)])
  | v => v

def SymbolicValue.toValue (v : SymbolicValue) : Value :=
  .object [("traceId", .string v.traceId), ("iteration", .nat v.iteration.toNat),
    ("value", .string v.value)]

def valuesRecord (t : ValueTable) : Value :=
  .object (t.entries.map fun e => (e.1, .array (e.2.map SymbolicValue.toValue)))

def Node.toValue (n : Node) : Value :=
  .object [
    ("parentIndex", Value.optional Value.nat n.parentIndex),
    ("traceId", .string n.traceId),
    ("ranges", .array (n.ranges.map Range.toValue)),
    ("childrenIndices", .array (n.children.toList.map Value.nat)),
    ("link", Value.optional Link.toValue n.link),
    ("outLinks", .array (n.outLinks.map Link.toValue)),
    ("outIndex", Value.optional Value.nat n.outIndex),
    ("iteration", Value.optional (fun i => Value.nat i.toNat) n.iteration),
    ("methodName", Value.optional Value.string n.methodName),
    ("values", valuesRecord n.values)]

def Tree.toValue (t : Tree) : Value := .array (t.nodes.toList.map Node.toValue)

def Tree.json (pretty : Bool) (t : Tree) : String := Json.write pretty t.toValue

/-! ### Reading links -/

/-- A link is read as a whole before its bounds are looked at. -/
structure LinkParts where
  file : Option String := none
  others : List (String × Value) := []

namespace LinkParts

def take (depth : Nat) (name : String) (v : Outline) (l : LinkParts) :
    Except JsonFault LinkParts :=
  match name with
  | "file" => do return {l with file := ← Shape.once l.file (Shape.string v)}
  | _ => (Shape.value depth v).map fun v => {l with others := (name, v) :: l.others}

/-- A bound stands among the members exactly once. -/
def bound (l : LinkParts) (name : String) : Except JsonFault UInt32 :=
  match l.others.filter fun m => m.1 == name with
  | [(_, .number (.whole n))] =>
    if 0 ≤ n ∧ n < Limit.word then .ok n.toNat.toUInt32 else .error .shape
  | _ => .error .shape

def complete (l : LinkParts) : Except JsonFault Link := do
  let range : Range :=
    ⟨← l.bound "beginLine", ← l.bound "beginCol", ← l.bound "endLine", ← l.bound "endCol"⟩
  return ⟨range, ← Shape.required l.file⟩

end LinkParts

/-- A link inside of `depth` arrays and objects. -/
def Link.ofOutline (depth : Nat) : Outline → Except JsonFault Link
  | .object members =>
    (Shape.fold (LinkParts.take (depth + 1)) {} members).bind LinkParts.complete
  | v => .error (Shape.mismatch v)

/-! ### Reading values -/

structure ValueParts where
  traceId : Option String := none
  iteration : Option UInt32 := none
  value : Option String := none

namespace ValueParts

def take (name : String) (v : Outline) (p : ValueParts) : Except JsonFault ValueParts :=
  match name with
  | "traceId" => do return {p with traceId := ← Shape.once p.traceId (Shape.string v)}
  | "iteration" => do return {p with iteration := ← Shape.once p.iteration (Shape.word32 v)}
  | "value" => do return {p with value := ← Shape.once p.value (Shape.string v)}
  | _ => (Shape.skip v).map fun _ => p

def complete (p : ValueParts) : Except JsonFault SymbolicValue := do
  return ⟨← Shape.required p.traceId, ← Shape.required p.iteration, ← Shape.required p.value⟩

end ValueParts

def SymbolicValue.ofItems (items : Items) : Except JsonFault SymbolicValue := do
  let (traceId, items) ← Shape.next Shape.string items
  let (iteration, items) ← Shape.next Shape.word32 items
  let (value, items) ← Shape.next Shape.string items
  Shape.finish items
  return ⟨traceId, iteration, value⟩

def SymbolicValue.ofOutline : Outline → Except JsonFault SymbolicValue
  | .object members => (Shape.fold ValueParts.take {} members).bind ValueParts.complete
  | .array items => ofItems items
  | v => .error (Shape.mismatch v)

def takeValues (name : String) (v : Outline) (t : ValueTable) : Except JsonFault ValueTable :=
  (Shape.list SymbolicValue.ofOutline v).map (t.put name)

/-- Of several lists of values for one variable the last one counts. -/
def valuesOfOutline : Outline → Except JsonFault ValueTable
  | .object members => Shape.fold takeValues Table.empty members
  | v => .error (Shape.mismatch v)

/-! ### Reading nodes -/

structure NodeParts where
  parentIndex : Option (Option Nat) := none
  traceId : Option String := none
  ranges : Option (List Range) := none
  children : Option (List Nat) := none
  link : Option (Option Link) := none
  outLinks : Option (List Link) := none
  outIndex : Option (Option Nat) := none
  iteration : Option (Option UInt32) := none
  methodName : Option (Option String) := none
  values : Option ValueTable := none

/-- Nodes stand inside of an array, and their links inside of an object or array more. -/
def linkDepth : Nat := 2

def linkOfOutline (v : Outline) : Except JsonFault (Option Link) :=
  Shape.optional (Link.ofOutline linkDepth) v

def outLinksOfOutline (v : Outline) : Except JsonFault (List Link) :=
  Shape.list (Link.ofOutline (linkDepth + 1)) v

namespace NodeParts

def take (name : String) (v : Outline) (p : NodeParts) : Except JsonFault NodeParts :=
  match name with
  | "parentIndex" => do
    return {p with parentIndex := ← Shape.once p.parentIndex (Shape.optional Shape.index v)}
  | "traceId" => do return {p with traceId := ← Shape.once p.traceId (Shape.string v)}
  | "ranges" => do return {p with ranges := ← Shape.once p.ranges (Shape.list Range.ofOutline v)}
  | "childrenIndices" => do
    return {p with children := ← Shape.once p.children (Shape.list Shape.index v)}
  | "link" => do return {p with link := ← Shape.once p.link (linkOfOutline v)}
  | "outLinks" => do return {p with outLinks := ← Shape.once p.outLinks (outLinksOfOutline v)}
  | "outIndex" => do
    return {p with outIndex := ← Shape.once p.outIndex (Shape.optional Shape.index v)}
  | "iteration" => do
    return {p with iteration := ← Shape.once p.iteration (Shape.optional Shape.word32 v)}
  | "methodName" => do
    return {p with methodName := ← Shape.once p.methodName (Shape.optional Shape.string v)}
  | "values" => do return {p with values := ← Shape.once p.values (valuesOfOutline v)}
  | _ => (Shape.skip v).map fun _ => p

def complete (p : NodeParts) : Except JsonFault Node := do
  return {
    parentIndex := p.parentIndex.getD none
    traceId := ← Shape.required p.traceId
    ranges := ← Shape.required p.ranges
    children := (← Shape.required p.children).toArray
    link := p.link.getD none
    outLinks := ← Shape.required p.outLinks
    outIndex := p.outIndex.getD none
    iteration := p.iteration.getD none
    methodName := p.methodName.getD none
    values := p.values.getD Table.empty }

end NodeParts

def Node.ofItems (items : Items) : Except JsonFault Node := do
  let (parentIndex, items) ← Shape.next (Shape.optional Shape.index) items
  let (traceId, items) ← Shape.next Shape.string items
  let (ranges, items) ← Shape.next (Shape.list Range.ofOutline) items
  let (children, items) ← Shape.next (Shape.list Shape.index) items
  let (link, items) ← Shape.next linkOfOutline items
  let (outLinks, items) ← Shape.next outLinksOfOutline items
  let (outIndex, items) ← Shape.next (Shape.optional Shape.index) items
  let (iteration, items) ← Shape.next (Shape.optional Shape.word32) items
  let (methodName, items) ← Shape.nextOr none (Shape.optional Shape.string) items
  let (values, items) ← Shape.nextOr Table.empty valuesOfOutline items
  Shape.finish items
  return {
    parentIndex, traceId, ranges, link, outLinks, outIndex, iteration, methodName, values
    children := children.toArray }

def Node.ofOutline : Outline → Except JsonFault Node
  | .object members => (Shape.fold NodeParts.take {} members).bind NodeParts.complete
  | .array items => ofItems items
  | v => .error (Shape.mismatch v)

/-! ### Reading trees -/

namespace Tree

/-- What is wrong with the parent of a node other than the first. -/
def parentFault? (size : Nat) (n : Node) (i : Nat) : Option TreeFault :=
  match n.parentIndex with
  | none => some (.noParent i)
  | some p => if size ≤ p then some (.missingParent i p) else none

def ofNodes : List Node → Except TreeFault Tree
  | [] => .error .noRoot
  | n :: rest =>
    if !n.isRoot then .error .firstNotRoot
    else
      match (rest.zipIdx 1).findSome? fun (m, i) => parentFault? (rest.length + 1) m i with
      | some fault => .error fault
      | none => .ok ⟨(n :: rest).toArray⟩

def ofOutline (v : Outline) : Except Fault Tree :=
  match Shape.list Node.ofOutline v with
  | .error fault => .error (.json fault)
  | .ok nodes => (ofNodes nodes).mapError .tree

def ofText (text : String) : Except Fault Tree := Json.parse ofOutline text

end Tree

end Retrace.Trace
