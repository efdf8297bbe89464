import Retrace.Json.Value
import Retrace.Trace.Tree

/-! The values of a tree as a list.

`flatten` lists every value of every node, in the order of the nodes, of the names of the
variables, and of the values of a variable. -/
namespace Retrace.Symbolic
open Trace Json

structure FlatValue where
  nodeTraceId : String
  variableName : String
  iteration : UInt32
  value : String
  deriving DecidableEq, Repr

def flattenNode (n : Node) : List FlatValue :=
  n.values.entries.flatMap fun e => e.2.map fun v => ⟨n.traceId, e.1, v.iteration, v.value⟩

def flatten (t : Tree) : List FlatValue := t.nodes.toList.flatMap flattenNode

def FlatValue.toValue (v : FlatValue) : Value :=
  .object [
    ("nodeTraceId", .string v.nodeTraceId), ("variableName", .string v.variableName),
    ("iteration", .nat v.iteration.toNat), ("value", .string v.value)]

end Retrace.Symbolic
