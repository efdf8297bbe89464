import Retrace.Trace.Tree

/-! The registry of published trees.

At most one tree is published under a job's name, the latest one. -/
namespace Retrace
open Trace

structure Registry where
  trees : Table String Tree
  deriving DecidableEq, Repr, Inhabited

namespace Registry

def empty : Registry := ⟨Table.empty⟩

def get? (r : Registry) (id : String) : Option Tree := r.trees.get? id

def publish (r : Registry) (id : String) (t : Tree) : Registry := ⟨r.trees.put id t⟩

def remove (r : Registry) (id : String) : Registry := ⟨r.trees.erase id⟩

/-- The names in their order. -/
def ids (r : Registry) : List String := r.trees.keys

def size (r : Registry) : Nat := r.trees.size

def isEmpty (r : Registry) : Bool := r.trees.isEmpty

theorem get?_publish (r : Registry) (id other : String) (t : Tree) :
    (r.publish id t).get? other = if compare other id == .eq then some t else r.get? other :=
  Table.get?_put r.trees id other t

end Registry

end Retrace
