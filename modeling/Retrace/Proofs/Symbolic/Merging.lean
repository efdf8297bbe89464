import Mathlib.Data.List.Forall2
import Retrace.Proofs.Symbolic.Hosting
import Retrace.Proofs.Table
import Retrace.Symbolic.Flatten

/-! What merging conserves.

Every assignment is either missed or becomes one value of one node. One step of a merge adds one
record to the listed values, or one miss to the report (`Merged.add`); so a whole merge adds one
record for each assignment that has a node, and leaves everything else of the tree as it was
(`merge_conserves`). Which node that is can be read off the tree before the merge (`hostNode?`). -/
namespace Retrace

namespace Trace
open Source

/-! ### Nodes with more values -/

/-- The second node is the first one with more values, behind those it had. -/
structure Node.Extends (n m : Node) : Prop where
  same : {m with values := n.values} = n
  values : ∀ name vs, n.values.get? name = some vs → ∃ ws, m.values.get? name = some ws ∧ vs <+: ws

namespace Node.Extends

theorem refl (n : Node) : Extends n n :=
  ⟨rfl, fun _ vs h => ⟨vs, h, List.prefix_rfl⟩⟩

theorem trans {n m k : Node} (h : Extends n m) (h' : Extends m k) : Extends n k := by
  refine ⟨?_, fun name vs hvs => ?_⟩
  · rw [← h.same, ← h'.same]
  · obtain ⟨ws, hws, hprefix⟩ := h.values name vs hvs
    obtain ⟨xs, hxs, hprefix'⟩ := h'.values name ws hws
    exact ⟨xs, hxs, hprefix.trans hprefix'⟩

theorem addValue (n : Node) (name : String) (v : SymbolicValue) :
    Extends n (n.addValue name v) := by
  refine ⟨rfl, fun other vs hvs => ?_⟩
  have hget : (n.addValue name v).values.get? other =
      if compare other name == .eq then some ((n.values.get? name).getD [] ++ [v])
      else n.values.get? other := Table.get?_put _ _ _ _
  by_cases heq : (compare other name == .eq) = true
  · obtain rfl := Std.LawfulEqCmp.eq_of_compare (beq_iff_eq.mp heq)
    rw [if_pos heq, hvs] at hget
    exact ⟨_, hget, List.prefix_append _ _⟩
  · rw [if_neg heq, hvs] at hget
    exact ⟨vs, hget, List.prefix_rfl⟩

variable {n m : Node} (h : Extends n m)
include h

theorem traceId : m.traceId = n.traceId := by rw [← h.same]

theorem iteration : m.iteration = n.iteration := by rw [← h.same]

theorem hosts (p : Symbolic.Place) : Symbolic.hosts p m = Symbolic.hosts p n := by rw [← h.same]; rfl

end Node.Extends

end Trace

namespace Symbolic
open Trace

/-! ### Listed values -/

theorem flattenNode_addValue (n : Trace.Node) (name : String) (v : SymbolicValue) :
    (flattenNode (n.addValue name v)).Perm
      (flattenNode n ++ [⟨n.traceId, name, v.iteration, v.value⟩]) :=
  Entries.flatMap_concat_perm
    (fun name (v : SymbolicValue) => (⟨n.traceId, name, v.iteration, v.value⟩ : FlatValue))
    name v n.values.ascending

theorem flatMap_modify_perm {α β : Type} {f : α → List β} {g : α → α} {l : List α} {i : Nat} {x : α}
    {y : β} (hx : l[i]? = some x) (hg : (f (g x)).Perm (f x ++ [y])) :
    ((l.modify i g).flatMap f).Perm (l.flatMap f ++ [y]) := by
  induction l generalizing i with
  | nil => cases hx
  | cons a l ih =>
    cases i with
    | zero =>
      cases hx
      rw [List.modify_zero_cons, List.flatMap_cons, List.flatMap_cons, List.append_assoc]
      refine (hg.append_right _).trans ?_
      rw [List.append_assoc]
      exact List.perm_append_comm.append_left _
    | succ i =>
      rw [List.modify_succ_cons, List.flatMap_cons, List.flatMap_cons, List.append_assoc]
      exact (ih hx).append_left _

/-! ### What is merged -/

/-- The first node that was started from the file of the assignment and that ran its line. -/
def hostNode? (t : Tree) (a : Assignment) : Option Trace.Node :=
  a.place?.bind fun p => t.nodes.toList.find? (hosts p)

/-- The assignments that are matched, each with the node that it goes to. -/
def hosted (t : Tree) (assignments : List Assignment) : List (Trace.Node × Assignment) :=
  assignments.filterMap fun a => (hostNode? t a).map (·, a)

/-- The value that an assignment becomes when `before` others have been matched. -/
def recordOf (d : DeclarationIndex) (n : Trace.Node) (before : Nat) (a : Assignment) : FlatValue :=
  ⟨n.traceId, a.declaredName d, n.iteration.getD (before + 1).toUInt32, a.value⟩

def records (d : DeclarationIndex) (t : Tree) (assignments : List Assignment) : List FlatValue :=
  (hosted t assignments).zipIdx.map fun ((n, a), before) => recordOf d n before a

def missOf (d : DeclarationIndex) (a : Assignment) : Miss := ⟨a.declaredName d, a.file, a.line⟩

def misses (d : DeclarationIndex) (t : Tree) (assignments : List Assignment) : List Miss :=
  (assignments.filter fun a => (hostNode? t a).isNone).map (missOf d)

/-- How far a merge has come: what it has made of the tree, and what it has counted. -/
structure Merged (d : DeclarationIndex) (t : Tree) (before : List Assignment) (m : Merging) :
    Prop where
  matched : m.matched = (hosted t before).length
  missed : m.missed.reverse = misses d t before
  nodes : List.Forall₂ Node.Extends t.nodes.toList m.tree.nodes.toList
  listed : (flatten m.tree).Perm (flatten t ++ records d t before)

section Extends
variable {l l' : List Trace.Node} (h : List.Forall₂ Node.Extends l l')
include h

theorem findIdx?_of_extends (p : Place) : l'.findIdx? (hosts p) = l.findIdx? (hosts p) := by
  induction h with
  | nil => rfl
  | cons hhead _ ih => rw [List.findIdx?_cons, List.findIdx?_cons, hhead.hosts, ih]

theorem exists_of_extends {i : Nat} {n : Trace.Node} (hn : l[i]? = some n) :
    ∃ m, l'[i]? = some m ∧ n.Extends m := by
  induction h generalizing i with
  | nil => cases hn
  | cons hhead _ ih =>
    cases i with
    | zero =>
      cases hn
      exact ⟨_, rfl, hhead⟩
    | succ i => exact ih hn

theorem extends_modify {g : Trace.Node → Trace.Node} (hg : ∀ m, Node.Extends m (g m)) (i : Nat) :
    List.Forall₂ Node.Extends l (l'.modify i g) := by
  induction h generalizing i with
  | nil =>
    rw [List.modify_nil]
    exact .nil
  | cons hhead htail ih =>
    cases i with
    | zero => exact .cons (hhead.trans (hg _)) htail
    | succ i => exact .cons hhead (ih i)

end Extends

theorem recordOf_of_extends {d : DeclarationIndex} {n m : Trace.Node} (h : n.Extends m) (k : Nat)
    (a : Assignment) : recordOf d m k a = recordOf d n k a := by
  rw [recordOf, h.traceId, h.iteration, recordOf]

theorem host?_eq_findIdx? (t : Tree) (p : Place) :
    host? t p = t.nodes.toList.findIdx? (hosts p) := by
  rw [host?, ← List.findIdx?_toArray, Array.toArray_toList]

theorem hostNode?_eq (t : Tree) (a : Assignment) :
    hostNode? t a = (a.place?.bind (host? t)).bind t.get? := by
  unfold hostNode?
  rw [Option.bind_assoc]
  refine congrArg _ (funext fun p => ?_)
  rw [List.find?_eq_bind_findIdx?_getElem?, host?_eq_findIdx?]
  refine congrArg _ (funext fun i => ?_)
  rw [Array.getElem?_toList]
  rfl

theorem hosted_concat (t : Tree) (before : List Assignment) (a : Assignment) :
    hosted t (before ++ [a]) = hosted t before ++ ((hostNode? t a).map (·, a)).toList := by
  unfold hosted
  rw [List.filterMap_append, List.filterMap_cons]
  cases hostNode? t a <;> rfl

theorem misses_concat (d : DeclarationIndex) (t : Tree) (before : List Assignment)
    (a : Assignment) : misses d t (before ++ [a]) =
      misses d t before ++ if (hostNode? t a).isNone then [missOf d a] else [] := by
  unfold misses
  rw [List.filter_append, List.map_append, List.filter_cons]
  split <;> rfl

section Merged
variable {d : DeclarationIndex} {t : Tree} {before : List Assignment} {m : Merging}

theorem merged_ofTree (d : DeclarationIndex) (t : Tree) : Merged d t [] (.ofTree t) where
  matched := rfl
  missed := rfl
  nodes := List.forall₂_same.mpr fun n _ => .refl n
  listed := .of_eq (List.append_nil _).symm

theorem Merged.hit (h : Merged d t before m) {a : Assignment} {i : Nat}
    (hi : a.place?.bind (host? t) = some i) : Merged d t (before ++ [a]) (m.hit d a i) := by
  obtain ⟨p, _, hhost⟩ := Option.bind_eq_some_iff.mp hi
  rw [host?_eq_findIdx?] at hhost
  obtain ⟨hlt, _⟩ := List.findIdx?_eq_some_iff_getElem.mp hhost
  have hn := List.getElem?_eq_getElem hlt
  obtain ⟨n', hn', hextends⟩ := exists_of_extends h.nodes hn
  generalize t.nodes.toList[i] = n at hn hextends
  have hnode : hostNode? t a = some n := by
    rw [hostNode?_eq, hi, Option.bind_some, Tree.get?, ← Array.getElem?_toList, hn]
  have hnodes : (m.hit d a i).tree.nodes.toList = m.tree.nodes.toList.modify i fun n =>
      n.addValue (a.declaredName d) (valueAt n m.matched a) := Array.toList_modify
  constructor
  · rw [hosted_concat, hnode, List.length_append, ← h.matched]
    rfl
  · rw [misses_concat, hnode, ← h.missed]
    exact (List.append_nil _).symm
  · rw [hnodes]
    exact extends_modify h.nodes (fun n => .addValue n _ _) i
  · have hrecord : records d t (before ++ [a]) =
        records d t before ++ [recordOf d n m.matched a] := by
      unfold records
      rw [hosted_concat, hnode, List.zipIdx_append, List.map_append, Nat.zero_add, ← h.matched]
      rfl
    have hvalue : (flattenNode (n'.addValue (a.declaredName d) (valueAt n' m.matched a))).Perm
        (flattenNode n' ++ [recordOf d n m.matched a]) := by
      rw [← recordOf_of_extends hextends]
      exact flattenNode_addValue n' (a.declaredName d) (valueAt n' m.matched a)
    rw [flatten, hnodes, hrecord, ← List.append_assoc]
    exact (flatMap_modify_perm hn' hvalue).trans (h.listed.append_right _)

theorem Merged.miss (h : Merged d t before m) {a : Assignment}
    (ha : a.place?.bind (host? t) = none) : Merged d t (before ++ [a]) (m.miss d a) := by
  have hnode : hostNode? t a = none := by rw [hostNode?_eq, ha, Option.bind_none]
  have hhosted : hosted t (before ++ [a]) = hosted t before := by
    rw [hosted_concat, hnode]
    exact List.append_nil _
  constructor
  · rw [hhosted]
    exact h.matched
  · rw [misses_concat, hnode, ← h.missed]
    exact List.reverse_cons
  · exact h.nodes
  · rw [records, hhosted]
    exact h.listed

theorem Merged.add (h : Merged d t before m) (a : Assignment) :
    Merged d t (before ++ [a]) (m.add d a) := by
  have hhost : a.place?.bind (host? m.tree) = a.place?.bind (host? t) := by
    refine congrArg _ (funext fun p => ?_)
    rw [host?_eq_findIdx?, host?_eq_findIdx?, findIdx?_of_extends h.nodes]
  unfold Merging.add
  rw [hhost]
  split
  · exact h.hit ‹_›
  · exact h.miss ‹_›

theorem Merged.run (h : Merged d t before m) (assignments : List Assignment) :
    Merged d t (before ++ assignments) (assignments.foldl (Merging.add d) m) := by
  induction assignments generalizing before m with
  | nil => rwa [List.append_nil]
  | cons a rest ih =>
    rw [List.append_cons]
    exact ih (h.add a)

end Merged

theorem length_hosted_add (d : DeclarationIndex) (t : Tree) (assignments : List Assignment) :
    (hosted t assignments).length + (misses d t assignments).length = assignments.length := by
  unfold hosted misses
  rw [List.length_map]
  induction assignments with
  | nil => rfl
  | cons a rest ih =>
    rw [List.filterMap_cons, List.filter_cons, List.length_cons, ← ih]
    cases hostNode? t a with
    | none => exact (Nat.add_assoc _ _ 1).symm
    | some n => exact Nat.add_right_comm _ 1 _

/-- Of the assignments as many are matched as have a node; the others are the misses, in order. The
nodes of the tree have more values, behind those they had, and are otherwise the same. The listed
values are those from before and a record for each assignment that is matched: the trace id of its
node, the name declared where it stands or else its own, its value, and the round of the node or
else one more than have been matched before it, as a word. -/
theorem merge_conserves (d : DeclarationIndex) (assignments : List Assignment) (t : Tree) :
    let u := (merge d assignments t).1
    let report := (merge d assignments t).2
    report.matched + report.misses.length = assignments.length ∧
    report.matched = (hosted t assignments).length ∧
    report.misses = misses d t assignments ∧
    List.Forall₂ Node.Extends t.nodes.toList u.nodes.toList ∧
    (flatten u).Perm (flatten t ++ records d t assignments) := by
  intro u report
  have h := (merged_ofTree d t).run assignments
  have hmatched : report.matched = (hosted t assignments).length := h.matched
  have hmissed : report.misses = misses d t assignments := h.missed
  refine ⟨?_, hmatched, hmissed, h.nodes, h.listed⟩
  rw [hmatched, hmissed, length_hosted_add]

end Symbolic
end Retrace
