import Retrace.Proofs.Reconstruct.Failures
import Retrace.Proofs.Trace.Structure

/-! A check that stays within its bounds.

Here a check is run in which every look-up of a file or of a node of a file may fail. It never does
when the points are nodes of the project, whatever stands in the tree (`guardedViolations_eq`); so
what the check decides can be said without a word about failing (`check_decides`). -/
namespace Retrace

/-- A member for each element, when none fails. -/
theorem mapM_eq_some_map {α β : Type} {f : α → Option β} {g : α → β} {l : List α}
    (h : ∀ a ∈ l, f a = some (g a)) : l.mapM f = some (l.map g) := by
  induction l with
  | nil => rfl
  | cons a l ih =>
    obtain ⟨ha, hl⟩ := List.forall_mem_cons.mp h
    rw [List.mapM_cons, ha, ih hl]
    rfl

namespace Instrument
open Source

/-- The points are nodes of the project, and so is what one gets to from there. -/
structure PointMap.Within (points : PointMap) (p : Project) : Prop where
  point : ∀ {id point}, points.get? id = some point → p.Names point.ref
  file : ∀ f ∈ p.fileList, f.Closed

theorem PointMap.within_ofProject {p : Project} (hlinked : ∀ f ∈ p.fileList, f.Linked) :
    (PointMap.ofProject p).Within p :=
  have hclosed := Reconstruct.closed_traced hlinked
  ⟨hclosed.point, hclosed.file⟩

theorem PointMap.within_of_instrumentation {c : Config.Instrument}
    {sources : List (String × String)} {inst : Instrumentation}
    (h : Instrumentation.of c (Project.ofSources sources) = .ok inst) :
    inst.points.Within inst.project := by
  obtain ⟨_, _, hproject, hpoints, _⟩ := Instrumentation.of_eq_ok h
  rw [hpoints]
  refine within_ofProject fun f hf => ?_
  rw [hproject, fileList_normalize] at hf
  obtain ⟨g, _, rfl⟩ := List.mem_map.mp hf
  exact Java.parse_linked _ _

end Instrument

namespace Trace.Tree
open Source Instrument

/-! ### Guarded look-ups -/

def guardedFile (p : Project) (points : PointMap) (n : Node) : Option (Option String) :=
  match n.numericId?.bind points.get? with
  | none => some none
  | some point => p.files[point.ref.file]?.map fun f => some f.path

def guardedExtent (p : Project) (points : PointMap) (id : Nat) : Option (Option Range) :=
  match points.get? id with
  | none => some none
  | some point =>
    p.files[point.ref.file]?.bind fun f => f.nodes[point.ref.node]?.bind fun n =>
      if point.kind.isLoop then
        match (n.fields.find? fun e => e.1 == .body).map Prod.snd with
        | none => some none
        | some body => f.nodes[body]?.map fun b => some b.range
      else some (some n.range)

def guardedChildExtent (t : Tree) (p : Project) (points : PointMap) (file : Option String)
    (child : Nat) : Option (Option Range) :=
  match t.get? child with
  | none => some none
  | some c =>
    match c.link, c.numericId? with
    | some link, _ => some (if file.any fun f => Path.same f link.file then some link.range else none)
    | none, some id => guardedExtent p points id
    | none, none => some none

/-- The own ranges of a node that overlap the extent of a child. -/
def clashes (i : Nat) (n : Node) (c : Nat) (extent : Option Range) : List Violation :=
  extent.toList.flatMap fun e =>
    (n.ranges.filter fun r => r.overlaps e).map fun r =>
      ⟨i, s!"range {r.text} overlaps child {c} at {e.text}"⟩

def guardedClashes (t : Tree) (p : Project) (points : PointMap) (i : Nat) (n : Node) :
    Option (List Violation) :=
  (guardedFile p points n).bind fun file =>
    (n.children.toList.mapM fun c =>
      (guardedChildExtent t p points file c).map (clashes i n c)).map List.flatten

def guardedNode (t : Tree) (p : Project) (points : PointMap) (i : Nat) (n : Node) :
    Option (List Violation) :=
  (guardedClashes t p points i n).map fun clashes =>
    parentViolations t i n ++ childViolations t i n ++
      roundViolations [] (n.children.toList.filterMap (countedChild? t)) ++ clashes

/-- All violations, unless a look-up of the check is out of range. -/
def guardedViolations (t : Tree) (p : Project) (points : PointMap) : Option (List Violation) :=
  (t.nodes.toList.zipIdx.mapM fun x => guardedNode t p points x.2 x.1).map List.flatten

theorem node?_of_lt {f : File} {i : Nat} (hi : i < f.nodes.size) :
    f.nodes[i]? = some (f.node i) := by
  rw [File.node, Array.getD_eq_getD_getElem?, Array.getElem?_eq_getElem hi, Option.getD_some]

theorem overlapViolations_eq (t : Tree) (p : Project) (points : PointMap) (i : Nat) (n : Node) :
    overlapViolations t p points i n = n.children.toList.flatMap fun c =>
      clashes i n c (childExtent? t p points (codeFile? p points n) c) := by
  unfold overlapViolations
  refine congrArg (List.flatMap · _) (funext fun c => ?_)
  cases childExtent? t p points (codeFile? p points n) c with
  | none => rfl
  | some extent => exact (List.append_nil _).symm

section Within
variable {p : Project} {points : PointMap} (h : points.Within p)
include h

theorem file?_of_point {id : Nat} {point : TracePoint} (hpoint : points.get? id = some point) :
    p.files[point.ref.file]? = some (p.file point.ref.file) := by
  have hlt := (h.point hpoint).file
  rw [Project.file, Array.getD_eq_getD_getElem?, Array.getElem?_eq_getElem hlt, Option.getD_some]

theorem guardedFile_eq (n : Node) : guardedFile p points n = some (codeFile? p points n) := by
  unfold guardedFile codeFile?
  cases hid : n.numericId? with
  | none => rfl
  | some id =>
    rw [Option.bind_some]
    cases hpoint : points.get? id with
    | none => rfl
    | some point =>
      dsimp only
      rw [file?_of_point h hpoint]
      rfl

theorem guardedExtent_eq (id : Nat) :
    guardedExtent p points id = some (pointExtent? p points id) := by
  unfold guardedExtent pointExtent?
  cases hpoint : points.get? id with
  | none => rfl
  | some point =>
    have hname := h.point hpoint
    have hclosed := h.file _ (Reconstruct.Machine.mem_fileList hname.file)
    dsimp only
    rw [file?_of_point h hpoint, Option.bind_some, node?_of_lt hname.node, Option.bind_some,
      Option.bind_some]
    split
    · unfold File.child?
      cases hbody : ((p.file point.ref.file).node point.ref.node).fields.find?
          fun e => e.1 == .body with
      | none => rfl
      | some e =>
        have hlt := hclosed.field (List.mem_of_find?_eq_some hbody)
        exact congrArg (Option.map _) (node?_of_lt hlt)
    · rfl

theorem guardedChildExtent_eq (t : Tree) (file : Option String) (child : Nat) :
    guardedChildExtent t p points file child = some (childExtent? t p points file child) := by
  unfold guardedChildExtent childExtent?
  cases t.get? child with
  | none => rfl
  | some c =>
    rw [Option.bind_some]
    dsimp only
    cases c.link with
    | some link => rfl
    | none =>
      cases c.numericId? with
      | none => rfl
      | some id => exact guardedExtent_eq h id

theorem guardedClashes_eq (t : Tree) (i : Nat) (n : Node) :
    guardedClashes t p points i n = some (overlapViolations t p points i n) := by
  have hchildren := mapM_eq_some_map (l := n.children.toList)
    (g := fun c => clashes i n c (childExtent? t p points (codeFile? p points n) c))
    fun c _ => congrArg (Option.map (clashes i n c))
      (guardedChildExtent_eq h t (codeFile? p points n) c)
  rw [guardedClashes, guardedFile_eq h, Option.bind_some, hchildren, overlapViolations_eq]
  rfl

theorem guardedNode_eq (t : Tree) (i : Nat) (n : Node) :
    guardedNode t p points i n = some (nodeViolations t p points i n) := by
  rw [guardedNode, guardedClashes_eq h]
  rfl

theorem guardedViolations_eq (t : Tree) :
    guardedViolations t p points = some (t.violations p points) := by
  rw [guardedViolations, mapM_eq_some_map fun x _ => guardedNode_eq h t x.2 x.1]
  rfl

end Within

end Trace.Tree

end Retrace
