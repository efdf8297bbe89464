import Retrace.Proofs.Trace.Shape
import Retrace.Trace.Violation

/-! What it takes for a tree to pass its check.

When parents and children tell of the same edges and the rounds of every loop count up from one,
the check finds nothing but own ranges in the places of children (`violations_eq_nil_iff`). -/
namespace Retrace.Trace.Tree
open Source Instrument

/-! ### Edges -/

/-- Every node but the root has a parent in the tree. -/
structure Edged (t : Tree) : Prop where
  listed : t.Listed
  rootless : t.parent? 0 = none
  parented : ∀ i, 0 < i → i < t.size → ∃ p, t.parent? i = some p ∧ p < t.size

theorem parent?_of_get? {t : Tree} {i : Nat} {n : Node} (h : t.get? i = some n) :
    t.parent? i = n.parentIndex := by
  rw [parent?, h, Option.bind_some]

theorem children_of_get? {t : Tree} {i : Nat} {n : Node} (h : t.get? i = some n) :
    t.children i = n.children.toList := by
  rw [children, h]
  rfl

theorem lt_size_of_get? {t : Tree} {i : Nat} {n : Node} (h : t.get? i = some n) : i < t.size := by
  refine Nat.lt_of_not_le fun hle => ?_
  rw [get?_eq_none.mpr hle] at h
  cases h

theorem exists_node {t : Tree} {i : Nat} (h : i < t.size) : ∃ n, t.get? i = some n := by
  refine Option.ne_none_iff_exists'.mp fun hnone => ?_
  exact absurd (get?_eq_none.mp hnone) (Nat.not_le.mpr h)

section Edged
variable {t : Tree} (h : t.Edged) {i : Nat} {n : Node} (hn : t.get? i = some n)
include h hn

theorem parentViolations_eq_nil : parentViolations t i n = [] := by
  have hparent := parent?_of_get? hn
  rcases Nat.eq_zero_or_pos i with rfl | hpos
  · unfold parentViolations
    rw [← hparent, h.rootless]
    rfl
  · obtain ⟨p, hp, hsize⟩ := h.parented i hpos (lt_size_of_get? hn)
    obtain ⟨m, hm⟩ := exists_node hsize
    have hcount := count_children h.listed p i
    rw [if_pos hp, children_of_get? hm] at hcount
    unfold parentViolations
    rw [← hparent, hp]
    simp only [hm]
    rw [if_neg (Nat.ne_of_gt hpos), if_pos hcount]

theorem childViolations_eq_nil : childViolations t i n = [] := by
  unfold childViolations
  rw [List.map_eq_nil_iff, List.filter_eq_nil_iff]
  intro c hc hnot
  rw [← children_of_get? hn, h.listed i] at hc
  have hparent : t.parent? c == some i := (List.mem_filter.mp hc).2
  rw [show pointsBack t i c = true from hparent] at hnot
  cases hnot

end Edged

/-! ### Rounds -/

/-- The rounds of each loop count up from one. -/
def Counted (t : Tree) : Prop :=
  ∀ i, roundViolations [] ((t.children i).filterMap (countedChild? t)) = []

/-- The latest counted child is checked against all that stand before it. -/
theorem roundViolations_concat (seen : List String) (l : List (Nat × String × UInt32))
    (x : Nat × String × UInt32)
    (h : roundViolations seen l = [])
    (hx : x.2.2 = ((seen ++ l.map fun y => y.2.1).count x.2.1 + 1).toUInt32) :
    roundViolations seen (l ++ [x]) = [] := by
  induction l generalizing seen with
  | nil =>
    obtain ⟨c, traceId, round⟩ := x
    simp only [List.map_nil, List.append_nil] at hx
    simp only [List.nil_append, roundViolations]
    exact if_pos hx
  | cons y l ih =>
    obtain ⟨c, traceId, round⟩ := y
    simp only [roundViolations] at h
    split at h
    · rename_i hround
      simp only [List.cons_append, roundViolations]
      rw [if_pos hround]
      refine ih _ h ?_
      rw [hx]
      simp only [List.map_cons, List.count_append, List.count_cons]
      rw [show ∀ a b c : Nat, a + (b + c) + 1 = a + c + b + 1 by omega]
    · cases h

/-! ### The check -/

theorem overlapViolations_eq_nil_iff {t : Tree} {p : Project} {points : PointMap} {i : Nat}
    {n : Node} :
    overlapViolations t p points i n = [] ↔ ∀ c ∈ n.children.toList, ∀ extent,
      childExtent? t p points (codeFile? p points n) c = some extent →
      ∀ r ∈ n.ranges, r.overlaps extent = false := by
  unfold overlapViolations
  rw [List.flatMap_eq_nil_iff]
  refine forall_congr' fun c => imp_congr_right fun _ => ?_
  cases childExtent? t p points (codeFile? p points n) c with
  | none => simp
  | some extent => simp

theorem violations_eq_nil_iff {t : Tree} (hedges : t.Edged) (hcounted : t.Counted) {p : Project}
    {points : PointMap} :
    t.violations p points = [] ↔ ∀ i n, t.get? i = some n → ∀ c ∈ t.children i, ∀ extent,
      childExtent? t p points (codeFile? p points n) c = some extent →
      ∀ r ∈ n.ranges, r.overlaps extent = false := by
  have hnode : ∀ i n, t.get? i = some n →
      (nodeViolations t p points i n = [] ↔ overlapViolations t p points i n = []) := by
    intro i n hn
    have hrounds := hcounted i
    rw [children_of_get? hn] at hrounds
    unfold nodeViolations
    rw [parentViolations_eq_nil hedges hn, childViolations_eq_nil hedges hn, hrounds]
    rfl
  have hall : t.violations p points = [] ↔
      ∀ i n, t.get? i = some n → nodeViolations t p points i n = [] := by
    unfold violations
    rw [List.flatMap_eq_nil_iff]
    constructor
    · intro h i n hn
      refine h (n, i) (List.mk_mem_zipIdx_iff_getElem?.mpr ?_)
      rw [Array.getElem?_toList]
      exact hn
    · rintro h ⟨n, i⟩ hmem
      refine h i n ?_
      have hget := List.mk_mem_zipIdx_iff_getElem?.mp hmem
      rw [Array.getElem?_toList] at hget
      exact hget
  rw [hall]
  refine forall_congr' fun i => forall_congr' fun n => forall_congr' fun hn => ?_
  rw [hnode i n hn, overlapViolations_eq_nil_iff, children_of_get? hn]

end Retrace.Trace.Tree
