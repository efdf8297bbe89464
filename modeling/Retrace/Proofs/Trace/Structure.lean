import Mathlib.Data.List.Nodup
import Mathlib.Data.List.Perm.Basic
import Retrace.Proofs.Trace.Checks

/-! What the check of a tree decides.

The check looks at one node or one entry of a child list at a time. Together these looks decide
whether the child lists hold every node but the root once, each in the list of its own parent
(`edgeViolations_eq_nil_iff`), and whether the rounds of each loop under each node are numbered from
one on (`roundViolations_eq_nil_iff`). Nothing is asked of the tree beforehand. -/
namespace Retrace.Trace.Tree
open Source Instrument

/-! ### The rules apart -/

def edgeViolations (t : Tree) : List Violation :=
  t.nodes.toList.zipIdx.flatMap fun (n, i) => parentViolations t i n ++ childViolations t i n

def iterationViolations (t : Tree) : List Violation :=
  t.nodes.toList.zipIdx.flatMap fun (n, _) =>
    roundViolations [] (n.children.toList.filterMap (countedChild? t))

def clashViolations (t : Tree) (p : Project) (points : PointMap) : List Violation :=
  t.nodes.toList.zipIdx.flatMap fun (n, i) => overlapViolations t p points i n

/-- What is found are the violations of the three rules. -/
theorem violations_perm (t : Tree) (p : Project) (points : PointMap) :
    (t.violations p points).Perm
      (t.edgeViolations ++ t.iterationViolations ++ t.clashViolations p points) := by
  unfold violations nodeViolations edgeViolations iterationViolations clashViolations
  exact ((List.flatMap_append_perm _ _ _).append_right _ |>.trans
    (List.flatMap_append_perm _ _ _)).symm

theorem flatMap_nodes_eq_nil {t : Tree} {f : Node × Nat → List Violation} :
    t.nodes.toList.zipIdx.flatMap f = [] ↔ ∀ i n, t.get? i = some n → f (n, i) = [] := by
  rw [List.flatMap_eq_nil_iff]
  constructor
  · intro h i n hn
    refine h (n, i) (List.mk_mem_zipIdx_iff_getElem?.mpr ?_)
    rw [Array.getElem?_toList]
    exact hn
  · rintro h ⟨n, i⟩ hmem
    have hget := List.mk_mem_zipIdx_iff_getElem?.mp hmem
    rw [Array.getElem?_toList] at hget
    exact h i n hget

/-! ### Edges -/

/-- Every node but the root has a parent in the tree, and the child lists together hold every node
but the root once, each node in the list of its own parent. -/
structure Consistent (t : Tree) : Prop where
  root : t.parent? 0 = none
  parent : ∀ i, 0 < i → i < t.size → ∃ p, t.parent? i = some p ∧ p < t.size
  once : ((List.range t.size).flatMap t.children).Perm (List.range' 1 (t.size - 1))
  own : ∀ i, ∀ c ∈ t.children i, t.parent? c = some i

theorem parentViolations_root_iff {t : Tree} {n : Node} :
    parentViolations t 0 n = [] ↔ n.parentIndex = none := by
  unfold parentViolations
  cases n.parentIndex <;> simp

theorem parentViolations_iff {t : Tree} {i : Nat} {n : Node} (hi : 0 < i) :
    parentViolations t i n = [] ↔
      ∃ p, n.parentIndex = some p ∧ p < t.size ∧ (t.children p).count i = 1 := by
  unfold parentViolations
  cases n.parentIndex with
  | none => simp [Nat.ne_of_gt hi]
  | some p =>
    dsimp only
    rw [if_neg (Nat.ne_of_gt hi)]
    cases hp : t.get? p with
    | none =>
      have hsize : ¬p < t.size := Nat.not_lt.mpr (get?_eq_none.mp hp)
      simp [hsize]
    | some m => simp [lt_size_of_get? hp, children_of_get? hp]

theorem childViolations_iff {t : Tree} {i : Nat} {n : Node} :
    childViolations t i n = [] ↔ ∀ c ∈ n.children.toList, t.parent? c = some i := by
  simp [childViolations, pointsBack, parent?]

/-- The rule of parents and children, node by node and entry by entry. -/
theorem edgeViolations_iff {t : Tree} : t.edgeViolations = [] ↔
    t.parent? 0 = none ∧
    (∀ i, 0 < i → i < t.size →
      ∃ p, t.parent? i = some p ∧ p < t.size ∧ (t.children p).count i = 1) ∧
    ∀ i, ∀ c ∈ t.children i, t.parent? c = some i := by
  unfold edgeViolations
  rw [flatMap_nodes_eq_nil]
  constructor
  · intro h
    refine ⟨?_, fun i hpos hi => ?_, fun i c hc => ?_⟩
    · cases hroot : t.get? 0 with
      | none => rw [parent?, hroot, Option.bind_none]
      | some n =>
        rw [parent?_of_get? hroot]
        exact parentViolations_root_iff.mp (List.append_eq_nil_iff.mp (h 0 n hroot)).1
    · obtain ⟨n, hn⟩ := exists_node hi
      rw [parent?_of_get? hn]
      exact (parentViolations_iff hpos).mp (List.append_eq_nil_iff.mp (h i n hn)).1
    · cases hn : t.get? i with
      | none =>
        rw [children, hn] at hc
        cases hc
      | some n =>
        rw [children_of_get? hn] at hc
        exact childViolations_iff.mp (List.append_eq_nil_iff.mp (h i n hn)).2 c hc
  · rintro ⟨hroot, hparent, hown⟩ i n hn
    refine List.append_eq_nil_iff.mpr ⟨?_, childViolations_iff.mpr fun c hc => ?_⟩
    · rcases Nat.eq_zero_or_pos i with rfl | hpos
      · exact parentViolations_root_iff.mpr (parent?_of_get? hn ▸ hroot)
      · exact (parentViolations_iff hpos).mpr
          (parent?_of_get? hn ▸ hparent i hpos (lt_size_of_get? hn))
    · exact hown i c (children_of_get? hn ▸ hc)

theorem mem_entries_iff {t : Tree} {c : Nat} :
    c ∈ (List.range t.size).flatMap t.children ↔ ∃ i, c ∈ t.children i := by
  rw [List.mem_flatMap]
  refine ⟨fun ⟨i, _, hc⟩ => ⟨i, hc⟩, fun ⟨i, hc⟩ => ⟨i, List.mem_range.mpr ?_, hc⟩⟩
  refine Nat.lt_of_not_le fun hle => ?_
  rw [children, get?_eq_none.mpr hle] at hc
  cases hc

theorem edgeViolations_eq_nil_iff {t : Tree} : t.edgeViolations = [] ↔ t.Consistent := by
  rw [edgeViolations_iff]
  constructor
  · rintro ⟨hroot, hparent, hown⟩
    have hbounds : ∀ {i c}, c ∈ t.children i → 0 < c ∧ c < t.size := by
      intro i c hc
      have hp := hown i c hc
      refine ⟨Nat.pos_of_ne_zero fun hzero => ?_, lt_size_of_parent? hp⟩
      rw [hzero, hroot] at hp
      cases hp
    have hnodup : ((List.range t.size).flatMap t.children).Nodup := by
      refine List.nodup_flatMap.mpr ⟨fun i _ => List.nodup_iff_count_le_one.mpr fun c => ?_, ?_⟩
      · by_cases hc : c ∈ t.children i
        · obtain ⟨hpos, hlt⟩ := hbounds hc
          obtain ⟨q, hq, _, hcount⟩ := hparent c hpos hlt
          cases (hown i c hc).symm.trans hq
          exact Nat.le_of_eq hcount
        · rw [List.count_eq_zero.mpr hc]
          exact Nat.zero_le 1
      · refine List.nodup_range.imp fun {i j} hne => ?_
        refine List.disjoint_left.mpr fun c hi hj => hne ?_
        exact Option.some.inj ((hown i c hi).symm.trans (hown j c hj))
    refine ⟨hroot, fun i hpos hi => ?_, ?_, hown⟩
    · obtain ⟨q, hq, hsize, _⟩ := hparent i hpos hi
      exact ⟨q, hq, hsize⟩
    · refine (List.perm_ext_iff_of_nodup hnodup List.nodup_range').mpr fun c => ?_
      rw [mem_entries_iff, List.mem_range'_1]
      constructor
      · rintro ⟨i, hc⟩
        have := hbounds hc
        omega
      · intro hc
        obtain ⟨q, _, _, hcount⟩ := hparent c (by omega) (by omega)
        exact ⟨q, List.count_pos_iff.mp (by omega)⟩
  · rintro ⟨hroot, hparent, honce, hown⟩
    refine ⟨hroot, fun i hpos hi => ?_, hown⟩
    obtain ⟨q, hq, hsize⟩ := hparent i hpos hi
    have hlisted : i ∈ (List.range t.size).flatMap t.children :=
      honce.mem_iff.mpr (List.mem_range'_1.mpr (by omega))
    obtain ⟨j, hj⟩ := mem_entries_iff.mp hlisted
    obtain rfl : j = q := Option.some.inj ((hown j i hj).symm.trans hq)
    have hnodup := honce.nodup_iff.mpr List.nodup_range'
    have hlist := (List.nodup_flatMap.mp hnodup).1 j (List.mem_range.mpr hsize)
    exact ⟨j, hq, hsize, List.count_eq_one_of_mem hlist hj⟩

/-! ### Rounds -/

/-- The numbers go up by one from `first` on. They are words. -/
def CountsFrom (first : Nat) (rounds : List UInt32) : Prop :=
  rounds = (List.range' first rounds.length).map Nat.toUInt32

instance (first : Nat) (rounds : List UInt32) : Decidable (CountsFrom first rounds) :=
  decEq _ _

theorem countsFrom_cons {first : Nat} {round : UInt32} {rounds : List UInt32} :
    CountsFrom first (round :: rounds) ↔
      round = first.toUInt32 ∧ CountsFrom (first + 1) rounds := by
  unfold CountsFrom
  rw [List.length_cons, List.range'_succ, List.map_cons, List.cons.injEq]

/-- The numbers of the counted children that carry a trace id. -/
def roundsOf (traceId : String) (counted : List (Nat × String × UInt32)) : List UInt32 :=
  counted.filterMap fun x => if x.2.1 = traceId then some x.2.2 else none

theorem roundsOf_cons (w : String) (x : Nat × String × UInt32)
    (counted : List (Nat × String × UInt32)) : roundsOf w (x :: counted) =
      if x.2.1 = w then x.2.2 :: roundsOf w counted else roundsOf w counted := by
  unfold roundsOf
  rw [List.filterMap_cons]
  split <;> simp_all

theorem roundViolations_eq_nil_iff {seen : List String}
    {counted : List (Nat × String × UInt32)} : roundViolations seen counted = [] ↔
      ∀ w, CountsFrom (seen.count w + 1) (roundsOf w counted) := by
  induction counted generalizing seen with
  | nil => exact ⟨fun _ _ => rfl, fun _ => rfl⟩
  | cons x counted ih =>
    obtain ⟨c, id, round⟩ := x
    have hstep : roundViolations seen ((c, id, round) :: counted) = [] ↔
        round = (seen.count id + 1).toUInt32 ∧ roundViolations (id :: seen) counted = [] := by
      rw [roundViolations]
      split <;> simp_all
    rw [hstep, ih]
    constructor
    · rintro ⟨hround, hlater⟩ w
      have hw := hlater w
      rw [roundsOf_cons]
      split
      · rename_i heq
        subst heq
        rw [List.count_cons_self] at hw
        exact countsFrom_cons.mpr ⟨hround, hw⟩
      · rename_i hne
        rwa [List.count_cons_of_ne hne] at hw
    · intro h
      have hself := h id
      rw [roundsOf_cons, if_pos rfl] at hself
      obtain ⟨hround, hlater⟩ := countsFrom_cons.mp hself
      refine ⟨hround, fun w => ?_⟩
      by_cases heq : id = w
      · subst heq
        rwa [List.count_cons_self]
      · have hw := h w
        rw [roundsOf_cons, if_neg heq] at hw
        rwa [List.count_cons_of_ne heq]

/-- The numbers of those children of a node that carry a trace id and have a number. -/
def iterations (t : Tree) (i : Nat) (traceId : String) : List UInt32 :=
  (t.children i).filterMap fun c =>
    (t.get? c).bind fun n => if n.traceId = traceId then n.iteration else none

theorem roundsOf_counted (t : Tree) (i : Nat) (w : String) :
    roundsOf w ((t.children i).filterMap (countedChild? t)) = t.iterations i w := by
  unfold roundsOf iterations
  rw [List.filterMap_filterMap]
  refine congrArg (List.filterMap · _) (funext fun c => ?_)
  rw [countedChild?]
  cases t.get? c with
  | none => rfl
  | some n => cases hn : n.iteration <;> simp [hn]

theorem iterationViolations_eq_nil_iff {t : Tree} :
    t.iterationViolations = [] ↔ ∀ i w, CountsFrom 1 (t.iterations i w) := by
  have hnode : ∀ i, roundViolations [] ((t.children i).filterMap (countedChild? t)) = [] ↔
      ∀ w, CountsFrom 1 (t.iterations i w) := by
    intro i
    rw [roundViolations_eq_nil_iff]
    refine forall_congr' fun w => ?_
    rw [roundsOf_counted]
    rfl
  unfold iterationViolations
  rw [flatMap_nodes_eq_nil]
  constructor
  · intro h i
    refine (hnode i).mp ?_
    cases hn : t.get? i with
    | none =>
      rw [children, hn]
      rfl
    | some n =>
      rw [children_of_get? hn]
      exact h i n hn
  · intro h i n hn
    have hrounds := (hnode i).mpr (h i)
    rwa [children_of_get? hn] at hrounds

end Retrace.Trace.Tree
