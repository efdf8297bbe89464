import Mathlib.Logic.Relation
import Retrace.Trace.Tree

/-! The shape of a tree.

The shape of a tree is what its nodes are but for their own ranges: `outline` leaves those out.
Parents, children and trace ids can be read off the outline. `Listed` says that child lists and
parents tell of the same edges: a node lists exactly the nodes that name it as their parent, each
once and in the order of their numbers.

The core of a node is what it has from its beginning on, all but its own ranges and its children.
A tree that has `Grown` keeps the cores of its nodes. -/
namespace Retrace.Trace

def Node.outline (n : Node) : Node := {n with ranges := []}

def Node.core (n : Node) : Node := {n with ranges := [], children := #[]}

namespace Tree

def outline (t : Tree) : Tree := ⟨t.nodes.map Node.outline⟩

def parent? (t : Tree) (i : Nat) : Option Nat := (t.get? i).bind Node.parentIndex

def children (t : Tree) (i : Nat) : List Nat :=
  ((t.get? i).map fun n => n.children.toList).getD []

def traceId? (t : Tree) (i : Nat) : Option String := (t.get? i).map Node.traceId

def link? (t : Tree) (i : Nat) : Option Link := (t.get? i).bind Node.link

def core? (t : Tree) (i : Nat) : Option Node := (t.get? i).map Node.core

/-- The own ranges of a node. -/
def ranges (t : Tree) (i : Nat) : List Source.Range := ((t.get? i).map Node.ranges).getD []

/-! ### What an outline keeps -/

theorem get?_outline (t : Tree) (i : Nat) : t.outline.get? i = (t.get? i).map Node.outline := by
  simp [outline, get?]

theorem size_outline (t : Tree) : t.outline.size = t.size := by
  simp [outline, size]

theorem parent?_outline (t : Tree) : t.outline.parent? = t.parent? := by
  funext i
  unfold parent?
  rw [get?_outline]
  cases t.get? i <;> rfl

theorem children_outline (t : Tree) : t.outline.children = t.children := by
  funext i
  unfold children
  rw [get?_outline]
  cases t.get? i <;> rfl

theorem traceId?_outline (t : Tree) : t.outline.traceId? = t.traceId? := by
  funext i
  unfold traceId?
  rw [get?_outline]
  cases t.get? i <;> rfl

theorem link?_outline (t : Tree) : t.outline.link? = t.link? := by
  funext i
  unfold link?
  rw [get?_outline]
  cases t.get? i <;> rfl

theorem core?_outline (t : Tree) : t.outline.core? = t.core? := by
  funext i
  unfold core?
  rw [get?_outline]
  cases t.get? i <;> rfl

theorem outline_outline (t : Tree) : t.outline.outline = t.outline := by
  simp [outline, Node.outline, Function.comp_def]

section Same
variable {t u : Tree} (h : t.outline = u.outline)
include h

theorem size_eq_of_outline : t.size = u.size := by
  rw [← size_outline t, h, size_outline]

theorem parent?_eq_of_outline : t.parent? = u.parent? := by
  rw [← parent?_outline t, h, parent?_outline]

theorem children_eq_of_outline : t.children = u.children := by
  rw [← children_outline t, h, children_outline]

theorem traceId?_eq_of_outline : t.traceId? = u.traceId? := by
  rw [← traceId?_outline t, h, traceId?_outline]

theorem link?_eq_of_outline : t.link? = u.link? := by
  rw [← link?_outline t, h, link?_outline]

theorem core?_eq_of_outline : t.core? = u.core? := by
  rw [← core?_outline t, h, core?_outline]

end Same

theorem outline_setRanges (t : Tree) (i : Nat) (rs : List Source.Range) :
    (t.modify i fun n => {n with ranges := rs}).outline = t.outline := by
  unfold outline modify
  congr 1
  apply Array.ext
  · simp
  · intro j h₁ h₂
    simp only [Array.getElem_map, Array.getElem_modify]
    split <;> rfl

theorem ranges_setRanges {t : Tree} {i : Nat} (hi : i < t.size) (rs : List Source.Range) (j : Nat) :
    (t.modify i fun n => {n with ranges := rs}).ranges j = if j = i then rs else t.ranges j := by
  unfold ranges get? modify
  rw [Array.getElem?_modify]
  by_cases hj : j = i
  · subst hj
    rw [if_pos rfl, if_pos rfl, Array.getElem?_eq_getElem hi]
    rfl
  · rw [if_neg (Ne.symm hj), if_neg hj]

/-! ### A new node -/

theorem get?_eq_none {t : Tree} {i : Nat} : t.get? i = none ↔ t.size ≤ i := by
  simp [get?, size]

theorem get?_push (t : Tree) (p : Nat) (n : Node) (i : Nat) :
    (t.push p n).get? i =
      if i = t.size then some n
      else if i = p then (t.get? i).map fun m => {m with children := m.children.push t.size}
      else t.get? i := by
  unfold push get? size
  rw [Array.getElem?_push, Array.size_modify]
  split
  · rfl
  · rw [Array.getElem?_modify]
    by_cases hp : p = i
    · simp [hp]
    · rw [if_neg hp, if_neg (Ne.symm hp)]

theorem outline_push (t : Tree) (p : Nat) (n : Node) :
    (t.push p n).outline = t.outline.push p n.outline := by
  unfold outline push
  congr 1
  rw [Array.map_push, Array.size_map]
  congr 1
  apply Array.ext
  · simp
  · intro j h₁ h₂
    simp only [Array.getElem_map, Array.getElem_modify]
    split <;> rfl

section Push
variable {t : Tree} {p : Nat} {n : Node}

theorem parent?_push (i : Nat) :
    (t.push p n).parent? i = if i = t.size then n.parentIndex else t.parent? i := by
  unfold parent?
  rw [get?_push]
  split
  · rfl
  · split
    · cases t.get? i <;> rfl
    · rfl

theorem traceId?_push (i : Nat) :
    (t.push p n).traceId? i = if i = t.size then some n.traceId else t.traceId? i := by
  unfold traceId?
  rw [get?_push]
  split
  · rfl
  · split
    · cases t.get? i <;> rfl
    · rfl

theorem link?_push (i : Nat) :
    (t.push p n).link? i = if i = t.size then n.link else t.link? i := by
  unfold link?
  rw [get?_push]
  split
  · rfl
  · split
    · cases t.get? i <;> rfl
    · rfl

theorem core?_push (i : Nat) :
    (t.push p n).core? i = if i = t.size then some n.core else t.core? i := by
  unfold core?
  rw [get?_push]
  split
  · rfl
  · split
    · cases t.get? i <;> rfl
    · rfl

theorem ranges_push (hn : n.ranges = []) (i : Nat) : (t.push p n).ranges i = t.ranges i := by
  unfold ranges
  rw [get?_push]
  split
  · rename_i hi
    rw [hi, get?_eq_none.mpr (Nat.le_refl _), Option.map_some, hn]
    rfl
  · split
    · cases t.get? i <;> rfl
    · rfl

theorem children_push (hp : p < t.size) (hn : n.children = #[]) (i : Nat) :
    (t.push p n).children i =
      if i = p then t.children p ++ [t.size] else t.children i := by
  have hnew : ∀ {j}, j = t.size → t.children j = [] := by
    rintro _ rfl
    simp [children, get?, size]
  unfold children at *
  rw [get?_push]
  by_cases hi : i = t.size
  · rw [if_pos hi, if_neg (by omega), hnew hi]
    simp [hn]
  · rw [if_neg hi]
    by_cases hip : i = p
    · subst hip
      rw [if_pos rfl, if_pos rfl]
      have hsize : i < t.nodes.size := hp
      have hsome : t.get? i = some t.nodes[i] := Array.getElem?_eq_getElem hsize
      simp [hsome]
    · rw [if_neg hip, if_neg hip]

end Push

/-! ### Growth -/

theorem parent?_eq_bind_core? (t : Tree) (i : Nat) :
    t.parent? i = (t.core? i).bind Node.parentIndex := by
  unfold parent? core?
  cases t.get? i <;> rfl

theorem traceId?_eq_map_core? (t : Tree) (i : Nat) :
    t.traceId? i = (t.core? i).map Node.traceId := by
  unfold traceId? core?
  cases t.get? i <;> rfl

theorem link?_eq_bind_core? (t : Tree) (i : Nat) : t.link? i = (t.core? i).bind Node.link := by
  unfold link? core?
  cases t.get? i <;> rfl

theorem lt_size_of_core? {t : Tree} {i : Nat} {n : Node} (h : t.core? i = some n) : i < t.size := by
  refine Nat.lt_of_not_le fun hle => ?_
  rw [core?, get?_eq_none.mpr hle] at h
  cases h

/-- The nodes of `t` are in `u` as they were in `t`, but for their ranges and their children. -/
def Grown (t u : Tree) : Prop :=
  t.size ≤ u.size ∧ ∀ i < t.size, u.core? i = t.core? i

theorem grown_of_outline {t u : Tree} (h : u.outline = t.outline) : t.Grown u :=
  ⟨Nat.le_of_eq (size_eq_of_outline h).symm, fun i _ => congrFun (core?_eq_of_outline h) i⟩

theorem Grown.trans {t u v : Tree} (htu : t.Grown u) (huv : u.Grown v) : t.Grown v :=
  ⟨Nat.le_trans htu.1 huv.1, fun i hi => (huv.2 i (Nat.lt_of_lt_of_le hi htu.1)).trans (htu.2 i hi)⟩

theorem grown_push (t : Tree) (p : Nat) (n : Node) : t.Grown (t.push p n) := by
  refine ⟨by rw [size_push]; omega, fun i hi => ?_⟩
  rw [core?_push, if_neg (Nat.ne_of_lt hi)]

/-! ### Edges -/

/-- A node lists those that name it as their parent. -/
def Listed (t : Tree) : Prop :=
  ∀ i, t.children i = (List.range t.size).filter fun c => t.parent? c == some i

/-- `a` is `b` or an ancestor of `b`. -/
def Above (t : Tree) : Nat → Nat → Prop :=
  Relation.ReflTransGen fun p c => t.parent? c = some p

theorem lt_size_of_parent? {t : Tree} {p c : Nat} (h : t.parent? c = some p) : c < t.size := by
  apply Nat.lt_of_not_le
  intro hle
  simp [parent?, get?_eq_none.mpr hle] at h

theorem listed_push {t : Tree} {p : Nat} {n : Node} (hp : p < t.size) (hl : Listed t)
    (hn : n.children = #[]) (hparent : n.parentIndex = some p) : Listed (t.push p n) := by
  intro i
  have hold : ((List.range t.size).filter fun c => (t.push p n).parent? c == some i) =
      (List.range t.size).filter fun c => t.parent? c == some i := by
    apply List.filter_congr
    intro c hc
    have := List.mem_range.mp hc
    rw [parent?_push, if_neg (by omega)]
  have hnew : (t.push p n).parent? t.size = some p := by
    rw [parent?_push, if_pos rfl, hparent]
  rw [children_push hp hn, size_push, List.range_succ, List.filter_append, hold, ← hl i]
  by_cases hi : i = p
  · subst hi
    simp [hnew]
  · simp [hnew, hi, Ne.symm hi]

theorem above_push {t : Tree} {p : Nat} {n : Node} {a b : Nat} (h : t.Above a b) :
    (t.push p n).Above a b := by
  unfold Above at *
  induction h with
  | refl => exact .refl
  | tail _ hcd ih =>
    refine .tail ih ?_
    have hd := lt_size_of_parent? hcd
    rw [parent?_push, if_neg (by omega)]
    exact hcd

theorem above_of_outline {t u : Tree} (h : t.outline = u.outline) : t.Above = u.Above := by
  unfold Above
  rw [parent?_eq_of_outline h]

/-- A node of the smaller tree lists what it lists in the larger one, as far as it is there. -/
theorem children_of_grown {t u : Tree} (h : t.Grown u) (ht : Listed t) (hu : Listed u) (i : Nat) :
    t.children i = (u.children i).filter fun c => decide (c < t.size) := by
  obtain ⟨hsize, hcore⟩ := h
  have hrange : (List.range u.size).filter (fun c => decide (c < t.size)) = List.range t.size := by
    obtain ⟨d, hd⟩ := Nat.exists_eq_add_of_le hsize
    rw [hd, List.range_add, List.filter_append, List.filter_eq_self.mpr, List.filter_eq_nil_iff.mpr,
      List.append_nil]
    · intro c hc
      obtain ⟨e, _, rfl⟩ := List.mem_map.mp hc
      simp
    · exact fun c hc => decide_eq_true (List.mem_range.mp hc)
  rw [ht i, hu i, ← hrange, List.filter_filter, List.filter_filter]
  refine List.filter_congr fun c _ => ?_
  by_cases hc : c < t.size
  · rw [parent?_eq_bind_core? u, hcore c hc, ← parent?_eq_bind_core?, Bool.and_comm]
  · simp [hc]

section Listed
variable {t : Tree} (h : Listed t)
include h

theorem pairwise_children (i : Nat) : (t.children i).Pairwise (· < ·) := by
  rw [h i]
  exact List.Pairwise.filter _ List.pairwise_lt_range

theorem count_children (i c : Nat) :
    (t.children i).count c = if t.parent? c = some i then 1 else 0 := by
  by_cases hc : t.parent? c = some i
  · have hlt := lt_size_of_parent? hc
    rw [h i, List.count_filter (by simpa using hc), if_pos hc]
    exact List.nodup_range.count.trans (if_pos (List.mem_range.mpr hlt))
  · rw [if_neg hc, h i]
    apply List.count_eq_zero.mpr
    intro hmem
    exact hc (by simpa using (List.mem_filter.mp hmem).2)

end Listed

end Tree

end Retrace.Trace
