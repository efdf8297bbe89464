import Retrace.Proofs.Reconstruct.Run
import Retrace.Proofs.Reconstruct.Sources
import Retrace.Proofs.Text.Words
import Retrace.Proofs.Trace.Structure

/-! When an own range is reported to overlap the place of a child.

An overlap is reported in words. The words tell which range and which child are meant
(`overlapText_inj`) and no other rule speaks like that, so what is reported can be said in terms of
the tree: the range has a position in common with the place of the child, and the place lies in the
file of the node, unless the child has no link (`overlap_reported_iff`). The check does not ask in
which file a child without a link lies, so it takes a static initializer of another file, which runs
when its class is first used, for code in the middle of its parent. -/
namespace Retrace

namespace Source.Range

/-- The position is one of the range. -/
def Covers (r : Range) (x : Position) : Prop := r.first.le x = true ∧ x.le r.last = true

theorem overlaps_iff {a b : Range} (ha : a.Proper) (hb : b.Proper) :
    a.overlaps b = true ↔ ∃ x, a.Covers x ∧ b.Covers x := by
  unfold overlaps
  rw [Bool.and_eq_true]
  constructor
  · rintro ⟨hab, hba⟩
    -- the later of the two beginnings is common to both
    cases hle : a.first.le b.first with
    | true => exact ⟨b.first, ⟨hle, hba⟩, Position.le_refl _, hb⟩
    | false =>
      have hlt := Position.le_of_lt (Position.not_le.mp hle)
      exact ⟨a.first, ⟨Position.le_refl _, ha⟩, hlt, hab⟩
  · rintro ⟨x, ⟨hax, hxa⟩, hbx, hxb⟩
    exact ⟨Position.le_trans hax hxb, Position.le_trans hbx hxa⟩

theorem toList_text (r : Range) : r.text.toList =
    '(' :: ((toString r.beginLine.toNat).toList ++ ',' :: ((toString r.beginCol.toNat).toList ++
      ')' :: '-' :: '(' :: ((toString r.endLine.toNat).toList ++
        ',' :: ((toString r.endCol.toNat).toList ++ [')'])))) := by
  simp only [text, String.toList_append, List.append_assoc]
  rfl

theorem text_append_inj {r s : Range} {xs ys : List Char}
    (h : r.text.toList ++ xs = s.text.toList ++ ys) : r = s ∧ xs = ys := by
  rw [toList_text, toList_text] at h
  simp only [List.cons_append, List.append_assoc, List.cons.injEq, true_and] at h
  obtain ⟨hbeginLine, h⟩ := Text.toString_append_inj rfl rfl h
  obtain ⟨hbeginCol, h⟩ := Text.toString_append_inj rfl rfl (List.tail_eq_of_cons_eq h)
  simp only [List.cons.injEq, true_and] at h
  obtain ⟨hendLine, h⟩ := Text.toString_append_inj rfl rfl h
  obtain ⟨hendCol, h⟩ := Text.toString_append_inj rfl rfl (List.tail_eq_of_cons_eq h)
  refine ⟨?_, List.tail_eq_of_cons_eq h⟩
  cases r
  cases s
  simp only [UInt32.toNat_inj] at hbeginLine hbeginCol hendLine hendCol
  rw [hbeginLine, hbeginCol, hendLine, hendCol]

end Source.Range

namespace Trace.Tree
open Source Instrument Reconstruct

/-! ### What a message tells -/

def overlapText (r : Range) (c : Nat) (extent : Range) : String :=
  s!"range {r.text} overlaps child {c} at {extent.text}"

theorem toList_overlapText (r : Range) (c : Nat) (extent : Range) :
    (overlapText r c extent).toList = "range ".toList ++ (r.text.toList ++
      (" overlaps child ".toList ++ ((toString c).toList ++
        (" at ".toList ++ extent.text.toList)))) := by
  simp only [overlapText, String.toList_append, List.append_assoc]
  rfl

theorem overlapText_inj {r s : Range} {c d : Nat} {extent extent' : Range}
    (h : overlapText r c extent = overlapText s d extent') : r = s ∧ c = d ∧ extent = extent' := by
  have hlist := congrArg String.toList h
  rw [toList_overlapText, toList_overlapText] at hlist
  obtain ⟨hr, hrest⟩ := Range.text_append_inj (List.append_cancel_left hlist)
  obtain ⟨hc, hrest⟩ := Text.toString_append_inj rfl rfl (List.append_cancel_left hrest)
  have hextent : " at ".toList ++ extent.text.toList = " at ".toList ++ extent'.text.toList := hrest
  have hlast : extent.text.toList ++ [] = extent'.text.toList ++ [] := by
    rw [List.append_cancel_left hextent]
  exact ⟨hr, hc, (Range.text_append_inj hlast).1⟩

/-- The message begins like one about an own range. -/
def AboutRange (v : Violation) : Prop := v.message.toList.take 2 = ['r', 'a']

theorem aboutRange_overlapText (i : Nat) (r : Range) (c : Nat) (extent : Range) :
    AboutRange ⟨i, overlapText r c extent⟩ := by
  rw [AboutRange, toList_overlapText]
  rfl

theorem not_aboutRange_of_parentViolations {t : Tree} {i : Nat} {n : Node} {v : Violation}
    (hv : v ∈ parentViolations t i n) : ¬AboutRange v := by
  unfold parentViolations at hv
  dsimp only at hv
  split at hv <;> split at hv
  · cases hv
  · obtain rfl := List.mem_singleton.mp hv
    simp [AboutRange]
  · obtain rfl := List.mem_singleton.mp hv
    simp [AboutRange]
  · split at hv
    · obtain rfl := List.mem_singleton.mp hv
      simp [AboutRange, String.toList_append, toString]
    · split at hv
      · cases hv
      · obtain rfl := List.mem_singleton.mp hv
        simp [AboutRange, String.toList_append, toString]

theorem not_aboutRange_of_childViolations {t : Tree} {i : Nat} {n : Node} {v : Violation}
    (hv : v ∈ childViolations t i n) : ¬AboutRange v := by
  obtain ⟨c, _, rfl⟩ := List.mem_map.mp hv
  simp [AboutRange, String.toList_append, toString]

theorem not_aboutRange_of_roundViolations {seen : List String}
    {counted : List (Nat × String × UInt32)} {v : Violation}
    (hv : v ∈ roundViolations seen counted) : ¬AboutRange v := by
  induction counted generalizing seen with
  | nil => cases hv
  | cons x counted ih =>
    obtain ⟨c, id, round⟩ := x
    rw [roundViolations] at hv
    split at hv
    · exact ih hv
    · rcases List.mem_cons.mp hv with rfl | hv
      · simp [AboutRange, String.toList_append, toString]
      · exact ih hv

/-- Only one rule speaks of own ranges. -/
theorem mem_violations_iff {t : Tree} {p : Project} {points : PointMap} {v : Violation}
    (hv : AboutRange v) : v ∈ t.violations p points ↔
      ∃ i n, t.get? i = some n ∧ v ∈ overlapViolations t p points i n := by
  unfold violations
  simp only [List.mem_flatMap, Prod.exists, List.mk_mem_zipIdx_iff_getElem?, Array.getElem?_toList]
  rw [exists_comm]
  refine exists_congr fun i => exists_congr fun n => and_congr_right fun _ => ?_
  unfold nodeViolations
  rw [List.mem_append, List.mem_append, List.mem_append]
  refine or_iff_right ?_
  rintro ((h | h) | h)
  · exact not_aboutRange_of_parentViolations h hv
  · exact not_aboutRange_of_childViolations h hv
  · exact not_aboutRange_of_roundViolations h hv

/-! ### What is reported -/

section Reports
variable (t : Tree) (p : Project) (points : PointMap)

/-- An overlap of the own range with the child is reported for the node. -/
def Reports (i : Nat) (r : Range) (c : Nat) : Prop :=
  ∃ extent, ⟨i, overlapText r c extent⟩ ∈ t.violations p points

/-- The file of the code that a node stands for. -/
def fileOf? (i : Nat) : Option String := (t.get? i).bind (codeFile? p points)

/-- The place of a child: its link, or else the code that it stands for, the body in case of a
loop. -/
def place? (c : Nat) : Option Link :=
  match t.link? c with
  | some link => some link
  | none => (t.get? c).bind fun n => n.numericId?.bind fun id => (points.get? id).bind fun point =>
      (pointExtent? p points id).map fun range => ⟨range, (p.file point.ref.file).path⟩

/-- The place lies in the file of the node. -/
def InFileOf (i : Nat) (place : Link) : Prop :=
  ∃ file, t.fileOf? p points i = some file ∧ Path.same file place.file = true

/-- An own range of a node has a position in common with the place of one of its children. -/
structure Meets (i : Nat) (r : Range) (c : Nat) (place : Link) : Prop where
  own : r ∈ t.ranges i
  child : c ∈ t.children i
  stands : t.place? p points c = some place
  common : ∃ x, r.Covers x ∧ place.range.Covers x

end Reports

section Reports
variable {t : Tree} {p : Project} {points : PointMap} {i c : Nat} {n : Node} {r : Range}

theorem childExtent?_eq_some_iff (hn : t.get? i = some n) {extent : Range} :
    childExtent? t p points (codeFile? p points n) c = some extent ↔
      ∃ place, t.place? p points c = some place ∧ place.range = extent ∧
        (t.InFileOf p points i place ∨ t.link? c = none) := by
  have hfile : t.fileOf? p points i = codeFile? p points n := by
    rw [fileOf?, hn, Option.bind_some]
  unfold childExtent? place? InFileOf link?
  rw [hfile]
  cases t.get? c with
  | none => simp
  | some m =>
    simp only [Option.bind_some]
    cases m.link with
    | some link => simp [Option.any_eq_true, and_comm]
    | none =>
      cases m.numericId? with
      | none => simp
      | some id =>
        cases hpoint : points.get? id with
        | none => simp [pointExtent?, hpoint]
        | some point => simp [hpoint]

theorem mem_overlapViolations_iff {j : Nat} {extent : Range} :
    ⟨i, overlapText r c extent⟩ ∈ overlapViolations t p points j n ↔
      i = j ∧ c ∈ n.children.toList ∧
        childExtent? t p points (codeFile? p points n) c = some extent ∧
        r ∈ n.ranges ∧ r.overlaps extent = true := by
  unfold overlapViolations
  rw [List.mem_flatMap]
  constructor
  · rintro ⟨d, hd, hmem⟩
    split at hmem
    · cases hmem
    · rename_i e he
      obtain ⟨s, hs, hv⟩ := List.mem_map.mp hmem
      obtain ⟨hs, hoverlaps⟩ := List.mem_filter.mp hs
      obtain ⟨hi, hmessage⟩ := Violation.mk.inj hv
      obtain ⟨rfl, rfl, rfl⟩ := overlapText_inj hmessage
      exact ⟨hi.symm, hd, he, hs, hoverlaps⟩
  · rintro ⟨rfl, hc, he, hr, hoverlaps⟩
    refine ⟨c, hc, ?_⟩
    rw [he]
    exact List.mem_map.mpr ⟨r, List.mem_filter.mpr ⟨hr, hoverlaps⟩, rfl⟩

theorem reports_iff : t.Reports p points i r c ↔
    ∃ place, r ∈ t.ranges i ∧ c ∈ t.children i ∧ t.place? p points c = some place ∧
      r.overlaps place.range = true ∧ (t.InFileOf p points i place ∨ t.link? c = none) := by
  unfold Reports
  constructor
  · rintro ⟨extent, hmem⟩
    obtain ⟨j, n, hn, hv⟩ := (mem_violations_iff (aboutRange_overlapText i r c extent)).mp hmem
    obtain ⟨rfl, hc, hextent, hr, hoverlaps⟩ := mem_overlapViolations_iff.mp hv
    obtain ⟨place, hplace, rfl, hfile⟩ := (childExtent?_eq_some_iff hn).mp hextent
    rw [← children_of_get? hn] at hc
    refine ⟨place, ?_, hc, hplace, hoverlaps, hfile⟩
    rw [ranges, hn]
    exact hr
  · rintro ⟨place, hr, hc, hplace, hoverlaps, hfile⟩
    cases hn : t.get? i with
    | none =>
      rw [ranges, hn] at hr
      cases hr
    | some n =>
      rw [children_of_get? hn] at hc
      rw [ranges, hn] at hr
      have hextent := (childExtent?_eq_some_iff hn).mpr ⟨place, hplace, rfl, hfile⟩
      exact ⟨place.range, (mem_violations_iff (aboutRange_overlapText i r c _)).mpr
        ⟨i, n, hn, mem_overlapViolations_iff.mpr ⟨rfl, hc, hextent, hr, hoverlaps⟩⟩⟩

end Reports

/-- An overlap is reported exactly when an own range has a position in common with the place of a
child that lies in the file of the node, or that has no link. So when the children without a link
lie in the file of the node, code of two files never counts as overlapping. -/
theorem overlap_reported_iff {t : Tree} {p : Project} {points : PointMap} {i c : Nat} {r : Range}
    (hr : r.Proper) (hplace : ∀ place, t.place? p points c = some place → place.range.Proper) :
    (t.Reports p points i r c ↔ ∃ place, t.Meets p points i r c place ∧
      (t.InFileOf p points i place ∨ t.link? c = none)) ∧
    ((∀ place, t.link? c = none → t.place? p points c = some place →
        t.InFileOf p points i place) →
      (t.Reports p points i r c ↔ ∃ place, t.Meets p points i r c place ∧
        t.InFileOf p points i place)) := by
  have hreports : t.Reports p points i r c ↔ ∃ place, t.Meets p points i r c place ∧
      (t.InFileOf p points i place ∨ t.link? c = none) := by
    rw [reports_iff]
    refine exists_congr fun place => ?_
    constructor
    · rintro ⟨hown, hchild, hstands, hoverlaps, hfile⟩
      exact ⟨⟨hown, hchild, hstands, (Range.overlaps_iff hr (hplace _ hstands)).mp hoverlaps⟩,
        hfile⟩
    · rintro ⟨⟨hown, hchild, hstands, hcommon⟩, hfile⟩
      exact ⟨hown, hchild, hstands, (Range.overlaps_iff hr (hplace _ hstands)).mpr hcommon, hfile⟩
  refine ⟨hreports, fun hunlinked => hreports.trans (exists_congr fun place => ?_)⟩
  refine and_congr_right fun hmeets => or_iff_left_of_imp fun hnone => ?_
  exact hunlinked place hnone hmeets.stands

/-- The second part of the condition of a loop is code of the round, and the place of the call that
it is. -/
theorem overlap_of_call_in_condition :
    let p := Project.ofSources
      [("A.java", "class A{void m(){while(p||f()){}}boolean p;boolean f(){return p;}}")]
    let s := Setting.traced p
    ∃ r, reconstruct s false (Stream.ofTokens [1, 2, 3, 2]) = .ok r ∧
      r.tree.Meets p s.points 1 ⟨1, 24, 1, 29⟩ 3 ⟨⟨1, 27, 1, 29⟩, "A.java"⟩ ∧
      r.tree.Reports p s.points 1 ⟨1, 24, 1, 29⟩ 3 := by
  intro p s
  have hrun : (Machine.outcome? s 60 [1, 2, 3, 2]).any fun r => r.unconsumed = 0 ∧
      ⟨1, 24, 1, 29⟩ ∈ r.tree.ranges 1 ∧ 3 ∈ r.tree.children 1 ∧
      r.tree.place? p s.points 3 = some ⟨⟨1, 27, 1, 29⟩, "A.java"⟩ ∧
      r.tree.fileOf? p s.points 1 = some "A.java" ∧ r.tree.link? 3 ≠ none := by
    decide +kernel
  obtain ⟨r, hok, hunconsumed, hown, hchild, hstands, hfile, hlink⟩ :=
    Machine.exists_reconstruct hrun
  have hmeets : r.tree.Meets p s.points 1 ⟨1, 24, 1, 29⟩ 3 ⟨⟨1, 27, 1, 29⟩, "A.java"⟩ :=
    ⟨hown, hchild, hstands, ⟨1, 27⟩, ⟨rfl, rfl⟩, rfl, rfl⟩
  have hproper : ∀ place, r.tree.place? p s.points 3 = some place → place.range.Proper := by
    intro place hplace
    obtain rfl := Option.some.inj (hstands.symm.trans hplace)
    exact rfl
  have hrange : (⟨1, 24, 1, 29⟩ : Range).Proper := rfl
  refine ⟨r, Machine.reconstruct_wholly hok hunconsumed, hmeets, ?_⟩
  refine ((overlap_reported_iff hrange hproper).2 fun _ hnone => absurd hnone hlink).mpr ?_
  exact ⟨_, hmeets, "A.java", hfile, by decide +kernel⟩

/-- A static initializer has no link. Its place in another file is held against the columns of the
statement that had its class loaded. -/
theorem overlap_with_other_file :
    let p := Project.ofSources [("A.java", "class A{void m(){B.x=1;}}"),
      ("B.java", "class B{static{x=2;}static int x;}")]
    let s := Setting.traced p
    ∃ r, reconstruct s false (Stream.ofTokens [1, 2]) = .ok r ∧
      r.tree.Reports p s.points 1 ⟨1, 18, 1, 23⟩ 2 ∧
      ¬∃ place, r.tree.Meets p s.points 1 ⟨1, 18, 1, 23⟩ 2 place ∧
        r.tree.InFileOf p s.points 1 place := by
  intro p s
  have hrun : (Machine.outcome? s 60 [1, 2]).any fun r => r.unconsumed = 0 ∧
      ⟨1, overlapText ⟨1, 18, 1, 23⟩ 2 ⟨1, 9, 1, 20⟩⟩ ∈ r.tree.violations p s.points ∧
      r.tree.place? p s.points 2 = some ⟨⟨1, 9, 1, 20⟩, "B.java"⟩ ∧
      r.tree.fileOf? p s.points 1 = some "A.java" := by
    have hsorted : p = _ := ofSources_of_sorted (by decide +kernel)
    rw [show s = .traced _ from congrArg Setting.traced hsorted, hsorted]
    decide +kernel
  obtain ⟨r, hok, hunconsumed, hreported, hstands, hfile⟩ := Machine.exists_reconstruct hrun
  refine ⟨r, Machine.reconstruct_wholly hok hunconsumed, ⟨_, hreported⟩, ?_⟩
  rintro ⟨place, hmeets, file, hsame, hpath⟩
  obtain rfl := Option.some.inj (hstands.symm.trans hmeets.stands)
  obtain rfl := Option.some.inj (hfile.symm.trans hsame)
  exact absurd hpath (by decide +kernel)

end Trace.Tree

end Retrace
