import Mathlib.Order.Compare
import Retrace.Source.Project

/-! The order of the files of a project.

Paths are compared component by component in a linear preorder, so the files of a project are in
the order of their paths, and a change of their texts alone keeps that order (`fileList_map`). Only
texts of the same path are equal in it, so files of different paths have one order only, whatever
order they are given in (`ofFiles_of_perm`). -/
namespace Retrace

namespace Path

/-- Components are compared by their kind and then by their text. -/
theorem compare_component (a b : Component) :
    a.compare b = compareLex (compareOn Component.rank) (compareOn Component.text) a b := by
  cases a <;> cases b <;> rfl

theorem compareComponents_eq (as bs : List Component) :
    compareComponents as bs =
      List.compareLex (compareLex (compareOn Component.rank) (compareOn Component.text)) as bs := by
  induction as generalizing bs with
  | nil => cases bs <;> rfl
  | cons a as ih =>
    cases bs with
    | nil => rfl
    | cons b bs =>
      rw [compareComponents, ih, compare_component, List.compareLex_cons_cons]

instance : Std.TransCmp compare where
  eq_swap := by
    unfold compare
    simp only [compareComponents_eq]
    exact Std.OrientedCmp.eq_swap
  isLE_trans {a b c} hab hbc := by
    unfold compare at *
    rw [compareComponents_eq] at *
    exact Std.TransCmp.isLE_trans hab hbc

theorem Component.compare_eq_iff {a b : Component} : a.compare b = .eq ↔ a = b := by
  cases a <;> cases b <;> simp [Component.compare, Component.rank]

theorem compareComponents_eq_iff {as bs : List Component} :
    compareComponents as bs = .eq ↔ as = bs := by
  induction as generalizing bs with
  | nil => cases bs <;> simp [compareComponents]
  | cons a as ih =>
    cases bs with
    | nil => simp [compareComponents]
    | cons b bs => simp [compareComponents, Ordering.then_eq_eq, Component.compare_eq_iff, ih]

theorem compare_eq_iff {a b : String} : compare a b = .eq ↔ same a b = true := by
  simp [compare, same, compareComponents_eq_iff]

end Path

/-- A node of an earlier file, or an earlier node of the file. -/
def Source.Ref.Before (a b : Ref) : Prop :=
  a.file < b.file ∨ a.file = b.file ∧ a.node < b.node

theorem Source.Ref.Before.asymm {a b : Ref} (h : a.Before b) : ¬b.Before a := by
  unfold Before at *
  omega

namespace Source.Project

theorem pathNotAfter_trans (f g h : File) (hfg : pathNotAfter f g = true)
    (hgh : pathNotAfter g h = true) : pathNotAfter f h = true :=
  Std.TransCmp.isLE_trans hfg hgh

theorem pathNotAfter_total (f g : File) : (pathNotAfter f g || pathNotAfter g f) = true := by
  have hswap : Path.compare f.path g.path = (Path.compare g.path f.path).swap :=
    Std.OrientedCmp.eq_swap
  unfold pathNotAfter
  rw [hswap]
  cases Path.compare g.path f.path <;> rfl

theorem pairwise_ofFiles (files : List File) :
    (ofFiles files).fileList.Pairwise fun f g => pathNotAfter f g = true :=
  List.pairwise_mergeSort pathNotAfter_trans pathNotAfter_total files

theorem distinct_of_perm {files others : List File} (hperm : files.Perm others)
    (h : files.Pairwise fun f g => Path.same f.path g.path = false) :
    others.Pairwise fun f g => Path.same f.path g.path = false := by
  refine (hperm.pairwise_iff fun {f g} hfg => ?_).mp h
  rw [Path.same, BEq.comm]
  exact hfg

/-- Of files of different paths one comes before the other. -/
theorem strictly_ofFiles {files : List File}
    (h : files.Pairwise fun f g => Path.same f.path g.path = false) :
    (ofFiles files).fileList.Pairwise fun f g => Path.compare f.path g.path = .lt := by
  have hdistinct := distinct_of_perm (ofFiles_perm files).symm h
  refine ((pairwise_ofFiles files).and hdistinct).imp fun {f g} hfg => ?_
  obtain ⟨hle, hne⟩ := hfg
  cases hcompare : Path.compare f.path g.path with
  | lt => rfl
  | eq =>
    rw [Path.compare_eq_iff.mp hcompare] at hne
    cases hne
  | gt =>
    unfold pathNotAfter at hle
    rw [hcompare] at hle
    cases hle

/-- Files of different paths make the same project in whatever order they are given. -/
theorem ofFiles_of_perm {files others : List File} (hperm : files.Perm others)
    (h : files.Pairwise fun f g => Path.same f.path g.path = false) :
    ofFiles files = ofFiles others := by
  have hlist : (ofFiles files).fileList = (ofFiles others).fileList := by
    refine List.Perm.eq_of_pairwise (fun f g _ _ hfg hgf => ?_) (strictly_ofFiles h)
      (strictly_ofFiles (distinct_of_perm hperm h))
      ((ofFiles_perm files).trans (hperm.trans (ofFiles_perm others).symm))
    have hback : Path.compare f.path g.path = .gt := Std.OrientedCmp.gt_of_lt hgf
    rw [hfg] at hback
    cases hback
  exact congrArg Project.mk (Array.toList_inj.mp hlist)

/-- Files that keep their paths keep their order. -/
theorem fileList_map (files : List File) {change : File → File}
    (h : ∀ f, (change f).path = f.path) :
    (ofFiles ((ofFiles files).fileList.map change)).fileList =
      (ofFiles files).fileList.map change := by
  refine List.mergeSort_of_pairwise (List.pairwise_map.mpr ?_)
  refine (pairwise_ofFiles files).imp fun {f g} hfg => ?_
  unfold pathNotAfter
  rw [h, h]
  exact hfg

theorem getElem?_numbered {p : Project} {k : Nat} {x : Nat × File} :
    p.numbered[k]? = some x ↔ x.1 = k ∧ p.fileList[k]? = some x.2 := by
  unfold numbered
  rw [List.getElem?_map, List.getElem?_zipIdx]
  cases p.fileList[k]? with
  | none => exact ⟨(fun h => nomatch h), fun h => nomatch h.2⟩
  | some f =>
    obtain ⟨n, g⟩ := x
    simp [eq_comm]

theorem pairwise_numbered (p : Project) : p.numbered.Pairwise fun x y => x.1 < y.1 := by
  refine List.pairwise_iff_getElem.mpr fun i j hi hj hij => ?_
  have hx := (getElem?_numbered.mp (List.getElem?_eq_getElem hi)).1
  have hy := (getElem?_numbered.mp (List.getElem?_eq_getElem hj)).1
  rw [hx, hy]
  exact hij

end Source.Project

end Retrace
