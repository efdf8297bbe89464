import Retrace.Proofs.Reconstruct.Owned
import Retrace.Symbolic.Merge

/-! Where merged values land.

Merging changes the values of nodes and nothing else, so an assignment goes to the same node
whatever has been merged before it: to the first one that was started from a file whose path ends
with the simple name of the assignment's file and that ran the assignment's line
(`attached?_eq_some_iff`). In a reconstructed tree the two have to do with different files: the
file of the link is the caller's, and the line is one of the callee's (`attached_of_reconstruct`).
`value_in_callee_of_other_file` shows a value that lands in another file than its own. -/
namespace Retrace.Symbolic
open Source Trace

/-- The node was started from a file of that simple name, and it ran the line. -/
def Offers (t : Tree) (file : String) (line : UInt32) (i : Nat) : Prop :=
  ∃ link, t.link? i = some link ∧ link.file.endsWith (Path.simpleName file) = true ∧
    ∃ r ∈ t.ranges i, r.coversLine line = true

/-- The node to which an assignment is attached that is merged after others. -/
def attached? (d : DeclarationIndex) (t : Tree) (before : List Assignment) (a : Assignment) :
    Option Nat :=
  a.place?.bind (host? (merge d before t).1)

/-! ### What merging keeps -/

section Modify
variable {t : Tree} {i : Nat} {g : Trace.Node → Trace.Node}

theorem link?_modify (h : ∀ n, (g n).link = n.link) : (t.modify i g).link? = t.link? := by
  funext j
  unfold Tree.link? Tree.get? Tree.modify
  rw [Array.getElem?_modify]
  split
  · cases t.nodes[j]? with
    | none => rfl
    | some n => exact h n
  · rfl

theorem ranges_modify (h : ∀ n, (g n).ranges = n.ranges) : (t.modify i g).ranges = t.ranges := by
  funext j
  unfold Tree.ranges Tree.get? Tree.modify
  rw [Array.getElem?_modify]
  split
  · cases t.nodes[j]? with
    | none => rfl
    | some n => exact h n
  · rfl

end Modify

theorem add_keeps (d : DeclarationIndex) (m : Merging) (a : Assignment) :
    (m.add d a).tree.link? = m.tree.link? ∧ (m.add d a).tree.ranges = m.tree.ranges := by
  unfold Merging.add
  split
  · exact ⟨link?_modify fun _ => rfl, ranges_modify fun _ => rfl⟩
  · exact ⟨rfl, rfl⟩

theorem foldl_add_keeps (d : DeclarationIndex) (before : List Assignment) (m : Merging) :
    (before.foldl (Merging.add d) m).tree.link? = m.tree.link? ∧
      (before.foldl (Merging.add d) m).tree.ranges = m.tree.ranges := by
  induction before generalizing m with
  | nil => exact ⟨rfl, rfl⟩
  | cons a rest ih =>
    obtain ⟨hlink, hranges⟩ := ih (m.add d a)
    obtain ⟨hlink', hranges'⟩ := add_keeps d m a
    exact ⟨hlink.trans hlink', hranges.trans hranges'⟩

/-- What is attached to a node is one more of its values. -/
theorem merge_of_attached? {d : DeclarationIndex} {t : Tree} {before : List Assignment}
    {a : Assignment} {i : Nat} (h : attached? d t before a = some i) :
    (merge d (before ++ [a]) t).1 = (merge d before t).1.modify i fun n =>
      n.addValue (a.declaredName d) (valueAt n (merge d before t).2.matched a) := by
  have hplace : a.place?.bind (host? (before.foldl (Merging.add d) (.ofTree t)).tree) = some i := h
  unfold merge
  rw [List.foldl_append, List.foldl_cons, List.foldl_nil, Merging.add, hplace]
  rfl

/-! ### The first node that offers -/

theorem hosts_iff {t : Tree} {i : Nat} {n : Trace.Node} (h : t.get? i = some n) (file : String)
    (line : UInt32) : hosts ⟨Path.simpleName file, line⟩ n = true ↔ Offers t file line i := by
  have hlink : t.link? i = n.link := by rw [Tree.link?, h, Option.bind_some]
  have hranges : t.ranges i = n.ranges := by
    rw [Tree.ranges, h]
    rfl
  unfold hosts Offers Node.coversLine
  rw [hlink, hranges, Bool.and_eq_true, List.any_eq_true, Option.any_eq_true]
  constructor
  · rintro ⟨⟨link, hl, hfile⟩, hline⟩
    exact ⟨link, hl, hfile, hline⟩
  · rintro ⟨link, hl, hfile, hline⟩
    exact ⟨⟨link, hl, hfile⟩, hline⟩

theorem host?_eq_some_iff {t : Tree} {file : String} {line : UInt32} {i : Nat} :
    host? t ⟨Path.simpleName file, line⟩ = some i ↔
      Offers t file line i ∧ ∀ j < i, ¬Offers t file line j := by
  unfold host?
  rw [Array.findIdx?_eq_some_iff_getElem]
  constructor
  · rintro ⟨hi, hhosts, hearlier⟩
    refine ⟨(hosts_iff (Array.getElem?_eq_getElem hi) file line).mp hhosts, fun j hj => ?_⟩
    rw [← hosts_iff (Array.getElem?_eq_getElem (Nat.lt_trans hj hi)) file line]
    exact hearlier j hj
  · rintro ⟨hoffers, hearlier⟩
    have hi : i < t.nodes.size := by
      obtain ⟨link, hlink, _⟩ := hoffers
      obtain ⟨n, hn, _⟩ := Option.bind_eq_some_iff.mp hlink
      exact Tree.lt_size_of_get? hn
    refine ⟨hi, (hosts_iff (Array.getElem?_eq_getElem hi) file line).mpr hoffers, fun j hj => ?_⟩
    rw [hosts_iff (Array.getElem?_eq_getElem (Nat.lt_trans hj hi)) file line]
    exact hearlier j hj

/-- Whatever has been merged before, an assignment goes to the first node that offers its line. -/
theorem attached?_eq_some_iff (d : DeclarationIndex) (t : Tree) (before : List Assignment)
    (a : Assignment) (i : Nat) :
    attached? d t before a = some i ↔ ∃ file line, a.file = some file ∧ a.line = some line ∧
      Offers t file line i ∧ ∀ j < i, ¬Offers t file line j := by
  obtain ⟨hlink, hranges⟩ := foldl_add_keeps d before (Merging.ofTree t)
  have hoffers : ∀ file line j,
      Offers (merge d before t).1 file line j ↔ Offers t file line j := by
    intro file line j
    unfold Offers merge
    rw [hlink, hranges]
    rfl
  unfold attached? Assignment.place?
  cases hfile : a.file with
  | none => simp
  | some file =>
    cases hline : a.line with
    | none => simp
    | some line =>
      rw [Option.bind_some, host?_eq_some_iff]
      simp only [hoffers, Option.some.injEq]
      constructor
      · exact fun h => ⟨file, line, rfl, rfl, h⟩
      · rintro ⟨_, _, rfl, rfl, h⟩
        exact h

theorem endsWith_self (text : String) : text.endsWith text = true := by
  have hsuffix : text.toList <:+ text.toSlice.copy.toList := by simp
  rw [← String.endsWith_toSlice]
  exact String.Slice.endsWith_string_iff.mpr hsuffix

/-- The first node with a link offers the lines of its ranges, when the link names the file. -/
theorem attached?_of_link {d : DeclarationIndex} {t : Tree} {before : List Assignment}
    {a : Assignment} {file : String} {line : UInt32} {i : Nat} (hfile : a.file = some file)
    (hline : a.line = some line)
    (hlink : (t.link? i).any (fun link => link.file = Path.simpleName file) = true)
    (hcovers : ((t.ranges i).any fun q => q.coversLine line) = true)
    (hnone : ∀ j < i, (t.link? j).isNone = true) : attached? d t before a = some i := by
  obtain ⟨link, hlink, hname⟩ := (Option.any_eq_true _ _).mp hlink
  refine (attached?_eq_some_iff d t before a i).mpr ⟨file, line, hfile, hline,
    ⟨link, hlink, ?_, List.any_eq_true.mp hcovers⟩, ?_⟩
  · rw [of_decide_eq_true hname]
    exact endsWith_self _
  · rintro j hj ⟨link', hlink', _⟩
    rw [Option.isNone_iff_eq_none.mp (hnone j hj)] at hlink'
    cases hlink'

/-! ### Reconstructed trees -/

section Sources
open Reconstruct
open Reconstruct.Machine (Bears Owned Filed owned_of_reconstruct bears_unique)

/-- An assignment that is attached to a node of a reconstructed tree becomes one of its values. The
node is the first one whose link names a file, one of the sources, that ends with the simple name
of the assignment's file, and of whose own ranges one covers the assignment's line. Own ranges
belong to the code of the node's trace point, whichever file that is declared in. -/
theorem attached_of_reconstruct {sources : List (String × String)} {partially : Bool}
    {tokens : List Nat} {r : Reconstruction}
    (h : reconstruct (.ofSources sources) partially (Stream.ofTokens tokens) = .ok r)
    (d : DeclarationIndex) (before : List Assignment) (a : Assignment) {i : Nat}
    (hi : attached? d r.tree before a = some i) :
    (merge d (before ++ [a]) r.tree).1 = (merge d before r.tree).1.modify i (fun n =>
      n.addValue (a.declaredName d) (valueAt n (merge d before r.tree).2.matched a)) ∧
    ∃ file line link inner, a.file = some file ∧ a.line = some line ∧
      r.tree.link? i = some link ∧ link.file.endsWith (Path.simpleName file) = true ∧
      (∃ f ∈ (Project.ofSources sources).fileList, link.file = f.path) ∧
      Bears (.ofSources sources) r.tree i inner ∧
      (∀ q ∈ r.tree.ranges i, OwnCode (.ofSources sources) inner q) ∧
      (∃ q ∈ r.tree.ranges i, q.coversLine line = true) ∧
      ∀ j < i, ¬Offers r.tree file line j := by
  refine ⟨merge_of_attached? hi, ?_⟩
  obtain ⟨file, line, hfile, hline, hoffers, hfirst⟩ := (attached?_eq_some_iff d _ _ a i).mp hi
  obtain ⟨link, hlink, hends, q, hq, hcovers⟩ := hoffers
  obtain ⟨howned, hfiled⟩ := owned_of_reconstruct h
  obtain ⟨inner, hinner, _⟩ := howned i q hq
  refine ⟨file, line, link, inner, hfile, hline, hlink, hends, hfiled i link hlink, hinner,
    fun q' hq' => ?_, ⟨q, hq, hcovers⟩, hfirst⟩
  obtain ⟨inner', hinner', hcode⟩ := howned i q' hq'
  rw [bears_unique hinner hinner']
  exact hcode

/-- A value of `A` lands on the method of `B` that `A` calls on the same line. -/
theorem value_of_called_method :
    let s := Setting.ofSources [("A.java", "class A{void m(){B.g();}}"),
      ("B.java", "class B{static void g(){int x=1;}}")]
    let a : Assignment := ⟨"x", "1", some "src/A.java", some 1, none⟩
    ∃ r inner, reconstruct s true (Stream.ofTokens [1, 2]) = .ok r ∧
      attached? (.ofProject s.project) r.tree [] a = some 2 ∧ Bears s r.tree 2 inner ∧
      ∃ q ∈ r.tree.ranges 2, OwnCode s inner q ∧ q.coversLine 1 = true := by
  intro s a
  have hfacts : ((Machine.outcome? s 60 [1, 2]).any fun r =>
      (∀ j < 2, (r.tree.link? j).isNone) ∧
      ((r.tree.link? 2).any fun link => link.file = Path.simpleName "src/A.java") ∧
      (r.tree.ranges 2).any fun q => q.coversLine 1) := by
    rw [show s = .traced _ from congrArg Setting.traced (ofSources_of_sorted (by decide +kernel))]
    decide +kernel
  obtain ⟨r, hok, hnone, hlink, hline⟩ := Machine.exists_reconstruct hfacts
  have hi : attached? (.ofProject s.project) r.tree [] a = some 2 :=
    attached?_of_link rfl rfl hlink hline hnone
  obtain ⟨-, _, _, _, inner, _, hline, _, _, _, hinner, hown, ⟨q, hq, hcovers⟩, _⟩ :=
    attached_of_reconstruct hok (.ofProject s.project) [] a hi
  cases hline
  exact ⟨r, inner, hok, hi, hinner, q, hq, hown q hq, hcovers⟩

/-- The method that is given the value is declared in `B`, and the value is one of `A`. -/
theorem value_in_callee_of_other_file :
    let sources := [("A.java", "class A{void m(){B.g();}}"),
      ("B.java", "class B{static void g(){int x=1;}}")]
    let s := Setting.ofSources sources
    let a : Assignment := ⟨"x", "1", some "A.java", some 1, none⟩
    (∀ f ∈ (Project.ofSources sources).fileList, f.InOrder ∧ f.hasErrors = false) ∧
      ∃ r, reconstruct s false (Stream.ofTokens [1, 2]) = .ok r ∧
        ¬∀ i, attached? (.ofProject s.project) r.tree [] a = some i → ∀ inner,
          Bears s r.tree i inner → (s.file inner.ref).simpleName = Path.simpleName "A.java" ∧
            ∃ q ∈ r.tree.ranges i, q.coversLine 1 = true := by
  intro sources s a
  have hfacts : ((Machine.outcome? s 60 [1, 2]).any fun r => r.unconsumed = 0 ∧
      r.tree.traceId? 2 = some (toString 2) ∧ (∀ j < 2, (r.tree.link? j).isNone) ∧
      ((r.tree.link? 2).any fun link => link.file = Path.simpleName "A.java") ∧
      (r.tree.ranges 2).any fun q => q.coversLine 1) ∧
    (∀ f ∈ (Project.ofSources sources).fileList, f.hasErrors = false) ∧
    (s.points.get? 2).any fun inner =>
      (s.file inner.ref).simpleName ≠ Path.simpleName "A.java" := by
    have hsorted : Project.ofSources sources = _ := ofSources_of_sorted (by decide +kernel)
    rw [show s = .traced _ from congrArg Setting.traced hsorted, hsorted]
    decide +kernel
  obtain ⟨hrun, herrors, hpoint⟩ := hfacts
  refine ⟨fun f hf => ⟨inOrder_ofSources (by decide) f hf, herrors f hf⟩, ?_⟩
  obtain ⟨r, hok, hunconsumed, hid, hnone, hlink, hline⟩ := Machine.exists_reconstruct hrun
  obtain ⟨inner, hinner, hother⟩ := (Option.any_eq_true _ _).mp hpoint
  refine ⟨r, Machine.reconstruct_wholly hok hunconsumed, fun hclaim => ?_⟩
  have hi : attached? (.ofProject s.project) r.tree [] a = some 2 :=
    attached?_of_link rfl rfl hlink hline hnone
  exact of_decide_eq_true hother (hclaim 2 hi inner ⟨2, hid, hinner⟩).1

end Sources

end Retrace.Symbolic
