import Retrace.Proofs.Reconstruct.Sight

/-! The scan refines the plain stack machine.

`reconstruct_eq_plain_iff`: on every stream of ids of trace points, a reconstruction of part of the
trace has the nodes of the plain machine and leaves as many tokens, exactly when the plain machine
goes back to no activation that has had a child beyond its last statement. There is no such child
in a project whose `do` loops have nothing in their conditions that can be entered
(`reconstruct_eq_plain_of_calm`). `late_setup_call_ends_round` shows one: a call in the setup code
of a class that stands in such a condition lies behind the last statement of the round, so the
round ends with it, and a later call in the round is not bound. -/
namespace Retrace.Reconstruct
open Source Instrument Trace

theorem reconstruct_of_project {p : Project} (h : ∀ n, (p.file n).Laid)
    (hs : ∀ n, (p.file n).Shaped) {tokens : List Nat}
    (htokens : ∀ id ∈ tokens, ∃ point, (PointMap.ofProject p).get? id = some point) :
    ∃ r, reconstruct (.traced p) true (Stream.ofTokens tokens) = .ok r ∧
      ((r.tree.outline, r.unconsumed) = ((Plain.outcome (.traced p) Plain.bare tokens).1,
          (Plain.outcome (.traced p) Plain.bare tokens).2.length) ↔
        Plain.revisits (.traced p) [] Plain.bare tokens = false) := by
  obtain ⟨k, hk⟩ := run_ok (s := .traced p) (m := Machine.ofTokens tokens) htokens
  refine ⟨⟨k.tree, k.rest.length⟩, ?_, run_eq_plain_iff (decided_of_laid h hs) hk⟩
  unfold reconstruct
  simp [Stream.ofTokens, hk, bind, Except.bind, pure, Except.pure]

/-- A reconstruction of part of a trace has the nodes of the plain machine, and leaves as many
tokens, exactly when that never goes back to an activation that has had a child beyond its last
statement. -/
theorem reconstruct_eq_plain_iff {sources : List (String × String)}
    (horder : ∀ f ∈ (Project.ofSources sources).fileList, f.InOrder) {tokens : List Nat}
    (htokens : ∀ id ∈ tokens, ∃ point, (Setting.ofSources sources).points.get? id = some point) :
    ∃ r, reconstruct (.ofSources sources) true (Stream.ofTokens tokens) = .ok r ∧
      ((r.tree.outline, r.unconsumed) =
          ((Plain.outcome (.ofSources sources) Plain.bare tokens).1,
            (Plain.outcome (.ofSources sources) Plain.bare tokens).2.length) ↔
        Plain.revisits (.ofSources sources) [] Plain.bare tokens = false) :=
  reconstruct_of_project (laid_ofSources horder) shaped_ofSources htokens

/-- Two rounds of a loop whose condition calls a method. -/
theorem plain_rounds_of_do_loop :
    let s := Setting.ofSources
      [("A.java", "class A{void m(){do{g();}while(h());}void g(){}boolean h(){return true;}}")]
    ∃ r, reconstruct s true (Stream.ofTokens [1, 2, 3, 4, 2, 3, 4]) = .ok r ∧
      r.tree.outline = (Plain.outcome s Plain.bare [1, 2, 3, 4, 2, 3, 4]).1 ∧
      r.unconsumed = 0 ∧ r.tree.children 1 = [2, 4, 5, 7] := by
  intro s
  have hfacts : Plain.revisits s [] Plain.bare [1, 2, 3, 4, 2, 3, 4] = false ∧
      (∀ id ∈ [1, 2, 3, 4, 2, 3, 4], (s.points.get? id).isSome) ∧
      (Plain.outcome s Plain.bare [1, 2, 3, 4, 2, 3, 4]).2 = [] ∧
      (Plain.outcome s Plain.bare [1, 2, 3, 4, 2, 3, 4]).1.children 1 = [2, 4, 5, 7] := by
    decide +kernel
  obtain ⟨hrevisits, htokens, hrest, hchildren⟩ := hfacts
  have hknown : ∀ id ∈ [1, 2, 3, 4, 2, 3, 4], ∃ point, s.points.get? id = some point :=
    fun id hid => Option.isSome_iff_exists.mp (htokens id hid)
  obtain ⟨r, hr, hiff⟩ := reconstruct_eq_plain_iff (inOrder_ofSources (by decide)) hknown
  obtain ⟨htree, hunconsumed⟩ := Prod.mk.inj (hiff.mpr hrevisits)
  refine ⟨r, hr, htree, by rw [hunconsumed, hrest]; rfl, ?_⟩
  rw [← Tree.children_outline, htree]
  exact hchildren

/-- With nothing to enter in the conditions of `do` loops, all reconstructions have the nodes of
the plain machine. -/
theorem reconstruct_eq_plain_of_calm {sources : List (String × String)}
    (horder : ∀ f ∈ (Project.ofSources sources).fileList, f.InOrder)
    (hcalm : (Setting.ofSources sources).Calm) {tokens : List Nat}
    (htokens : ∀ id ∈ tokens, ∃ point, (Setting.ofSources sources).points.get? id = some point) :
    ∃ r, reconstruct (.ofSources sources) true (Stream.ofTokens tokens) = .ok r ∧
      (r.tree.outline, r.unconsumed) =
        ((Plain.outcome (.ofSources sources) Plain.bare tokens).1,
          (Plain.outcome (.ofSources sources) Plain.bare tokens).2.length) := by
  have hlaid := laid_ofSources horder
  obtain ⟨r, hr, hiff⟩ := reconstruct_of_project hlaid shaped_ofSources htokens
  refine ⟨r, hr, hiff.mpr (revisits_eq_false ?_ tokens fun a ha => nomatch ha)⟩
  exact fun ha hid he => beyond_of_calm hlaid shaped_ofSources hcalm ha hid he

/-- No condition of a `do` loop contains a block. -/
def Blockless (p : Project) : Prop :=
  ∀ f ∈ p.fileList, ∀ i ∈ f.numbersOf, f.form i = .doStatement →
    ∀ c ∈ (f.child? i .condition).toList, ∀ x ∈ f.numbersOf, f.form x = .block →
      c ∉ x :: f.ancestors x

instance (p : Project) : Decidable (Blockless p) := by
  unfold Blockless
  infer_instance

/-- The setup code of the first class `I` stands in the condition of the loop, without any block.
The call in it that `new I()` runs ends the round, so the call of `g` is left over. -/
theorem late_setup_call_ends_round :
    let sources := [("A.java", "class A\x7bvoid m()" ++
      "{do{new I();g();}while(null==new Object(){class I{int x=f();}});}" ++
      "int f(){return 1;}void g(){}class I{int x=f();}\x7d")]
    let s := Setting.ofSources sources
    (∀ f ∈ (Project.ofSources sources).fileList, f.InOrder) ∧ Blockless s.project ∧
      (∀ id ∈ [1, 2, 3, 4], ∃ point, s.points.get? id = some point) ∧
      ¬∃ r, reconstruct s true (Stream.ofTokens [1, 2, 3, 4]) = .ok r ∧
        (r.tree.outline, r.unconsumed) = ((Plain.outcome s Plain.bare [1, 2, 3, 4]).1,
          (Plain.outcome s Plain.bare [1, 2, 3, 4]).2.length) := by
  intro sources s
  have hfacts : Blockless s.project ∧ (∀ id ∈ [1, 2, 3, 4], (s.points.get? id).isSome) ∧
      (Machine.outcome? s 60 [1, 2, 3, 4]).any (fun r => r.unconsumed = 1) ∧
      (Plain.outcome s Plain.bare [1, 2, 3, 4]).2 = [] := by
    decide +kernel
  obtain ⟨hblockless, htokens, hrun, hrest⟩ := hfacts
  refine ⟨inOrder_ofSources (by decide +kernel), hblockless,
    fun id hid => Option.isSome_iff_exists.mp (htokens id hid), ?_⟩
  rintro ⟨r, hr, heq⟩
  obtain ⟨q, hq, hleft⟩ := (Option.any_eq_true _ _).mp hrun
  rw [Machine.reconstruct_of_outcome? hq] at hr
  cases hr
  have hnone := (Prod.mk.inj heq).2
  rw [hrest, of_decide_eq_true hleft] at hnone
  cases hnone

end Retrace.Reconstruct
