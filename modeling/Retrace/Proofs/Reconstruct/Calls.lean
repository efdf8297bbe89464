import Mathlib.Data.List.Basic
import Mathlib.Data.List.Find
import Retrace.Proofs.Reconstruct.Execution
import Retrace.Proofs.Reconstruct.Sites

/-! The calls of a trace point in the order of evaluation.

Where nothing is deferred, the sites of a scope are what its statements evaluate
(`sitesWithin_eq`), and the site that a name is bound to is the first call of that name that has
not been bound (`pickSite?_scopeSites`). No two calls of a scope have one range
(`pairwise_callsOf`), so to bind one of them leaves the others as they are. -/
namespace Retrace.Reconstruct
open Source Instrument

/-- The calls of a list of statements. -/
def callsOf (p : Project) (f : File) (is : List Nat) : List Nat := is.flatMap (callsIn p f)

theorem callsOf_append (p : Project) (f : File) (is js : List Nat) :
    callsOf p f (is ++ js) = callsOf p f is ++ callsOf p f js := List.flatMap_append

theorem callsOf_cons (p : Project) (f : File) (i : Nat) (is : List Nat) :
    callsOf p f (i :: is) = callsIn p f i ++ callsOf p f is := List.flatMap_cons

section Order
variable {f : File}

theorem below_of_evaluated {i x : Nat} (hx : x ∈ evaluated f i) : f.Below i x := by
  induction i using evaluated.induct f with
  | case1 i hskip =>
    rw [evaluated, if_pos hskip] at hx
    cases hx
  | case2 i hskip ih =>
    rw [evaluated, if_neg hskip] at hx
    rcases List.mem_append.mp hx with hx | hx
    · obtain ⟨c, hc, hx⟩ := List.mem_flatMap.mp hx
      split at hx
      · rename_i hbounds
        exact (File.below_child hc).trans (ih c hbounds hx)
      · cases hx
    · rw [List.mem_singleton.mp hx]
      exact File.below_refl f i

theorem below_of_callsIn {p : Project} {i x : Nat} (hx : x ∈ callsIn p f i) :
    f.Below i x ∧ callsMethod p f x = true := by
  obtain ⟨hx, hcalls⟩ := List.mem_filter.mp hx
  exact ⟨below_of_evaluated hx, hcalls⟩

theorem calledName?_of_callsMethod {p : Project} {x : Nat} (h : callsMethod p f x = true) :
    calledName? f x ≠ none := by
  rintro hnone
  rw [callsMethod, hnone] at h
  cases h

variable (h : f.Laid)
include h

/-- What is evaluated first stands apart from what is evaluated later, or inside of it. -/
theorem pairwise_evaluated (i : Nat) : (evaluated f i).Pairwise fun x y =>
    (f.range x).Apart (f.range y) ∨ f.Below y x ∧ y ≠ x := by
  induction i using evaluated.induct f with
  | case1 i hskip =>
    rw [evaluated, if_pos hskip]
    exact List.Pairwise.nil
  | case2 i hskip ih =>
    rw [evaluated, if_neg hskip, List.pairwise_append, List.pairwise_flatMap]
    refine ⟨⟨fun c _ => ?_, (h.ordered i).imp ?_⟩, List.pairwise_singleton _ _, ?_⟩
    · split
      · rename_i hbounds
        exact ih c hbounds
      · exact List.Pairwise.nil
    · intro c d hbefore x hx y hy
      split at hx
      · split at hy
        · exact .inl (.inl (hbefore.mono (h.contains_of_below (below_of_evaluated hx))
            (h.contains_of_below (below_of_evaluated hy))))
        · cases hy
      · cases hx
    · intro x hx y hy
      rw [List.mem_singleton.mp hy]
      obtain ⟨c, hc, hx⟩ := List.mem_flatMap.mp hx
      split at hx
      · have hbelow := below_of_evaluated hx
        refine .inr ⟨(File.below_child hc).trans hbelow, ?_⟩
        exact Nat.ne_of_lt (Nat.lt_of_lt_of_le (h.bounds hc).1 (h.le_of_below hbelow))
      · cases hx

/-- A call has its name besides its operands. -/
theorem range_ne_of_below {x y : Nat} (hx : calledName? f x ≠ none) (hy : calledName? f y ≠ none)
    (hbelow : f.Below y x) (hne : y ≠ x) : f.range x ≠ f.range y := by
  obtain ⟨n, hn, hword⟩ := name_of_calledName? h hy
  obtain ⟨hform, hchildren⟩ := h.words hword
  rcases hbelow.cases with heq | ⟨c, hc, hcx⟩
  · exact absurd heq hne
  have hapart : c ≠ n := by
    rintro rfl
    rcases hcx.cases with rfl | ⟨d, hd, _⟩
    · rcases isSite_of_calledName? hx with hsite | hsite <;> rw [hform] at hsite <;> cases hsite
    · rw [hchildren] at hd
      cases hd
  intro heq
  have hcontains := Range.contains_trans (h.contains_of_below hcx) (heq ▸ h.nested hn)
  exact Range.not_apart_of_contains (h.proper_child hn) hcontains (h.siblings hc hn hapart)

/-- No two calls of consecutive statements have one range. -/
theorem pairwise_callsOf (p : Project) {is : List Nat} (his : is.Pairwise fun i j =>
    (f.range i).Apart (f.range j)) (hproper : ∀ i ∈ is, i < f.nodes.size ∧ 0 < i) :
    (callsOf p f is).Pairwise fun x y => f.range x ≠ f.range y := by
  have hne : ∀ {x y : Nat}, (f.range y).Proper → (f.range x).Apart (f.range y) →
      f.range x ≠ f.range y := fun hproper hapart heq =>
    Range.not_apart_of_contains hproper (heq ▸ Range.contains_refl _) hapart
  have hsub : ∀ {i x : Nat}, i ∈ is → x ∈ callsIn p f i → (f.range x).Proper := by
    intro i x hi hx
    have hbelow := (below_of_callsIn hx).1
    exact h.proper (Nat.lt_of_lt_of_le (hproper i hi).2 (h.le_of_below hbelow))
      (h.lt_size_of_below hbelow (hproper i hi).1)
  refine List.pairwise_flatMap.mpr ⟨fun i hi => ?_, ?_⟩
  · refine List.Pairwise.imp_of_mem ?_ ((pairwise_evaluated h i).filter _)
    rintro x y hx hy (hapart | ⟨hbelow, hdiffer⟩)
    · exact hne (hsub hi hy) hapart
    · exact range_ne_of_below h (calledName?_of_callsMethod (below_of_callsIn hx).2)
        (calledName?_of_callsMethod (below_of_callsIn hy).2) hbelow hdiffer
  · refine his.imp_of_mem fun {i j} hi hj hapart x hx y hy => hne (hsub hj hy) ?_
    exact hapart.mono (h.contains_of_below (below_of_callsIn hx).1)
      (h.contains_of_below (below_of_callsIn hy).1)

end Order

/-! ### The sites of a scope -/

theorem calls_iff {f : File} {name : String} {x : Nat} :
    Activation.calls f name x = true ↔ calledName? f x = some name := by
  unfold Activation.calls
  rw [beq_iff_eq]

/-- The calls of a declared name are sites. -/
theorem filter_calls {p : Project} {f : File} {name : String} (hname : name ∈ declaredNames p)
    (xs : List Nat) :
    (xs.filter fun x => isSite (f.form x)).filter (Activation.calls f name) =
      (xs.filter (callsMethod p f)).filter (Activation.calls f name) := by
  rw [List.filter_filter, List.filter_filter]
  refine List.filter_congr fun x _ => ?_
  cases hcalls : Activation.calls f name x with
  | false => rfl
  | true =>
    have hcalled := calls_iff.mp hcalls
    have hsite : isSite (f.form x) = true := by
      rcases isSite_of_calledName? (by rw [hcalled]; exact Option.some_ne_none name) with h | h <;>
        rw [h] <;> rfl
    have hmethod : callsMethod p f x = true := by
      rw [callsMethod, hcalled]
      simpa using hname
    rw [hsite, hmethod]

section Sites
variable {f : File} (himmediate : ∀ i, isImmediate (f.form i) = true)
include himmediate

theorem isAnonymousBody_eq_false (i : Nat) : isAnonymousBody f i = false := by
  unfold isAnonymousBody
  cases f.parent? i with
  | none => exact Bool.and_false _
  | some c =>
    have hform : f.form c ≠ .objectCreationExpression := by
      intro hform
      have := himmediate c
      rw [hform] at this
      cases this
    simp [hform]

/-- Nothing is deferred. -/
theorem sitesWithin_eq (i : Nat) : sitesWithin f false i =
    ((evaluated f i).filter fun x => isSite (f.form x)).map fun x => ⟨x, false⟩ := by
  have hlater : ∀ i, (false || f.form i == .lambdaExpression || isAnonymousBody f i) = false := by
    intro i
    have hform : f.form i ≠ .lambdaExpression := by
      intro hform
      have := himmediate i
      rw [hform] at this
      cases this
    simp [hform, isAnonymousBody_eq_false himmediate]
  induction i using evaluated.induct f with
  | case1 i hskip =>
    rw [evaluated, if_pos hskip, sitesWithin]
    simp only [hlater]
    exact if_pos hskip
  | case2 i hskip ih =>
    rw [evaluated, if_neg hskip, sitesWithin]
    simp only [hlater]
    refine (if_neg hskip).trans ?_
    rw [List.filter_append, List.map_append, List.filter_flatMap, List.map_flatMap]
    congr 1
    · refine List.flatMap_congr fun c _ => ?_
      split
      · rename_i hbounds
        exact ih c hbounds
      · rfl
    · cases hsite : isSite (f.form i) <;> simp [hsite]

theorem scopeSites_eq (i : Nat) (kind : PointKind) : scopeSites f i kind =
    (((scopeStatements f i kind).flatMap (evaluated f)).filter fun x => isSite (f.form x)).map
      fun x => ⟨x, false⟩ := by
  unfold scopeSites
  rw [List.filter_flatMap, List.map_flatMap]
  exact List.flatMap_congr fun c _ => sitesWithin_eq himmediate c

/-- A name is bound to the first call of it that has not been bound. -/
theorem pickSite?_scopeSites {p : Project} {name : String} (hname : name ∈ declaredNames p)
    (consumed : List Range) (i : Nat) (kind : PointKind) :
    pickSite? f consumed (scopeSites f i kind) (Activation.calls f name) =
      ((callsOf p f (scopeStatements f i kind)).find? fun x =>
        Activation.calls f name x && !consumed.contains (f.range x)).map fun x => ⟨x, false⟩ := by
  have hcandidates : (scopeSites f i kind).filter (fun x => Activation.calls f name x.node) =
      ((callsOf p f (scopeStatements f i kind)).filter (Activation.calls f name)).map
        fun x => ⟨x, false⟩ := by
    rw [scopeSites_eq himmediate, List.filter_map]
    congr 1
    refine (filter_calls hname _).trans ?_
    unfold callsOf callsIn
    rw [List.filter_flatMap]
  unfold pickSite?
  dsimp only
  rw [hcandidates, List.find?_map, List.find?_map, List.find?_filter]
  have hnone : List.find? ((fun x : Site => x.deferred) ∘ fun x => ⟨x, false⟩)
      ((callsOf p f (scopeStatements f i kind)).filter (Activation.calls f name)) = none :=
    List.find?_eq_none.mpr fun _ _ hfalse => nomatch hfalse
  rw [hnone, Option.map_none, Option.or_none]
  congr 1
  refine List.find?_congr fun x _ => ?_
  rw [Bool.decide_and, Bool.decide_eq_true, Bool.decide_eq_true]
  rfl

end Sites

end Retrace.Reconstruct
