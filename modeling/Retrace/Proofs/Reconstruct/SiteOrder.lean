import Retrace.Proofs.Reconstruct.Sites
import Retrace.Proofs.Source.Fields

/-! The sites of a scope, one by one.

The sites of a scope stand in the order in which they are evaluated: what comes first stands in
front of what comes later, or inside of it (`pairwise_scopeSites`). The range of a site that can be
bound is that of no other one (`eq_of_range_eq`), because a call has its name, and a creation its
type and its arguments, besides whatever stands inside of it. -/
namespace Retrace.Reconstruct
open Java Source Instrument

/-- `x` is evaluated before `y`: it stands in front of it or inside of it. -/
def EvaluatedFirst (f : File) (x y : Nat) : Prop :=
  (f.range x).Before (f.range y) ∨ f.Below y x ∧ y ≠ x

/-- The node calls a method by its name, or creates an object. -/
def Bindable (f : File) (x : Nat) : Prop :=
  calledName? f x ≠ none ∨ f.form x = .objectCreationExpression

theorem Bindable.ne_identifier {f : File} {x : Nat} (hx : Bindable f x) :
    f.form x ≠ .identifier := by
  rcases hx with hcalled | hform
  · rcases isSite_of_calledName? hcalled with hform | hform <;> rw [hform] <;> exact nofun
  · rw [hform]
    exact nofun

section Order
variable {f : File} (h : f.Laid)
include h

theorem EvaluatedFirst.of_before {i j x y : Nat} (hbefore : (f.range i).Before (f.range j))
    (hx : f.Below i x) (hy : f.Below j y) : EvaluatedFirst f x y :=
  .inl (hbefore.mono (h.contains_of_below hx) (h.contains_of_below hy))

theorem pairwise_sitesWithin (deferred : Bool) (i : Nat) :
    (sitesWithin f deferred i).Pairwise fun x y => EvaluatedFirst f x.node y.node := by
  induction deferred, i using sitesWithin.induct f with
  | case1 deferred i form later hskip =>
    unfold sitesWithin
    rw [if_pos hskip]
    exact List.Pairwise.nil
  | case2 deferred i form later hskip ih =>
    unfold sitesWithin
    rw [if_neg hskip, List.pairwise_append, List.pairwise_flatMap]
    refine ⟨⟨fun c _ => ?_, (h.ordered i).imp ?_⟩, ?_, ?_⟩
    · split
      · rename_i hbounds
        exact ih c hbounds
      · exact List.Pairwise.nil
    · intro c d hbefore x hx y hy
      split at hx
      · split at hy
        · exact .of_before h hbefore (below_of_mem_sitesWithin hx).1 (below_of_mem_sitesWithin hy).1
        · cases hy
      · cases hx
    · split
      · exact List.pairwise_singleton _ _
      · exact List.Pairwise.nil
    · intro x hx y hy
      obtain ⟨c, hc, hx⟩ := List.mem_flatMap.mp hx
      split at hx
      · have hbelow := (below_of_mem_sitesWithin hx).1
        split at hy
        · rw [List.mem_singleton.mp hy]
          refine .inr ⟨(File.below_child hc).trans hbelow, ?_⟩
          exact Nat.ne_of_lt (Nat.lt_of_lt_of_le (h.bounds hc).1 (h.le_of_below hbelow))
        · cases hy
      · cases hx

/-- The sites of a scope stand in the order of their evaluation. -/
theorem pairwise_scopeSites (i : Nat) (kind : PointKind) :
    (scopeSites f i kind).Pairwise fun x y => EvaluatedFirst f x.node y.node := by
  have hstatements : (scopeStatements f i kind).Pairwise fun c d =>
      (f.range c).Before (f.range d) := by
    unfold scopeStatements
    split
    · exact (h.ordered _).filter _
    · exact List.Pairwise.nil
  refine List.pairwise_flatMap.mpr ⟨fun c _ => pairwise_sitesWithin h false c, ?_⟩
  refine hstatements.imp fun hbefore x hx y hy => ?_
  exact .of_before h hbefore (below_of_mem_sitesWithin hx).1 (below_of_mem_sitesWithin hy).1

theorem bounds_of_scopeSites {i : Nat} {kind : PointKind} {x : Site}
    (hx : x ∈ scopeSites f i kind) : 0 < x.node ∧ x.node < f.nodes.size := by
  obtain ⟨c, hc, hbelow, _⟩ := mem_scopeSites hx
  unfold scopeStatements at hc
  split at hc
  · obtain ⟨hlt, hsize⟩ := h.bounds (List.mem_filter.mp hc).1
    exact ⟨Nat.lt_of_lt_of_le (Nat.lt_of_le_of_lt (Nat.zero_le _) hlt) (h.le_of_below hbelow),
      h.lt_size_of_below hbelow hsize⟩
  · cases hc

theorem EvaluatedFirst.irrefl {x : Nat} (hpos : 0 < x) (hsize : x < f.nodes.size) :
    ¬EvaluatedFirst f x x := by
  rintro (hbefore | ⟨_, hne⟩)
  · exact Range.not_apart_of_contains (h.proper hpos hsize) (Range.contains_refl _) (.inl hbefore)
  · exact hne rfl

theorem EvaluatedFirst.asymm {x y : Nat} (hx : 0 < x) (hxsize : x < f.nodes.size) (hy : 0 < y)
    (hysize : y < f.nodes.size) (hxy : EvaluatedFirst f x y) : ¬EvaluatedFirst f y x := by
  have hxproper := h.proper hx hxsize
  have hyproper := h.proper hy hysize
  rintro (hyx | ⟨hyx, hne⟩) <;> rcases hxy with hxy | ⟨hxy, _⟩
  · exact Range.Before.asymm hxproper hyproper hxy hyx
  · exact Range.not_apart_of_contains hxproper (h.contains_of_below hxy) (.inl hyx)
  · exact Range.not_apart_of_contains hyproper (h.contains_of_below hyx) (.inl hxy)
  · exact hne (Nat.le_antisymm (h.le_of_below hyx) (h.le_of_below hxy))

/-! ### Ranges -/

/-- A child besides the one that holds `x` keeps `x` from having the whole range. -/
theorem range_ne_of_sibling {x y c d : Nat} (hc : c ∈ f.children y) (hcx : f.Below c x)
    (hd : d ∈ f.children y) (hne : c ≠ d) : f.range x ≠ f.range y := by
  intro heq
  have hcontains := Range.contains_trans (h.contains_of_below hcx) (heq ▸ h.nested hd)
  exact Range.not_apart_of_contains (h.proper_child hd) hcontains (h.siblings hc hd hne)

variable (hf : f.Fielded)
include hf

theorem Bindable.range_ne_of_below {x y : Nat} (hx : Bindable f x) (hy : Bindable f y)
    (hbelow : f.Below y x) (hne : y ≠ x) : f.range x ≠ f.range y := by
  rcases hbelow.cases with heq | ⟨c, hc, hcx⟩
  · exact absurd heq hne
  rcases hy with hcalled | hform
  · -- the name of a call holds nothing
    obtain ⟨n, hn, hword⟩ := name_of_calledName? h hcalled
    obtain ⟨hname, hchildren⟩ := h.words hword
    refine range_ne_of_sibling h hc hcx hn ?_
    rintro rfl
    rcases hcx.cases with rfl | ⟨d, hd, _⟩
    · exact hx.ne_identifier hname
    · rw [hchildren] at hd
      cases hd
  · -- the type or the arguments of a creation stand besides the child
    obtain ⟨t, a, ht, ha⟩ := hf.creation hform
    have hdiffer : t ≠ a := by
      rintro rfl
      have hslot := h.slot_of_child? ht
      rw [h.slot_of_child? ha] at hslot
      cases hslot
    by_cases hct : c = t
    · exact range_ne_of_sibling h hc hcx (h.child_of_child? ha) (hct ▸ hdiffer)
    · exact range_ne_of_sibling h hc hcx (h.child_of_child? ht) hct

/-- No two nodes that can be bound have one range. -/
theorem Bindable.eq_of_range_eq {x y : Nat} (hx : Bindable f x) (hy : Bindable f y)
    (hxsize : x < f.nodes.size) (hpos : 0 < y) (hysize : y < f.nodes.size)
    (heq : f.range x = f.range y) : x = y := by
  refine Classical.byContradiction fun hne => ?_
  rcases h.below_or_apart hxsize hysize with hbelow | hbelow | hapart
  · exact hy.range_ne_of_below h hf hx hbelow hne heq.symm
  · exact hx.range_ne_of_below h hf hy hbelow (Ne.symm hne) heq
  · exact Range.not_apart_of_contains (h.proper hpos hysize) (heq ▸ Range.contains_refl _) hapart

/-- No two sites of a scope that can be bound have one range. -/
theorem eq_of_range_eq {i : Nat} {kind : PointKind} {x y : Site} (hx : x ∈ scopeSites f i kind)
    (hy : y ∈ scopeSites f i kind) (hbx : Bindable f x.node) (hby : Bindable f y.node)
    (heq : f.range x.node = f.range y.node) : x = y := by
  obtain ⟨hpos, hsize⟩ := bounds_of_scopeSites h hy
  have hnode := hbx.eq_of_range_eq h hf hby (bounds_of_scopeSites h hx).2 hpos hsize heq
  refine Classical.byContradiction fun hne => ?_
  have hfirst := File.either_of_pairwise (pairwise_scopeSites h i kind) hx hy hne
  rw [hnode, or_self] at hfirst
  exact EvaluatedFirst.irrefl h hpos hsize hfirst

end Order

end Retrace.Reconstruct
