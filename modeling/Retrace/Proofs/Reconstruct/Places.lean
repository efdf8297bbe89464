import Retrace.Proofs.Instrument.TracePoints
import Retrace.Proofs.Reconstruct.Sites

/-! The parts of a scope and the places in it.

The parts of a trace point are the statements of its scope, their guards and, in a `for` loop, the
update clauses: what a scan can take for its own code. A place is the range of a node in the code
of the trace point that is no statement with guards and no parenthesis (`Inside`). A part contains
a place or lies apart from it (`part_or_apart`), so a place is never split by a part. -/
namespace Retrace.Reconstruct
open Java Source Instrument

variable {f : File}

/-! ### Between a node and its parts -/

theorem below_antisymm (h : f.Laid) {i j : Nat} (hij : f.Below i j) (hji : f.Below j i) : i = j :=
  Nat.le_antisymm (h.le_of_below hij) (h.le_of_below hji)

/-- Between the two there are only parentheses. -/
def Unwraps (f : File) (d x : Nat) : Prop :=
  f.Below d x ∧ ∀ z, f.Below d z → f.Below z x → z = x ∨ f.form z = .parenthesizedExpression

theorem unwraps_refl (h : f.Laid) (d : Nat) : Unwraps f d d :=
  ⟨File.below_refl f d, fun _ hdz hzd => .inl (below_antisymm h hzd hdz)⟩

theorem unwraps_unparenthesized (h : f.Laid) (d : Nat) : Unwraps f d (f.unparenthesized d) := by
  induction d using File.unparenthesized.induct f with
  | case1 d hform hnil =>
    rw [File.unparenthesized, if_pos hform, hnil]
    exact unwraps_refl h d
  | case2 d hform c rest hchildren hbounds ih =>
    rw [File.unparenthesized, if_pos hform, hchildren]
    dsimp only
    rw [if_pos hbounds]
    have hc : c ∈ f.children d := by
      rw [hchildren]
      exact List.mem_cons_self
    refine ⟨(File.below_child hc).trans ih.1, fun z hdz hzx => ?_⟩
    rcases hdz.cases with rfl | ⟨e, he, hez⟩
    · exact .inr (by simpa using hform)
    · -- The inside of the parentheses lies below one child only.
      have hec : f.Below e (f.unparenthesized c) := hez.trans hzx
      by_cases heq : e = c
      · subst heq
        exact ih.2 z hez hzx
      · have hapart := h.siblings he hc heq
        have hsize := h.lt_size_of_below ih.1 hbounds.2
        have hpos : 0 < f.unparenthesized c :=
          Nat.lt_of_lt_of_le (Nat.lt_of_le_of_lt (Nat.zero_le d) hbounds.1) (h.le_of_below ih.1)
        exact absurd (hapart.mono (h.contains_of_below hec) (h.contains_of_below ih.1))
          (Range.not_apart_of_contains (h.proper hpos hsize) (Range.contains_refl _))
  | case3 d hform c rest hchildren hbounds =>
    rw [File.unparenthesized, if_pos hform, hchildren]
    dsimp only
    rw [if_neg hbounds]
    exact unwraps_refl h d
  | case4 d hform =>
    rw [File.unparenthesized, if_neg hform]
    exact unwraps_refl h d

/-! ### Guards -/

/-- The forms of the statements with guards. -/
def isGuarded : Form → Bool
  | .ifStatement => true
  | .whileStatement => true
  | .doStatement => true
  | .forStatement => true
  | .enhancedForStatement => true
  | _ => false

/-- A guard of a statement is a child of it without its parentheses, or the declaration of the
variable that goes through a collection. -/
inductive Guard (f : File) (c : Nat) : Range → Prop
  | child {d x : Nat} (child : d ∈ f.children c) (unwraps : Unwraps f d x) : Guard f c (f.range x)
  | declaration {type name : Nat} {front back : List Nat}
    (children : f.children c = front ++ type :: name :: back) :
    Guard f c (Range.spanning (f.range type) (f.range name))

theorem guard_of_mem (h : f.Laid) (hs : f.Shaped) {c : Nat} {g : Range}
    (hg : g ∈ guardRanges f c) : isGuarded (f.form c) = true ∧ Guard f c g := by
  have hchild : ∀ {slot d}, f.child? c slot = some d → Guard f c (f.range d) :=
    fun hd => .child (h.child_of_child? hd) (unwraps_refl h _)
  have hcondition : g ∈ guardRanges.condition f c → Guard f c g := by
    intro hg
    obtain ⟨d, hd, rfl⟩ := Option.map_eq_some_iff.mp (Option.mem_toList.mp hg)
    exact .child (h.child_of_child? hd) (unwraps_unparenthesized h d)
  unfold guardRanges at hg
  split at hg
  · rename_i hform
    exact ⟨by rw [hform]; rfl, hcondition hg⟩
  · rename_i hform
    exact ⟨by rw [hform]; rfl, hcondition hg⟩
  · rename_i hform
    exact ⟨by rw [hform]; rfl, hcondition hg⟩
  · rename_i hform
    refine ⟨by rw [hform]; rfl, ?_⟩
    obtain ⟨d, hd, rfl⟩ := List.mem_map.mp hg
    rcases List.mem_append.mp hd with hd | hd
    · exact .child (h.child_of_childrenUnder hd) (unwraps_refl h d)
    · exact hchild (Option.mem_toList.mp hd)
  · rename_i hform
    refine ⟨by rw [hform]; rfl, ?_⟩
    rcases List.mem_append.mp hg with hg | hg
    · unfold guardRanges.loopVariable at hg
      split at hg
      · rename_i type name htype hname
        rw [List.mem_singleton.mp hg]
        obtain ⟨front, back, hchildren⟩ := hs.declared hform htype hname
        exact .declaration hchildren
      · cases hg
    · obtain ⟨d, hd, rfl⟩ := Option.map_eq_some_iff.mp (Option.mem_toList.mp hg)
      exact hchild hd
  · cases hg

section Guard
variable (h : f.Laid) {c : Nat} {g : Range} (hg : Guard f c g)
include h hg

/-- A guard stands in its statement. -/
theorem Guard.part : (f.range c).contains g = true ∧ g.Proper := by
  cases hg with
  | @child d x hd hx =>
    have hbelow := (File.below_child hd).trans hx.1
    have hpos : 0 < x := Nat.lt_of_lt_of_le (Nat.lt_of_le_of_lt (Nat.zero_le c) (h.bounds hd).1)
      (h.le_of_below hx.1)
    exact ⟨h.contains_of_below hbelow,
      h.proper hpos (h.lt_size_of_below hx.1 (h.bounds hd).2)⟩
  | @declaration type name front back hchildren =>
    have htype : type ∈ f.children c := by simp [hchildren]
    have hname : name ∈ f.children c := by simp [hchildren]
    have hordered := h.ordered c
    rw [hchildren] at hordered
    have hbefore : (f.range type).Before (f.range name) :=
      (List.pairwise_cons.mp (List.pairwise_append.mp hordered).2.1).1 name List.mem_cons_self
    have hproper := h.proper_child htype
    refine ⟨Range.contains_iff.mpr ⟨(Range.contains_iff.mp (h.nested htype)).1,
      (Range.contains_iff.mp (h.nested hname)).2⟩, hproper.of_contains ?_⟩
    exact (Range.contains_of_spanning hproper (h.proper_child hname) hbefore).1

/-- What stands below the statement, but is neither the statement nor a parenthesis, stands inside
of a guard or apart from it. -/
theorem Guard.contains_or_apart {z : Nat} (hz : f.Below c z) (hne : z ≠ c)
    (hform : f.form z ≠ .parenthesizedExpression) :
    g.contains (f.range z) = true ∨ g.Apart (f.range z) := by
  rcases hz.cases with rfl | ⟨e, he, hez⟩
  · exact absurd rfl hne
  have hinside := h.contains_of_below hez
  cases hg with
  | @child d x hd hx =>
    by_cases hed : e = d
    · subst hed
      have hx' := (File.below_child he).trans hx.1
      rcases h.below_or_apart_within hx' hz with hxz | hzx | hapart
      · exact .inl (h.contains_of_below hxz)
      · rcases hx.2 z hez hzx with rfl | hparenthesis
        · exact .inl (Range.contains_refl _)
        · exact absurd hparenthesis hform
      · exact .inr hapart
    · exact .inr (((h.siblings he hd hed).mono hinside (h.contains_of_below hx.1)).symm)
  | @declaration type name front back hchildren =>
    have htype : type ∈ f.children c := by simp [hchildren]
    have hname : name ∈ f.children c := by simp [hchildren]
    have hordered := h.ordered c
    rw [hchildren] at he hordered
    obtain ⟨_, hrest, hfront⟩ := List.pairwise_append.mp hordered
    have hbefore := (List.pairwise_cons.mp hrest).1
    have hback := (List.pairwise_cons.mp (List.pairwise_cons.mp hrest).2).1
    obtain ⟨hleft, hright⟩ := Range.contains_of_spanning (h.proper_child htype)
      (h.proper_child hname) (hbefore name List.mem_cons_self)
    rcases List.mem_append.mp he with he | he
    · have hetype : (f.range e).Before (Range.spanning (f.range type) (f.range name)) :=
        hfront e he type List.mem_cons_self
      exact .inr (.inr (hetype.mono hinside (Range.contains_refl _)))
    rcases List.mem_cons.mp he with rfl | he
    · exact .inl (Range.contains_trans hleft hinside)
    rcases List.mem_cons.mp he with rfl | he
    · exact .inl (Range.contains_trans hright hinside)
    · have hname : (Range.spanning (f.range type) (f.range name)).Before (f.range e) := hback e he
      exact .inr (.inl (hname.mono (Range.contains_refl _) hinside))

end Guard

/-! ### Parts and places -/

/-- The node stands in the code of a trace point and can be the place of a child. -/
structure Inside (f : File) (i b z : Nat) : Prop where
  below : f.Below i z
  ne : z ≠ i
  ne_block : z ≠ b
  unguarded : isGuarded (f.form z) = false
  bare : f.form z ≠ .parenthesizedExpression

section Inside
variable (h : f.Laid) {i b z : Nat} {kind : PointKind} (hholds : Holds f i kind b)
  (hz : Inside f i b z)
include h hholds hz

theorem Inside.not_above : ¬f.Below z b := by
  intro hzb
  rcases hholds.child h.toLinked with rfl | hb
  · exact hz.ne (below_antisymm h hzb hz.below)
  · rcases h.below_parent hb hzb with heq | hzi
    · exact hz.ne_block heq
    · exact hz.ne (below_antisymm h hzi hz.below)

/-- A statement of the block contains the place or lies apart from it. -/
theorem Inside.statement {c : Nat} (hc : c ∈ f.children b) :
    f.Below c z ∨ (f.range c).Apart (f.range z) := by
  have hic := (hholds.below h.toLinked).trans (File.below_child hc)
  rcases h.below_or_apart_within hic hz.below with hcz | hzc | hapart
  · exact .inl hcz
  · rcases h.below_parent hc hzc with rfl | hzb
    · exact .inl (File.below_refl f z)
    · exact absurd hzb (hz.not_above h hholds)
  · exact .inr hapart

theorem Inside.guard {c : Nat} {g : Range} (hc : c ∈ f.children b)
    (hform : isGuarded (f.form c) = true) (hg : Guard f c g) :
    g.contains (f.range z) = true ∨ g.Apart (f.range z) := by
  rcases hz.statement h hholds hc with hcz | hapart
  · refine hg.contains_or_apart h hcz ?_ hz.bare
    rintro rfl
    rw [hz.unguarded] at hform
    cases hform
  · exact .inr (hapart.mono (hg.part h).1 (Range.contains_refl _))

omit hholds in
/-- So does a child of the trace point itself. -/
theorem Inside.clause {c : Nat} (hc : c ∈ f.children i) :
    (f.range c).contains (f.range z) = true ∨ (f.range c).Apart (f.range z) := by
  rcases h.below_or_apart_within (File.below_child hc) hz.below with hcz | hzc | hapart
  · exact .inl (h.contains_of_below hcz)
  · rcases h.below_parent hc hzc with rfl | hzi
    · exact .inl (Range.contains_refl _)
    · exact absurd (below_antisymm h hzi hz.below) hz.ne
  · exact .inr hapart

omit hholds in
theorem Inside.proper (hi : i < f.nodes.size) : (f.range z).Proper := by
  have hpos : 0 < z := by
    have hle := h.le_of_below hz.below
    have hne := hz.ne
    omega
  exact h.proper hpos (h.lt_size_of_below hz.below hi)

end Inside

end Retrace.Reconstruct
