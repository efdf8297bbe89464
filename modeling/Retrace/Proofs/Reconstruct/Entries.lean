import Retrace.Proofs.Reconstruct.Coherence
import Retrace.Proofs.Reconstruct.Places
import Retrace.Proofs.Reconstruct.Sources

/-! Where children stand.

`Spot` lists the nodes that can be the place of a child of a trace point: a site of its scope, a
call in the setup code of a class, a trace point inside of it, or the body of a loop inside of it.
`spot_of_enter?` says that the marker of a child is the range of such a node, and
`Spot.inside` that each of them is a place in the code of the trace point. -/
namespace Retrace.Reconstruct
open Java Source Instrument

/-! ### Calls in setup code -/

theorem mem_ancestryWithin {s : Setting} {limit : Nat} {name : String} {c : Ref}
    (h : c ∈ s.ancestryWithin limit name) : ∃ e ∈ s.classes, e.2 = c := by
  induction limit generalizing name with
  | zero => cases h
  | succ limit ih =>
    unfold Setting.ancestryWithin at h
    split at h
    · cases h
    · rename_i k hk
      rcases List.mem_cons.mp h with rfl | h
      · obtain ⟨e, he, rfl⟩ := Option.map_eq_some_iff.mp hk
        exact ⟨e, List.mem_of_find?_eq_some he, rfl⟩
      · split at h
        · exact ih h
        · cases h

/-- What is known as a class of the project is a class declaration of that name. -/
theorem class_of_mem {p : Project} {k : String × Ref} (h : k ∈ (Setting.traced p).classes) :
    k.2.file < p.files.size ∧ (p.file k.2.file).form k.2.node = .classDeclaration ∧
      (p.file k.2.file).name? k.2.node = some k.1 := by
  obtain ⟨⟨n, f⟩, hn, hk⟩ := List.mem_flatMap.mp h
  obtain ⟨hfile, rfl⟩ := mem_numbered hn
  obtain ⟨i, _, hk⟩ := List.mem_filterMap.mp hk
  obtain ⟨name, hname, rfl⟩ := Option.map_eq_some_iff.mp hk
  unfold namedClass? at hname
  split at hname
  · rename_i hform
    exact ⟨hfile, beq_iff_eq.mp hform, hname⟩
  · cases hname

/-- A call that the creation of an object evaluates stands in the setup code of a class. -/
theorem setup_of_setupCall? {s : Setting} {a : Activation} {name : String} {call : Ref}
    (h : a.setupCall? s name = some call) :
    ∃ c : Ref, (∃ e ∈ s.classes, e.2 = c) ∧ call.file = c.file ∧
      ∃ e ∈ setupExpressions (s.file c) c.node, ∃ x ∈ sitesWithin (s.file c) false e,
        x.node = call.node ∧ calledName? (s.file c) x.node = some name := by
  unfold Activation.setupCall? at h
  obtain ⟨creation, _, h⟩ := List.exists_of_findSome?_eq_some h
  obtain ⟨created, _, h⟩ := Option.bind_eq_some_iff.mp h
  obtain ⟨c, hc, h⟩ := List.exists_of_findSome?_eq_some h
  unfold Activation.setupCallOf? at h
  obtain ⟨i, hi, rfl⟩ := Option.map_eq_some_iff.mp h
  obtain ⟨e, he, hcall⟩ := List.exists_of_findSome?_eq_some hi
  unfold Activation.setupCallIn? at hcall
  obtain ⟨x, hx, rfl⟩ := Option.map_eq_some_iff.mp hcall
  have hname : calledName? (s.file c) x.node = some name := by
    simpa [Activation.calls] using List.find?_some hx
  exact ⟨c, mem_ancestryWithin hc, rfl, e, he, x, List.mem_of_find?_eq_some hx, rfl, hname⟩

theorem lt_size_of_setupExpressions {f : File} (h : f.Laid) {k e : Nat}
    (he : e ∈ setupExpressions f k) : e < f.nodes.size := by
  obtain ⟨m, _, he⟩ := List.mem_flatMap.mp he
  split at he
  · split at he
    · cases he
    · exact (h.bounds (List.mem_filter.mp he).1).2
  · split at he
    · exact (h.bounds (List.mem_filter.mp he).1).2
    · cases he
  · cases he

/-! ### Calls in the range of a trace point -/

theorem kind?_of_call {f : File} {x : Nat} (h : calledName? f x ≠ none) : kind? f x = none := by
  unfold kind?
  rcases isSite_of_calledName? h with hform | hform <;> rw [hform] <;> rfl

theorem call_ne_block {f : File} (hs : f.Shaped) {i b x : Nat} {kind : PointKind}
    (hb : Holds f i kind b) (hx : calledName? f x ≠ none) : x ≠ b := by
  rintro rfl
  have hform := hb.form hs
  rcases isSite_of_calledName? hx with hcall | hcall <;> rw [hcall] at hform <;>
    rcases hform with hform | hform <;> cases hform

/-- A call that has the range of a trace point's node around it stands below that node: the name
of a call takes up text of its own, so the call is not just another node of the same range. -/
theorem below_of_contains_call {f : File} (h : f.Laid) {i x : Nat} {kind : PointKind}
    (hkind : kind? f i = some kind) (hi : i < f.nodes.size) (hx : x < f.nodes.size)
    (hcall : calledName? f x ≠ none) (hcontains : (f.range i).contains (f.range x) = true) :
    f.Below i x := by
  obtain ⟨n, hn, hword⟩ := name_of_calledName? h hcall
  have hproper := h.proper_child hn
  rcases h.below_or_apart hi hx with hbelow | hbelow | hapart
  · exact hbelow
  · rcases hbelow.cases with rfl | ⟨c, hc, hci⟩
    · exact File.below_refl f x
    · have hsame : f.range x = f.range c :=
        Range.contains_antisymm (h.nested hc)
          (Range.contains_trans (h.contains_of_below hci) hcontains)
      by_cases hnc : n = c
      · subst hnc
        obtain ⟨hform, hleaf⟩ := h.words hword
        rcases hci.cases with rfl | ⟨d, hd, _⟩
        · unfold kind? at hkind
          rw [hform] at hkind
          cases hkind
        · rw [hleaf] at hd
          cases hd
      · have hcn : (f.range c).contains (f.range n) = true := hsame ▸ h.nested hn
        exact absurd (h.siblings hc hn (Ne.symm hnc)) (Range.not_apart_of_contains hproper hcn)
  · exact absurd hapart
      (Range.not_apart_of_contains (hproper.of_contains (h.nested hn)) hcontains)

/-! ### The places of children -/

/-- The node can be the place of a child of the trace point. -/
inductive Spot (p : Project) (own : TracePoint) : Nat → Prop
  | site {c x : Nat}
    (statement : c ∈ scopeStatements (p.file own.ref.file) own.ref.node own.kind)
    (below : (p.file own.ref.file).Below c x)
    (form : isSite ((p.file own.ref.file).form x) = true) : Spot p own x
  | setup {k : String × Ref} {e : Nat} {x : Site} (known : k ∈ (Setting.traced p).classes)
    (file : k.2.file = own.ref.file)
    (expression : e ∈ setupExpressions (p.file own.ref.file) k.2.node)
    (call : x ∈ sitesWithin (p.file own.ref.file) false e)
    (name : calledName? (p.file own.ref.file) x.node ≠ none)
    (below : (p.file own.ref.file).Below own.ref.node x.node) : Spot p own x.node
  | unit {inner : TracePoint} (known : ∃ id, (Setting.traced p).points.get? id = some inner)
    (file : inner.ref.file = own.ref.file)
    (below : (p.file own.ref.file).Below own.ref.node inner.ref.node)
    (ne : inner.ref.node ≠ own.ref.node) (kind : inner.kind.isLoop = false) :
    Spot p own inner.ref.node
  | body {inner : TracePoint} {b : Nat}
    (known : ∃ id, (Setting.traced p).points.get? id = some inner)
    (file : inner.ref.file = own.ref.file)
    (below : (p.file own.ref.file).Below own.ref.node inner.ref.node)
    (ne : inner.ref.node ≠ own.ref.node)
    (body : (p.file own.ref.file).child? inner.ref.node .body = some b)
    (block : (p.file own.ref.file).form b = .block) : Spot p own b

section Spot
variable {p : Project} (h : ∀ n, (p.file n).Laid) (hs : ∀ n, (p.file n).Shaped)
include h

omit h in
theorem spot_of_site {a : Activation} (ha : Activation.Coherent (.traced p) a) {x : Site}
    (hx : x ∈ a.sites) : Spot p a.point x.node := by
  rw [ha.sites] at hx
  obtain ⟨c, hc, hbelow, hform⟩ := mem_scopeSites hx
  exact .site hc hbelow hform

theorem spot_of_setupCall? {a : Activation} (ha : Activation.Coherent (.traced p) a)
    {name : String} {call : Ref} (hcall : a.setupCall? (.traced p) name = some call)
    (hfile : call.file = a.point.ref.file)
    (hinside : ((p.file a.point.ref.file).range a.point.ref.node).contains
      ((p.file a.point.ref.file).range call.node) = true) : Spot p a.point call.node := by
  obtain ⟨id, hid⟩ := ha.traced
  have htraced := PointMap.traced_of_get? hid
  obtain ⟨_, ⟨⟨_, k⟩, hk, rfl⟩, hsame, e, he, x, hx, hnode, hname⟩ := setup_of_setupCall? hcall
  have hclass : k.file = a.point.ref.file := hsame.symm.trans hfile
  obtain ⟨n, k⟩ := k
  cases hclass
  have hcalled : calledName? (p.file a.point.ref.file) x.node ≠ none := by
    rw [show calledName? (p.file a.point.ref.file) x.node = some name from hname]
    exact Option.some_ne_none name
  rw [← hnode] at hinside ⊢
  have hsize := (h _).lt_size_of_below (below_of_mem_sitesWithin hx).1
    (lt_size_of_setupExpressions (h _) he)
  exact .setup hk rfl he hx hcalled
    (below_of_contains_call (h _) htraced.kind htraced.node_lt hsize hcalled hinside)

theorem spot_of_enterNested? {a : Activation} (ha : Activation.Coherent (.traced p) a) {id : Nat}
    {point : TracePoint} {e : Entrance} (hid : (Setting.traced p).points.get? id = some point)
    (he : a.enterNested? (.traced p) point = some e) :
    ∃ z, Spot p a.point z ∧ e.marker? = some ((p.file a.point.ref.file).range z) := by
  obtain ⟨own, hown⟩ := ha.traced
  have htraced := PointMap.traced_of_get? hown
  have hinner := PointMap.traced_of_get? hid
  unfold Activation.enterNested? at he
  dsimp only at he
  split at he
  · rename_i hinside
    obtain ⟨hfile, hstrict⟩ := Bool.and_eq_true_iff.mp hinside
    rw [show a.fileOf (.traced p) = p.file a.point.ref.file from rfl] at he hstrict
    have hsame : point.ref.file = a.point.ref.file := by simpa using hfile
    have hsize := hinner.node_lt
    have hkind := hinner.kind
    rw [hsame] at hsize hkind
    obtain ⟨hbelow, hne⟩ := (h _).below_of_strictlyContains htraced.node_lt hsize hstrict
    cases he
    cases hloop : point.kind.isLoop with
    | true =>
      obtain ⟨b, hb, hblock⟩ := body_of_isLoop hkind hloop
      refine ⟨b, .body ⟨id, hid⟩ hsame hbelow hne hb hblock, ?_⟩
      rw [hb]
      rfl
    | false => exact ⟨_, .unit ⟨id, hid⟩ hsame hbelow hne hloop, rfl⟩
  · cases he

/-- The marker of a child is the range of the node where it stands. -/
theorem spot_of_enter? {a b : Activation} (ha : Activation.Coherent (.traced p) a) {id : Nat}
    {point : TracePoint} {e : Entrance} (hid : (Setting.traced p).points.get? id = some point)
    (he : a.enter? (.traced p) point = some (e, b)) {k : Range} (hk : e.marker? = some k) :
    ∃ z, Spot p a.point z ∧ k = (p.file a.point.ref.file).range z := by
  unfold Activation.enter? at he
  rcases Option.or_eq_some_iff.mp he with he | ⟨_, he⟩
  · split at he
    · unfold Activation.enterMethod? at he
      obtain ⟨name, _, he⟩ := Option.bind_eq_some_iff.mp he
      dsimp only at he
      split at he
      · rename_i x hx
        cases he
        cases hk
        exact ⟨x.node, spot_of_site ha (Activation.mem_of_pickSite? hx).1, rfl⟩
      · obtain ⟨call, hcall, he⟩ := Option.map_eq_some_iff.mp he
        cases he
        unfold Activation.enterSetupCall at hk
        dsimp only [Entrance.marker?] at hk
        split at hk
        · rename_i hinside
          cases hk
          obtain ⟨hfile, hcontains⟩ := Bool.and_eq_true_iff.mp hinside
          have hsame : call.file = a.point.ref.file := by simpa using hfile
          have hset : (Setting.traced p).file call = p.file a.point.ref.file := by
            rw [← hsame]
            rfl
          rw [hset] at hcontains ⊢
          exact ⟨call.node, spot_of_setupCall? h ha hcall hsame hcontains, rfl⟩
        · cases hk
    · unfold Activation.enterCreation? at he
      dsimp only at he
      obtain ⟨_, _, he⟩ := Option.bind_eq_some_iff.mp he
      obtain ⟨_, _, he⟩ := Option.bind_eq_some_iff.mp he
      obtain ⟨⟨creation, c⟩, hc, he⟩ := Option.bind_eq_some_iff.mp he
      obtain ⟨_, _, he⟩ := Option.map_eq_some_iff.mp he
      cases he
      cases hk
      obtain ⟨x, hx, rfl⟩ := ha.creationFor? hc
      obtain ⟨_, _, _, rfl⟩ := Activation.rebound_creationFor? hc
      exact ⟨x.node, spot_of_site ha hx, rfl⟩
    · cases he
      cases hk
    · cases he
  · obtain ⟨_, hnested, hpair⟩ := Option.map_eq_some_iff.mp he
    cases hpair
    obtain ⟨z, hz, hmarker⟩ := spot_of_enterNested? h ha hid hnested
    rw [hmarker] at hk
    exact ⟨z, hz, (Option.some.inj hk).symm⟩

include hs

theorem Spot.inside {own : TracePoint} (hown : Traced p own) {b z : Nat}
    (hb : probeBlock? (p.file own.ref.file) own.ref.node own.kind = some b)
    (hholds : Holds (p.file own.ref.file) own.ref.node own.kind b) (hz : Spot p own z) :
    Inside (p.file own.ref.file) own.ref.node b z := by
  cases hz with
  | @site c x hc hbelow hform =>
    have hchild : c ∈ (p.file own.ref.file).children b := by
      unfold scopeStatements scopeBody? at hc
      rw [hb] at hc
      exact (List.mem_filter.mp hc).1
    have hib := hholds.below (h _).toLinked
    have hlt := (h _).bounds hchild
    have hle := (h _).le_of_below hib
    have hle' := (h _).le_of_below hbelow
    refine ⟨(hib.trans (File.below_child hchild)).trans hbelow, by omega, by omega, ?_, ?_⟩
    · revert hform
      cases (p.file own.ref.file).form z <;> simp [isSite, isGuarded]
    · intro heq
      rw [heq] at hform
      cases hform
  | @setup k e x hk hfile he hx hname hbelow =>
    have hform := isSite_of_calledName? hname
    refine ⟨hbelow, ?_, call_ne_block (hs _) hholds hname, ?_, ?_⟩
    · intro heq
      have hnone := kind?_of_call hname
      rw [heq, hown.kind] at hnone
      cases hnone
    · rcases hform with hform | hform <;> rw [hform] <;> rfl
    · rcases hform with hform | hform <;> rw [hform] <;> exact fun heq => nomatch heq
  | @unit inner hknown hfile hbelow hne hloop =>
    obtain ⟨id, hid⟩ := hknown
    have hkind := (PointMap.traced_of_get? hid).kind
    rw [hfile] at hkind
    refine ⟨hbelow, hne, ?_, ?_, ?_⟩
    · rintro rfl
      rw [hholds.kind?_eq_none (h _).toLinked (hs _) hne] at hkind
      cases hkind
    · rcases form_of_kind? hkind hloop with hform | hform | hform | hform <;> rw [hform] <;> rfl
    · rcases form_of_kind? hkind hloop with hform | hform | hform | hform <;> rw [hform] <;>
        exact fun heq => nomatch heq
  | @body inner _ hknown hfile hbelow hne hchild hblock =>
    have hmem := (h _).child_of_child? hchild
    have hlt := ((h _).bounds hmem).1
    have hle := (h _).le_of_below hbelow
    refine ⟨hbelow.trans (File.below_child hmem), by omega, ?_, by rw [hblock]; rfl, ?_⟩
    · rintro rfl
      rcases hholds.child (h _).toLinked with heq | hown
      · omega
      · exact hne ((h _).parent_unique hmem hown)
    · rw [hblock]
      exact fun heq => nomatch heq

end Spot

end Retrace.Reconstruct
