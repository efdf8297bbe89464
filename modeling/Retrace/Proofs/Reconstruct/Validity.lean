import Retrace.Proofs.Reconstruct.OwnRanges

/-! Which reconstructions pass the check of trees.

`violations_eq_nil_iff_of_reconstruct`: the check of a reconstructed tree finds nothing exactly
when no child was started in a place that its parent had already taken for its own, and no child
without a place reaches into its parent's own ranges. `condition_taken_before_its_call` shows that
the first can happen: the condition of a loop is taken for the loop's own when its first round
begins, and a later round may be the first one in which it calls a method. -/
namespace Retrace.Reconstruct
open Source Instrument Trace Activation

/-- The child keeps clear of its parent's own ranges: of those that the parent had when the child
was started, or, if the child has no place in the parent's code, of those in the end. -/
def Entry.Clear (s : Setting) (t : Tree) (x : Entry) : Prop :=
  match x.entrance.marker? with
  | some k => ∀ q ∈ x.parent.ranges, q.overlaps k = false
  | none => ∀ k, t.childExtent? s.project s.points (some (x.parent.fileOf s).path) x.child = some k →
      ∀ q ∈ t.ranges x.parent.index, q.overlaps k = false

/-! ### The places of children -/

/-- A marker is the range of the link, or of the code that the child runs. -/
theorem entrance_of_marker {s : Setting} {a b : Activation} {point : TracePoint} {e : Entrance}
    (he : a.enter? s point = some (e, b)) {k : Range} (hk : e.marker? = some k) :
    (∃ landing, e = .site ⟨k, (a.fileOf s).path⟩ landing (some k)) ∨
      a.enterNested? s point = some e := by
  unfold enter? at he
  rcases Option.or_eq_some_iff.mp he with he | ⟨_, he⟩
  · refine .inl ?_
    split at he
    · unfold enterMethod? at he
      obtain ⟨name, _, he⟩ := Option.bind_eq_some_iff.mp he
      dsimp only at he
      split at he
      · cases he
        cases hk
        exact ⟨_, rfl⟩
      · obtain ⟨call, _, he⟩ := Option.map_eq_some_iff.mp he
        cases he
        unfold enterSetupCall at hk ⊢
        dsimp only [Entrance.marker?] at hk
        split at hk
        · rename_i hinside
          cases hk
          have hfile : call.file = a.point.ref.file := by
            simpa using (Bool.and_eq_true_iff.mp hinside).1
          have hsame : s.file call = a.fileOf s := by
            unfold fileOf Setting.file
            rw [hfile]
          dsimp only
          rw [if_pos hinside, hsame]
          exact ⟨_, rfl⟩
        · cases hk
    · unfold enterCreation? at he
      dsimp only at he
      obtain ⟨_, _, he⟩ := Option.bind_eq_some_iff.mp he
      obtain ⟨_, _, he⟩ := Option.bind_eq_some_iff.mp he
      obtain ⟨⟨creation, c⟩, hc, he⟩ := Option.bind_eq_some_iff.mp he
      obtain ⟨_, _, he⟩ := Option.map_eq_some_iff.mp he
      cases he
      cases hk
      obtain ⟨_, _, _, rfl⟩ := rebound_creationFor? hc
      exact ⟨_, rfl⟩
    · cases he
      cases hk
    · cases he
  · obtain ⟨_, hnested, hpair⟩ := Option.map_eq_some_iff.mp he
    cases hpair
    exact .inr hnested

theorem pointExtent?_of_nested {p : Project} {a : Activation} {id : Nat} {point : TracePoint}
    {e : Entrance} (hid : (Setting.traced p).points.get? id = some point)
    (he : a.enterNested? (.traced p) point = some e) :
    e.link? = none ∧ Tree.pointExtent? p (PointMap.ofProject p) id = e.marker? := by
  have hkind := (PointMap.traced_of_get? hid).kind
  unfold enterNested? at he
  dsimp only at he
  split at he
  · rename_i hinside
    have hfile : point.ref.file = a.point.ref.file := by
      simpa using (Bool.and_eq_true_iff.mp hinside).1
    have hextent : Tree.pointExtent? p (PointMap.ofProject p) id =
        if point.kind.isLoop then
          ((p.file point.ref.file).child? point.ref.node .body).map (p.file point.ref.file).range
        else some ((p.file point.ref.file).range point.ref.node) := by
      unfold Tree.pointExtent?
      rw [show (PointMap.ofProject p).get? id = some point from hid]
      rfl
    rw [hextent]
    cases he
    cases hloop : point.kind.isLoop with
    | true =>
      obtain ⟨body, hbody, _⟩ := body_of_isLoop hkind hloop
      refine ⟨rfl, ?_⟩
      simp only [if_true]
      rw [show a.fileOf (.traced p) = p.file point.ref.file by rw [hfile]; rfl, hbody]
      rfl
    | false =>
      refine ⟨rfl, ?_⟩
      simp only [Bool.false_eq_true, if_false]
      rw [show a.fileOf (.traced p) = p.file point.ref.file by rw [hfile]; rfl]
      rfl
  · cases he

theorem same_self (path : String) : Path.same path path = true := by
  simp [Path.same]

namespace Machine

/-- The trace point that a node stands for can be read off it. -/
theorem numericId?_of_bears {s : Setting} {t : Tree} {i : Nat} {point : TracePoint}
    (h : Bears s t i point) (hword : ∀ id, t.traceId? i = some (toString id) → id < Limit.word)
    {n : Trace.Node} (hn : t.get? i = some n) : n.numericId?.bind s.points.get? = some point := by
  obtain ⟨id, htrace, hpoint⟩ := h
  have hid := hword id htrace
  rw [Tree.traceId?, hn] at htrace
  have hname : n.traceId = toString id := Option.some.inj htrace
  rw [Trace.Node.numericId?, hname, Text.natural?_toString hid, Option.bind_some, hpoint]

/-- The place of a child with a marker is the marker. -/
theorem childExtent?_of_marker {p : Project} {t : Tree} {x : Entry} (h : Borne (.traced p) t x)
    (hword : ∀ id, t.traceId? x.child = some (toString id) → id < Limit.word) {k : Range}
    (hk : x.entrance.marker? = some k) :
    t.childExtent? p (PointMap.ofProject p) (some (x.parent.fileOf (.traced p)).path) x.child =
      some k := by
  obtain ⟨n, hn⟩ := Tree.exists_node (Tree.lt_size_of_parent? h.parent)
  have hlink : n.link = x.entrance.link? := by
    rw [← h.link, Tree.link?, hn, Option.bind_some]
  obtain ⟨point, hbears, a, b, _, hpoint, henter⟩ := h.child
  have hfile : a.fileOf (.traced p) = x.parent.fileOf (.traced p) := by
    unfold fileOf
    rw [hpoint]
  unfold Tree.childExtent?
  rw [hn, Option.bind_some, hlink]
  rcases entrance_of_marker henter hk with ⟨landing, hentrance⟩ | hnested
  · rw [hentrance, hfile]
    simp [Entrance.link?, same_self]
  · obtain ⟨id, htrace, hid⟩ := hbears
    obtain ⟨hnone, hextent⟩ := pointExtent?_of_nested hid hnested
    have hid' := hword id htrace
    rw [Tree.traceId?, hn] at htrace
    have hname : n.traceId = toString id := Option.some.inj htrace
    rw [hnone]
    simp only
    rw [Trace.Node.numericId?, hname, Text.natural?_toString hid', Option.bind_some, hextent, hk]

/-! ### The whole tree -/

section Final
variable {p : Project} {tokens : List Nat} {past : List Machine} {k : Machine}
  (hk : Kept (.traced p) tokens past k)
include hk

theorem Kept.edged : k.tree.Edged := by
  obtain ⟨_, _, hplaced⟩ := hk.placed
  refine ⟨hplaced.listed, hplaced.rootless, fun i hpos hi => ?_⟩
  obtain ⟨parent, hparent, _⟩ := hplaced.nested (i - 1) (by omega)
  rw [show i - 1 + 1 = i by omega] at hparent
  exact ⟨parent, hparent, Nat.lt_trans (hplaced.earlier _ _ hparent) hi⟩

/-- The ids of nodes are tokens. -/
theorem Kept.word (hwords : ∀ id ∈ tokens, id < Limit.word) {i id : Nat} (hi : 0 < i)
    (htrace : k.tree.traceId? i = some (toString id)) : id < Limit.word := by
  obtain ⟨taken, htokens, hplaced⟩ := hk.placed
  have hsize : i < k.tree.size := by
    refine Nat.lt_of_not_le fun hle => ?_
    rw [Tree.traceId?, Tree.get?_eq_none.mpr hle] at htrace
    cases htrace
  rw [hplaced.size] at hsize
  have hcarries := hplaced.carries (i - 1) (by omega)
  rw [show i - 1 + 1 = i by omega, htrace] at hcarries
  rw [Text.toString_injective (Option.some.inj hcarries)]
  refine hwords _ ?_
  rw [htokens]
  exact List.mem_append_left _ (List.getElem_mem _)

theorem Kept.violations_eq_nil_iff (hended : k.indices = [])
    (hwords : ∀ id ∈ tokens, id < Limit.word) :
    k.tree.violations p (PointMap.ofProject p) = [] ↔
      ∀ x, Known past x → x.Clear (.traced p) k.tree := by
  have hedged := hk.edged
  rw [Tree.violations_eq_nil_iff hedged hk.tallied.counted]
  have hfile : ∀ {x : Entry}, Known past x → ∀ {n : Trace.Node},
      k.tree.get? x.parent.index = some n →
      Tree.codeFile? p (PointMap.ofProject p) n = some (x.parent.fileOf (.traced p)).path := by
    intro x hx n hn
    have hpoint := numericId?_of_bears (hk.borne x hx).owner
      (fun id => hk.word hwords (hk.inner x hx)) hn
    unfold Tree.codeFile?
    rw [show (n.numericId?.bind (PointMap.ofProject p).get?) = _ from hpoint]
    rfl
  have hmarked : ∀ {x : Entry}, Known past x → ∀ {place : Range},
      x.entrance.marker? = some place → k.tree.childExtent? p (PointMap.ofProject p)
        (some (x.parent.fileOf (.traced p)).path) x.child = some place := by
    intro x hx place hplace
    have hpos : 0 < x.child := Nat.lt_of_le_of_lt (Nat.zero_le _) (hk.lt_size hx).1
    exact childExtent?_of_marker (hk.borne x hx) (fun id => hk.word hwords hpos) hplace
  have hkept : ∀ {x : Entry}, Known past x → ∀ {place : Range},
      x.entrance.marker? = some place → ((∀ q ∈ k.tree.ranges x.parent.index,
        q.overlaps place = false) ↔ ∀ q ∈ x.parent.ranges, q.overlaps place = false) := by
    intro x hx place hplace
    have hsame := hk.closed x hx (by rw [hended]; exact List.not_mem_nil) place hplace
    constructor
    · intro hclear q hq
      rw [← Bool.not_eq_true]
      exact fun hover => absurd (hclear q ((hsame q hover).mpr hq)) (by rw [hover]; decide)
    · intro hclear q hq
      rw [← Bool.not_eq_true]
      exact fun hover => absurd (hclear q ((hsame q hover).mp hq)) (by rw [hover]; decide)
  constructor
  · intro hclear x hx
    have hborne := hk.borne x hx
    have hmem : x.child ∈ k.tree.children x.parent.index := by
      rw [hedged.listed]
      exact List.mem_filter.mpr ⟨List.mem_range.mpr (Tree.lt_size_of_parent? hborne.parent),
        by simp [hborne.parent]⟩
    have hlt := hk.lt_size hx
    obtain ⟨n, hn⟩ := Tree.exists_node (Nat.lt_trans hlt.1 hlt.2)
    have hranges : k.tree.ranges x.parent.index = n.ranges := by
      rw [Tree.ranges, hn]
      rfl
    have hall := hclear _ n hn _ hmem
    rw [hfile hx hn, ← hranges] at hall
    unfold Entry.Clear
    split
    · rename_i place hplace
      exact (hkept hx hplace).mp (hall place (hmarked hx hplace))
    · exact hall
  · intro hclear i n hn c hc extent hextent
    have hranges : n.ranges = k.tree.ranges i := by
      rw [Tree.ranges, hn]
      rfl
    rw [hranges]
    rcases Nat.eq_zero_or_pos i with rfl | hpos
    · rw [hk.bare]
      exact fun q hq => nomatch hq
    · have hparent : k.tree.parent? c = some i := by
        rw [hedged.listed] at hc
        simpa using (List.mem_filter.mp hc).2
      obtain ⟨x, hx, rfl, rfl⟩ := hk.complete c i hparent hpos
      have hcleared := hclear x hx
      rw [hfile hx hn] at hextent
      unfold Entry.Clear at hcleared
      split at hcleared
      · rename_i place hplace
        rw [hmarked hx hplace] at hextent
        cases hextent
        exact (hkept hx hplace).mpr hcleared
      · exact hcleared extent hextent

end Final

end Machine

/-- The check of a reconstructed tree finds nothing exactly when every child that was started kept
clear of its parent's own ranges. -/
theorem violations_eq_nil_iff_of_reconstruct {sources : List (String × String)}
    (horder : ∀ f ∈ (Project.ofSources sources).fileList, f.InOrder) {partially : Bool}
    {tokens : List Nat} (hwords : ∀ id ∈ tokens, id < Limit.word) {r : Reconstruction}
    (h : reconstruct (.ofSources sources) partially (Stream.ofTokens tokens) = .ok r) :
    r.tree.violations (Project.ofSources sources) (Setting.ofSources sources).points = [] ↔
      ∀ m ∈ Machine.states (.ofSources sources) (Machine.ofTokens tokens), ∀ x ∈ m.entries,
        x.Clear (.ofSources sources) r.tree := by
  obtain ⟨k, hrun, htree, _⟩ := Machine.halts_of_reconstruct h
  obtain ⟨hk, hended⟩ := Machine.kept_of_run (laid_ofSources horder) shaped_ofSources hrun
  rw [htree]
  refine (hk.violations_eq_nil_iff hended hwords).trans ?_
  simp only [Machine.Known, List.mem_reverse]
  refine ⟨fun hclear m hm x hx => hclear x ⟨m, hm, hx⟩, fun hclear x hx => ?_⟩
  obtain ⟨m, hm, hx⟩ := hx
  exact hclear m hm x hx

/-- The call in the condition comes before the first round. -/
theorem clear_of_call_before_rounds :
    let sources := [("A.java", "class A{void m(){while(p||f()){}}boolean p;boolean f(){return p;}}")]
    let s := Setting.ofSources sources
    ∃ r, reconstruct s false (Stream.ofTokens [1, 3, 2]) = .ok r ∧
      ∀ m ∈ Machine.states s (Machine.ofTokens [1, 3, 2]), ∀ x ∈ m.entries, x.Clear s r.tree := by
  intro sources s
  have hrun : (Machine.outcome? s 60 [1, 3, 2]).any fun r =>
      r.unconsumed = 0 ∧ r.tree.violations (Project.ofSources sources) s.points = [] := by
    decide +kernel
  obtain ⟨r, hr, hfacts⟩ := (Option.any_eq_true _ _).mp hrun
  obtain ⟨hunconsumed, hvalid⟩ := of_decide_eq_true hfacts
  have hok := Machine.reconstruct_wholly (Machine.reconstruct_of_outcome? hr) hunconsumed
  exact ⟨r, hok, (violations_eq_nil_iff_of_reconstruct (inOrder_ofSources (by decide)) (by decide)
    hok).mp hvalid⟩

/-- The condition of a loop is taken for the method's own when the first round begins. Before the
second round it calls a method, whose node then lies in the method's own range. -/
theorem condition_taken_before_its_call :
    let sources := [("A.java", "class A{void m(){while(p||f()){}}boolean p;boolean f(){return p;}}")]
    let s := Setting.ofSources sources
    (∀ f ∈ (Project.ofSources sources).fileList, f.InOrder ∧ f.hasErrors = false) ∧
      ∃ r, reconstruct s false (Stream.ofTokens [1, 2, 3, 2]) = .ok r ∧
        r.tree.violations (Project.ofSources sources) s.points ≠ [] := by
  intro sources s
  have hrun : (Machine.outcome? s 60 [1, 2, 3, 2]).any fun r =>
      r.unconsumed = 0 ∧ r.tree.violations (Project.ofSources sources) s.points ≠ [] := by
    decide +kernel
  have herrors : ∀ f ∈ (Project.ofSources sources).fileList, f.hasErrors = false := by
    decide +kernel
  obtain ⟨r, hr, hfacts⟩ := (Option.any_eq_true _ _).mp hrun
  obtain ⟨hunconsumed, hinvalid⟩ := of_decide_eq_true hfacts
  refine ⟨fun f hf => ⟨inOrder_ofSources (by decide) f hf, herrors f hf⟩, r, ?_, hinvalid⟩
  exact Machine.reconstruct_wholly (Machine.reconstruct_of_outcome? hr) hunconsumed

end Retrace.Reconstruct
