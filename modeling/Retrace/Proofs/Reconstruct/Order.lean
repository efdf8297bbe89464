import Retrace.Proofs.Reconstruct.Coverage
import Retrace.Proofs.Reconstruct.Owned
import Retrace.Proofs.Reconstruct.Places

/-! The order of own ranges.

The pieces of a scope stand one after the other, and so do the guards inside of a piece (`Tidy`).
An activation that is scanned keeps its own ranges in the order of the text, all of them in front of
what is left of its scope, but for the first piece (`Ordered`): of that, some guards may be its own,
each with only covered guards in front of it. For this reason a guard that is scanned again, behind
a child, is not added behind a later one: it is covered already. A piece that is added takes the
place of its guards. At its end a `for` loop adds its update clauses behind all the rest.
`ordered_of_reconstruct` says what this makes of a node. -/
namespace Retrace.Reconstruct
open Java Source Instrument Trace

/-! ### The pieces of a scope -/

/-- The pieces stand one after the other, and the guards of a piece one after the other in it. -/
structure Tidy (pieces : List Piece) : Prop where
  ordered : pieces.Pairwise fun p q => p.range.Before q.range
  inside : ∀ p ∈ pieces, ∀ g ∈ p.guards, p.range.contains g = true
  guards : ∀ p ∈ pieces, p.guards.Pairwise Range.Before

theorem pairwise_guardRanges {f : File} (h : f.Laid) (hq : f.Sequenced) (c : Nat) :
    (guardRanges f c).Pairwise Range.Before := by
  have hsingle : ∀ o : Option Range, o.toList.Pairwise Range.Before := by
    intro o
    cases o with
    | none => exact .nil
    | some r => exact List.pairwise_singleton _ r
  have hchildren : ∀ {l : List Nat}, l.Sublist (f.children c) →
      (l.map f.range).Pairwise Range.Before :=
    fun hl => List.pairwise_map.mpr ((h.ordered c).sublist hl)
  unfold guardRanges
  split
  · exact hsingle _
  · exact hsingle _
  · exact hsingle _
  · rename_i hform
    exact hchildren (hq.inTurn (hq.header hform) (by decide))
  · rename_i hform
    refine List.pairwise_append.mpr ⟨?_, hsingle _, fun v hv x hx => ?_⟩
    · unfold guardRanges.loopVariable
      split
      · exact List.pairwise_singleton _ _
      · exact .nil
    · -- The declaration ends with the name, and the name stands in front of the collection.
      obtain ⟨value, hvalue, rfl⟩ := Option.map_eq_some_iff.mp (Option.mem_toList.mp hx)
      unfold guardRanges.loopVariable at hv
      split at hv
      · rename_i type name _ hname
        rw [List.mem_singleton.mp hv]
        have hmem : name ∈ f.childrenUnder c .name :=
          (f.child?_sublist c .name).subset (Option.mem_toList.mpr hname)
        have hordered := (h.ordered c).sublist (hq.inTurn (hq.element hform) (by decide))
        exact (List.pairwise_append.mp hordered).2.2 name hmem value (Option.mem_toList.mpr hvalue)
      · cases hv
  · exact .nil

/-- The block of a trace point is its node or a child of it. -/
theorem child_of_probeBlock? {f : File} (h : f.Linked) {i b : Nat} {kind : PointKind}
    (hb : probeBlock? f i kind = some b) : b = i ∨ b ∈ f.children i := by
  unfold probeBlock? at hb
  split at hb
  · exact .inl (Option.some.inj hb).symm
  · exact .inl (Option.some.inj hb).symm
  · exact .inl (Option.some.inj hb).symm
  · exact .inr (List.mem_of_find?_eq_some hb)
  · exact .inr (h.child_of_child? hb)

theorem scopeStatements_sublist {f : File} {i b : Nat} {kind : PointKind}
    (hb : probeBlock? f i kind = some b) : (scopeStatements f i kind).Sublist (f.children b) := by
  unfold scopeStatements scopeBody?
  rw [hb]
  exact List.filter_sublist

namespace Activation

theorem tidy_pieces {s : Setting} {a : Activation} (h : (a.fileOf s).Laid)
    (hs : (a.fileOf s).Shaped) (hq : (a.fileOf s).Sequenced) : Tidy (pieces s a) where
  ordered := by
    unfold pieces Plain.scope
    cases hb : probeBlock? (a.fileOf s) a.point.ref.node a.point.kind with
    | none =>
      unfold scopeStatements scopeBody?
      rw [hb]
      exact .nil
    | some b =>
      exact List.pairwise_map.mpr ((h.ordered b).sublist (scopeStatements_sublist hb))
  inside p hp g hg := by
    obtain ⟨c, _, rfl⟩ := List.mem_map.mp hp
    exact ((guard_of_mem h hs hg).2.part h).1
  guards p hp := by
    obtain ⟨c, _, rfl⟩ := List.mem_map.mp hp
    exact pairwise_guardRanges h hq c

/-! ### Adding ranges in order -/

theorem pairwise_addRange {a : Activation} {r : Range} (h : a.ranges.Pairwise Range.Before)
    (hr : ¬a.Covers r → ∀ q ∈ a.ranges, r.contains q = true ∨ q.Before r) :
    (a.addRange r).ranges.Pairwise Range.Before := by
  by_cases hcovers : a.Covers r
  · rw [addRange_of_covers hcovers]
    exact h
  · rw [ranges_addRange hcovers]
    refine List.pairwise_append.mpr
      ⟨h.sublist List.filter_sublist, List.pairwise_singleton _ r, fun q hq r' hr' => ?_⟩
    obtain ⟨hq, hnot⟩ := List.mem_filter.mp hq
    rw [List.mem_singleton.mp hr']
    exact (hr hcovers q hq).resolve_left (by simpa using hnot)

/-- Ranges are added behind those that are kept. -/
theorem ranges_addRanges (rs : List Range) (a : Activation) :
    ∃ kept added, (rs.foldl addRange a).ranges = kept ++ added ∧ kept.Sublist a.ranges ∧
      added.Sublist rs := by
  induction rs generalizing a with
  | nil => exact ⟨a.ranges, [], (List.append_nil _).symm, List.Sublist.refl _, .slnil⟩
  | cons r rs ih =>
    obtain ⟨kept, added, hranges, hkept, hadded⟩ := ih (a.addRange r)
    by_cases hcovers : a.Covers r
    · rw [addRange_of_covers hcovers] at hkept
      exact ⟨kept, added, hranges, hkept, hadded.cons r⟩
    · rw [ranges_addRange hcovers] at hkept
      obtain ⟨front, back, rfl, hfront, hback⟩ := List.sublist_append_iff.mp hkept
      refine ⟨front, back ++ added, ?_, hfront.trans List.filter_sublist, hback.append hadded⟩
      rw [List.foldl_cons, hranges, List.append_assoc]

/-! ### What an activation keeps -/

/-- The range is a guard of the piece, and all guards in front of it are covered. -/
def Trails (a : Activation) (p : Piece) (q : Range) : Prop :=
  ∃ front back, p.guards = front ++ q :: back ∧ ∀ g ∈ front, a.Covers g

/-- The range stands in front of what is left of the scope, or is a guard of its first piece. -/
def Precedes (a : Activation) (todo : List Piece) (q : Range) : Prop :=
  ∀ p rest, todo = p :: rest →
    (∀ p' ∈ rest, q.Before p'.range) ∧ (q.Before p.range ∨ a.Trails p q)

theorem Precedes.mono {a b : Activation} {todo : List Piece} {q : Range}
    (hab : ∀ r, a.Covers r → b.Covers r) (h : a.Precedes todo q) : b.Precedes todo q := by
  intro p rest htodo
  obtain ⟨hrest, hfirst⟩ := h p rest htodo
  refine ⟨hrest, hfirst.imp_right fun ⟨front, back, hguards, hfront⟩ => ?_⟩
  exact ⟨front, back, hguards, fun g hg => hab g (hfront g hg)⟩

/-- The own ranges are parts of the scope in order, in front of what is left of it. -/
structure Ordered (s : Setting) (a : Activation) : Prop where
  coherent : Coherent s a
  sweeping : Sweeping s a
  parts : ∀ q ∈ a.ranges, ∃ p ∈ pieces s a, q ∈ p.range :: p.guards
  apart : a.ranges.Pairwise Range.Before
  ahead : ∀ q ∈ a.ranges, a.Precedes a.scan.todo q

/-- A guard that is not covered comes behind those that the activation has taken. -/
theorem before_of_trails {a : Activation} {p : Piece} {front gs : List Range} {g q : Range}
    (hguards : p.guards = front ++ g :: gs) (hordered : p.guards.Pairwise Range.Before)
    (hnot : ¬a.Covers g) (hq : q ∈ a.ranges) (htrails : a.Trails p q) : q.Before g := by
  obtain ⟨front', back, hguards', hfront'⟩ := htrails
  have hne : q ≠ g := by
    rintro rfl
    exact hnot (.inl ⟨q, hq, Range.contains_refl q⟩)
  have hmem : q ∈ front := by
    rw [hguards] at hguards'
    rcases List.append_eq_append_iff.mp hguards' with ⟨between, rfl, heq⟩ | ⟨between, rfl, heq⟩
    · cases between with
      | nil => exact absurd (List.cons.inj heq).1.symm hne
      | cons x between =>
        refine absurd (hfront' g ?_) hnot
        rw [(List.cons.inj heq).1]
        exact List.mem_append_right _ List.mem_cons_self
    · cases between with
      | nil => exact absurd (List.cons.inj heq).1 hne
      | cons x between =>
        rw [← (List.cons.inj heq).1]
        exact List.mem_append_right _ List.mem_cons_self
  rw [hguards] at hordered
  exact (List.pairwise_append.mp hordered).2.2 q hmem g List.mem_cons_self

section Ordered
variable {s : Setting} {a : Activation} (ha : Ordered s a) (htidy : Tidy (pieces s a))
include ha htidy

/-- Where a range is added, the others lie in it or in front of it, and it stands in front of what
is left then. -/
theorem Ordered.taken {scan : Scan} {own : Option Range}
    (hscan : a.scan.step a.cursor = .go scan own) {r : Range} (hr : r ∈ own) :
    (¬a.Covers r → ∀ q ∈ a.ranges, r.contains q = true ∨ q.Before r) ∧
      a.Precedes scan.todo r := by
  have hsteps := Scan.steps_of_eq hscan
  have hwithin := ha.coherent.within
  have hahead := ha.ahead
  have hpassed := ha.sweeping.behind.passed
  generalize a.scan = before at hsteps hwithin hahead hpassed
  cases hsteps with
  | @guardSettled p rest skip g gs _ _ =>
    obtain ⟨_, rfl⟩ := Scan.own_eq_some hr
    have hp : p ∈ pieces s a := hwithin.mem List.mem_cons_self
    obtain ⟨⟨front, hguards, hfront⟩, _⟩ := hpassed p rfl
    have hg : p.range.contains g = true := htidy.inside p hp g (by simp [hguards])
    refine ⟨fun hnot q hq => .inr ?_, fun p' rest' htodo => ?_⟩
    · rcases (hahead q hq p rest rfl).2 with hbefore | htrails
      · exact hbefore.mono (Range.contains_refl q) hg
      · exact before_of_trails hguards (htidy.guards p hp) hnot hq htrails
    · cases htodo
      refine ⟨fun p' hp' => ?_, .inr ⟨front, gs, hguards, hfront⟩⟩
      have hordered := List.pairwise_cons.mp (htidy.ordered.sublist hwithin.1.sublist)
      exact (hordered.1 p' hp').mono hg (Range.contains_refl _)
  | @settled p rest skip _ =>
    obtain ⟨_, rfl⟩ := Scan.own_eq_some hr
    have hp : p ∈ pieces s a := hwithin.mem List.mem_cons_self
    refine ⟨fun _ q hq => ?_, fun p' rest' htodo => ?_⟩
    · rcases (hahead q hq p rest rfl).2 with hbefore | ⟨front, back, hguards, _⟩
      · exact .inr hbefore
      · exact .inl (htidy.inside p hp q (by simp [hguards]))
    · have hordered := List.pairwise_cons.mp (htidy.ordered.sublist hwithin.1.sublist)
      cases htodo
      exact ⟨fun p'' hp'' => hordered.1 p'' (List.mem_cons_of_mem p' hp''),
        .inl (hordered.1 p' List.mem_cons_self)⟩
  | _ => cases hr

omit htidy in
/-- What has been taken stays in front of what is left. -/
theorem Ordered.still_ahead {scan : Scan} {own : Option Range}
    (hscan : a.scan.step a.cursor = .go scan own) : ∀ q ∈ a.ranges, a.Precedes scan.todo q := by
  intro q hq
  rcases Scan.todo_of_go hscan with htodo | ⟨p, htodo, _⟩
  · rw [htodo]
    exact ha.ahead q hq
  · intro p' rest' htodo'
    have hrest := (ha.ahead q hq p scan.todo htodo).1
    rw [htodo'] at hrest
    exact ⟨fun p'' hp'' => hrest p'' (List.mem_cons_of_mem p' hp''),
      .inl (hrest p' List.mem_cons_self)⟩

theorem Ordered.go {scan : Scan} {own : Option Range}
    (hscan : a.scan.step a.cursor = .go scan own) :
    Ordered s (({a with scan := scan}).addOwn own) := by
  have hcoherent := (coherent_lasting s).go ha.coherent hscan
  have hsweeping := (sweeping_persisting s).go ha.sweeping hscan
  have hstill := ha.still_ahead hscan
  cases own with
  | none => exact ⟨hcoherent, hsweeping, ha.parts, ha.apart, hstill⟩
  | some r =>
    obtain ⟨hplace, hprecedes⟩ := ha.taken htidy hscan rfl
    have hmem : ∀ q ∈ (({a with scan := scan}).addRange r).ranges, q = r ∨ q ∈ a.ranges :=
      fun q hq => mem_ranges_addRange (a := {a with scan := scan}) hq
    have hcovers : ∀ q, a.Covers q → (({a with scan := scan}).addRange r).Covers q :=
      fun q hq => Covers.addRange (a := {a with scan := scan}) hq r
    have hapart : (({a with scan := scan}).addRange r).ranges.Pairwise Range.Before :=
      pairwise_addRange (a := {a with scan := scan}) ha.apart hplace
    have hprecede : ∀ q ∈ (({a with scan := scan}).addRange r).ranges,
        (({a with scan := scan}).addRange r).Precedes scan.todo q := by
      intro q hq
      rcases hmem q hq with rfl | hq
      · exact hprecedes.mono hcovers
      · exact (hstill q hq).mono hcovers
    have hpart : ∀ q ∈ (({a with scan := scan}).addRange r).ranges,
        ∃ p ∈ pieces s a, q ∈ p.range :: p.guards := by
      intro q hq
      rcases hmem q hq with rfl | hq
      · exact Scan.own_of_go ha.coherent.within hscan
      · exact ha.parts q hq
    obtain ⟨_, heq⟩ := addRange_eq {a with scan := scan} r
    rw [addOwn, heq] at hcoherent hsweeping ⊢
    rw [heq] at hapart hprecede hpart
    exact ⟨hcoherent, hsweeping, hpart, hapart, hprecede⟩

end Ordered

theorem ordered_persisting {s : Setting} (h : ∀ n, (s.project.file n).Laid)
    (hs : ∀ n, (s.project.file n).Shaped) (hq : ∀ n, (s.project.file n).Sequenced) :
    Machine.Persisting s (Ordered s) where
  start index e hpoint := ⟨coherent_start hpoint index e,
    (sweeping_persisting s).start index e hpoint, (fun _ hr => nomatch hr), .nil,
    fun _ hr => nomatch hr⟩
  go ha hscan := ha.go (tidy_pieces (h _) (hs _) (hq _)) hscan
  exhaust ha hscan := by
    refine ⟨(coherent_lasting s).persisting.exhaust ha.coherent hscan,
      (sweeping_persisting s).exhaust ha.sweeping hscan, ha.parts, ha.apart, fun q hq => ?_⟩
    rw [(Scan.todo_of_ask hscan).1]
    exact ha.ahead q hq
  enter ha hscan hpoint henter := by
    have hcoherent := (coherent_lasting s).persisting.enter ha.coherent hscan hpoint henter
    have hsweeping := (sweeping_persisting s).enter ha.sweeping hscan hpoint henter
    obtain ⟨_, _, _, rfl⟩ := rebound_enter? henter
    refine ⟨hcoherent, hsweeping, ha.parts, ha.apart, fun q hq => ?_⟩
    rw [(Scan.todo_of_ask hscan).1]
    exact ha.ahead q hq
  resume {a} e ha := by
    have hcoherent := (coherent_lasting s).resume e ha.coherent
    have hsweeping := (sweeping_persisting s).resume e ha.sweeping
    have hahead : ∀ q ∈ a.ranges, (a.resume e).Precedes a.scan.todo q :=
      fun q hq => (ha.ahead q hq).mono fun r hr => hr.resume e
    obtain ⟨_, _, _, hresume⟩ := resume_eq a e
    rw [hresume] at hcoherent hsweeping hahead ⊢
    exact ⟨hcoherent, hsweeping, ha.parts, ha.apart, hahead⟩

/-! ### The end of an activation -/

section Finished
variable {s : Setting} {a : Activation}

/-- The code of an update clause lies apart from the scope. -/
theorem update_apart (h : (a.fileOf s).Laid) (hs : (a.fileOf s).Shaped)
    (hkind : a.point.kind = .forLoop) {p : Piece} (hp : p ∈ pieces s a) {q : Range}
    (hq : q ∈ p.range :: p.guards) {c : Nat}
    (hc : c ∈ (a.fileOf s).childrenUnder a.point.ref.node .update) :
    q.Apart ((a.fileOf s).range c) := by
  obtain ⟨x, hx, rfl⟩ := List.mem_map.mp hp
  have hqx : ((a.fileOf s).range x).contains q = true := by
    rcases List.mem_cons.mp hq with rfl | hq
    · exact Range.contains_refl _
    · exact ((guard_of_mem h hs hq).2.part h).1
  unfold Plain.scope scopeStatements scopeBody? at hx
  rw [hkind] at hx
  cases hbody : (a.fileOf s).child? a.point.ref.node .body with
  | none =>
    rw [show probeBlock? (a.fileOf s) a.point.ref.node .forLoop = none from hbody] at hx
    cases hx
  | some b =>
    rw [show probeBlock? (a.fileOf s) a.point.ref.node .forLoop = some b from hbody] at hx
    have hxb := h.nested (List.mem_filter.mp hx).1
    -- A node stands under one field only, so the body is no update clause.
    have hne : b ≠ c := by
      rintro rfl
      obtain ⟨e, he, heq⟩ := List.mem_map.mp hc
      obtain ⟨hmem, hslot⟩ := List.mem_filter.mp he
      have hsame := List.inj_on_of_nodup_map (h.single _) (mem_fields_of_child? hbody) hmem heq.symm
      rw [← hsame] at hslot
      exact absurd hslot Bool.false_ne_true
    have hapart := h.siblings (h.child_of_child? hbody) (h.child_of_childrenUnder hc) hne
    exact hapart.mono (Range.contains_trans hxb hqx) (Range.contains_refl _)

/-- The range is one of a statement of the scope or of one of its guards. -/
def InScope (s : Setting) (own : TracePoint) (r : Range) : Prop :=
  ∃ c ∈ scopeStatements (s.file own.ref) own.ref.node own.kind,
    r ∈ (s.file own.ref).range c :: guardRanges (s.file own.ref) c

/-- The range is one of an update clause of a `for` loop. -/
def IsUpdate (s : Setting) (own : TracePoint) (r : Range) : Prop :=
  own.kind = .forLoop ∧
    ∃ c ∈ (s.file own.ref).childrenUnder own.ref.node .update, r = (s.file own.ref).range c

theorem Ordered.finish (ha : Ordered s a) (hq : (a.fileOf s).Sequenced) (h : (a.fileOf s).Laid) :
    ∃ body updates, (a.finish s).ranges = body ++ updates ∧ body.Pairwise Range.Before ∧
      updates.Pairwise Range.Before ∧
      (∀ q ∈ body, ∃ p ∈ pieces s a, q ∈ p.range :: p.guards) ∧
      ∀ u ∈ updates, IsUpdate s a.point u := by
  unfold Activation.finish
  split
  · rename_i hkind
    have hkind : a.point.kind = .forLoop := by simpa using hkind
    obtain ⟨kept, added, hranges, hkept, hadded⟩ := ranges_addRanges
      (((a.fileOf s).childrenUnder a.point.ref.node .update).map (a.fileOf s).range) a
    have hupdates := List.pairwise_map.mpr
      ((h.ordered a.point.ref.node).sublist (hq.childrenUnder a.point.ref.node .update))
    refine ⟨kept, added, hranges, ha.apart.sublist hkept, hupdates.sublist hadded,
      fun q hq => ha.parts q (hkept.subset hq), fun u hu => ⟨hkind, ?_⟩⟩
    obtain ⟨c, hc, rfl⟩ := List.mem_map.mp (hadded.subset hu)
    exact ⟨c, hc, rfl⟩
  · exact ⟨a.ranges, [], (List.append_nil _).symm, ha.apart, .nil, ha.parts,
      fun _ hu => nomatch hu⟩

end Finished

/-- A part of a scope lies in the trace point. -/
theorem InScope.inside {s : Setting} {own : TracePoint} (h : (s.file own.ref).Laid)
    (hs : (s.file own.ref).Shaped) {r : Range} (hr : InScope s own r) :
    ((s.file own.ref).range own.ref.node).contains r = true := by
  obtain ⟨c, hc, hr⟩ := hr
  have hcr : ((s.file own.ref).range c).contains r = true := by
    rcases List.mem_cons.mp hr with rfl | hr
    · exact Range.contains_refl _
    · exact ((guard_of_mem h hs hr).2.part h).1
  unfold scopeStatements scopeBody? at hc
  cases hb : probeBlock? (s.file own.ref) own.ref.node own.kind with
  | none =>
    rw [hb] at hc
    cases hc
  | some b =>
    rw [hb] at hc
    have hbr := Range.contains_trans (h.nested (List.mem_filter.mp hc).1) hcr
    rcases child_of_probeBlock? h.toLinked hb with rfl | hchild
    · exact hbr
    · exact Range.contains_trans (h.nested hchild) hbr

end Activation

open Activation in
/-- The own ranges of every node but the root lie inside of its trace point and lie apart, and they
stand in the order of the text, the update clauses of a `for` loop behind all others. -/
theorem ordered_of_reconstruct {sources : List (String × String)} {points : PointMap}
    (horder : ∀ f ∈ (Project.ofSources sources).fileList, f.InOrder) {partially : Bool}
    {stream : Stream} {r : Reconstruction}
    (h : reconstruct (.of (Project.ofSources sources) points) partially stream = .ok r) :
    let s := Setting.of (Project.ofSources sources) points
    r.tree.ranges 0 = [] ∧ ∀ i, 0 < i → i < r.tree.size → ∃ own, Machine.Bears s r.tree i own ∧
      (∀ q ∈ r.tree.ranges i, ((s.file own.ref).range own.ref.node).contains q = true) ∧
      (r.tree.ranges i).Pairwise (fun q q' => q.overlaps q' = false) ∧
      ∃ body updates, r.tree.ranges i = body ++ updates ∧
        body.Pairwise Range.Before ∧ updates.Pairwise Range.Before ∧
        (∀ q ∈ body, InScope s own q) ∧ ∀ q ∈ updates, IsUpdate s own q := by
  intro s
  have hlaid : ∀ n, (s.project.file n).Laid := laid_ofSources horder
  have hshaped : ∀ n, (s.project.file n).Shaped := shaped_ofSources
  have hsequenced : ∀ n, (s.project.file n).Sequenced := sequenced_ofSources
  refine ⟨ranges_root h, fun i hpos hi => ?_⟩
  obtain ⟨a, ha, _, hbears, hranges, _⟩ :=
    behind_of_reconstruct (ordered_persisting hlaid hshaped hsequenced) h hpos hi
  obtain ⟨body, updates, hfinish, hbody, hupdates, hparts, hupdate⟩ :=
    ha.finish (hsequenced _) (hlaid _)
  have hscope : ∀ q ∈ body, InScope s a.point q := by
    intro q hq
    obtain ⟨p, hp, hqp⟩ := hparts q hq
    obtain ⟨c, hc, rfl⟩ := List.mem_map.mp hp
    exact ⟨c, hc, hqp⟩
  rw [← hranges] at hfinish
  refine ⟨a.point, hbears, fun q hq => ?_, ?_, body, updates, hfinish, hbody, hupdates, hscope,
    hupdate⟩
  · rw [hfinish] at hq
    rcases List.mem_append.mp hq with hq | hq
    · exact (hscope q hq).inside (hlaid _) (hshaped _)
    · obtain ⟨_, c, hc, rfl⟩ := hupdate q hq
      exact (hlaid _).nested ((hlaid _).child_of_childrenUnder hc)
  · rw [hfinish]
    refine List.pairwise_append.mpr ⟨hbody.imp fun hbefore => ?_, hupdates.imp fun hbefore => ?_,
      fun q hq u hu => ?_⟩
    · exact Range.overlaps_eq_false_iff.mpr (.inl hbefore)
    · exact Range.overlaps_eq_false_iff.mpr (.inl hbefore)
    · obtain ⟨p, hp, hqp⟩ := hparts q hq
      obtain ⟨hkind, c, hc, rfl⟩ := hupdate u hu
      exact Range.overlaps_eq_false_iff.mpr
        (update_apart (hlaid _) (hshaped _) hkind hp hqp hc)

open Activation in
/-- The update clause stands in front of the two statements in the text and behind them here. -/
theorem ordered_round_with_update :
    let s := Setting.ofSources
      [("A.java", "class A{void m(){for(int i=0;i<2;i++){int x=1;f();x++;}}void f(){}}")]
    (∀ f ∈ s.project.fileList, f.InOrder) ∧
    ∃ r own, reconstruct s false (Stream.ofTokens [1, 2, 3, 2, 3]) = .ok r ∧
      r.tree.ranges 2 = [⟨1, 39, 1, 46⟩, ⟨1, 51, 1, 54⟩, ⟨1, 34, 1, 36⟩] ∧
      Machine.Bears s r.tree 2 own ∧
      (∀ q ∈ r.tree.ranges 2, ((s.file own.ref).range own.ref.node).contains q = true) ∧
      (r.tree.ranges 2).Pairwise (fun q q' => q.overlaps q' = false) ∧
      ∃ body updates, r.tree.ranges 2 = body ++ updates ∧
        body.Pairwise Range.Before ∧ updates.Pairwise Range.Before ∧
        (∀ q ∈ body, InScope s own q) ∧ ∀ q ∈ updates, IsUpdate s own q := by
  intro s
  have hrun : (Machine.outcome? s 100 [1, 2, 3, 2, 3]).any fun r =>
      r.unconsumed = 0 ∧ 2 < r.tree.size ∧
        r.tree.ranges 2 = [⟨1, 39, 1, 46⟩, ⟨1, 51, 1, 54⟩, ⟨1, 34, 1, 36⟩] := by
    decide +kernel
  obtain ⟨r, hr, hfacts⟩ := (Option.any_eq_true _ _).mp hrun
  obtain ⟨hunconsumed, hsize, hranges⟩ := of_decide_eq_true hfacts
  have horder : ∀ f ∈ s.project.fileList, f.InOrder := inOrder_ofSources (by decide)
  have hok := Machine.reconstruct_wholly (Machine.reconstruct_of_outcome? hr) hunconsumed
  obtain ⟨own, hbears, hinside, hapart, hbody⟩ :=
    (ordered_of_reconstruct horder hok).2 2 (by decide) hsize
  exact ⟨horder, r, own, hok, hranges, hbears, hinside, hapart, hbody⟩

end Retrace.Reconstruct
