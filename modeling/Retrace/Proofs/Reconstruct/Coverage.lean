import Retrace.Proofs.Reconstruct.Edges
import Retrace.Proofs.Reconstruct.Endings
import Retrace.Proofs.Reconstruct.OwnRanges

/-! No code of a scope disappears.

A range is covered when it lies in one of the activation's own ranges or when the place of a child
lies in it. A range that is added is covered from then on, and what is covered stays so
(`Covers.addRange`): a range is dropped only for a greater one. A scan leaves only covered code
behind (`Behind`): the pieces in front of the one where it stands, in that piece the guards in front
of its place, and whatever it skips, which holds a child. So an activation that has been scanned to
its end covers its whole scope, and the update clauses of a `for` loop with it.
`covered_of_reconstruct` says this of the nodes of a reconstructed tree. -/
namespace Retrace.Reconstruct
open Source Instrument Trace

namespace Activation
variable {a : Activation} {q r : Range}

/-- The range lies in one of the activation's own, or the place of a child lies in it. -/
def Covers (a : Activation) (r : Range) : Prop :=
  (∃ q ∈ a.ranges, q.contains r = true) ∨ ∃ k ∈ a.markers, r.contains k = true

theorem addRange_of_covers (h : a.Covers r) : a.addRange r = a := by
  unfold addRange
  by_cases hmarkers : a.markers.any r.contains = true
  · rw [if_pos hmarkers]
  · rw [if_neg hmarkers, if_pos]
    refine List.any_eq_true.mpr (h.resolve_right fun ⟨k, hk, hrk⟩ => hmarkers ?_)
    exact List.any_eq_true.mpr ⟨k, hk, hrk⟩

theorem ranges_addRange (h : ¬a.Covers r) :
    (a.addRange r).ranges = a.ranges.filter (fun q => !r.contains q) ++ [r] := by
  obtain ⟨hranges, hmarkers⟩ := not_or.mp h
  unfold addRange
  rw [if_neg fun hany => hmarkers (List.any_eq_true.mp hany),
    if_neg fun hany => hranges (List.any_eq_true.mp hany)]

theorem covers_addRange (a : Activation) (r : Range) : (a.addRange r).Covers r := by
  by_cases h : a.Covers r
  · rw [addRange_of_covers h]
    exact h
  · refine .inl ⟨r, ?_, Range.contains_refl r⟩
    simp [ranges_addRange h]

/-- What is dropped lies in what is added. -/
theorem Covers.addRange (h : a.Covers q) (r : Range) : (a.addRange r).Covers q := by
  by_cases hr : a.Covers r
  · rw [addRange_of_covers hr]
    exact h
  · rcases h with ⟨p, hp, hpq⟩ | h
    · by_cases hrp : r.contains p = true
      · exact .inl ⟨r, by simp [ranges_addRange hr], Range.contains_trans hrp hpq⟩
      · exact .inl ⟨p, by simp [ranges_addRange hr, hp, hrp], hpq⟩
    · exact .inr (by rwa [markers_addRange])

theorem Covers.addRanges (h : a.Covers q) (rs : List Range) :
    (rs.foldl Activation.addRange a).Covers q := by
  induction rs generalizing a with
  | nil => exact h
  | cons r rs ih => exact ih (h.addRange r)

theorem covers_addRanges {rs : List Range} (hr : r ∈ rs) (a : Activation) :
    (rs.foldl addRange a).Covers r := by
  induction rs generalizing a with
  | nil => cases hr
  | cons q rs ih =>
    rcases List.mem_cons.mp hr with rfl | hr
    · exact (covers_addRange a r).addRanges rs
    · exact ih hr (a.addRange q)

theorem Covers.resume (h : a.Covers q) (e : Entrance) : (a.resume e).Covers q := by
  have hranges : (a.resume e).ranges = a.ranges := by
    obtain ⟨_, _, _, hresume⟩ := resume_eq a e
    rw [hresume]
  refine h.imp (fun h => by rwa [hranges]) fun ⟨k, hk, hqk⟩ => ⟨k, ?_, hqk⟩
  rw [markers_resume]
  exact List.mem_append_right _ hk

end Activation

/-! ### What a scan leaves behind -/

namespace Scan
variable {P : Range → Prop} {pieces : List Piece} {cursor : Cursor} {s t : Scan}

/-- The guards in front of the place where the scan stands have `P`, and so has a guard that it
skips. -/
def Passed (P : Range → Prop) (guards : List Range) : Place → Prop
  | .before => True
  | .atGuards => True
  | .inGuards gs _ skip =>
    (∃ front, guards = front ++ gs ∧ ∀ g ∈ front, P g) ∧ (skip = true → ∀ g ∈ gs.head?, P g)
  | .after => ∀ g ∈ guards, P g

theorem Passed.mono {Q : Range → Prop} {guards : List Range} {place : Place}
    (hPQ : ∀ r, P r → Q r) (h : Passed P guards place) : Passed Q guards place := by
  cases place with
  | before => trivial
  | atGuards => trivial
  | inGuards gs entered skip =>
    obtain ⟨⟨front, hguards, hfront⟩, hskip⟩ := h
    exact ⟨⟨front, hguards, fun g hg => hPQ g (hfront g hg)⟩,
      fun hskipped g hg => hPQ g (hskip hskipped g hg)⟩
  | after => exact fun g hg => hPQ g (h g hg)

/-- What the scan has left behind has `P`. -/
structure Behind (P : Range → Prop) (pieces : List Piece) (s : Scan) : Prop where
  dropped : ∀ p ∈ pieces, p ∈ s.todo ∨ ∀ r ∈ p.range :: p.guards, P r
  passed : ∀ p ∈ s.todo.head?, Passed P p.guards s.place
  skipped : ∀ p ∈ s.todo.head?, s.skip = true → P p.range

theorem behind_ofPieces (P : Range → Prop) (pieces : List Piece) :
    Behind P pieces (ofPieces pieces) :=
  ⟨fun _ hp => .inl hp, fun _ _ => trivial, fun _ _ hskip => nomatch hskip⟩

theorem Behind.mono {Q : Range → Prop} (hPQ : ∀ r, P r → Q r) (h : Behind P pieces s) :
    Behind Q pieces s where
  dropped p hp := (h.dropped p hp).imp_right fun hall r hr => hPQ r (hall r hr)
  passed p hp := (h.passed p hp).mono hPQ
  skipped p hp hskip := hPQ _ (h.skipped p hp hskip)

/-- In the same piece, the scan may go on to any place in front of which all has `P`. -/
theorem Behind.move {p : Piece} {rest : List Piece} {place place' : Place} {skip skip' : Bool}
    (h : Behind P pieces ⟨p :: rest, place, skip⟩) (hplace : Passed P p.guards place')
    (hskip : skip' = true → P p.range) : Behind P pieces ⟨p :: rest, place', skip'⟩ where
  dropped := h.dropped
  passed q hq := by
    cases hq
    exact hplace
  skipped q hq := by
    cases hq
    exact hskip

theorem holds_of_holdsChild (hchild : ∀ k, cursor = .child k → ∀ r, r.contains k = true → P r)
    {r : Range} (h : verdict cursor r = .holdsChild) : P r := by
  cases cursor with
  | child k =>
    refine hchild k rfl r ?_
    simp only [verdict] at h
    split at h
    · assumption
    · split at h <;> cases h
  | unset => cases h
  | exhausted => cases h

/-- The scan skips only what holds the child that has ended. -/
theorem Behind.ask (h : Behind P pieces s) (hstep : step cursor s = .ask t)
    (hchild : ∀ k, cursor = .child k → ∀ r, r.contains k = true → P r) : Behind P pieces t := by
  cases steps_of_eq hstep with
  | look _ => exact h.move trivial (h.skipped _ rfl)
  | lookIn _ => exact h.move (h.passed _ rfl) (h.skipped _ rfl)
  | guardAgain _ => exact h.move (h.passed _ rfl) (h.skipped _ rfl)
  | guardChild hverdict =>
    refine h.move ⟨(h.passed _ rfl).1, fun _ g hg => ?_⟩ (h.skipped _ rfl)
    cases hg
    exact holds_of_holdsChild hchild hverdict
  | child hverdict => exact h.move trivial fun _ => holds_of_holdsChild hchild hverdict
  | again _ => exact h.move trivial (h.skipped _ rfl)

theorem holds_of_own {skip : Bool} {r : Range} (hown : ∀ q ∈ own skip r, P q)
    (hskip : skip = true → P r) : P r := by
  cases skip with
  | true => exact hskip rfl
  | false => exact hown r rfl

/-- The scan goes on behind what it has skipped or taken for the unit's own. -/
theorem Behind.go {taken : Option Range} (h : Behind P pieces s)
    (hstep : step cursor s = .go t taken) (hown : ∀ r ∈ taken, P r) : Behind P pieces t := by
  cases steps_of_eq hstep with
  | start _ => exact h.move trivial (h.skipped _ rfl)
  | bare hguards =>
    refine h.move (fun g hg => ?_) (h.skipped _ rfl)
    rw [hguards] at hg
    cases hg
  | guarded _ =>
    exact h.move ⟨⟨[], rfl, fun _ hg => nomatch hg⟩, fun hskip => nomatch hskip⟩ (h.skipped _ rfl)
  | past =>
    obtain ⟨⟨front, hguards, hfront⟩, _⟩ := h.passed _ rfl
    rw [List.append_nil] at hguards
    exact h.move (hguards ▸ hfront) (h.skipped _ rfl)
  | startIn _ => exact h.move (h.passed _ rfl) (h.skipped _ rfl)
  | @guardSettled p rest _ g gs _ _ =>
    obtain ⟨⟨front, hguards, hfront⟩, hskip⟩ := h.passed _ rfl
    have hg : P g := holds_of_own hown fun hskipped => hskip hskipped g rfl
    refine h.move ⟨⟨front ++ [g], by simpa using hguards, fun g' hg' => ?_⟩, nofun⟩
      (h.skipped _ rfl)
    rcases List.mem_append.mp hg' with hg' | hg'
    · exact hfront g' hg'
    · exact List.mem_singleton.mp hg' ▸ hg
  | @settled p rest _ _ =>
    have hp : P p.range := holds_of_own hown (h.skipped p rfl)
    refine ⟨fun q hq => ?_, fun _ _ => trivial, fun _ _ hskip => nomatch hskip⟩
    rcases h.dropped q hq with hq | hall
    · rcases List.mem_cons.mp hq with rfl | hq
      · refine .inr fun r hr => ?_
        rcases List.mem_cons.mp hr with rfl | hr
        · exact hp
        · exact h.passed q rfl r hr
      · exact .inl hq
    · exact .inr hall

theorem Behind.all (h : Behind P pieces s) (htodo : s.todo = []) :
    ∀ p ∈ pieces, ∀ r ∈ p.range :: p.guards, P r := by
  intro p hp
  refine (h.dropped p hp).resolve_left fun hmem => ?_
  rw [htodo] at hmem
  cases hmem

end Scan

/-! ### Activations -/

namespace Activation

/-- What the scan of the activation has left behind is covered. -/
structure Sweeping (s : Setting) (a : Activation) : Prop where
  cursor : ∀ k, a.cursor = .child k → k ∈ a.markers
  behind : Scan.Behind a.Covers (pieces s a) a.scan

theorem Sweeping.covers_of_child {s : Setting} {a : Activation} (h : Sweeping s a) :
    ∀ k, a.cursor = .child k → ∀ r, r.contains k = true → a.Covers r :=
  fun k hk _ hr => .inr ⟨k, h.cursor k hk, hr⟩

theorem sweeping_persisting (s : Setting) : Machine.Persisting s (Sweeping s) where
  start _ _ _ := ⟨(fun _ hk => nomatch hk), Scan.behind_ofPieces _ _⟩
  go {a scan own} ha hscan := by
    have hcovers : ∀ r, a.Covers r → (({a with scan := scan}).addOwn own).Covers r := by
      intro r hr
      rw [Machine.addOwn_eq_foldl]
      exact Covers.addRanges (a := {a with scan := scan}) hr _
    have hown : ∀ r ∈ own, (({a with scan := scan}).addOwn own).Covers r := by
      intro r hr
      rw [Machine.addOwn_eq_foldl]
      exact covers_addRanges (Option.mem_toList.mpr hr) _
    have hbehind := (ha.behind.mono hcovers).go hscan hown
    obtain ⟨_, heq⟩ := addOwn_eq {a with scan := scan} own
    rw [heq] at hbehind ⊢
    exact ⟨ha.cursor, hbehind⟩
  exhaust ha hscan := ⟨(fun _ hk => nomatch hk), ha.behind.ask hscan ha.covers_of_child⟩
  enter ha hscan _ henter := by
    obtain ⟨_, _, _, rfl⟩ := rebound_enter? henter
    exact ⟨(fun _ hk => nomatch hk), ha.behind.ask hscan ha.covers_of_child⟩
  resume {a} e ha := by
    have hbehind := ha.behind.mono fun r hr => hr.resume e
    refine ⟨fun k hk => ?_, ?_⟩
    · rw [cursor_resume] at hk
      rw [markers_resume]
      cases hmarker : e.marker? with
      | none =>
        rw [hmarker] at hk
        cases hk
      | some marker =>
        rw [hmarker] at hk
        cases hk
        exact List.mem_cons_self
    · obtain ⟨_, _, _, hresume⟩ := resume_eq a e
      rw [hresume] at hbehind ⊢
      exact hbehind

/-- An activation that has been scanned to its end covers its scope, and in a `for` loop the update
clauses. -/
theorem Sweeping.covers {s : Setting} {a : Activation} (h : Sweeping s a)
    (htodo : a.scan.todo = []) :
    (∀ p ∈ pieces s a, ∀ r ∈ p.range :: p.guards, (a.finish s).Covers r) ∧
      (a.point.kind = .forLoop → ∀ c ∈ (a.fileOf s).childrenUnder a.point.ref.node .update,
        (a.finish s).Covers ((a.fileOf s).range c)) := by
  constructor
  · intro p hp r hr
    have hcovers := h.behind.all htodo p hp r hr
    obtain ⟨rs, hfinish, _⟩ := Machine.finish_eq_foldl s a
    rw [hfinish]
    exact hcovers.addRanges rs
  · intro hkind c hc
    simp only [finish, hkind, beq_self_eq_true, if_true]
    exact covers_addRanges (List.mem_map_of_mem hc) a

end Activation

/-! ### Nodes -/

/-- The place that a child takes up in the code of a trace point: a call or a creation in its scope,
a call that the creation of an object evaluates, the body of a loop, or the code of a nested trace
point. -/
inductive Extent (s : Setting) (own inner : TracePoint) : Option Link → Range → Prop
  | site {x : Site} (site : x ∈ scopeSites (s.file own.ref) own.ref.node own.kind) :
    Extent s own inner (some (linkTo (s.file own.ref) x.node)) ((s.file own.ref).range x.node)
  | setup {call : Nat} {name : String} (named : (s.file inner.ref).name? inner.ref.node = some name)
    (called : calledName? (s.file own.ref) call = some name)
    (within : ((s.file own.ref).range own.ref.node).contains ((s.file own.ref).range call) = true) :
    Extent s own inner (some (linkTo (s.file own.ref) call)) ((s.file own.ref).range call)
  | round (kind : inner.kind.isLoop = true) (file : inner.ref.file = own.ref.file)
    (within : ((s.file own.ref).range own.ref.node).strictlyContains
      ((s.file own.ref).range inner.ref.node) = true) :
    Extent s own inner none ((s.file own.ref).range
      (((s.file own.ref).child? inner.ref.node .body).getD inner.ref.node))
  | unit (kind : inner.kind.isLoop = false) (file : inner.ref.file = own.ref.file)
    (within : ((s.file own.ref).range own.ref.node).strictlyContains
      ((s.file own.ref).range inner.ref.node) = true) :
    Extent s own inner none ((s.file own.ref).range inner.ref.node)

namespace Activation

theorem extent_of_enterMethod? {s : Setting} {a b : Activation} {inner : TracePoint} {e : Entrance}
    (ha : Coherent s a) (he : a.enterMethod? s inner.ref = some (e, b)) {k : Range}
    (hk : e.marker? = some k) : Extent s a.point inner e.link? k := by
  unfold enterMethod? at he
  obtain ⟨name, hname, he⟩ := Option.bind_eq_some_iff.mp he
  dsimp only at he
  split at he
  · rename_i x hx
    cases he
    cases hk
    have hsite := (mem_of_pickSite? hx).1
    rw [ha.sites] at hsite
    exact .site hsite
  · obtain ⟨call, hcall, he⟩ := Option.map_eq_some_iff.mp he
    cases he
    obtain ⟨c, _, hsame, _, _, x, _, hnode, hcalled⟩ := setup_of_setupCall? hcall
    unfold enterSetupCall at hk ⊢
    dsimp only [Entrance.marker?] at hk
    split at hk
    · rename_i hinside
      cases hk
      obtain ⟨hfile, hcontains⟩ := Bool.and_eq_true_iff.mp hinside
      have hown : s.file call = s.file a.point.ref := by
        unfold Setting.file
        rw [show call.file = a.point.ref.file by simpa using hfile]
      have hclass : s.file c = s.file a.point.ref := by
        rw [← hown]
        unfold Setting.file
        rw [hsame]
      rw [hown] at hcontains ⊢
      rw [hnode, hclass] at hcalled
      exact .setup hname hcalled hcontains
    · cases hk

theorem extent_of_enterCreation? {s : Setting} {a b : Activation} {inner : TracePoint}
    {e : Entrance} (ha : Coherent s a) (he : a.enterCreation? s inner.ref = some (e, b)) {k : Range}
    (hk : e.marker? = some k) : Extent s a.point inner e.link? k := by
  unfold enterCreation? at he
  dsimp only at he
  obtain ⟨_, _, he⟩ := Option.bind_eq_some_iff.mp he
  obtain ⟨_, _, he⟩ := Option.bind_eq_some_iff.mp he
  obtain ⟨⟨creation, c⟩, hc, he⟩ := Option.bind_eq_some_iff.mp he
  obtain ⟨_, _, he⟩ := Option.map_eq_some_iff.mp he
  cases he
  cases hk
  obtain ⟨x, hx, rfl⟩ := ha.creationFor? hc
  obtain ⟨_, _, _, rfl⟩ := rebound_creationFor? hc
  rw [ha.sites] at hx
  exact .site hx

theorem extent_of_enterNested? {s : Setting} {a : Activation} {inner : TracePoint} {e : Entrance}
    (he : a.enterNested? s inner = some e) {k : Range} (hk : e.marker? = some k) :
    Extent s a.point inner e.link? k := by
  unfold enterNested? at he
  dsimp only at he
  split at he
  · rename_i hinside
    obtain ⟨hfile, hwithin⟩ := Bool.and_eq_true_iff.mp hinside
    have hfile : inner.ref.file = a.point.ref.file := by simpa using hfile
    cases he
    cases hloop : inner.kind.isLoop with
    | true =>
      rw [hloop] at hk
      cases hk
      exact .round hloop hfile hwithin
    | false =>
      rw [hloop] at hk
      cases hk
      exact .unit hloop hfile hwithin
  · cases he

/-- A marker is the place of a call or a creation, or of nested code. -/
theorem extent_of_enter? {s : Setting} {a b : Activation} {inner : TracePoint} {e : Entrance}
    (ha : Coherent s a) (he : a.enter? s inner = some (e, b)) {k : Range}
    (hk : e.marker? = some k) : Extent s a.point inner e.link? k := by
  unfold enter? at he
  rcases Option.or_eq_some_iff.mp he with he | ⟨_, he⟩
  · split at he
    · exact extent_of_enterMethod? ha he hk
    · exact extent_of_enterCreation? ha he hk
    · cases he
      cases hk
    · cases he
  · obtain ⟨e', hnested, hpair⟩ := Option.map_eq_some_iff.mp he
    cases hpair
    exact extent_of_enterNested? hnested hk

end Activation

/-- The range lies in one of the node's own, or a child of the node has its place in it. -/
def Shown (s : Setting) (t : Tree) (i : Nat) (own : TracePoint) (r : Range) : Prop :=
  (∃ q ∈ t.ranges i, q.contains r = true) ∨
    ∃ c ∈ t.children i, ∃ inner k, Machine.Bears s t c inner ∧ Extent s own inner (t.link? c) k ∧
      r.contains k = true

open Activation in
/-- Every node of a reconstructed tree but the root shows all that its trace point runs: the
statements of the scope, what is evaluated in front of their bodies, and the update clauses of a
`for` loop. -/
theorem covered_of_reconstruct {s : Setting} {partially : Bool} {stream : Stream}
    {r : Reconstruction} (h : reconstruct s partially stream = .ok r) :
    ∀ i, 0 < i → i < r.tree.size → ∃ own, Machine.Bears s r.tree i own ∧
      (∀ c ∈ scopeStatements (s.file own.ref) own.ref.node own.kind,
        ∀ q ∈ (s.file own.ref).range c :: guardRanges (s.file own.ref) c,
          Shown s r.tree i own q) ∧
      (own.kind = .forLoop → ∀ c ∈ (s.file own.ref).childrenUnder own.ref.node .update,
        Shown s r.tree i own ((s.file own.ref).range c)) := by
  intro i hpos hi
  obtain ⟨a, ha, htodo, hbears, hranges, hmarked⟩ :=
    behind_of_reconstruct (sweeping_persisting s) h hpos hi
  have hshown : ∀ q, (a.finish s).Covers q → Shown s r.tree i a.point q := by
    intro q hq
    obtain ⟨_, hfinish⟩ := finish_eq s a
    have hmarkers : (a.finish s).markers = a.markers := by rw [hfinish]
    refine hq.imp (fun hq => by rwa [hranges]) fun ⟨k, hk, hqk⟩ => ?_
    rw [hmarkers] at hk
    obtain ⟨c, hchild, inner, b, b', e, hinner, hb, hown, henter, hmarker, hlink⟩ := hmarked k hk
    refine ⟨c, hchild, inner, k, hinner, ?_, hqk⟩
    rw [hlink, ← hown]
    exact extent_of_enter? hb henter hmarker
  obtain ⟨hscope, hupdates⟩ := ha.covers htodo
  refine ⟨a.point, hbears, fun c hc q hq => hshown q ?_,
    fun hkind c hc => hshown _ (hupdates hkind c hc)⟩
  exact hscope (piece (a.fileOf s) c) (List.mem_map_of_mem hc) q hq

/-- A call in the header of a loop, and one in each of its rounds. -/
theorem covered_round_of_loop :
    let s := Setting.ofSources
      [("A.java", "class A{void m(){for(int i=f();i<2;i++){g();}}int f(){return 0;}void g(){}}")]
    ∃ r own, reconstruct s false (Stream.ofTokens [1, 3, 2, 4, 2, 4]) = .ok r ∧
      Machine.Bears s r.tree 3 own ∧ own.kind = .forLoop ∧
      (∀ c ∈ scopeStatements (s.file own.ref) own.ref.node own.kind,
        ∀ q ∈ (s.file own.ref).range c :: guardRanges (s.file own.ref) c,
          Shown s r.tree 3 own q) ∧
      ∀ c ∈ (s.file own.ref).childrenUnder own.ref.node .update,
        Shown s r.tree 3 own ((s.file own.ref).range c) := by
  intro s
  have hrun : (Machine.outcome? s 120 [1, 3, 2, 4, 2, 4]).any fun r =>
      r.unconsumed = 0 ∧ 3 < r.tree.size ∧ r.tree.traceId? 3 = some (toString 2) ∧
        (s.points.get? 2).map TracePoint.kind = some .forLoop := by
    decide +kernel
  obtain ⟨r, hr, hfacts⟩ := (Option.any_eq_true _ _).mp hrun
  obtain ⟨hunconsumed, hsize, htrace, hpoint⟩ := of_decide_eq_true hfacts
  have hok := Machine.reconstruct_wholly (Machine.reconstruct_of_outcome? hr) hunconsumed
  obtain ⟨loop, hloop, hkind⟩ := Option.map_eq_some_iff.mp hpoint
  obtain ⟨own, hbears, hscope, hupdates⟩ := covered_of_reconstruct hok 3 (by decide) hsize
  obtain rfl := Machine.bears_unique ⟨2, htrace, hloop⟩ hbears
  exact ⟨r, loop, hok, hbears, hkind, hscope, hupdates hkind⟩

end Retrace.Reconstruct
