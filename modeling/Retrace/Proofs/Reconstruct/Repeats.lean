import Retrace.Proofs.Reconstruct.Consumption
import Retrace.Proofs.Reconstruct.Deferral
import Retrace.Proofs.Reconstruct.Ledger

/-! Calls that are bound again.

A call that is not deferred is bound to a second child only after the end of a child that is a
round of a loop around it (`Freed`): `Held` is what an open activation keeps of the calls that its
children are linked to. The body of the loop is a block and holds no site of the activation, so the
call stands in the rest of the loop statement. All of that is freed, also what is evaluated once in
front of the first round: `initializer_call_bound_again` shows a call of a `for` loop's initializer
that takes the place of a later call. For all other calls the loop tests or updates by way of them
(`round_between_children_of_call`). -/
namespace Retrace.Reconstruct
open Java hiding Tree
open Source Instrument Trace

/-- The node stands in the condition or in an update clause of the loop. -/
def TestedBy (f : File) (l x : Nat) : Prop :=
  ∃ q, (q ∈ f.childrenUnder l .condition ∨ q ∈ f.childrenUnder l .update) ∧ f.Below q x

/-- The node is evaluated in front of the first round of a loop: it stands in an initializer, or
in what is iterated over. -/
def StartsLoop (f : File) (l x : Nat) : Prop :=
  (f.form l).isLoop = true ∧ ∃ q, (q ∈ f.childrenUnder l .init ∨
    f.form l = .enhancedForStatement ∧ q ∈ f.children l ∧ f.child? l .body ≠ some q) ∧ f.Below q x

/-- A call of the trace point that is not deferred. -/
structure PlainCall (s : Setting) (own : TracePoint) (x : Site) : Prop where
  site : x ∈ scopeSites (s.file own.ref) own.ref.node own.kind
  now : x.deferred = false
  called : calledName? (s.file own.ref) x.node ≠ none

/-- The node runs a method and is linked to the call. -/
def Answers (s : Setting) (t : Tree) (own : TracePoint) (x : Site) (c : Nat) : Prop :=
  (∃ m, Machine.Bears s t c m ∧ m.kind = .method) ∧
    t.link? c = some (linkTo (s.file own.ref) x.node)

/-- The node is a round of a loop of the trace point around the call. -/
def Freed (s : Setting) (t : Tree) (own : TracePoint) (x : Site) (z : Nat) : Prop :=
  ∃ loop, Machine.Bears s t z loop ∧ loop.kind.isLoop = true ∧ loop.ref.file = own.ref.file ∧
    (s.file own.ref).Below own.ref.node loop.ref.node ∧ loop.ref.node ≠ own.ref.node ∧
    (s.file own.ref).Below loop.ref.node x.node

/-- A call that a child is linked to is bound, unless it has been freed since. -/
def Held (s : Setting) (t : Tree) (a : Activation) : Prop :=
  ∀ x, PlainCall s a.point x → ∀ c ∈ t.children a.index, Answers s t a.point x c →
    (a.fileOf s).range x.node ∈ a.consumed ∨
      ∃ z ∈ t.children a.index, c < z ∧ Freed s t a.point x z

/-- Between two children that are linked to one call it has been freed. -/
def FreedBetween (s : Setting) (t : Tree) (i : Nat) (own : TracePoint) : Prop :=
  ∀ x, PlainCall s own x → ∀ c ∈ t.children i, ∀ d ∈ t.children i, c < d →
    Answers s t own x c → Answers s t own x d →
    ∃ z ∈ t.children i, c < z ∧ z < d ∧ Freed s t own x z

section Outline
variable {s : Setting} {t u : Tree} {own : TracePoint} {x : Site} (h : u.outline = t.outline)
include h

theorem Answers.of_outline {c : Nat} : Answers s u own x c → Answers s t own x c := by
  rintro ⟨⟨m, hm, hkind⟩, hlink⟩
  refine ⟨⟨m, Machine.bears_of_outline h.symm hm, hkind⟩, ?_⟩
  rw [← Tree.link?_eq_of_outline h, hlink]

theorem Freed.of_outline {z : Nat} : Freed s t own x z → Freed s u own x z := by
  rintro ⟨loop, hloop, hrest⟩
  exact ⟨loop, Machine.bears_of_outline h hloop, hrest⟩

end Outline

section Grow
variable {s : Setting} {t : Tree} {parent id : Nat} {point own : TracePoint} {e : Entrance}
  {x : Site}

theorem Answers.of_grow (hpoint : s.points.get? id = some point) {c : Nat} (hc : c < t.size) :
    Answers s (grow s t parent id point e) own x c → Answers s t own x c := by
  rintro ⟨⟨m, hm, hkind⟩, hlink⟩
  rcases cases_of_grow hpoint hm with ⟨rfl, _⟩ | ⟨_, hbefore⟩
  · exact absurd hc (Nat.lt_irrefl _)
  · exact ⟨⟨m, hbefore, hkind⟩, by rw [← hlink, link?_grow hc]⟩

theorem Freed.grow {z : Nat} :
    Freed s t own x z → Freed s (grow s t parent id point e) own x z := by
  rintro ⟨loop, hloop, hrest⟩
  exact ⟨loop, Machine.bears_push (Machine.lt_size_of_bears hloop) hloop, hrest⟩

end Grow

/-! ### A child that is linked to a call -/

/-- No two files of the project have one path. -/
def PathsDiffer (p : Project) : Prop :=
  ∀ m n, m < p.files.size → n < p.files.size → (p.file m).path = (p.file n).path → m = n

/-- What is picked and not deferred was not bound. -/
theorem not_mem_of_pickSite? {f : File} {consumed : List Range} {sites : List Site}
    {wanted : Nat → Bool} {x : Site} (h : pickSite? f consumed sites wanted = some x)
    (hnow : x.deferred = false) : f.range x.node ∉ consumed := by
  unfold pickSite? at h
  dsimp only at h
  rcases Option.or_eq_some_iff.mp h with h | ⟨_, h⟩
  · simpa using List.find?_some h
  · have hdeferred : x.deferred = true := by simpa using List.find?_some h
    rw [hnow] at hdeferred
    cases hdeferred

/-- What a call loses at the end of a child, it loses to a round of a loop around it. -/
theorem Held.resume {p : Project} (h : ∀ n, (p.file n).Laid) {t : Tree} {a a' b' : Activation}
    {c : Nat} {point : TracePoint} {e : Entrance} (hlisted : t.Listed)
    (hparent : t.parent? c = some a.index)
    (hlast : ∀ d, t.parent? d = some a.index → d ≤ c)
    (hown : Machine.Bears (.traced p) t a.index a.point)
    (hinner : Machine.Bears (.traced p) t c point) (hpoint : a'.point = a.point)
    (henter : a'.enter? (.traced p) point = some (e, b')) (hheld : Held (.traced p) t a) :
    Held (.traced p) t (a.resume e) := by
  obtain ⟨_, _, _, ha⟩ := Activation.resume_eq a e
  intro x hx d hd hanswers
  rw [show (a.resume e).point = a.point by rw [ha]] at hx hanswers ⊢
  rw [show (a.resume e).index = a.index by rw [ha]] at hd ⊢
  rw [show (a.resume e).fileOf (.traced p) = p.file a.point.ref.file by rw [ha]; rfl,
    Activation.mem_consumed_resume]
  rcases hheld x hx d hd hanswers with hbound | hfreed
  · by_cases hkept : ∀ header, e.header? = some header →
        header.contains ((p.file a.point.ref.file).range x.node) = false
    · exact .inl ⟨hbound, hkept⟩
    · obtain ⟨header, hkept⟩ := not_forall.mp hkept
      obtain ⟨hheader, hcontains⟩ := Classical.not_imp.mp hkept
      obtain ⟨_, _, hget⟩ := id hown
      obtain ⟨_, _, hget'⟩ := id hinner
      obtain ⟨hloop, hfile, hbelow, hne, hcall⟩ := below_loop_of_header h
        (PointMap.traced_of_get? hget) (PointMap.traced_of_get? hget') hpoint henter hheader hx.site
        hx.called (by simpa using hcontains)
      have hmem : ∀ {z}, z ∈ t.children a.index ↔ t.parent? z = some a.index := by
        intro z
        rw [hlisted a.index, List.mem_filter, beq_iff_eq, and_iff_right_iff_imp]
        exact fun hz => List.mem_range.mpr (Tree.lt_size_of_parent? hz)
      refine .inr ⟨c, hmem.mpr hparent, ?_, point, hinner, hloop, hfile, hbelow, hne, hcall⟩
      -- a method is no round of a loop
      refine Nat.lt_of_le_of_ne (hlast d (hmem.mp hd)) ?_
      rintro rfl
      obtain ⟨⟨m, hm, hkind⟩, _⟩ := hanswers
      rw [Machine.bears_unique hm hinner] at hkind
      rw [hkind] at hloop
      cases hloop
  · exact .inr hfreed

section Project
variable {p : Project} (h : ∀ n, (p.file n).Laid) (hf : ∀ n, (p.file n).Fielded)
  (hs : ∀ n, (p.file n).Shaped) (hpaths : PathsDiffer p)
include h hf hs hpaths

/-- A call of the trace point's own that is linked to is no call in the setup code of a class. -/
theorem ne_setup_of_plainCall {own : TracePoint} (hown : Traced p own) {x : Site}
    (hx : PlainCall (.traced p) own x) {a : Activation} {name : String} {call : Ref}
    (hcall : a.setupCall? (.traced p) name = some call) :
    linkTo ((Setting.traced p).file call) call.node ≠ linkTo (p.file own.ref.file) x.node := by
  intro heq
  obtain ⟨c, ⟨k, hk, rfl⟩, hfile, e, he, y, hy, hnode, hcalled⟩ := setup_of_setupCall? hcall
  obtain ⟨hfilelt, hform, _⟩ := class_of_mem hk
  have hsame : own.ref.file = k.2.file := by
    refine (hpaths _ _ hfilelt hown.file_lt ?_).symm
    rw [← hfile]
    exact congrArg Link.file heq
  have hrange : (p.file own.ref.file).range y.node = (p.file own.ref.file).range x.node := by
    rw [show (Setting.traced p).file call = p.file own.ref.file from
      congrArg p.file (hfile.trans hsame.symm)] at heq
    rw [hnode]
    exact congrArg Link.range heq
  rw [show (Setting.traced p).file k.2 = p.file own.ref.file by rw [hsame]; rfl] at he hy hcalled
  rw [← hsame] at hform
  obtain ⟨hpos, hsize⟩ := bounds_of_scopeSites (h _) hx.site
  have hysize := (h _).lt_size_of_below (below_of_mem_sitesWithin hy).1
    (lt_size_of_setupExpressions (h _) he)
  have hbindable : Bindable (p.file own.ref.file) y.node :=
    .inl (by rw [hcalled]; exact Option.some_ne_none name)
  exact not_setup_of_site (h _).toLinked (hf _) (hs _) hown.kind hown.reached hx.site hx.now hform he hy
    (hbindable.eq_of_range_eq (h _) (hf _) (.inl hx.called) hysize hpos hsize hrange)

/-- A method that is linked to a call binds it. -/
theorem binds_of_link {a b : Activation} {point : TracePoint} {e : Entrance}
    (ha : Activation.Coherent (.traced p) a) (hown : Traced p a.point)
    (hkind : point.kind = .method) (henter : a.enter? (.traced p) point = some (e, b)) {x : Site}
    (hx : PlainCall (.traced p) a.point x)
    (hlink : e.link? = some (linkTo (p.file a.point.ref.file) x.node)) :
    (p.file a.point.ref.file).range x.node ∉ a.consumed ∧
      (p.file a.point.ref.file).range x.node ∈ b.consumed := by
  unfold Activation.enter? at henter
  rw [hkind] at henter
  dsimp only [PointKind.binding] at henter
  rcases Option.or_eq_some_iff.mp henter with henter | ⟨_, henter⟩
  · unfold Activation.enterMethod? at henter
    obtain ⟨name, _, henter⟩ := Option.bind_eq_some_iff.mp henter
    dsimp only at henter
    split at henter
    · rename_i y hpick
      cases henter
      obtain ⟨hy, hcalls⟩ := Activation.mem_of_pickSite? hpick
      rw [ha.sites] at hy
      have hname : calledName? (p.file a.point.ref.file) y.node = some name := beq_iff_eq.mp hcalls
      have hcalled : calledName? (p.file a.point.ref.file) y.node ≠ none := by
        rw [hname]
        exact Option.some_ne_none name
      have hrange := congrArg Link.range (Option.some.inj hlink)
      obtain rfl := eq_of_range_eq (h _) (hf _) hy hx.site (.inl hcalled) (.inl hx.called) hrange
      exact ⟨not_mem_of_pickSite? hpick hx.now,
        Activation.mem_consumed_consume.mpr (.inl rfl)⟩
    · obtain ⟨call, hcall, henter⟩ := Option.map_eq_some_iff.mp henter
      cases henter
      exact absurd (Option.some.inj hlink)
        (ne_setup_of_plainCall h hf hs hpaths hown hx hcall)
  · obtain ⟨nested, hnested, henter⟩ := Option.map_eq_some_iff.mp henter
    cases henter
    unfold Activation.enterNested? at hnested
    dsimp only at hnested
    split at hnested
    · cases hnested
      split at hlink <;> cases hlink
    · cases hnested

/-- A child that is linked to a call binds it, so the call has been freed since the last one. -/
theorem Held.enter {t : Tree} {a b : Activation} {id : Nat} {point : TracePoint} {e : Entrance}
    (hlisted : t.Listed) (hsize : a.index < t.size) (ha : Activation.Coherent (.traced p) a)
    (hown : Traced p a.point) (hpoint : (Setting.traced p).points.get? id = some point)
    (hheld : Held (.traced p) t a) (hbetween : FreedBetween (.traced p) t a.index a.point)
    (henter : a.enter? (.traced p) point = some (e, b)) :
    let u := grow (.traced p) t a.index id point e
    Held (.traced p) u b ∧ FreedBetween (.traced p) u a.index a.point := by
  intro u
  obtain ⟨consumed, opened, latest, hb⟩ := Activation.rebound_enter? henter
  have hchildren : u.children a.index = t.children a.index ++ [t.size] := by
    rw [children_grow hsize, if_pos rfl]
  have hbinds : ∀ x, PlainCall (.traced p) a.point x → Answers (.traced p) u a.point x t.size →
      (p.file a.point.ref.file).range x.node ∉ a.consumed ∧
        (p.file a.point.ref.file).range x.node ∈ b.consumed := by
    rintro x hx ⟨⟨m, hm, hkind⟩, hlink⟩
    rw [Machine.bears_unique hm (Machine.bears_new hpoint)] at hkind
    rw [link?_new] at hlink
    exact binds_of_link h hf hs hpaths ha hown hkind henter hx hlink
  -- what was held before is so still
  have hkept : ∀ x, PlainCall (.traced p) a.point x → ∀ c ∈ t.children a.index,
      Answers (.traced p) u a.point x c → (p.file a.point.ref.file).range x.node ∈ a.consumed ∨
        ∃ z ∈ t.children a.index, c < z ∧ Freed (.traced p) u a.point x z := by
    intro x hx c hc hanswers
    have hbefore := hanswers.of_grow hpoint (Machine.mem_children_lt hlisted hc)
    exact (hheld x hx c hc hbefore).imp_right fun
      ⟨z, hz, hlt, hfreed⟩ => ⟨z, hz, hlt, hfreed.grow⟩
  refine ⟨fun x hx c hc hanswers => ?_, fun x hx c hc d hd hlt hanswers hagain => ?_⟩
  · rw [show b.point = a.point by rw [hb]] at hx hanswers ⊢
    rw [show b.fileOf (.traced p) = p.file a.point.ref.file by rw [hb]; rfl,
      show b.index = a.index by rw [hb], hchildren]
    rw [show b.index = a.index by rw [hb], hchildren] at hc
    rcases List.mem_append.mp hc with hc | hc
    · rcases hkept x hx c hc hanswers with hbound | ⟨z, hz, hlt, hfreed⟩
      · exact .inl (Activation.consumed_subset henter hbound)
      · exact .inr ⟨z, List.mem_append_left _ hz, hlt, hfreed⟩
    · rw [List.mem_singleton.mp hc] at hanswers
      exact .inl (hbinds x hx hanswers).2
  · rw [hchildren] at hc hd ⊢
    have hold : ∀ {c}, c ∈ t.children a.index → c < t.size := Machine.mem_children_lt hlisted
    rcases List.mem_append.mp hc with hc | hc <;> rcases List.mem_append.mp hd with hd | hd
    · obtain ⟨z, hz, hcz, hzd, hfreed⟩ := hbetween x hx c hc d hd hlt
        (hanswers.of_grow hpoint (hold hc)) (hagain.of_grow hpoint (hold hd))
      exact ⟨z, List.mem_append_left _ hz, hcz, hzd, hfreed.grow⟩
    · rw [List.mem_singleton.mp hd] at hagain ⊢
      rcases hkept x hx c hc hanswers with hbound | ⟨z, hz, hcz, hfreed⟩
      · exact absurd hbound (hbinds x hx hagain).1
      · exact ⟨z, List.mem_append_left _ hz, hcz, hold hz, hfreed⟩
    · rw [List.mem_singleton.mp hc] at hlt
      exact absurd (hold hd) (Nat.lt_asymm hlt)
    · rw [List.mem_singleton.mp hc, List.mem_singleton.mp hd] at hlt
      exact absurd hlt (Nat.lt_irrefl _)

theorem ledger_held : Ledger (.traced p) (Held (.traced p)) (FreedBetween (.traced p)) where
  still {t u a b} htree hindex hpoint hconsumed hheld x hx c hc hanswers := by
    rw [hpoint] at hx hanswers ⊢
    rw [hindex, Tree.children_eq_of_outline htree] at hc ⊢
    rw [show b.fileOf (.traced p) = a.fileOf (.traced p) by unfold Activation.fileOf; rw [hpoint],
      hconsumed]
    exact (hheld x hx c hc (hanswers.of_outline htree)).imp_right
      fun ⟨z, hz, hlt, hfreed⟩ => ⟨z, hz, hlt, hfreed.of_outline htree⟩
  outline htree hbetween x hx c hc d hd hlt hanswers hagain := by
    rw [Tree.children_eq_of_outline htree] at hc hd ⊢
    obtain ⟨z, hz, hcz, hzd, hfreed⟩ := hbetween x hx c hc d hd hlt (hanswers.of_outline htree)
      (hagain.of_outline htree)
    exact ⟨z, hz, hcz, hzd, hfreed.of_outline htree⟩
  start {t parent id point} e _ hparent _ := by
    have hnone : (grow (.traced p) t parent id point e).children t.size = [] :=
      children_new hparent
    refine ⟨fun x _ c hc => ?_, fun x _ c hc => ?_⟩
    · rw [show (Activation.start _ t.size point e).index = t.size from rfl, hnone] at hc
      cases hc
    · rw [hnone] at hc
      cases hc
  otherOpen e hlisted hparent _ hne hpoint hheld x hx c hc hanswers := by
    rw [children_grow hparent, if_neg hne] at hc ⊢
    have hlt := Machine.mem_children_lt hlisted hc
    exact (hheld x hx c hc (hanswers.of_grow hpoint hlt)).imp_right
      fun ⟨z, hz, hcz, hfreed⟩ => ⟨z, hz, hcz, hfreed.grow⟩
  other e hlisted hparent _ hne hpoint hbetween x hx c hc d hd hlt hanswers hagain := by
    rw [children_grow hparent, if_neg hne] at hc hd ⊢
    obtain ⟨z, hz, hcz, hzd, hfreed⟩ := hbetween x hx c hc d hd hlt
      (hanswers.of_grow hpoint (Machine.mem_children_lt hlisted hc))
      (hagain.of_grow hpoint (Machine.mem_children_lt hlisted hd))
    exact ⟨z, hz, hcz, hzd, hfreed.grow⟩
  enter hlisted hsize ha hown hpoint hheld hbetween henter := by
    obtain ⟨_, _, hget⟩ := hown
    exact Held.enter h hf hs hpaths hlisted hsize ha (PointMap.traced_of_get? hget) hpoint hheld
      hbetween henter
  resume hlisted hparent hlast hown hinner hpoint henter hheld :=
    Held.resume h hlisted hparent hlast hown hinner hpoint henter hheld

end Project

/-! ### Where the call stands in the loop -/

section File
variable {f : File} (h : f.Laid) (hs : f.Shaped)
include h hs

/-- A site that is not deferred stands in a loop around it, but not in the body of the loop. -/
theorem not_below_body {i l b : Nat} {kind : PointKind} (hkind : kind? f i = some kind) {x : Site}
    (hx : x ∈ scopeSites f i kind) (hnow : x.deferred = false) (hil : f.Below i l) (hne : l ≠ i)
    (hlx : f.Below l x.node) (hloop : (f.form l).isLoop = true) (hbody : f.child? l .body = some b)
    (hblock : f.form b = .block) : ¬f.Below b x.node := by
  intro hbx
  obtain ⟨own, c, hholds, hchild, _, hx⟩ := statement_of_site hkind hx
  have hlb := File.below_child (h.child_of_child? hbody)
  have habove : f.Below c l := by
    rcases h.below_or_below (below_of_mem_sitesWithin hx).1 hlx with hcl | hlc
    · exact hcl
    -- a loop above the statement is above the block of the trace point, and so is that block
    rcases h.below_parent hchild hlc with rfl | hlo
    · exact File.below_refl f l
    have hio : l = own ∨ f.Below l i := by
      rcases hholds.child h.toLinked with rfl | hio
      · exact .inr hlo
      · exact h.below_parent hio hlo
    rcases hio with rfl | hli
    · rcases hholds.form hs with hform | hform <;> rw [hform] at hloop <;> cases hloop
    · exact absurd (Nat.le_antisymm (h.le_of_below hli) (h.le_of_below hil)) hne
  have hopen := (open_above_site h.toLinked hx hnow (habove.trans hlb) hbx).1
  rw [closed, hblock] at hopen
  cases hopen

end File

/-- What a loop holds outside of its body it evaluates in front of its first round, or in each. -/
theorem tested_or_starts {f : File} (hf : f.Fielded) (hone : f.OneBody) {l b x : Nat}
    {kind : PointKind} (hkind : PointKind.ofLoop? (f.form l) = some kind)
    (hbody : f.child? l .body = some b)
    (hlx : f.Below l x) (hne : l ≠ x) (hbx : ¬f.Below b x) :
    TestedBy f l x ∨ StartsLoop f l x := by
  obtain ⟨q, hq, hqx⟩ := hlx.cases.resolve_left hne
  have hqb : f.child? l .body ≠ some q := by
    rw [hbody]
    rintro heq
    exact hbx (Option.some.inj heq ▸ hqx)
  have hloop := isLoop_of_ofLoop? hkind
  have htested : isTestedLoop (f.form l) = true → TestedBy f l x ∨ StartsLoop f l x := by
    intro htested
    obtain ⟨slot, hslot, hmem⟩ := hf.loop htested hq
    cases slot with
    | init => exact .inr ⟨hloop, q, .inl hmem, hqx⟩
    | condition => exact .inl ⟨q, .inl hmem, hqx⟩
    | update => exact .inl ⟨q, .inr hmem, hqx⟩
    | body =>
      obtain ⟨⟨slot, _⟩, hfield, rfl⟩ := List.mem_map.mp hmem
      obtain ⟨hfield, hbody⟩ := List.mem_filter.mp hfield
      obtain rfl : slot = .body := beq_iff_eq.mp hbody
      refine absurd (hone ?_ hfield) hqb
      unfold isTestedLoop at htested
      split at htested <;> rename_i hform
      · exact .inl (by rw [hform]; rfl)
      · exact .inl (by rw [hform]; rfl)
      · exact .inr hform
      · cases htested
    | _ => cases hslot
  unfold PointKind.ofLoop? at hkind
  split at hkind
  · exact htested (by rename_i hform; rw [hform]; rfl)
  · rename_i hform
    exact .inr ⟨hloop, q, .inr ⟨hform, hq, hqb⟩, hqx⟩
  · exact htested (by rename_i hform; rw [hform]; rfl)
  · exact htested (by rename_i hform; rw [hform]; rfl)
  · cases hkind

/-! ### Whole runs -/

theorem pathsDiffer_ofSources {sources : List (String × String)}
    (hpaths : (sources.map Prod.fst).Nodup) : PathsDiffer (Project.ofSources sources) := by
  intro m n hm hn heq
  have hperm : ((Project.ofSources sources).fileList.map File.path).Perm
      (sources.map Prod.fst) := by
    refine ((Project.ofFiles_perm _).map File.path).trans (.of_eq ?_)
    rw [List.map_map]
    exact List.map_congr_left fun x _ => Java.parse_path x.1 x.2
  have hpath : ∀ {k}, k < (Project.ofSources sources).files.size →
      ((Project.ofSources sources).fileList.map File.path)[k]? =
        some ((Project.ofSources sources).file k).path := by
    intro k hk
    rw [Project.fileList, List.getElem?_map, Array.getElem?_toList, Array.getElem?_eq_getElem hk,
      Option.map_some, Project.file, Array.getD_eq_getD_getElem?, Array.getElem?_eq_getElem hk]
    rfl
  refine (List.getElem?_inj ?_ (hperm.nodup_iff.mpr hpaths)).mp (by rw [hpath hm, hpath hn, heq])
  rw [List.length_map, Project.fileList, Array.length_toList]
  exact hm

/-- Two methods that one node runs are linked to the same call of its trace point, one that is not
deferred and not evaluated in front of a loop, only if between them a round has ended of a loop
that has the call in its condition or its update clauses. -/
theorem round_between_children_of_call {sources : List (String × String)}
    (hsize : ∀ x ∈ sources, x.2.utf8ByteSize + 1 < Limit.word)
    (hpaths : (sources.map Prod.fst).Nodup) {partially : Bool} {tokens : List Nat}
    {r : Reconstruction}
    (h : reconstruct (.ofSources sources) partially (Stream.ofTokens tokens) = .ok r) {i : Nat}
    {own : TracePoint} (hown : Machine.Bears (.ofSources sources) r.tree i own) {x : Site}
    (hx : PlainCall (.ofSources sources) own x)
    (honce : ∀ l, ((Setting.ofSources sources).file own.ref).Below own.ref.node l →
      ¬StartsLoop ((Setting.ofSources sources).file own.ref) l x.node)
    {c d : Nat} (hc : c ∈ r.tree.children i) (hd : d ∈ r.tree.children i) (hlt : c < d)
    (hanswers : Answers (.ofSources sources) r.tree own x c)
    (hagain : Answers (.ofSources sources) r.tree own x d) :
    let f := (Setting.ofSources sources).file own.ref
    ∃ z ∈ r.tree.children i, c < z ∧ z < d ∧ ∃ loop,
      Machine.Bears (.ofSources sources) r.tree z loop ∧ loop.kind.isLoop = true ∧
      loop.ref.file = own.ref.file ∧ f.Below own.ref.node loop.ref.node ∧
      TestedBy f loop.ref.node x.node := by
  intro f
  have hlaid := laid_ofSources (inOrder_ofSources hsize)
  have hledger := ledger_held hlaid fielded_ofSources shaped_ofSources
    (pathsDiffer_ofSources hpaths)
  obtain ⟨z, hz, hcz, hzd, loop, hloop, hkind, hfile, hbelow, hne, hlx⟩ :=
    ledger_of_reconstruct hledger h hown x hx c hc d hd hlt hanswers hagain
  refine ⟨z, hz, hcz, hzd, loop, hloop, hkind, hfile, hbelow, ?_⟩
  obtain ⟨_, _, hpoint⟩ := id hown
  obtain ⟨_, _, hinner⟩ := id hloop
  have htraced := PointMap.traced_of_get? hpoint
  have hknown := (PointMap.traced_of_get? hinner).kind
  rw [hfile] at hknown
  obtain ⟨hform, b, hbody, hblock⟩ := loop_of_isLoop hknown hkind
  have hbx := not_below_body (hlaid _) (shaped_ofSources _) htraced.kind hx.site hx.now hbelow hne
    hlx (isLoop_of_ofLoop? hform) hbody hblock
  have hdiffer : loop.ref.node ≠ x.node := by
    intro heq
    have hcall := kind?_of_call hx.called
    rw [← heq] at hcall
    cases hcall.symm.trans hknown
  exact (tested_or_starts (fielded_ofSources _) (oneBody_ofSources _) hform hbody hlx hdiffer
    hbx).resolve_right (honce _ hbelow)

/-- What holds of each node above `x` and its parent. -/
theorem forall_above {f : File} (h : f.Linked) {P : Nat → Nat → Prop} {x : Nat}
    (hall : ∀ q ∈ x :: f.ancestors x, ∀ l ∈ (f.parent? q).toList, P l q) {l q : Nat}
    (hq : q ∈ f.children l) (hqx : f.Below q x) : P l q :=
  hall q (h.mem_ancestors hqx) l (Option.mem_toList.mpr (h.parents.mpr hq))

/-- A run in which the first trace point runs a method twice, before and after another child. -/
theorem exists_answered_twice (s : Setting) (tokens : List Nat) (id : Nat) (link : Link)
    (P : File → Nat → Prop) [∀ f x, Decidable (P f x)]
    (hrun : (Machine.outcome? s 200 tokens).any fun r => r.unconsumed = 0 ∧
      r.tree.children 1 = [2, 3, 4] ∧ r.tree.traceId? 1 = some (toString 1) ∧
      ∀ c ∈ [2, 4], r.tree.traceId? c = some (toString id) ∧ r.tree.link? c = some link)
    (hmethod : (s.points.get? id).any fun m => m.kind == .method)
    (hcall : (s.points.get? 1).any fun own : TracePoint =>
      decide (∃ x ∈ scopeSites (s.file own.ref) own.ref.node own.kind, x.deferred = false ∧
        calledName? (s.file own.ref) x.node ≠ none ∧ linkTo (s.file own.ref) x.node = link ∧
        P (s.file own.ref) x.node)) :
    ∃ r own x, reconstruct s false (Stream.ofTokens tokens) = .ok r ∧
      Machine.Bears s r.tree 1 own ∧ PlainCall s own x ∧ r.tree.children 1 = [2, 3, 4] ∧
      Answers s r.tree own x 2 ∧ Answers s r.tree own x 4 ∧ P (s.file own.ref) x.node := by
  obtain ⟨r, hok, hconsumed, hchildren, hid, hlinks⟩ := Machine.exists_reconstruct hrun
  obtain ⟨m, hm, hkind⟩ := (Option.any_eq_true _ _).mp hmethod
  obtain ⟨own, hpoint, hown⟩ := (Option.any_eq_true _ _).mp hcall
  obtain ⟨x, hx, hnow, hcalled, hlink, hP⟩ := of_decide_eq_true hown
  have hanswers : ∀ c ∈ [2, 4], Answers s r.tree own x c := fun c hc =>
    ⟨⟨m, ⟨id, (hlinks c hc).1, hm⟩, beq_iff_eq.mp hkind⟩, (hlinks c hc).2.trans (by rw [hlink])⟩
  exact ⟨r, own, x, Machine.reconstruct_wholly hok hconsumed, ⟨1, hid, hpoint⟩,
    ⟨hx, hnow, hcalled⟩, hchildren, hanswers 2 (by decide), hanswers 4 (by decide), hP⟩

/-- The call in the condition is bound again for the second test. -/
theorem condition_call_in_each_round :
    let sources :=
      [("A.java", "class A{void m(){for(int i=0;f();i++){}}boolean f(){return p;}boolean p;}")]
    let s := Setting.ofSources sources
    ∃ r own x loop, reconstruct s false (Stream.ofTokens [1, 3, 2, 3]) = .ok r ∧
      Machine.Bears s r.tree 1 own ∧ PlainCall s own x ∧ Answers s r.tree own x 2 ∧
      Answers s r.tree own x 4 ∧ Machine.Bears s r.tree 3 loop ∧ loop.kind.isLoop = true ∧
      TestedBy (s.file own.ref) loop.ref.node x.node := by
  intro sources s
  have hsize : ∀ x ∈ sources, x.2.utf8ByteSize + 1 < Limit.word := by decide
  obtain ⟨r, own, x, hwhole, hbears, hplain, hchildren, hanswers, hagain, habove⟩ :=
    exists_answered_twice s [1, 3, 2, 3] 3 ⟨⟨1, 30, 1, 32⟩, "A.java"⟩
      (fun f x => ∀ q ∈ x :: f.ancestors x, ∀ l ∈ (f.parent? q).toList,
        q ∉ f.childrenUnder l .init ∧ f.form l ≠ .enhancedForStatement)
      (by decide +kernel) (by decide +kernel) (by decide +kernel)
  have hlaid := laid_ofSources (inOrder_ofSources hsize) own.ref.file
  have honce : ∀ l, (s.file own.ref).Below own.ref.node l →
      ¬StartsLoop (s.file own.ref) l x.node := by
    rintro l _ ⟨_, q, hq, hqx⟩
    have hchild : q ∈ (s.file own.ref).children l :=
      hq.elim hlaid.child_of_childrenUnder fun hq => hq.2.1
    obtain ⟨hinit, hform⟩ := forall_above hlaid.toLinked habove hchild hqx
    exact hq.elim hinit fun hq => hform hq.1
  obtain ⟨z, hz, hlow, hhigh, loop, hloop, hround, _, _, htested⟩ :=
    round_between_children_of_call hsize (by decide) hwhole hbears hplain honce
      (by rw [hchildren]; decide) (by rw [hchildren]; decide) (by decide : 2 < 4) hanswers hagain
  obtain rfl : z = 3 := by omega
  exact ⟨r, own, x, loop, hwhole, hbears, hplain, hanswers, hagain, hloop, hround, htested⟩

/-- The end of the loop's only round frees the call in its initializer, which then takes the place
of the call behind the loop. -/
theorem initializer_call_bound_again :
    let sources :=
      [("A.java", "class A{void m(){for(int i=f();i<2;i++){}f();}int f(){return 1;}}")]
    let s := Setting.ofSources sources
    ∃ r own x, reconstruct s false (Stream.ofTokens [1, 3, 2, 3]) = .ok r ∧
      Machine.Bears s r.tree 1 own ∧ PlainCall s own x ∧ r.tree.children 1 = [2, 3, 4] ∧
      Answers s r.tree own x 2 ∧ Answers s r.tree own x 4 ∧
      ∀ l, ¬TestedBy (s.file own.ref) l x.node := by
  intro sources s
  have hsize : ∀ x ∈ sources, x.2.utf8ByteSize + 1 < Limit.word := by decide
  obtain ⟨r, own, x, hwhole, hbears, hplain, hchildren, hanswers, hagain, habove⟩ :=
    exists_answered_twice s [1, 3, 2, 3] 3 ⟨⟨1, 28, 1, 30⟩, "A.java"⟩
      (fun f x => ∀ q ∈ x :: f.ancestors x, ∀ l ∈ (f.parent? q).toList,
        q ∉ f.childrenUnder l .condition ∧ q ∉ f.childrenUnder l .update)
      (by decide +kernel) (by decide +kernel) (by decide +kernel)
  refine ⟨r, own, x, hwhole, hbears, hplain, hchildren, hanswers, hagain, ?_⟩
  have hlaid := laid_ofSources (inOrder_ofSources hsize) own.ref.file
  rintro l ⟨q, hq, hqx⟩
  have hchild : q ∈ (s.file own.ref).children l :=
    hq.elim hlaid.child_of_childrenUnder hlaid.child_of_childrenUnder
  obtain ⟨hcondition, hupdate⟩ := forall_above hlaid.toLinked habove hchild hqx
  exact hq.elim hcondition hupdate

end Retrace.Reconstruct
