import Retrace.Proofs.Reconstruct.Consumption
import Retrace.Proofs.Reconstruct.Ledger

/-! Calls are bound in the order of evaluation.

Where no loop stands around the calls of a name, a bound call stays bound, so the method children
of that name take the calls one after the other; when all have been taken, further ones share the
first that is deferred (`calls_bind_in_order`). `Dealt` is what an open activation keeps: of the
calls of such a name, those in front are bound, as many as there are children of the name. -/
namespace Retrace.Reconstruct
open Source Instrument Trace

/-! ### The trace point of a node -/

/-- The trace point that a node stands for. -/
def point? (s : Setting) (t : Tree) (c : Nat) : Option TracePoint :=
  (t.traceId? c).bind fun w =>
    (s.points.entries.find? fun e => toString e.1 == w).map Prod.snd

theorem mem_entries {m : PointMap} {id : Nat} {point : TracePoint} :
    (id, point) ∈ m.entries ↔ m.get? id = some point := by
  unfold PointMap.entries PointMap.get?
  rw [List.mem_map]
  constructor
  · rintro ⟨⟨q, i⟩, hmem, heq⟩
    cases heq
    have hget := List.mk_mem_zipIdx_iff_getElem?.mp hmem
    rw [Array.getElem?_toList] at hget
    rw [if_neg (Nat.succ_ne_zero i)]
    exact hget
  · intro h
    split at h
    · cases h
    · rename_i hid
      refine ⟨(point, id - 1), List.mk_mem_zipIdx_iff_getElem?.mpr ?_, ?_⟩
      · rw [Array.getElem?_toList]
        exact h
      · dsimp only
        rw [show id - 1 + 1 = id by omega]

theorem point?_eq_some_iff {s : Setting} {t : Tree} {c : Nat} {point : TracePoint} :
    point? s t c = some point ↔ Machine.Bears s t c point := by
  unfold point? Machine.Bears
  constructor
  · intro h
    obtain ⟨w, hw, h⟩ := Option.bind_eq_some_iff.mp h
    obtain ⟨⟨id, q⟩, hfind, rfl⟩ := Option.map_eq_some_iff.mp h
    have hid : toString id = w := by simpa using List.find?_some hfind
    exact ⟨id, by rw [hw, hid], mem_entries.mp (List.mem_of_find?_eq_some hfind)⟩
  · rintro ⟨id, hid, hpoint⟩
    rw [hid, Option.bind_some]
    have hsome : (s.points.entries.find? fun e => toString e.1 == toString id).isSome := by
      rw [List.find?_isSome]
      exact ⟨(id, point), mem_entries.mpr hpoint, beq_self_eq_true _⟩
    obtain ⟨⟨id', q⟩, hfind⟩ := Option.isSome_iff_exists.mp hsome
    have hid' : toString id' = toString id := by simpa using List.find?_some hfind
    have hq := mem_entries.mp (List.mem_of_find?_eq_some hfind)
    rw [hfind, Option.map_some]
    rw [Text.toString_injective hid', hpoint] at hq
    exact hq.symm

/-- The trace point is a method of that name. -/
def isMethod (s : Setting) (w : String) (point : TracePoint) : Bool :=
  point.kind == .method && (s.file point.ref).name? point.ref.node == some w

/-- The children of a node that run a method of a name. -/
def methodChildren (s : Setting) (t : Tree) (i : Nat) (w : String) : List Nat :=
  (t.children i).filter fun c => (point? s t c).any (isMethod s w)

/-- The calls of a name in the scope of a trace point. -/
def callSites (s : Setting) (own : TracePoint) (w : String) : List Site :=
  (scopeSites (s.file own.ref) own.ref.node own.kind).filter fun x =>
    Activation.calls (s.file own.ref) w x.node

/-- No call of the name in the scope stands in a loop inside of the unit. -/
def ClearOfLoops (s : Setting) (own : TracePoint) (w : String) : Prop :=
  ∀ x ∈ callSites s own w, ∀ l, ((s.file own.ref).form l).isLoop = true →
    (s.file own.ref).Below own.ref.node l → l ≠ own.ref.node → ¬(s.file own.ref).Below l x.node

/-- The site for the child that comes behind `k` others: the next one, or else the first that is
deferred. -/
def siteFor? (sites : List Site) (k : Nat) : Option Site :=
  sites[k]?.or (sites.find? Site.deferred)

/-- The children of a name are linked to the calls of it, one after the other. -/
def Linear (s : Setting) (t : Tree) (i : Nat) (own : TracePoint) : Prop :=
  ∀ w, ClearOfLoops s own w → ∀ j c x, (methodChildren s t i w)[j]? = some c →
    siteFor? (callSites s own w) j = some x → t.link? c = some (linkTo (s.file own.ref) x.node)

/-- Of the calls of a name those in front have been bound, one for each child. -/
def Dealt (s : Setting) (t : Tree) (a : Activation) : Prop :=
  ∀ w, ClearOfLoops s a.point w → ∀ j x, (callSites s a.point w)[j]? = some x →
    ((a.fileOf s).range x.node ∈ a.consumed ↔ j < (methodChildren s t a.index w).length)

/-! ### Which site is picked -/

/-- A list whose first `k` members fail the test is searched up to the next one. -/
theorem find?_eq_getElem? {α : Type} {l : List α} {test : α → Bool} {k : Nat}
    (h : ∀ j x, l[j]? = some x → (test x = false ↔ j < k)) : l.find? test = l[k]? := by
  induction l generalizing k with
  | nil => rfl
  | cons x l ih =>
    have hx := h 0 x rfl
    cases k with
    | zero =>
      rw [List.find?_cons_of_pos (by simpa using hx)]
      rfl
    | succ k =>
      rw [List.find?_cons_of_neg (by simpa using hx)]
      refine ih fun j y hy => ?_
      rw [h (j + 1) y hy, Nat.succ_lt_succ_iff]

/-- When of the calls in front as many have been bound as there are children, the next child is
for the next call, or for the first deferred one. -/
theorem pickSite?_eq_siteFor? {f : File} {consumed : List Range} {sites : List Site}
    {wanted : Nat → Bool} {k : Nat}
    (h : ∀ j x, (sites.filter fun x => wanted x.node)[j]? = some x →
      (f.range x.node ∈ consumed ↔ j < k)) :
    pickSite? f consumed sites wanted = siteFor? (sites.filter fun x => wanted x.node) k := by
  unfold pickSite? siteFor?
  dsimp only
  rw [find?_eq_getElem? fun j x hx => ?_]
  rw [← h j x hx]
  simp

/-! ### How the children of a name grow -/

section Outline
variable {s : Setting} {t u : Tree}

theorem point?_of_outline (htree : u.outline = t.outline) : point? s u = point? s t := by
  funext c
  unfold point?
  rw [Tree.traceId?_eq_of_outline htree]

theorem methodChildren_of_outline (htree : u.outline = t.outline) :
    methodChildren s u = methodChildren s t := by
  funext i w
  unfold methodChildren
  rw [Tree.children_eq_of_outline htree, point?_of_outline htree]

end Outline

section Push
variable {s : Setting} {t : Tree} {parent id : Nat} {point : TracePoint} {e : Entrance}

theorem methodChildren_push (hlisted : t.Listed) (hparent : parent < t.size)
    (hpoint : s.points.get? id = some point) (i : Nat) (w : String) :
    methodChildren s (t.push parent (Machine.newNode s t parent id point e)) i w =
      methodChildren s t i w ++ if i = parent ∧ isMethod s w point then [t.size] else [] := by
  have hold : (t.children i).filter (fun c =>
      (point? s (t.push parent (Machine.newNode s t parent id point e)) c).any (isMethod s w)) =
      methodChildren s t i w := by
    refine List.filter_congr fun c hc => ?_
    have hlt := Machine.mem_children_lt hlisted hc
    rw [point?, point?, Tree.traceId?_push, if_neg (Nat.ne_of_lt hlt)]
  have hnew : point? s (t.push parent (Machine.newNode s t parent id point e)) t.size =
      some point := point?_eq_some_iff.mpr (Machine.bears_new hpoint)
  unfold methodChildren at hold ⊢
  rw [Tree.children_push hparent rfl]
  by_cases hi : i = parent
  · subst hi
    rw [if_pos rfl, List.filter_append, hold, List.filter_singleton, hnew]
    simp
  · rw [if_neg hi, hold]
    simp [hi]

theorem methodChildren_new (hparent : parent < t.size) (w : String) :
    methodChildren s (grow s t parent id point e) t.size w = [] := by
  rw [methodChildren, children_new hparent]
  rfl

theorem methodChildren_other (hlisted : t.Listed) (hparent : parent < t.size)
    (hpoint : s.points.get? id = some point) {i : Nat} (hne : i ≠ parent) (w : String) :
    methodChildren s (grow s t parent id point e) i w = methodChildren s t i w := by
  rw [grow, methodChildren_push hlisted hparent hpoint, if_neg fun h => hne h.1, List.append_nil]

theorem mem_methodChildren_lt (hlisted : t.Listed) {i j c : Nat} {w : String}
    (hc : (methodChildren s t i w)[j]? = some c) : c < t.size :=
  Machine.mem_children_lt hlisted (List.mem_filter.mp (List.mem_of_getElem? hc)).1

end Push

/-! ### One child -/

theorem mem_callSites {s : Setting} {own : TracePoint} {w : String} {x : Site}
    (hx : x ∈ callSites s own w) :
    x ∈ scopeSites (s.file own.ref) own.ref.node own.kind ∧
      calledName? (s.file own.ref) x.node = some w := by
  obtain ⟨hsite, hcalls⟩ := List.mem_filter.mp hx
  exact ⟨hsite, by simpa [Activation.calls] using hcalls⟩

theorem callSites_eq {s : Setting} {a : Activation} (ha : Activation.Coherent s a) (w : String) :
    callSites s a.point w = a.sites.filter fun x => Activation.calls (a.fileOf s) w x.node := by
  rw [ha.sites]
  rfl

section Enter
variable {p : Project} (h : ∀ n, (p.file n).Laid)
include h

theorem nodup_callSites (own : TracePoint) (w : String) :
    (callSites (.traced p) own w).Nodup := by
  refine List.Pairwise.filter _ ((pairwise_scopeSites (h _) _ _).imp_of_mem ?_)
  rintro x y hx _ hfirst rfl
  obtain ⟨hpos, hsize⟩ := bounds_of_scopeSites (h _) hx
  exact EvaluatedFirst.irrefl (h _) hpos hsize hfirst

variable (hf : ∀ n, (p.file n).Fielded)
include hf

/-- The place of a call among those of its name tells which one it is. -/
theorem range_eq_iff {own : TracePoint} {w : String} {j k : Nat} {x y : Site}
    (hx : (callSites (.traced p) own w)[j]? = some x)
    (hy : (callSites (.traced p) own w)[k]? = some y) :
    (p.file own.ref.file).range x.node = (p.file own.ref.file).range y.node ↔ j = k := by
  constructor
  · intro heq
    obtain ⟨hsx, hcx⟩ := mem_callSites (List.mem_of_getElem? hx)
    obtain ⟨hsy, hcy⟩ := mem_callSites (List.mem_of_getElem? hy)
    have hbound : ∀ {x : Nat}, calledName? (p.file own.ref.file) x = some w →
        Bindable (p.file own.ref.file) x :=
      fun hc => .inl (by rw [hc]; exact Option.some_ne_none w)
    have hxy := eq_of_range_eq (h _) (hf _) hsx hsy (hbound hcx) (hbound hcy) heq
    refine (List.getElem?_inj (List.getElem?_eq_some_iff.mp hx).1 (nodup_callSites h own w)).mp ?_
    rw [hx, hy, hxy]
  · rintro rfl
    rw [hx] at hy
    rw [Option.some.inj hy]

/-- A child that runs a method of the name is for the next call, which it binds. -/
theorem Dealt.of_method {t : Tree} {a b : Activation} {point : TracePoint} {e : Entrance}
    (hd : Dealt (.traced p) t a) (ha : Activation.Coherent (.traced p) a) {w : String}
    (hclear : ClearOfLoops (.traced p) a.point w)
    (hmethod : isMethod (.traced p) w point = true)
    (henter : a.enter? (.traced p) point = some (e, b)) :
    let k := (methodChildren (.traced p) t a.index w).length
    (∀ x, siteFor? (callSites (.traced p) a.point w) k = some x →
      e.link? = some (linkTo (p.file a.point.ref.file) x.node)) ∧
    ∀ j x, (callSites (.traced p) a.point w)[j]? = some x →
      ((p.file a.point.ref.file).range x.node ∈ b.consumed ↔ j < k + 1) := by
  intro k
  have hdealt := hd w hclear
  obtain ⟨hkind, hname⟩ := Bool.and_eq_true_iff.mp hmethod
  have hpick : pickSite? (p.file a.point.ref.file) a.consumed a.sites
      (Activation.calls (p.file a.point.ref.file) w) =
      siteFor? (callSites (.traced p) a.point w) k := by
    rw [callSites_eq ha] at hdealt ⊢
    exact pickSite?_eq_siteFor? hdealt
  have hpicked : ∀ x, siteFor? (callSites (.traced p) a.point w) k = some x → _ := fun x hx =>
    Activation.enter?_of_pick (beq_iff_eq.mp hkind) (beq_iff_eq.mp hname) henter (hpick.trans hx)
  refine ⟨fun x hx => (hpicked x hx).1, fun j x hx => ?_⟩
  have hj := (List.getElem?_eq_some_iff.mp hx).1
  rcases Nat.lt_or_ge k (callSites (.traced p) a.point w).length with hk | hk
  · -- the next call is bound
    obtain ⟨y, hy⟩ : ∃ y, (callSites (.traced p) a.point w)[k]? = some y :=
      ⟨_, List.getElem?_eq_getElem hk⟩
    rw [(hpicked y (by rw [siteFor?, hy, Option.some_or])).2, Activation.mem_consumed_consume]
    have hsame := range_eq_iff h hf hx hy
    have hbefore := hdealt j x hx
    rw [show a.fileOf (.traced p) = p.file a.point.ref.file from rfl] at hbefore ⊢
    rw [hsame, hbefore]
    omega
  · -- all calls had been bound
    have hbound := (hdealt j x hx).mpr (by omega)
    exact ⟨fun _ => by omega, fun _ => Activation.consumed_subset henter hbound⟩

/-- Any other child leaves the calls of the name as they are. -/
theorem mem_consumed_of_other {a b : Activation} {point : TracePoint} {e : Entrance}
    (ha : Activation.Coherent (.traced p) a) {w : String}
    (hother : isMethod (.traced p) w point = false)
    (henter : a.enter? (.traced p) point = some (e, b)) {x : Site}
    (hx : x ∈ callSites (.traced p) a.point w) :
    (p.file a.point.ref.file).range x.node ∈ b.consumed ↔
      (p.file a.point.ref.file).range x.node ∈ a.consumed := by
  obtain ⟨hsite, hcalled⟩ := mem_callSites hx
  rcases Activation.consumed_of_enter? henter with heq | ⟨y, hy, hsuits, heq⟩
  · rw [heq]
  rw [heq, Activation.mem_consumed_consume, or_iff_right_iff_imp]
  intro hrange
  rw [ha.sites] at hy
  have hcall : calledName? (p.file a.point.ref.file) x.node ≠ none := by
    rw [show calledName? (p.file a.point.ref.file) x.node = some w from hcalled]
    exact Option.some_ne_none w
  obtain rfl := eq_of_range_eq (h _) (hf _) hsite hy (.inl hcall) hsuits.bindable hrange
  rcases hsuits with ⟨hkind, name, hname, hcalled'⟩ | hform
  · -- a method of the name is none of the others
    rw [show calledName? (a.fileOf (.traced p)) x.node = some w from hcalled] at hcalled'
    rw [isMethod, hkind, hname, hcalled'] at hother
    simp at hother
  · rcases isSite_of_calledName? hcall with hcallForm | hcallForm
    · rw [show (p.file a.point.ref.file).form x.node = .objectCreationExpression from hform]
        at hcallForm
      cases hcallForm
    · rw [show (p.file a.point.ref.file).form x.node = .objectCreationExpression from hform]
        at hcallForm
      cases hcallForm

/-- What is linear stays so when a child is added for which the next call is taken. -/
theorem Linear.enter {t : Tree} {a b : Activation} {id : Nat} {point : TracePoint} {e : Entrance}
    (hlisted : t.Listed) (hsize : a.index < t.size) (ha : Activation.Coherent (.traced p) a)
    (hpoint : (Setting.traced p).points.get? id = some point) (hd : Dealt (.traced p) t a)
    (hl : Linear (.traced p) t a.index a.point)
    (henter : a.enter? (.traced p) point = some (e, b)) :
    let u := grow (.traced p) t a.index id point e
    Dealt (.traced p) u b ∧ Linear (.traced p) u a.index a.point := by
  intro u
  obtain ⟨consumed, opened, latest, hb⟩ := Activation.rebound_enter? henter
  have hchildren : ∀ w, methodChildren (.traced p) u a.index w =
      methodChildren (.traced p) t a.index w ++
        if a.index = a.index ∧ isMethod (.traced p) w point then [t.size] else [] :=
    methodChildren_push hlisted hsize hpoint a.index
  refine ⟨fun w hclear j x hx => ?_, fun w hclear j c x hc hx => ?_⟩
  · rw [show b.point = a.point by rw [hb]] at hclear hx
    rw [show b.fileOf (.traced p) = p.file a.point.ref.file by rw [hb]; rfl,
      show b.index = a.index by rw [hb], hchildren w]
    cases hmethod : isMethod (.traced p) w point with
    | true =>
      rw [(hd.of_method h hf ha hclear hmethod henter).2 j x hx]
      simp
    | false =>
      rw [mem_consumed_of_other h hf ha hmethod henter (List.mem_of_getElem? hx), if_neg nofun,
        List.append_nil]
      exact hd w hclear j x hx
  · rw [hchildren w] at hc
    rcases Nat.lt_or_ge j (methodChildren (.traced p) t a.index w).length with hj | hj
    · rw [List.getElem?_append_left hj] at hc
      rw [link?_grow (mem_methodChildren_lt hlisted hc)]
      exact hl w hclear j c x hc hx
    · rw [List.getElem?_append_right hj] at hc
      split at hc
      · rename_i hmethod
        obtain ⟨hlast, hc⟩ := List.getElem?_eq_some_iff.mp hc
        rw [List.length_singleton] at hlast
        obtain rfl : j = (methodChildren (.traced p) t a.index w).length := by omega
        obtain rfl : t.size = c := by simpa using hc
        rw [link?_new]
        exact (hd.of_method h hf ha hclear hmethod.2 henter).1 x hx
      · cases hc

theorem ledger_calls : Ledger (.traced p) (Dealt (.traced p)) (Linear (.traced p)) where
  still {t u a b} htree hindex hpoint hconsumed hd w hclear j x hx := by
    rw [hpoint] at hclear hx
    rw [show b.fileOf (.traced p) = a.fileOf (.traced p) by unfold Activation.fileOf; rw [hpoint],
      hconsumed, hindex, methodChildren_of_outline htree]
    exact hd w hclear j x hx
  outline htree hl w hclear j c x hc hx := by
    rw [methodChildren_of_outline htree] at hc
    rw [Tree.link?_eq_of_outline htree]
    exact hl w hclear j c x hc hx
  start {t parent id point} e _ hparent _ := by
    have hnew : ∀ w, methodChildren (.traced p) (grow (.traced p) t parent id point e) t.size w =
        [] := methodChildren_new hparent
    refine ⟨fun w _ j x _ => ?_, fun w _ j c x hc _ => ?_⟩
    · rw [show (Activation.start _ t.size point e).index = t.size from rfl, hnew w]
      exact iff_of_false (List.not_mem_nil) (Nat.not_lt_zero j)
    · rw [hnew w] at hc
      cases hc
  otherOpen e hlisted hparent _ hne hpoint hd w hclear j x hx := by
    rw [methodChildren_other hlisted hparent hpoint hne]
    exact hd w hclear j x hx
  other e hlisted hparent _ hne hpoint hl w hclear j c x hc hx := by
    rw [methodChildren_other hlisted hparent hpoint hne] at hc
    rw [link?_grow (mem_methodChildren_lt hlisted hc)]
    exact hl w hclear j c x hc hx
  enter hlisted hsize ha _ hpoint hd hl henter :=
    Linear.enter h hf hlisted hsize ha hpoint hd hl henter
  resume {t a a' b' c point e} _ _ _ hown hinner hpoint henter hd w hclear j x hx := by
    obtain ⟨_, _, _, ha⟩ := Activation.resume_eq a e
    rw [show (a.resume e).point = a.point by rw [ha]] at hclear hx
    rw [show (a.resume e).fileOf (.traced p) = p.file a.point.ref.file by rw [ha]; rfl,
      show (a.resume e).index = a.index by rw [ha], Activation.mem_consumed_resume]
    obtain ⟨_, _, hown⟩ := hown
    obtain ⟨_, _, hinner⟩ := hinner
    obtain ⟨hsite, hcalled⟩ := mem_callSites (List.mem_of_getElem? hx)
    refine Iff.trans (and_iff_left fun header hheader => ?_) (hd w hclear j x hx)
    refine Bool.eq_false_iff.mpr fun hcontains => ?_
    -- only a loop around the call would free it
    obtain ⟨hloop, hfile, hbelow, hne, hcall⟩ := below_loop_of_header h
      (PointMap.traced_of_get? hown) (PointMap.traced_of_get? hinner) hpoint henter hheader hsite
      (fun hnone => Option.some_ne_none w (hcalled.symm.trans hnone)) hcontains
    have hkind := (PointMap.traced_of_get? hinner).kind
    rw [hfile] at hkind
    exact hclear x (List.mem_of_getElem? hx) _ (isLoop_of_ofLoop? (loop_of_isLoop hkind hloop).1)
      hbelow hne hcall

/-- Calls of one name are evaluated in the order in which they are listed; their links differ. -/
theorem pairwise_callSites (own : TracePoint) (w : String) :
    (callSites (.traced p) own w).Pairwise fun x y =>
      EvaluatedFirst (p.file own.ref.file) x.node y.node ∧
        linkTo (p.file own.ref.file) x.node ≠ linkTo (p.file own.ref.file) y.node := by
  have hfirst := (pairwise_scopeSites (h own.ref.file) own.ref.node own.kind).filter
    fun x : Site => Activation.calls (p.file own.ref.file) w x.node
  refine List.pairwise_iff_getElem.mpr fun j k hj hk hlt => ⟨?_, fun heq => ?_⟩
  · exact List.pairwise_iff_getElem.mp hfirst j k hj hk hlt
  · have hsame := (range_eq_iff h hf (List.getElem?_eq_getElem hj)
      (List.getElem?_eq_getElem hk)).mp (congrArg Link.range heq)
    omega

end Enter

/-- The children of a node that run a method of a name none of whose calls stands in a loop take
these calls in the order of evaluation, each its own; further ones take the first call that is
deferred. -/
theorem calls_bind_in_order {sources : List (String × String)}
    (hsize : ∀ x ∈ sources, x.2.utf8ByteSize + 1 < Limit.word) {partially : Bool}
    {tokens : List Nat} {r : Reconstruction}
    (h : reconstruct (.ofSources sources) partially (Stream.ofTokens tokens) = .ok r) {i : Nat}
    {own : TracePoint} (hown : Machine.Bears (.ofSources sources) r.tree i own) {w : String}
    (hclear : ClearOfLoops (.ofSources sources) own w) :
    let f := (Setting.ofSources sources).file own.ref
    let sites := callSites (.ofSources sources) own w
    let children := methodChildren (.ofSources sources) r.tree i w
    sites.Pairwise (fun x y => EvaluatedFirst f x.node y.node ∧
      linkTo f x.node ≠ linkTo f y.node) ∧
    children.Pairwise (· < ·) ∧
    (∀ (j c : Nat) (x : Site), children[j]? = some c → sites[j]? = some x →
      r.tree.link? c = some (linkTo f x.node)) ∧
    ∀ (j c : Nat) (x : Site), children[j]? = some c → sites.length ≤ j →
      sites.find? Site.deferred = some x → r.tree.link? c = some (linkTo f x.node) := by
  intro f sites children
  have hlaid := laid_ofSources (inOrder_ofSources hsize)
  have hlinear : Linear (.ofSources sources) r.tree i own :=
    ledger_of_reconstruct (ledger_calls hlaid fielded_ofSources) h hown
  refine ⟨pairwise_callSites hlaid fielded_ofSources own w, ?_, fun j c x hc hx => ?_,
    fun j c x hc hj hx => ?_⟩
  · exact (Tree.pairwise_children (listed_of_reconstruct h) i).filter _
  · refine hlinear w hclear j c x hc ?_
    rw [siteFor?, show (callSites (.ofSources sources) own w)[j]? = some x from hx, Option.some_or]
  · refine hlinear w hclear j c x hc ?_
    rw [siteFor?, List.getElem?_eq_none hj, Option.none_or]
    exact hx

/-- Two overloads share a name, the third call of it is deferred, and a loop that holds no such
call ends in between. -/
theorem overloads_and_deferred_call_bind_in_order :
    let sources := [("A.java",
      "class A{void m(){f();while(p){g();}f(1);q=()->f();}void f(){}void f(int x){}void g(){}}")]
    let s := Setting.ofSources sources
    ∃ r own, reconstruct s false (Stream.ofTokens [1, 3, 2, 5, 4, 3, 3]) = .ok r ∧
      Machine.Bears s r.tree 1 own ∧ ClearOfLoops s own "f" ∧
      methodChildren s r.tree 1 "f" = [2, 5, 6, 7] ∧
      r.tree.link? 2 ≠ r.tree.link? 5 ∧ r.tree.link? 7 = r.tree.link? 6 := by
  intro sources s
  have hrun : (Machine.outcome? s 200 [1, 3, 2, 5, 4, 3, 3]).any fun r =>
      r.unconsumed = 0 ∧ r.tree.traceId? 1 = some (toString 1) ∧
        methodChildren s r.tree 1 "f" = [2, 5, 6, 7] := by
    decide +kernel
  have hcalls : (s.points.get? 1).any fun own =>
      (callSites s own "f").length = 3 ∧
        ((callSites s own "f").find? Site.deferred) = (callSites s own "f")[2]? ∧
        ∀ x ∈ callSites s own "f",
        ∀ l ∈ x.node :: (s.file own.ref).ancestors x.node,
          ((s.file own.ref).form l).isLoop = false := by
    decide +kernel
  obtain ⟨r, hok, hconsumed, hid, hchildren⟩ := Machine.exists_reconstruct hrun
  obtain ⟨own, hpoint, hown⟩ := (Option.any_eq_true _ _).mp hcalls
  obtain ⟨hlength, hdeferred, hnone⟩ := of_decide_eq_true hown
  have hbears : Machine.Bears s r.tree 1 own := ⟨1, hid, hpoint⟩
  have hsize : ∀ x ∈ sources, x.2.utf8ByteSize + 1 < Limit.word := by decide
  have hlaid := laid_ofSources (inOrder_ofSources hsize) own.ref.file
  have hclear : ClearOfLoops s own "f" := fun x hx l hloop _ _ hbelow => by
    rw [hnone x hx l (hlaid.toLinked.mem_ancestors hbelow)] at hloop
    cases hloop
  have hwhole := Machine.reconstruct_wholly hok hconsumed
  obtain ⟨hdiffer, _, hlinks, hlater⟩ := calls_bind_in_order hsize hwhole hbears hclear
  obtain ⟨x, y, z, hsites⟩ := List.length_eq_three.mp hlength
  rw [hchildren, show callSites (.ofSources sources) own "f" = [x, y, z] from hsites] at hlinks
  rw [hchildren, show callSites (.ofSources sources) own "f" = [x, y, z] from hsites] at hlater
  rw [show callSites (.ofSources sources) own "f" = [x, y, z] from hsites] at hdiffer
  rw [hsites] at hdeferred
  refine ⟨r, own, hwhole, hbears, hclear, hchildren, ?_, ?_⟩
  · rw [hlinks 0 2 x rfl rfl, hlinks 1 5 y rfl rfl]
    exact fun heq => ((List.pairwise_cons.mp hdiffer).1 y List.mem_cons_self).2
      (Option.some.inj heq)
  · rw [hlinks 2 6 z rfl rfl, hlater 3 7 z rfl (Nat.le_refl 3) hdeferred]

end Retrace.Reconstruct
