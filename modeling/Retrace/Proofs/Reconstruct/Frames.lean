import Retrace.Proofs.Instrument.TracePoints
import Retrace.Proofs.Reconstruct.Calls
import Retrace.Proofs.Reconstruct.Sight

/-! The activations of a structured program.

An activation in such a program (`Frame`) binds the calls of its scope one after the other
(`Frame.enter?_call`) and takes the blocks, branches and loops among its statements
(`Frame.enter?_nested`). Once all of its calls are bound it takes none of the trace points that can
begin after it (`Frame.enter?_eq_none`): a block that begins then stands outside of its code, as
nothing that it has called comes to call it again. -/
namespace Retrace.Reconstruct
open Java (Form)
open Source Instrument Trace

/-! ### Everywhere in a structured project -/

theorem form_of_size_le {f : File} {i : Nat} (h : f.nodes.size ≤ i) : f.form i = .program := by
  unfold File.form
  rw [eq_default_of_le h]
  rfl

/-- What holds of the nodes of the files holds of all numbers, if it does of an empty node. -/
theorem forall_file {p : Project} {P : File → Nat → Prop}
    (h : ∀ f ∈ p.fileList, ∀ i ∈ f.numbersOf, P f i)
    (hempty : ∀ f i, f.form i = .program → P f i) (n i : Nat) : P (p.file n) i := by
  by_cases hi : i < (p.file n).nodes.size
  · rcases file_cases p n with hmem | hdefault
    · exact h _ hmem i (List.mem_range.mpr hi)
    · rw [hdefault]
      exact hempty _ i (form_default i)
  · exact hempty _ i (form_of_size_le (Nat.le_of_not_lt hi))

theorem mem_declaredNames {p : Project} {n i : Nat} {name : String}
    (hform : (p.file n).form i = .methodDeclaration) (hname : (p.file n).name? i = some name) :
    name ∈ declaredNames p := by
  refine forall_file (p := p) (P := fun f i => f.form i = .methodDeclaration →
    f.name? i = some name → name ∈ declaredNames p) (fun f hf i hi hform hname => ?_)
    (fun f i hempty hform _ => ?_) n i hform hname
  · refine List.mem_flatMap.mpr ⟨f, hf, List.mem_filterMap.mpr ⟨i, hi, ?_⟩⟩
    rw [hform, hname]
    rfl
  · rw [hempty] at hform
    cases hform

section Everywhere
variable {p : Project} (hs : Structured p)
include hs

theorem Structured.isImmediate (n i : Nat) : isImmediate ((p.file n).form i) = true := by
  refine forall_file hs.immediate (fun f i hform => ?_) n i
  rw [hform]
  rfl

theorem Structured.header {n i : Nat} (h : hasHeader ((p.file n).form i) = true) :
    callsIn p (p.file n) i = headerCalls p (p.file n) i := by
  refine forall_file (P := fun f i => hasHeader (f.form i) = true →
    callsIn p f i = headerCalls p f i) hs.headers (fun f i hform h => ?_) n i h
  rw [hform] at h
  cases h

/-- Every place stands in one method at most. -/
theorem Structured.method_unique {n m k x : Nat} (hlaid : (p.file n).Laid)
    (hm : (p.file n).form m = .methodDeclaration) (hk : (p.file n).form k = .methodDeclaration)
    (hmx : (p.file n).Below m x) (hkx : (p.file n).Below k x) : m = k := by
  have hflat : ∀ {i j : Nat}, (p.file n).form i = .methodDeclaration →
      (p.file n).form j = .methodDeclaration → (p.file n).Below j i → j = i := by
    intro i j hi hj hji
    rcases List.mem_cons.mp (hlaid.mem_ancestors hji) with heq | hmem
    · exact heq
    · refine absurd hj (forall_file (P := fun f i => f.form i = .methodDeclaration →
        ∀ j ∈ f.ancestors i, f.form j ≠ .methodDeclaration) hs.flat ?_ n i hi j hmem)
      intro f i hform hmethod
      rw [hform] at hmethod
      cases hmethod
  rcases hlaid.below_or_below hmx hkx with hmk | hkm
  · exact hflat hk hm hmk
  · exact (hflat hm hk hkm).symm

end Everywhere

/-! ### Scopes -/

section Scope
variable {p : Project} {point : TracePoint} (h : Traced p point)
include h

theorem scope_of_traced : ∃ b,
    probeBlock? (p.file point.ref.file) point.ref.node point.kind = some b ∧
    Holds (p.file point.ref.file) point.ref.node point.kind b ∧
    scopeOf p point = ((p.file point.ref.file).children b).filter fun c =>
      (p.file point.ref.file).form c != .explicitConstructorInvocation := by
  obtain ⟨b, hb, hholds⟩ := holds_of_kind? h.kind
  refine ⟨b, hb, hholds, ?_⟩
  unfold scopeOf scopeStatements scopeBody?
  rw [hb]

variable (hlaid : ∀ n, (p.file n).Laid)
include hlaid

theorem below_of_scope {c : Nat} (hc : c ∈ scopeOf p point) :
    (p.file point.ref.file).Below point.ref.node c := by
  obtain ⟨b, _, hholds, hscope⟩ := scope_of_traced h
  rw [hscope] at hc
  exact (hholds.below (hlaid _).toLinked).trans (File.below_child (List.mem_filter.mp hc).1)

theorem pairwise_scope : (scopeOf p point).Pairwise fun c d =>
    ((p.file point.ref.file).range c).Apart ((p.file point.ref.file).range d) := by
  obtain ⟨b, _, _, hscope⟩ := scope_of_traced h
  rw [hscope]
  exact (((hlaid _).ordered b).imp Or.inl).filter _

theorem bounds_of_scope {c : Nat} (hc : c ∈ scopeOf p point) :
    c < (p.file point.ref.file).nodes.size ∧ 0 < c := by
  obtain ⟨b, _, _, hscope⟩ := scope_of_traced h
  rw [hscope] at hc
  obtain ⟨hlt, hsize⟩ := (hlaid _).bounds (List.mem_filter.mp hc).1
  exact ⟨hsize, Nat.lt_of_le_of_lt (Nat.zero_le b) hlt⟩

/-- The statements of a trace point stand inside of the braces of its block. -/
theorem strictlyContains_of_scope (hbraced : ∀ n, (p.file n).Braced)
    (hkind : point.kind ≠ .constructor) {c x : Nat} (hc : c ∈ scopeOf p point)
    (hx : (p.file point.ref.file).Below c x) :
    ((p.file point.ref.file).range point.ref.node).strictlyContains
      ((p.file point.ref.file).range x) = true := by
  obtain ⟨b, _, hholds, hscope⟩ := scope_of_traced h
  have hblock : (p.file point.ref.file).form b = .block := by
    generalize hkinds : point.kind = kind at hholds hkind
    cases hholds with
    | itself hform _ => exact hform
    | initializer _ _ hform => exact hform
    | method _ _ hform => exact hform
    | constructor _ _ => exact absurd rfl hkind
    | loop _ _ hform => exact hform
  rw [hscope] at hc
  exact Range.strictlyContains_mono ((hlaid _).contains_of_below (hholds.below (hlaid _).toLinked))
    (hbraced _ hblock (List.mem_filter.mp hc).1) ((hlaid _).contains_of_below hx)

end Scope

/-! ### Frames -/

/-- The activation runs a part of the method that is declared at `m`. -/
structure Frame (p : Project) (m : Nat) (a : Activation) : Prop where
  traced : Traced p a.point
  unit : a.point.kind ≠ .constructor
  sites : a.sites = scopeSites (p.file a.point.ref.file) a.point.ref.node a.point.kind
  opened : a.openCreation = none
  latest : a.lastCreation = none
  method : (p.file a.point.ref.file).form m = .methodDeclaration
  below : (p.file a.point.ref.file).Below m a.point.ref.node

/-- The calls in front have been bound, those at the back have not. -/
structure Spent (f : File) (a : Activation) (front back : List Nat) : Prop where
  bound : ∀ x ∈ front, a.consumed.contains (f.range x) = true
  free : ∀ x ∈ back, a.consumed.contains (f.range x) = false

theorem Spent.bind {f : File} {a : Activation} {front back : List Nat} {x : Nat}
    (h : Spent f a front (x :: back)) (hne : ∀ y ∈ back, f.range x ≠ f.range y) :
    Spent f {a with consumed := f.range x :: a.consumed} (front ++ [x]) back where
  bound y hy := by
    rw [List.contains_cons, Bool.or_eq_true]
    rcases List.mem_append.mp hy with hy | hy
    · exact .inr (h.bound y hy)
    · rw [List.mem_singleton.mp hy]
      exact .inl (beq_self_eq_true _)
  free y hy := by
    rw [List.contains_cons, Bool.or_eq_false_iff]
    exact ⟨beq_eq_false_iff_ne.mpr (hne y hy).symm, h.free y (List.mem_cons_of_mem x hy)⟩

/-- The calls in a header are free again after a round. -/
theorem Spent.release {f : File} {a : Activation} {front header back : List Nat} {r : Range}
    (h : Spent f a front back) (hheader : ∀ x ∈ header, r.contains (f.range x) = true)
    (hfront : ∀ x ∈ front, r.contains (f.range x) = false) :
    Spent f (a.releaseHeader (some r)) front (header ++ back) where
  bound x hx := by
    have hmem := List.contains_iff_mem.mp (h.bound x hx)
    exact List.contains_iff_mem.mpr (List.mem_filter.mpr ⟨hmem, by rw [hfront x hx]; rfl⟩)
  free x hx := by
    rw [← Bool.not_eq_true]
    intro hcontains
    obtain ⟨hmem, hkeeps⟩ := List.mem_filter.mp (List.contains_iff_mem.mp hcontains)
    rcases List.mem_append.mp hx with hx | hx
    · rw [hheader x hx] at hkeeps
      cases hkeeps
    · have hfree := h.free x hx
      rw [List.contains_iff_mem.mpr hmem] at hfree
      cases hfree

/-- The trace point stands in the code of the method that is declared at `k`. -/
structure Home (p : Project) (q : TracePoint) (k : Ref) : Prop where
  file : k.file = q.ref.file
  method : (p.file q.ref.file).form k.node = .methodDeclaration
  below : (p.file q.ref.file).Below k.node q.ref.node

/-- What can begin after a call in the method `m` has run: a method, or a block of `m` or of a
method that has come to call it. -/
def Following (p : Project) (m : Ref) (q : TracePoint) : Prop :=
  q.kind = .method ∨
    q.kind.binding = .nested ∧ ∃ k, Home p q k ∧ Relation.ReflTransGen (Calls p) k m

/-- What can begin after the node `i` of the method `m` has run: a method, a block of a method that
has come to call `m`, or one of `m` outside of the node. -/
def Beyond (p : Project) (m : Ref) (i : Nat) (q : TracePoint) : Prop :=
  q.kind = .method ∨
    q.kind.binding = .nested ∧ ∃ k, Home p q k ∧ (Relation.TransGen (Calls p) k m ∨
      k = m ∧ ((p.file m.file).range i).strictlyContains ((p.file m.file).range q.ref.node) = false)

theorem Beyond.following {p : Project} {m : Ref} {i : Nat} {q : TracePoint} (h : Beyond p m i q) :
    Following p m q := by
  rcases h with h | ⟨hkind, k, hk, hcalls | ⟨rfl, _⟩⟩
  · exact .inl h
  · exact .inr ⟨hkind, k, hk, hcalls.to_reflTransGen⟩
  · exact .inr ⟨hkind, k, hk, .refl⟩

theorem Spent.front {f : File} {a : Activation} {front header back : List Nat}
    (h : Spent f a (front ++ header) back) : Spent f a front back :=
  ⟨fun x hx => h.bound x (List.mem_append_left header hx), h.free⟩

theorem Spent.back {f : File} {a : Activation} {front header back : List Nat}
    (h : Spent f a front (header ++ back)) : Spent f a front back :=
  ⟨h.bound, fun x hx => h.free x (List.mem_append_right header hx)⟩

/-! ### What a frame takes -/

theorem fileOf_traced (p : Project) (a : Activation) :
    a.fileOf (.traced p) = p.file a.point.ref.file := rfl

/-- How a block, a branch or a round of a loop is entered. -/
def nestedEntrance (f : File) (q : TracePoint) : Entrance :=
  if q.kind.isLoop then
    .nested (f.range ((f.child? q.ref.node .body).getD q.ref.node)) (some (f.range q.ref.node))
  else .nested (f.range q.ref.node) none

theorem link_nestedEntrance (f : File) (q : TracePoint) :
    (nestedEntrance f q).link? = none ∧ (nestedEntrance f q).landings = [] := by
  unfold nestedEntrance
  split <;> exact ⟨rfl, rfl⟩

theorem marker_nestedEntrance (f : File) (hf : f.Laid) (q : TracePoint) :
    ∃ z, f.Below q.ref.node z ∧ (nestedEntrance f q).marker? = some (f.range z) := by
  unfold nestedEntrance
  split
  · refine ⟨(f.child? q.ref.node .body).getD q.ref.node, ?_, rfl⟩
    cases hbody : f.child? q.ref.node .body with
    | none => exact File.below_refl f _
    | some b => exact File.below_child (hf.child_of_child? hbody)
  · exact ⟨q.ref.node, File.below_refl f _, rfl⟩

section Frame
variable {p : Project} (hs : Structured p) (hlaid : ∀ n, (p.file n).Laid) {m : Nat}
  {a : Activation} (ha : Frame p m a)
include ha

theorem Frame.rebound (consumed : List Range) : Frame p m {a with consumed := consumed} :=
  ⟨ha.traced, ha.unit, ha.sites, ha.opened, ha.latest, ha.method, ha.below⟩

include hs in
theorem Frame.setupCall?_eq_none (name : String) : a.setupCall? (.traced p) name = none := by
  have hfresh : (a.sites.filter fun x =>
      (a.fileOf (.traced p)).form x.node == .objectCreationExpression &&
        !a.consumed.contains ((a.fileOf (.traced p)).range x.node)) = [] := by
    refine List.filter_eq_nil_iff.mpr fun x _ => ?_
    have himmediate := hs.isImmediate a.point.ref.file x.node
    intro hcreation
    have hform := beq_iff_eq.mp (Bool.and_eq_true_iff.mp hcreation).1
    rw [fileOf_traced] at hform
    rw [hform] at himmediate
    cases himmediate
  unfold Activation.setupCall? Activation.pendingCreations
  dsimp only
  rw [ha.opened, ha.latest, hfresh]
  rfl

include hs in
/-- A frame binds its calls in the order of evaluation. -/
theorem Frame.enter?_call {front back : List Nat} {x : Nat}
    (hcalls : callsOf p (p.file a.point.ref.file) (scopeOf p a.point) = front ++ x :: back)
    (hspent : Spent (p.file a.point.ref.file) a front (x :: back)) {q : TracePoint}
    (hkind : q.kind = .method)
    (hname : (p.file q.ref.file).name? q.ref.node = calledName? (p.file a.point.ref.file) x) :
    a.enter? (.traced p) q = some
      (.site ⟨(p.file a.point.ref.file).range x, (p.file a.point.ref.file).path⟩
          (Activation.landing? (.traced p) q.ref) (some ((p.file a.point.ref.file).range x)),
        {a with consumed := (p.file a.point.ref.file).range x :: a.consumed}) := by
  have hx : callsMethod p (p.file a.point.ref.file) x = true := by
    obtain ⟨i, _, hi⟩ := List.mem_flatMap.mp
      (hcalls ▸ List.mem_append_right front List.mem_cons_self)
    exact (below_of_callsIn hi).2
  obtain ⟨w, hw, hdeclared⟩ := Option.any_eq_true _ _ |>.mp hx
  have hfree := hspent.free x List.mem_cons_self
  have hpick : pickSite? (p.file a.point.ref.file) a.consumed a.sites
      (Activation.calls (p.file a.point.ref.file) w) = some ⟨x, false⟩ := by
    have hfront : front.find? (fun y => Activation.calls (p.file a.point.ref.file) w y &&
        !a.consumed.contains ((p.file a.point.ref.file).range y)) = none := by
      refine List.find?_eq_none.mpr fun y hy => ?_
      rw [hspent.bound y hy]
      simp
    rw [ha.sites, pickSite?_scopeSites (hs.isImmediate _) (by simpa using hdeclared)]
    rw [show scopeStatements _ _ _ = scopeOf p a.point from rfl, hcalls, List.find?_append, hfront,
      Option.none_or, List.find?_cons_of_pos (by rw [calls_iff.mpr hw, hfree]; rfl)]
    rfl
  have hmethod : a.enterMethod? (.traced p) q.ref = some
      (.site ⟨(p.file a.point.ref.file).range x, (p.file a.point.ref.file).path⟩
          (Activation.landing? (.traced p) q.ref) (some ((p.file a.point.ref.file).range x)),
        {a with consumed := (p.file a.point.ref.file).range x :: a.consumed}) := by
    unfold Activation.enterMethod?
    rw [show ((Setting.traced p).file q.ref).name? q.ref.node = some w from hname.trans hw,
      Option.bind_some]
    dsimp only
    rw [fileOf_traced, hpick]
    dsimp only
    unfold Activation.consume
    rw [hfree]
    rfl
  unfold Activation.enter?
  rw [hkind]
  show (a.enterMethod? (.traced p) q.ref).or _ = _
  rw [hmethod]
  rfl

include hlaid in
/-- A frame takes the blocks among its statements. -/
theorem Frame.enter?_nested (hbraced : ∀ n, (p.file n).Braced) {q : TracePoint}
    (hkind : q.kind.binding = .nested) (hfile : q.ref.file = a.point.ref.file) {i : Nat}
    (hi : i ∈ scopeOf p a.point) (hq : (p.file a.point.ref.file).Below i q.ref.node) :
    a.enter? (.traced p) q = some (nestedEntrance (p.file a.point.ref.file) q, a) := by
  have hstrict := strictlyContains_of_scope ha.traced hlaid hbraced ha.unit hi hq
  have hnested : a.enterNested? (.traced p) q =
      some (nestedEntrance (p.file a.point.ref.file) q) := by
    unfold Activation.enterNested?
    dsimp only
    rw [if_pos]
    · rfl
    · rw [hfile, beq_self_eq_true, Bool.true_and]
      exact hstrict
  unfold Activation.enter?
  rw [hkind, hnested]
  rfl

include hs hlaid in
/-- Nothing that can begin after a frame has run stands inside of its code. -/
theorem Frame.enterNested?_eq_none {q : TracePoint} (hq : Traced p q)
    (hbeyond : Beyond p ⟨a.point.ref.file, m⟩ a.point.ref.node q) :
    a.enterNested? (.traced p) q = none := by
  obtain ⟨⟨n, i⟩, kind⟩ := q
  unfold Activation.enterNested?
  dsimp only
  refine if_neg fun hinside => ?_
  obtain ⟨hfile, hstrict⟩ := Bool.and_eq_true_iff.mp hinside
  obtain rfl : n = a.point.ref.file := beq_iff_eq.mp hfile
  obtain ⟨hbelow, hne⟩ := (hlaid _).below_of_strictlyContains ha.traced.node_lt hq.node_lt hstrict
  have hinner := ha.below.trans hbelow
  rcases hbeyond with rfl | ⟨_, k, hk, hcalls⟩
  · have heq := hs.method_unique (hlaid _) ha.method (form_of_method hq.kind) hinner
      (File.below_refl _ i)
    have hle := (hlaid _).le_of_below ha.below
    have hle' := (hlaid _).le_of_below hbelow
    exact hne (by omega)
  · have heq := hs.method_unique (hlaid _) ha.method hk.method hinner hk.below
    obtain ⟨file, node⟩ := k
    obtain rfl : file = a.point.ref.file := hk.file
    obtain rfl : m = node := heq
    rcases hcalls with hcycle | ⟨_, houtside⟩
    · exact hs.acyclic _ hcycle
    · rw [fileOf_traced] at hstrict
      rw [hstrict] at houtside
      cases houtside

include hs hlaid in
/-- A frame whose calls have all been bound takes nothing that can begin after it. -/
theorem Frame.enter?_eq_none
    (hspent : Spent (p.file a.point.ref.file) a
      (callsOf p (p.file a.point.ref.file) (scopeOf p a.point)) [])
    {q : TracePoint} (hq : Traced p q)
    (hbeyond : Beyond p ⟨a.point.ref.file, m⟩ a.point.ref.node q) :
    a.enter? (.traced p) q = none := by
  unfold Activation.enter?
  rw [ha.enterNested?_eq_none hs hlaid hq hbeyond, Option.map_none, Option.or_none]
  rcases hbeyond with hkind | ⟨hkind, _⟩
  · have hform : (p.file q.ref.file).form q.ref.node = .methodDeclaration :=
      form_of_method (hkind ▸ hq.kind)
    rw [hkind]
    show a.enterMethod? (.traced p) q.ref = none
    unfold Activation.enterMethod?
    cases hname : ((Setting.traced p).file q.ref).name? q.ref.node with
    | none => rfl
    | some w =>
      have hpick : pickSite? (p.file a.point.ref.file) a.consumed a.sites
          (Activation.calls (p.file a.point.ref.file) w) = none := by
        rw [ha.sites, pickSite?_scopeSites (hs.isImmediate _) (mem_declaredNames hform hname),
          Option.map_eq_none_iff]
        refine List.find?_eq_none.mpr fun y hy => ?_
        rw [hspent.bound y hy]
        simp
      rw [Option.bind_some]
      dsimp only
      rw [fileOf_traced, hpick]
      dsimp only
      rw [ha.setupCall?_eq_none hs]
      rfl
  · rw [hkind]

end Frame

end Retrace.Reconstruct
