import Retrace.Proofs.Reconstruct.Frames
import Retrace.Proofs.Reconstruct.Record

/-! Why a node hangs under its parent.

Every edge of a tree can be found in the sources: a call of the method, or a creation of an object
of the class, in the scope of the parent; a call in the setup code of a class of which the parent
creates an object; the loading of a class; or code that stands inside of the parent's
(`Justified`). `edge_of_reconstruct` says that of every node, with what its links say.

What counts as setup code is the initializers of fields that are not static. Whether a field is
static is read off the words of its modifiers' text, and a keyword that touches an annotation or a
comment is no word there. `static_field_taken_for_setup` shows a method that is linked to the
initializer of a static field for that reason, so the theorem asks that no keyword is missed
(`StaticTold`). -/
namespace Retrace.Reconstruct
open Java hiding Tree
open Source Instrument Trace

/-! ### Setup code -/

/-- The lexeme stands in the text of a node. -/
def standsIn (f : File) (i : Nat) (l : Lexeme) : Bool :=
  (f.node i).start ≤ l.start.offset && l.stop.offset ≤ (f.node i).stop

/-- The keyword stands among the modifiers of a member, outside of their annotations. -/
def markedStatic (f : File) (m : Nat) : Bool :=
  (f.children m).any fun c => f.form c == .modifiers &&
    (Lexer.lex f.text.toList).any fun l => l.isWord "static" && standsIn f c l &&
      !(f.children c).any fun d => standsIn f d l

/-- No field that is marked static is taken for one that is not. -/
def StaticTold (p : Project) : Prop :=
  ∀ f ∈ p.fileList, ∀ m ∈ f.numbersOf, f.form m = .fieldDeclaration → markedStatic f m = true →
    isStatic f m = true

instance (p : Project) : Decidable (StaticTold p) := by
  unfold StaticTold
  infer_instance

/-- What a class evaluates while an object is set up: the declarators of its instance fields, and
the calls with which its constructors begin. -/
inductive SetupPart (f : File) (c : Nat) : Nat → Prop
  | field {m d : Nat} (member : m ∈ classMembers f c) (form : f.form m = .fieldDeclaration)
    (instanceField : markedStatic f m = false) (child : d ∈ f.children m)
    (declarator : f.form d = .variableDeclarator) : SetupPart f c d
  | delegation {m b x : Nat} (member : m ∈ classMembers f c)
    (form : f.form m = .constructorDeclaration) (body : f.child? m .body = some b)
    (child : x ∈ f.children b) (invocation : f.form x = .explicitConstructorInvocation) :
    SetupPart f c x

theorem setupPart_of_mem {p : Project} (h : StaticTold p) {n c e : Nat}
    (he : e ∈ setupExpressions (p.file n) c) : SetupPart (p.file n) c e := by
  have htold : ∀ m, (p.file n).form m = .fieldDeclaration → markedStatic (p.file n) m = true →
      isStatic (p.file n) m = true := by
    refine forall_file (p := p) (P := fun f m => f.form m = .fieldDeclaration →
      markedStatic f m = true → isStatic f m = true) h (fun f m hempty hform _ => ?_) n
    rw [hempty] at hform
    cases hform
  obtain ⟨m, hm, he⟩ := List.mem_flatMap.mp he
  split at he
  · rename_i hform
    split at he
    · cases he
    · rename_i hstatic
      obtain ⟨hchild, hdeclarator⟩ := List.mem_filter.mp he
      refine .field hm hform ?_ hchild (by simpa using hdeclarator)
      rw [← Bool.not_eq_true]
      exact fun hmarked => hstatic (htold m hform hmarked)
  · rename_i hform
    split at he
    · rename_i b hb
      obtain ⟨hchild, hinvocation⟩ := List.mem_filter.mp he
      exact .delegation hm hform hb hchild (by simpa using hinvocation)
    · cases he
  · cases he

/-! ### Justified edges -/

/-- The place of a node. -/
def linkTo (f : File) (i : Nat) : Link := ⟨f.range i, f.path⟩

/-- In the scope of a trace point, an object of the type of that name is created. -/
structure Creates (s : Setting) (own : TracePoint) (i : Nat) (created : String) : Prop where
  site : ∃ x ∈ scopeSites (s.file own.ref) own.ref.node own.kind, x.node = i
  form : (s.file own.ref).form i = .objectCreationExpression
  type : createdType? (s.file own.ref) i = some created

/-- Why `inner` is started in `own`, by way of a link or without one. -/
inductive Justified (s : Setting) (own inner : TracePoint) : Option Link → Prop
  | call {x : Site} {name : String} (kind : inner.kind = .method)
    (named : (s.file inner.ref).name? inner.ref.node = some name)
    (site : x ∈ scopeSites (s.file own.ref) own.ref.node own.kind)
    (called : calledName? (s.file own.ref) x.node = some name) :
    Justified s own inner (some (linkTo (s.file own.ref) x.node))
  | setup {i e : Nat} {x : Site} {name created : String} {c : Ref} (kind : inner.kind = .method)
    (named : (s.file inner.ref).name? inner.ref.node = some name)
    (creation : Creates s own i created) (ancestor : c ∈ s.ancestry created)
    (part : SetupPart (s.file c) c.node e) (site : x ∈ sitesWithin (s.file c) false e)
    (called : calledName? (s.file c) x.node = some name) :
    Justified s own inner (some (linkTo (s.file c) x.node))
  | creation {i c : Nat} {created : String}
    (kind : inner.kind = .constructor ∨ inner.kind = .initializer)
    (declaring : declaringClass? (s.file inner.ref) inner.ref.node = some c)
    (creation : Creates s own i created) (ancestor : ⟨inner.ref.file, c⟩ ∈ s.ancestry created) :
    Justified s own inner (some (linkTo (s.file own.ref) i))
  | loading (kind : inner.kind = .staticInitializer) : Justified s own inner none
  | inside (file : inner.ref.file = own.ref.file)
    (within : ((s.file own.ref).range own.ref.node).strictlyContains
      ((s.file inner.ref).range inner.ref.node) = true) : Justified s own inner none

/-- The name of a trace point's node, if its child has been linked. -/
def nameLinks (s : Setting) (inner : TracePoint) (link : Option Link) : List Link :=
  if link.isSome then (((s.file inner.ref).nameNode? inner.ref.node).map
    (linkTo (s.file inner.ref))).toList
  else []

namespace Activation

/-- An activation knows the sites of its scope, and the creations that it remembers are among
them. -/
structure Aware (s : Setting) (a : Activation) : Prop where
  sites : a.sites = scopeSites (a.fileOf s) a.point.ref.node a.point.kind
  known : ∀ i, a.openCreation = some i ∨ a.lastCreation = some i →
    (∃ x ∈ a.sites, x.node = i) ∧ (a.fileOf s).form i = .objectCreationExpression

section Aware
variable {s : Setting} {a b : Activation} (h : Aware s a)
include h

theorem Aware.pending {i : Nat} (hi : i ∈ pendingCreations s a) :
    (∃ x ∈ a.sites, x.node = i) ∧ (a.fileOf s).form i = .objectCreationExpression := by
  unfold pendingCreations at hi
  dsimp only at hi
  rcases List.mem_append.mp hi with hi | hi
  · rcases List.mem_append.mp hi with hi | hi
    · exact h.known i (.inl (Option.mem_toList.mp hi))
    · obtain ⟨x, hx, rfl⟩ := List.mem_map.mp hi
      obtain ⟨hsite, hfresh⟩ := List.mem_filter.mp hx
      simp only [Bool.and_eq_true, beq_iff_eq] at hfresh
      exact ⟨⟨x, hsite, rfl⟩, hfresh.1⟩
  · exact h.known i (.inr (Option.mem_toList.mp hi))

theorem Aware.consume (r : Range) : Aware s (a.consume r) := by
  unfold Activation.consume
  split
  · exact h
  · exact ⟨h.sites, h.known⟩

/-- The creation that runs a constructor or an initializer creates an object of the class. -/
theorem Aware.creationFor? {c : Ref} {i : Nat} (hc : a.creationFor? s c = some (i, b)) :
    ((∃ x ∈ a.sites, x.node = i) ∧ (a.fileOf s).form i = .objectCreationExpression) ∧
      creates s (a.fileOf s) c i = true ∧ Aware s b := by
  unfold Activation.creationFor? at hc
  dsimp only at hc
  split at hc
  · rename_i opened hopened
    cases hc
    obtain ⟨hknown, hcreates⟩ := Option.filter_eq_some_iff.mp hopened
    exact ⟨h.known _ (.inl hknown), hcreates, h⟩
  · split at hc
    · rename_i site hpick
      cases hc
      obtain ⟨hsite, hwanted⟩ := mem_of_pickSite? hpick
      simp only [Bool.and_eq_true, beq_iff_eq] at hwanted
      exact ⟨⟨⟨site, hsite, rfl⟩, hwanted.1⟩, hwanted.2, h.consume _⟩
    · obtain ⟨latest, hlatest, hpair⟩ := Option.map_eq_some_iff.mp hc
      cases hpair
      obtain ⟨hknown, hcreates⟩ := Option.filter_eq_some_iff.mp hlatest
      exact ⟨h.known _ (.inr hknown), hcreates, h⟩

/-- A call that the creation of an object evaluates, with the class in whose setup code it
stands. -/
theorem Aware.setupCall? (hstatic : StaticTold s.project) {inner : TracePoint}
    (hkind : inner.kind = .method) {name : String}
    (hname : (s.file inner.ref).name? inner.ref.node = some name) {call : Ref}
    (hcall : a.setupCall? s name = some call) :
    Justified s a.point inner (some (linkTo (s.file call) call.node)) := by
  unfold Activation.setupCall? at hcall
  obtain ⟨i, hi, hcall⟩ := List.exists_of_findSome?_eq_some hcall
  obtain ⟨created, htype, hcall⟩ := Option.bind_eq_some_iff.mp hcall
  obtain ⟨c, hc, hcall⟩ := List.exists_of_findSome?_eq_some hcall
  unfold setupCallOf? at hcall
  obtain ⟨j, hj, rfl⟩ := Option.map_eq_some_iff.mp hcall
  obtain ⟨e, he, hj⟩ := List.exists_of_findSome?_eq_some hj
  unfold setupCallIn? at hj
  obtain ⟨x, hx, rfl⟩ := Option.map_eq_some_iff.mp hj
  obtain ⟨hsite, hform⟩ := h.pending hi
  rw [h.sites] at hsite
  have hcalled : calledName? (s.file c) x.node = some name := by
    simpa [calls] using List.find?_some hx
  have hpart : SetupPart (s.file c) c.node e := setupPart_of_mem hstatic he
  exact .setup (c := c) hkind hname ⟨hsite, hform, htype⟩ hc hpart (List.mem_of_find?_eq_some hx)
    hcalled

theorem Aware.enterMethod? (hstatic : StaticTold s.project) {inner : TracePoint}
    (hkind : inner.kind = .method) {e : Entrance}
    (he : a.enterMethod? s inner.ref = some (e, b)) :
    Justified s a.point inner e.link? ∧ e.landings = nameLinks s inner e.link? ∧ Aware s b := by
  unfold Activation.enterMethod? at he
  obtain ⟨name, hname, he⟩ := Option.bind_eq_some_iff.mp he
  dsimp only at he
  split at he
  · rename_i site hpick
    cases he
    obtain ⟨hsite, hcalled⟩ := mem_of_pickSite? hpick
    rw [h.sites] at hsite
    have hcalled : calledName? (a.fileOf s) site.node = some name := by
      simpa [calls] using hcalled
    exact ⟨.call hkind hname hsite hcalled, rfl, h.consume _⟩
  · obtain ⟨call, hcall, he⟩ := Option.map_eq_some_iff.mp he
    cases he
    exact ⟨h.setupCall? hstatic hkind hname hcall, rfl, h⟩

theorem Aware.enterCreation? {inner : TracePoint}
    (hkind : inner.kind = .constructor ∨ inner.kind = .initializer) {e : Entrance}
    (he : a.enterCreation? s inner.ref = some (e, b)) :
    Justified s a.point inner e.link? ∧ e.landings = nameLinks s inner e.link? ∧ Aware s b := by
  have hrebound := rebound_enterCreation? he
  unfold Activation.enterCreation? at he
  dsimp only at he
  obtain ⟨c, hdeclaring, he⟩ := Option.bind_eq_some_iff.mp he
  obtain ⟨className, _, he⟩ := Option.bind_eq_some_iff.mp he
  obtain ⟨⟨i, a'⟩, hc, he⟩ := Option.bind_eq_some_iff.mp he
  obtain ⟨created, htype, he⟩ := Option.map_eq_some_iff.mp he
  obtain ⟨hcreation, hcreates, haware⟩ := h.creationFor? hc
  obtain ⟨_, _, _, ha'⟩ := rebound_creationFor? hc
  have hfile : a'.fileOf s = a.fileOf s := by rw [ha']; rfl
  rw [hfile] at htype he
  cases he
  unfold creates at hcreates
  rw [htype] at hcreates
  have hsite := hcreation.1
  rw [h.sites] at hsite
  refine ⟨.creation hkind hdeclaring ⟨hsite, hcreation.2, htype⟩ (by simpa using hcreates), rfl,
    haware.sites, fun j hj => ?_⟩
  have hsame : a'.sites = a.sites := by rw [ha']
  have hj : j = i := by
    rcases hj with hj | hj
    · dsimp only at hj
      split at hj <;> cases hj
      rfl
    · exact (Option.some.inj hj).symm
  rw [hj]
  exact ⟨hsame ▸ hcreation.1, hfile ▸ hcreation.2⟩

/-- Whatever an activation takes for a child, the sources say why. -/
theorem Aware.enter? (hstatic : StaticTold s.project) {inner : TracePoint} {e : Entrance}
    (he : a.enter? s inner = some (e, b)) :
    Justified s a.point inner e.link? ∧ e.landings = nameLinks s inner e.link? ∧ Aware s b := by
  unfold Activation.enter? at he
  rcases Option.or_eq_some_iff.mp he with he | ⟨_, he⟩
  · cases hkind : inner.kind <;> rw [hkind] at he <;> dsimp only [PointKind.binding] at he
    case method => exact h.enterMethod? hstatic hkind he
    case constructor => exact h.enterCreation? (.inl hkind) he
    case initializer => exact h.enterCreation? (.inr hkind) he
    case staticInitializer =>
      cases he
      exact ⟨.loading hkind, rfl, h⟩
    all_goals cases he
  · obtain ⟨e', he', hpair⟩ := Option.map_eq_some_iff.mp he
    cases hpair
    unfold enterNested? at he'
    dsimp only at he'
    split at he'
    · rename_i hinside
      simp only [Bool.and_eq_true, beq_iff_eq] at hinside
      have hfile : s.file inner.ref = a.fileOf s := by
        unfold fileOf Setting.file
        rw [hinside.1]
      have hjustified : Justified s a.point inner none :=
        .inside hinside.1 (by rw [hfile]; exact hinside.2)
      cases he'
      split <;> exact ⟨hjustified, rfl, h⟩
    · cases he'

end Aware

theorem aware_lasting {s : Setting} (hstatic : StaticTold s.project) :
    Machine.Lasting s (Aware s) where
  start index e _ := ⟨rfl, fun i hi => by rcases hi with hi | hi <;> cases hi⟩
  go {a scan own} ha _ := by
    obtain ⟨_, hown⟩ := addOwn_eq {a with scan := scan} own
    rw [hown]
    exact ⟨ha.sites, ha.known⟩
  ask ha _ := ⟨ha.sites, ha.known⟩
  recursor _ ha := ⟨ha.sites, ha.known⟩
  enter ha _ henter := (ha.enter? hstatic henter).2.2
  resume {a} e ha := by
    obtain ⟨_, _, _, hresume⟩ := resume_eq a e
    rw [hresume]
    exact ⟨ha.sites, ha.known⟩

end Activation

/-! ### Trees -/

open Machine Activation

/-- What the sources say of a node `n` under `parent`. -/
structure Edge (s : Setting) (t : Tree) (n : Trace.Node) (inner : TracePoint) (parent : Nat) :
    Prop where
  parentIndex : n.parentIndex = some parent
  outIndex : n.outIndex = n.link.map fun _ => parent
  outLinks : n.outLinks = nameLinks s inner n.link
  root : parent = 0 → n.link = none
  justified : 0 < parent → ∃ own, Bears s t parent own ∧ Justified s own inner n.link

/-- Every node but the root hangs where it does for a reason. -/
def Explained (s : Setting) (t : Tree) : Prop :=
  ∀ i n, 0 < i → t.core? i = some n → ∃ inner parent, Bears s t i inner ∧ Edge s t n inner parent

theorem bears_of_grown {s : Setting} {t u : Tree} (h : t.Grown u) {i : Nat} {point : TracePoint}
    (hi : Bears s t i point) : Bears s u i point := by
  have hcore := h.2 i (lt_size_of_bears hi)
  obtain ⟨id, hid, hpoint⟩ := hi
  refine ⟨id, ?_, hpoint⟩
  rw [Tree.traceId?_eq_map_core?, hcore, ← Tree.traceId?_eq_map_core?]
  exact hid

section Explained
variable {s : Setting} {t u : Tree}

theorem Edge.grown {n : Trace.Node} {inner : TracePoint} {parent : Nat}
    (h : Edge s t n inner parent) (hgrown : t.Grown u) : Edge s u n inner parent := by
  refine {h with justified := fun hpos => ?_}
  obtain ⟨own, hown, hjustified⟩ := h.justified hpos
  exact ⟨own, bears_of_grown hgrown hown, hjustified⟩

theorem Explained.old (h : Explained s t) (hgrown : t.Grown u) {i : Nat} {x : Trace.Node}
    (hi : 0 < i) (hsize : i < t.size) (hx : u.core? i = some x) :
    ∃ inner parent, Bears s u i inner ∧ Edge s u x inner parent := by
  rw [hgrown.2 i hsize] at hx
  obtain ⟨inner, parent, hinner, hedge⟩ := h i x hi hx
  exact ⟨inner, parent, bears_of_grown hgrown hinner, hedge.grown hgrown⟩

theorem Explained.still (h : Explained s t) (houtline : u.outline = t.outline) :
    Explained s u := by
  intro i x hi hx
  have hsize := Tree.lt_size_of_core? hx
  rw [Tree.size_eq_of_outline houtline] at hsize
  exact h.old (Tree.grown_of_outline houtline) hi hsize hx

/-- A new child is explained by its entrance. -/
theorem Explained.push (h : Explained s t) {parent id : Nat} {point : TracePoint} {e : Entrance}
    (hpoint : s.points.get? id = some point) (hlandings : e.landings = nameLinks s point e.link?)
    (hroot : parent = 0 → e.link? = none)
    (hjustified : 0 < parent → ∃ own, Bears s t parent own ∧ Justified s own point e.link?) :
    Explained s (t.push parent (newNode s t parent id point e)) := by
  intro i x hi hx
  have hgrown := Tree.grown_push t parent (newNode s t parent id point e)
  by_cases hnew : i = t.size
  · rw [Tree.core?_push, if_pos hnew] at hx
    cases hx
    refine ⟨point, parent, hnew ▸ bears_new hpoint, rfl, rfl, hlandings, hroot, fun hpos => ?_⟩
    obtain ⟨own, hown, hjustified⟩ := hjustified hpos
    exact ⟨own, bears_of_grown hgrown hown, hjustified⟩
  · have hsize := Tree.lt_size_of_core? hx
    rw [Tree.size_push] at hsize
    exact h.old hgrown hi (by omega) hx

end Explained

theorem explained_of_moves {s : Setting} (hstatic : StaticTold s.project) {m n : Machine}
    (hmoves : Moves s m n) (haware : ∀ a ∈ m.stack, Aware s a) (hnamed : Named s m)
    (h : Explained s m.tree) : Explained s n.tree := by
  cases hmoves with
  | root _ _ _ hpoint =>
    exact h.push (e := .root) hpoint rfl (fun _ => rfl) fun hpos => absurd hpos (Nat.lt_irrefl 0)
  | close _ _ =>
    rw [close_eq]
    exact h.still (Tree.outline_setRanges _ _ _)
  | go _ _ => exact h
  | ended _ _ _ => exact h
  | refuse _ _ _ _ _ => exact h
  | @enter a b _ scan _ _ point e hstack _ _ hpoint henter =>
    have ha : a ∈ m.stack := by
      rw [hstack]
      exact List.mem_cons_self
    have hscanned : Aware s {a with scan := scan} := ⟨(haware a ha).sites, (haware a ha).known⟩
    obtain ⟨hjustified, hlandings, _⟩ := hscanned.enter? hstatic henter
    obtain ⟨hpos, hbears⟩ := hnamed.named a ha
    obtain ⟨_, _, _, hb⟩ := rebound_enter? henter
    have hindex : b.index = a.index := by rw [hb]
    refine h.push hpoint hlandings (fun hroot => absurd hroot ?_) fun _ => ?_
    · rw [hindex]
      exact Nat.ne_of_gt hpos
    · rw [hindex]
      exact ⟨a.point, hbears, hjustified⟩

/-- What a machine keeps: what its activations know, which nodes are theirs, and that all nodes are
explained. -/
structure Accounted (s : Setting) (m : Machine) : Prop where
  aware : ∀ a ∈ m.stack, Aware s a
  named : Named s m
  explained : Explained s m.tree

theorem accounted_ofTokens (s : Setting) (tokens : List Nat) :
    Accounted s (ofTokens tokens) where
  aware _ ha := nomatch ha
  named := named_ofTokens s tokens
  explained _ _ hi hn := absurd (Tree.lt_size_of_core? hn) (Nat.not_lt.mpr hi)

theorem Accounted.moves {s : Setting} (hstatic : StaticTold s.project) {m n : Machine}
    (h : Accounted s m) (hmoves : Moves s m n) : Accounted s n where
  aware := (aware_lasting hstatic).moves hmoves h.aware
  named := named_of_moves hmoves h.named
  explained := explained_of_moves hstatic hmoves h.aware h.named h.explained

/-- Every node of a tree but the root stands for a trace point, and its edge can be found in the
sources. A child of the root has no link. Any other is linked to a call of the method, in the scope
of its parent or in the setup code of an object that is created there, to the creation of an object
of the class there, or it has no link and is the loading of a class or stands strictly inside of
the parent's code. The link leads back from the name of the trace point, and what goes out goes
to the parent. -/
theorem edge_of_reconstruct (s : Setting) (hstatic : StaticTold s.project) {partially : Bool}
    {tokens : List Nat} {r : Reconstruction}
    (h : reconstruct s partially (Stream.ofTokens tokens) = .ok r) {i : Nat} {n : Trace.Node}
    (hi : 0 < i) (hn : r.tree.get? i = some n) :
    ∃ inner parent, Bears s r.tree i inner ∧ Edge s r.tree n inner parent := by
  obtain ⟨k, htree, hk⟩ :=
    reconstruct_keeps (fun _ _ hm hmoves => hm.moves hstatic hmoves) h (accounted_ofTokens s tokens)
  rw [htree] at hn ⊢
  obtain ⟨inner, parent, hinner, hedge⟩ :=
    hk.explained i n.core hi (by rw [Tree.core?, hn]; rfl)
  exact ⟨inner, parent, hinner, hedge.parentIndex, hedge.outIndex, hedge.outLinks, hedge.root,
    hedge.justified⟩

/-- A method is started for the initializer of a field of an object that another one creates. -/
theorem edge_of_setup_call :
    let s := Setting.ofSources
      [("A.java", "class A{void m(){new A();}@Deprecated int x=f();int f(){return 1;}}")]
    ∃ r n inner, reconstruct s true (Stream.ofTokens [1, 2]) = .ok r ∧ r.tree.get? 2 = some n ∧
      n.link.isSome ∧ Bears s r.tree 2 inner ∧ ∃ own, Bears s r.tree 1 own ∧
        Justified s own inner n.link := by
  intro s
  have hfacts : ((Machine.outcome? s 60 [1, 2]).any fun r => (r.tree.get? 2).any fun n =>
      n.parentIndex = some 1 ∧ n.link.isSome) ∧ StaticTold s.project := by
    decide +kernel
  obtain ⟨hrun, hstatic⟩ := hfacts
  obtain ⟨r, hr, hnode⟩ := (Option.any_eq_true _ _).mp hrun
  obtain ⟨n, hn, hfacts⟩ := (Option.any_eq_true _ _).mp hnode
  obtain ⟨hparent, hlink⟩ := of_decide_eq_true hfacts
  have hok := Machine.reconstruct_of_outcome? hr
  obtain ⟨inner, parent, hinner, hedge⟩ :=
    edge_of_reconstruct s hstatic hok (by decide : 0 < 2) hn
  have hsame := hedge.parentIndex
  rw [hparent] at hsame
  cases hsame
  exact ⟨r, n, inner, hok, hn, hlink, hinner, hedge.justified (by decide)⟩

/-- The keyword of the field touches the annotation in front of it, so the field is taken for one
of the object, and the call in its initializer for one that `new A()` evaluates. -/
theorem static_field_taken_for_setup :
    let sources := [("A.java",
      "class A{void m(){new A();}@Deprecated()static int x=f();static int f(){return 1;}}")]
    let s := Setting.ofSources sources
    (∀ f ∈ (Project.ofSources sources).fileList, f.InOrder ∧ f.hasErrors = false) ∧
      ∃ r, reconstruct s false (Stream.ofTokens [1, 2]) = .ok r ∧
        ¬∀ i n, 0 < i → r.tree.get? i = some n →
          ∃ inner parent, Bears s r.tree i inner ∧ Edge s r.tree n inner parent := by
  intro sources s
  -- No site of `m` calls `f`, and what `new A()` creates has one field, which is static.
  have hfacts : ((Machine.outcome? s 60 [1, 2]).any fun r => r.unconsumed = 0 ∧
      r.tree.traceId? 1 = some (toString 1) ∧ r.tree.traceId? 2 = some (toString 2) ∧
      ((r.tree.get? 2).any fun n => n.parentIndex = some 1 ∧ n.link.isSome)) ∧
    (∀ f ∈ (Project.ofSources sources).fileList, f.hasErrors = false) ∧
    ((s.points.get? 1).isSome ∧ (s.points.get? 2).isSome) ∧
    ∀ own ∈ (s.points.get? 1).toList, ∀ inner ∈ (s.points.get? 2).toList,
      inner.kind = .method ∧ ∀ x ∈ scopeSites (s.file own.ref) own.ref.node own.kind,
        calledName? (s.file own.ref) x.node ≠ (s.file inner.ref).name? inner.ref.node ∧
        ∀ created ∈ (createdType? (s.file own.ref) x.node).toList, ∀ c ∈ s.ancestry created,
        ∀ m ∈ classMembers (s.file c) c.node, (s.file c).form m ≠ .constructorDeclaration ∧
          ((s.file c).form m = .fieldDeclaration → markedStatic (s.file c) m = true) := by
    decide +kernel
  obtain ⟨hrun, herrors, hpoints, hnone⟩ := hfacts
  obtain ⟨r, hok, hunconsumed, hid, hid', hnode⟩ := Machine.exists_reconstruct hrun
  obtain ⟨n, hn, hnode⟩ := (Option.any_eq_true _ _).mp hnode
  obtain ⟨hparent, hlink⟩ := of_decide_eq_true hnode
  obtain ⟨own', hown'⟩ := Option.isSome_iff_exists.mp hpoints.1
  obtain ⟨inner', hinner'⟩ := Option.isSome_iff_exists.mp hpoints.2
  refine ⟨fun f hf => ⟨inOrder_ofSources (by decide) f hf, herrors f hf⟩, r,
    Machine.reconstruct_wholly hok hunconsumed, fun hclaim => ?_⟩
  obtain ⟨inner, parent, hinner, hedge⟩ := hclaim 2 n (by decide) hn
  have hsame := hedge.parentIndex
  rw [hparent] at hsame
  cases hsame
  obtain ⟨own, hown, hjustified⟩ := hedge.justified (by decide)
  rw [bears_unique hinner ⟨2, hid', hinner'⟩, bears_unique hown ⟨1, hid, hown'⟩] at hjustified
  obtain ⟨hkind, hsites⟩ := hnone own' (Option.mem_toList.mpr hown') inner'
    (Option.mem_toList.mpr hinner')
  obtain ⟨l, hl⟩ := Option.isSome_iff_exists.mp hlink
  rw [hl] at hjustified
  cases hjustified with
  | call _ hname hsite hcalled =>
    exact (hsites _ hsite).1 (hcalled.trans hname.symm)
  | setup _ _ hcreation hancestor hpart _ _ =>
    obtain ⟨x, hx, rfl⟩ := hcreation.site
    have hmembers := (hsites x hx).2 _ (Option.mem_toList.mpr hcreation.type) _ hancestor
    cases hpart with
    | field hmember hform hinstance _ _ =>
      rw [(hmembers _ hmember).2 hform] at hinstance
      cases hinstance
    | delegation hmember hform _ _ _ => exact (hmembers _ hmember).1 hform
  | creation hother _ _ _ =>
    rw [hkind] at hother
    rcases hother with hother | hother <;> cases hother

end Retrace.Reconstruct
