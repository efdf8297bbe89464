import Retrace.Proofs.Reconstruct.Coherence
import Retrace.Proofs.Reconstruct.Rounds

/-! The children that a run has started.

An entry says how a child was started: the number of its node, the way in, and its parent as it
was then; while the child runs, the parent stays as it was. `Recorded` is the invariant that ties
the entries of a run to the tree: every child of a node other than the root has its entry, and the
nodes of the two are those of the trace points that the entry is about. -/
namespace Retrace.Reconstruct
open Source Instrument Trace

structure Entry where
  child : Nat
  entrance : Entrance
  parent : Activation

namespace Machine
open Activation

/-- The entries of the children that are running. -/
def entriesOf : List Activation → List Entry
  | a :: b :: below => ⟨a.index, a.entrance, b⟩ :: entriesOf (b :: below)
  | _ => []

def entries (m : Machine) : List Entry := entriesOf m.stack

/-- One of the states has the entry. -/
def Known (past : List Machine) (x : Entry) : Prop := ∃ m ∈ past, x ∈ m.entries

theorem entriesOf_top {a b : Activation} (hindex : a.index = b.index)
    (hentrance : a.entrance = b.entrance) (below : List Activation) :
    entriesOf (a :: below) = entriesOf (b :: below) := by
  cases below with
  | nil => rfl
  | cons c below => simp only [entriesOf, hindex, hentrance]

theorem known_cons {past : List Machine} {m : Machine} {x : Entry} :
    Known (m :: past) x ↔ x ∈ m.entries ∨ Known past x := by
  simp [Known]

/-! ### The end of an activation -/

/-- The stack when the child that was entered by way of `e` has ended. -/
def uncovered (e : Entrance) : List Activation → List Activation
  | [] => []
  | b :: below => b.resume e :: below

theorem mem_uncovered {e : Entrance} {below : List Activation} {a : Activation}
    (h : a ∈ uncovered e below) : ∃ b ∈ below, a.index = b.index ∧ a.point = b.point := by
  cases below with
  | nil => cases h
  | cons b below =>
    obtain ⟨_, _, _, hresume⟩ := resume_eq b e
    rcases List.mem_cons.mp h with rfl | h
    · exact ⟨b, List.mem_cons_self, by rw [hresume], by rw [hresume]⟩
    · exact ⟨a, List.mem_cons_of_mem b h, rfl, rfl⟩

theorem indices_uncovered (e : Entrance) (below : List Activation) :
    (uncovered e below).map Activation.index = below.map Activation.index := by
  cases below with
  | nil => rfl
  | cons b below =>
    obtain ⟨_, _, _, hresume⟩ := resume_eq b e
    simp only [uncovered, List.map_cons, hresume]

theorem entriesOf_uncovered (a : Activation) (e : Entrance) (below : List Activation) :
    entriesOf (uncovered e below) ⊆ entriesOf (a :: below) := by
  cases below with
  | nil => exact List.nil_subset _
  | cons b below =>
    obtain ⟨_, _, _, hresume⟩ := resume_eq b e
    rw [uncovered, entriesOf_top (b := b) (by rw [hresume]) (by rw [hresume]) below]
    exact List.subset_cons_self _ _

theorem close_eq (s : Setting) (m : Machine) (a : Activation) (below : List Activation) :
    close s m a below = {m with
      tree := m.tree.modify a.index fun n => {n with ranges := (a.finish s).ranges}
      stack := uncovered a.entrance below} := by
  obtain ⟨_, hfinish⟩ := finish_eq s a
  cases below <;> simp only [close, uncovered, hfinish]

/-- The node is that of the trace point. -/
def Bears (s : Setting) (t : Tree) (i : Nat) (point : TracePoint) : Prop :=
  ∃ id, t.traceId? i = some (toString id) ∧ s.points.get? id = some point

theorem bears_unique {s : Setting} {t : Tree} {i : Nat} {p q : TracePoint} (hp : Bears s t i p)
    (hq : Bears s t i q) : p = q := by
  obtain ⟨m, hm, hpoint⟩ := hp
  obtain ⟨n, hn, hpoint'⟩ := hq
  rw [hm] at hn
  rw [Text.toString_injective (Option.some.inj hn), hpoint'] at hpoint
  exact (Option.some.inj hpoint).symm

/-- What an entry says is what the tree has. -/
structure Borne (s : Setting) (t : Tree) (x : Entry) : Prop where
  parent : t.parent? x.child = some x.parent.index
  link : t.link? x.child = x.entrance.link?
  owner : Bears s t x.parent.index x.parent.point
  child : ∃ point, Bears s t x.child point ∧
    ∃ a b, Coherent s a ∧ a.point = x.parent.point ∧ a.enter? s point = some (x.entrance, b)

structure Recorded (s : Setting) (tokens : List Nat) (past : List Machine) (m : Machine) :
    Prop where
  latest : m ∈ past
  coherent : ∀ a ∈ m.stack, Coherent s a
  placed : ∃ taken, tokens = taken ++ m.rest ∧ Placed s taken m
  tallied : Tallied s m.tree
  named : ∀ a ∈ m.stack, Bears s m.tree a.index a.point
  borne : ∀ x, Known past x → Borne s m.tree x
  inner : ∀ x, Known past x → 0 < x.parent.index
  complete : ∀ c i, m.tree.parent? c = some i → 0 < i →
    ∃ x, Known past x ∧ x.child = c ∧ x.parent.index = i

theorem recorded_ofTokens (s : Setting) (tokens : List Nat) :
    Recorded s tokens [ofTokens tokens] (ofTokens tokens) where
  latest := List.mem_cons_self
  coherent _ ha := nomatch ha
  placed := ⟨[], rfl, placed_ofTokens s tokens⟩
  tallied := tallied_bare s
  named _ ha := nomatch ha
  borne x hx := by
    obtain ⟨m, hm, hx⟩ := hx
    rw [List.mem_singleton.mp hm] at hx
    cases hx
  inner x hx := by
    obtain ⟨m, hm, hx⟩ := hx
    rw [List.mem_singleton.mp hm] at hx
    cases hx
  complete c i hc _ := by
    cases c <;> cases hc

/-! ### Moves without a new node -/

section Outline
variable {s : Setting} {t u : Tree} (htree : u.outline = t.outline)
include htree

theorem bears_of_outline {i : Nat} {point : TracePoint} (h : Bears s t i point) :
    Bears s u i point := by
  unfold Bears
  rw [Tree.traceId?_eq_of_outline htree]
  exact h

theorem borne_of_outline {x : Entry} (h : Borne s t x) : Borne s u x where
  parent := by
    rw [Tree.parent?_eq_of_outline htree]
    exact h.parent
  link := by
    rw [Tree.link?_eq_of_outline htree]
    exact h.link
  owner := bears_of_outline htree h.owner
  child := by
    obtain ⟨point, hpoint, hentered⟩ := h.child
    exact ⟨point, bears_of_outline htree hpoint, hentered⟩

end Outline

/-! ### No new node -/

/-- A move of the innermost activation alone knows no more children. -/
theorem entries_innermost {m : Machine} {a b : Activation} {below : List Activation}
    (hstack : m.stack = a :: below) (hindex : b.index = a.index)
    (hentrance : b.entrance = a.entrance) :
    entries {m with stack := b :: below} ⊆ m.entries := by
  unfold entries
  rw [hstack, ← entriesOf_top hindex hentrance below]
  exact List.Subset.refl _

theorem entries_close {s : Setting} {m : Machine} {a : Activation} {below : List Activation}
    (hstack : m.stack = a :: below) : (Machine.close s m a below).entries ⊆ m.entries := by
  rw [close_eq]
  unfold entries
  rw [hstack]
  exact entriesOf_uncovered a a.entrance below

section Still
variable {s : Setting} {tokens : List Nat} {past : List Machine} {m n : Machine}
  (h : Recorded s tokens past m)
include h

theorem Recorded.known_of_subset (hentries : n.entries ⊆ m.entries) {x : Entry}
    (hx : Known (n :: past) x) : Known past x :=
  (known_cons.mp hx).elim (fun hn => ⟨m, h.latest, hentries hn⟩) id

theorem Recorded.still (hmoves : Moves s m n)
    (htree : n.tree.outline = m.tree.outline) (hentries : n.entries ⊆ m.entries)
    (hsame : ∀ a ∈ n.stack, ∃ b ∈ m.stack, a.index = b.index ∧ a.point = b.point) :
    Recorded s tokens (n :: past) n := by
  have hknown : ∀ x, Known (n :: past) x → Known past x :=
    fun x hx => h.known_of_subset hentries hx
  refine ⟨List.mem_cons_self, coherent_of_moves hmoves h.coherent,
    placed_of_grows (grows_of_moves hmoves) h.placed, tallied_of_outline h.tallied htree,
    fun a ha => ?_, fun x hx => borne_of_outline htree (h.borne x (hknown x hx)),
    fun x hx => h.inner x (hknown x hx), fun c i hc hi => ?_⟩
  · obtain ⟨b, hb, hindex, hpoint⟩ := hsame a ha
    rw [hindex, hpoint]
    exact bears_of_outline htree (h.named b hb)
  · rw [Tree.parent?_eq_of_outline htree] at hc
    obtain ⟨x, hx, hfacts⟩ := h.complete c i hc hi
    exact ⟨x, known_cons.mpr (.inr hx), hfacts⟩

theorem Recorded.innermost {a b : Activation} {below : List Activation}
    (hstack : m.stack = a :: below) (hindex : b.index = a.index) (hpoint : b.point = a.point)
    (hentrance : b.entrance = a.entrance) (hmoves : Moves s m {m with stack := b :: below}) :
    Recorded s tokens ({m with stack := b :: below} :: past) {m with stack := b :: below} := by
  refine h.still hmoves rfl (entries_innermost hstack hindex hentrance) fun c hc => ?_
  rw [hstack]
  rcases List.mem_cons.mp hc with rfl | hc
  · exact ⟨a, List.mem_cons_self, hindex, hpoint⟩
  · exact ⟨c, List.mem_cons_of_mem a hc, rfl, rfl⟩

theorem Recorded.close {a : Activation} {below : List Activation} (hstack : m.stack = a :: below)
    (hscan : a.scan.step a.cursor = .done) :
    let n := Machine.close s m a below
    Recorded s tokens (n :: past) n := by
  have hmoves : Moves s m (Machine.close s m a below) := .close hstack hscan
  have hentries : (Machine.close s m a below).entries ⊆ m.entries := entries_close hstack
  rw [close_eq] at hmoves hentries ⊢
  refine h.still hmoves (Tree.outline_setRanges _ _ _) hentries fun c hc => ?_
  obtain ⟨b, hb, hsame⟩ := mem_uncovered hc
  exact ⟨b, by rw [hstack]; exact List.mem_cons_of_mem a hb, hsame⟩

end Still

/-! ### A new node -/

section Push
variable {s : Setting} {t : Tree} {parent id : Nat} {point : TracePoint} {e : Entrance}

theorem bears_push {i : Nat} {inner : TracePoint} (hi : i < t.size) (h : Bears s t i inner) :
    Bears s (t.push parent (newNode s t parent id point e)) i inner := by
  obtain ⟨id', htrace, hpoint⟩ := h
  refine ⟨id', ?_, hpoint⟩
  rw [Tree.traceId?_push, if_neg (Nat.ne_of_lt hi)]
  exact htrace

theorem bears_new (hpoint : s.points.get? id = some point) :
    Bears s (t.push parent (newNode s t parent id point e)) t.size point := by
  refine ⟨id, ?_, hpoint⟩
  rw [Tree.traceId?_push, if_pos rfl]
  rfl

theorem borne_push {x : Entry} (h : Borne s t x) (hx : x.parent.index < t.size) :
    Borne s (t.push parent (newNode s t parent id point e)) x := by
  have hchild := Tree.lt_size_of_parent? h.parent
  obtain ⟨inner, hinner, hentered⟩ := h.child
  refine ⟨?_, ?_, bears_push hx h.owner, inner, bears_push hchild hinner, hentered⟩
  · rw [Tree.parent?_push, if_neg (Nat.ne_of_lt hchild)]
    exact h.parent
  · rw [Tree.link?_push, if_neg (Nat.ne_of_lt hchild)]
    exact h.link

end Push

/-- The activations that are open have nodes of their own, those of their trace points. -/
structure Named (s : Setting) (m : Machine) : Prop where
  inhabited : 0 < m.tree.size
  named : ∀ a ∈ m.stack, 0 < a.index ∧ Bears s m.tree a.index a.point

theorem lt_size_of_bears {s : Setting} {t : Tree} {i : Nat} {point : TracePoint}
    (h : Bears s t i point) : i < t.size := by
  obtain ⟨_, hid, _⟩ := h
  refine Nat.lt_of_not_le fun hle => ?_
  rw [Tree.traceId?, Tree.get?_eq_none.mpr hle] at hid
  cases hid

theorem named_of_moves {s : Setting} {m n : Machine} (hmoves : Moves s m n) (h : Named s m) :
    Named s n := by
  obtain ⟨hsize, hnamed⟩ := h
  have hsame : ∀ {a b : Activation} {below : List Activation}, m.stack = b :: below →
      a.index = b.index → a.point = b.point → ∀ x ∈ a :: below,
      0 < x.index ∧ Bears s m.tree x.index x.point := by
    intro a b below hstack hindex hpoint x hx
    rcases List.mem_cons.mp hx with rfl | hx
    · rw [hindex, hpoint]
      exact hnamed b (by rw [hstack]; exact List.mem_cons_self)
    · exact hnamed x (by rw [hstack]; exact List.mem_cons_of_mem b hx)
  cases hmoves with
  | root hstack _ _ hpoint =>
    refine ⟨by rw [size_start]; exact Nat.succ_pos _, fun a ha => ?_⟩
    rw [show (Machine.start s m _ 0 _ _ .root).stack = _ :: m.stack from rfl, hstack] at ha
    rw [List.mem_singleton.mp ha]
    exact ⟨hsize, bears_new hpoint⟩
  | @close a below hstack _ =>
    rw [close_eq]
    refine ⟨(Tree.size_modify _ _ _).symm ▸ hsize, fun c hc => ?_⟩
    obtain ⟨b, hb, hindex, hpoint⟩ := mem_uncovered hc
    obtain ⟨hpos, hbears⟩ := hnamed b (by rw [hstack]; exact List.mem_cons_of_mem a hb)
    rw [hindex, hpoint]
    exact ⟨hpos, bears_of_outline (Tree.outline_setRanges _ _ _) hbears⟩
  | @go a below scan own hstack _ =>
    obtain ⟨_, hown⟩ := addOwn_eq {a with scan := scan} own
    exact ⟨hsize, hsame hstack (by rw [hown]) (by rw [hown])⟩
  | ended hstack _ _ => exact ⟨hsize, hsame hstack rfl rfl⟩
  | refuse hstack _ _ _ _ => exact ⟨hsize, hsame hstack rfl rfl⟩
  | @enter a b below scan id rest point e hstack _ _ hpoint henter =>
    obtain ⟨_, _, _, hb⟩ := rebound_enter? henter
    refine ⟨by rw [size_start]; exact Nat.succ_pos _, fun x hx => ?_⟩
    rcases List.mem_cons.mp hx with rfl | hx
    · exact ⟨hsize, bears_new hpoint⟩
    · obtain ⟨hpos, hbears⟩ := hsame hstack (a := {b with cursor := .unset}) (by rw [hb])
        (by rw [hb]) x hx
      exact ⟨hpos, bears_push (lt_size_of_bears hbears) hbears⟩

theorem named_ofTokens (s : Setting) (tokens : List Nat) : Named s (ofTokens tokens) :=
  ⟨Nat.one_pos, fun _ ha => nomatch ha⟩

section Recorded
variable {s : Setting} {tokens : List Nat} {past : List Machine} {m : Machine}
  (h : Recorded s tokens past m)
include h

theorem Recorded.lt_size {x : Entry} (hx : Known past x) :
    x.parent.index < x.child ∧ x.child < m.tree.size := by
  obtain ⟨_, _, hplaced⟩ := h.placed
  have hparent := (h.borne x hx).parent
  exact ⟨hplaced.earlier _ _ hparent, Tree.lt_size_of_parent? hparent⟩

theorem Recorded.index_lt {a : Activation} (ha : a ∈ m.stack) :
    0 < a.index ∧ a.index < m.tree.size := by
  obtain ⟨_, _, hplaced⟩ := h.placed
  have hopen := hplaced.open_above a.index (List.mem_map_of_mem ha)
  exact ⟨hopen.1, hopen.2.1⟩

theorem Recorded.root {id : Nat} {rest : List Nat} {point : TracePoint} (hstack : m.stack = [])
    (hmore : m.more = true) (hrest : m.rest = id :: rest)
    (hpoint : s.points.get? id = some point) :
    let n := {Machine.start s m rest 0 id point .root with more := point.kind == .staticInitializer}
    Recorded s tokens (n :: past) n := by
  intro n
  have hmoves : Moves s m n := .root hstack hmore hrest hpoint
  obtain ⟨taken, _, hplaced⟩ := h.placed
  have hnstack : n.stack = Activation.start (s.file point.ref) m.tree.size point .root :: [] := by
    rw [← hstack]
    rfl
  have hentries : n.entries = [] := by
    unfold entries
    rw [hnstack]
    rfl
  have hknown : ∀ x, Known (n :: past) x → Known past x := by
    intro x hx
    rw [known_cons, hentries] at hx
    exact hx.resolve_left (List.not_mem_nil)
  refine ⟨List.mem_cons_self, coherent_of_moves hmoves h.coherent,
    placed_of_grows (grows_of_moves hmoves) h.placed,
    tallied_of_grows hplaced h.tallied (grows_of_moves hmoves), fun a ha => ?_, fun x hx => ?_,
    fun x hx => h.inner x (hknown x hx), fun c i hc hi => ?_⟩
  · rw [hnstack] at ha
    rw [List.mem_singleton.mp ha]
    exact bears_new hpoint
  · have hlt := h.lt_size (hknown x hx)
    exact borne_push (h.borne x (hknown x hx)) (Nat.lt_trans hlt.1 hlt.2)
  · have hc' : (m.tree.push 0 (newNode s m.tree 0 id point .root)).parent? c = some i := hc
    rw [Tree.parent?_push] at hc'
    split at hc'
    · cases hc'
      exact absurd hi (Nat.lt_irrefl 0)
    · obtain ⟨x, hx, hfacts⟩ := h.complete c i hc' hi
      exact ⟨x, known_cons.mpr (.inr hx), hfacts⟩

theorem Recorded.enter {a b : Activation} {below : List Activation} {scan : Scan} {id : Nat}
    {rest : List Nat} {point : TracePoint} {e : Entrance} (hstack : m.stack = a :: below)
    (hscan : a.scan.step a.cursor = .ask scan) (hrest : m.rest = id :: rest)
    (hpoint : s.points.get? id = some point)
    (henter : ({a with scan := scan}).enter? s point = some (e, b)) :
    let n := Machine.start s {m with stack := {b with cursor := .unset} :: below} rest b.index id
      point e
    Recorded s tokens (n :: past) n ∧
      n.entries = ⟨m.tree.size, e, {b with cursor := .unset}⟩ :: m.entries := by
  intro n
  have hmoves : Moves s m n := .enter hstack hscan hrest hpoint henter
  obtain ⟨taken, _, hplaced⟩ := h.placed
  have hb : b.index = a.index ∧ b.entrance = a.entrance ∧ b.point = a.point := by
    obtain ⟨_, _, _, rfl⟩ := rebound_enter? henter
    exact ⟨rfl, rfl, rfl⟩
  have hentries : n.entries = ⟨m.tree.size, e, {b with cursor := .unset}⟩ :: m.entries := by
    have htop := entriesOf_top (a := {b with cursor := .unset}) (b := a) hb.1 hb.2.1 below
    unfold entries
    rw [hstack, ← htop]
    rfl
  have ha : a ∈ m.stack := by
    rw [hstack]
    exact List.mem_cons_self
  have hsize := (h.index_lt ha).2
  have hknown : ∀ x, Known (n :: past) x →
      x = ⟨m.tree.size, e, {b with cursor := .unset}⟩ ∨ Known past x := by
    intro x hx
    rw [known_cons, hentries, List.mem_cons, or_assoc] at hx
    exact hx.imp_right fun hx => hx.elim (fun hm => ⟨m, h.latest, hm⟩) fun hp => hp
  refine ⟨⟨List.mem_cons_self, coherent_of_moves hmoves h.coherent,
    placed_of_grows (grows_of_moves hmoves) h.placed,
    tallied_of_grows hplaced h.tallied (grows_of_moves hmoves), fun c hc => ?_, fun x hx => ?_,
    fun x hx => ?_, fun c i hc hi => ?_⟩, hentries⟩
  · have hold : ∀ c ∈ m.stack, Bears s n.tree c.index c.point :=
      fun c hc => bears_push (h.index_lt hc).2 (h.named c hc)
    rcases List.mem_cons.mp hc with rfl | hc
    · exact bears_new hpoint
    rcases List.mem_cons.mp hc with rfl | hc
    · have hnamed := hold a ha
      rw [← hb.1, ← hb.2.2] at hnamed
      exact hnamed
    · exact hold c (by rw [hstack]; exact List.mem_cons_of_mem a hc)
  · rcases hknown x hx with rfl | hx
    · refine ⟨?_, ?_, ?_, point, bears_new hpoint, _, b, (h.coherent a ha).ask hscan, hb.2.2.symm,
        henter⟩
      · exact (Tree.parent?_push _).trans (if_pos rfl)
      · exact (Tree.link?_push _).trans (if_pos rfl)
      · have howner : Bears s n.tree a.index a.point := bears_push hsize (h.named a ha)
        rw [← hb.1, ← hb.2.2] at howner
        exact howner
    · have hlt := h.lt_size hx
      exact borne_push (h.borne x hx) (Nat.lt_trans hlt.1 hlt.2)
  · rcases hknown x hx with rfl | hx
    · exact Nat.lt_of_lt_of_eq (h.index_lt ha).1 hb.1.symm
    · exact h.inner x hx
  · have hc' : (m.tree.push b.index (newNode s m.tree b.index id point e)).parent? c = some i := hc
    rw [Tree.parent?_push] at hc'
    split at hc'
    · rename_i hcsize
      cases hc'
      refine ⟨⟨m.tree.size, e, {b with cursor := .unset}⟩, known_cons.mpr (.inl ?_), hcsize.symm,
        rfl⟩
      rw [hentries]
      exact List.mem_cons_self
    · obtain ⟨x, hx, hfacts⟩ := h.complete c i hc' hi
      exact ⟨x, known_cons.mpr (.inr hx), hfacts⟩

end Recorded

end Machine

end Retrace.Reconstruct
