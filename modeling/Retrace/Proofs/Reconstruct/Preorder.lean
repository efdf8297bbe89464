import Retrace.Proofs.Reconstruct.Bindings
import Retrace.Proofs.Reconstruct.Run
import Retrace.Proofs.Reconstruct.Sources
import Retrace.Proofs.Trace.Shape

/-! The tree is the pre-order of the trace.

`Grows` says what a move does to the tree, the trace and the stack of indices: nothing, the end of
an activation, or a new node for the next token, hung under the innermost activation or, when the
stack is empty, under the root. `Placed` is the invariant: the nodes carry the tokens taken so
far in their order, edges are told alike by parents and by children, and the latest node lies
below every open activation, so that the next node's parent is the latest node or an ancestor of
it. `reconstruct_preorder` says what this makes of a whole trace. -/
namespace Retrace.Reconstruct.Machine
open Source Instrument Trace

def indices (m : Machine) : List Nat := m.stack.map Activation.index

/-- What a move does to the tree, the trace and the stack of indices. -/
inductive Grows (s : Setting) (m n : Machine) : Prop
  | still (hrest : n.rest = m.rest) (hmore : n.more = m.more)
      (htree : n.tree.outline = m.tree.outline) (hindices : n.indices = m.indices)
  | ends {i : Nat} (hrest : n.rest = m.rest) (hmore : n.more = m.more)
      (htree : n.tree.outline = m.tree.outline) (hindices : m.indices = i :: n.indices)
  | begins {id parent : Nat} {point : TracePoint} {entrance : Entrance}
      (hrest : m.rest = id :: n.rest) (hpoint : s.points.get? id = some point)
      (htree : n.tree = m.tree.push parent (newNode s m.tree parent id point entrance))
      (hindices : n.indices = m.tree.size :: m.indices)
      (hparent : m.indices.head? = some parent ∧ n.more = m.more ∨
        m.indices = [] ∧ parent = 0 ∧ m.more = true ∧ n.more = (point.kind == .staticInitializer))

theorem indices_eq {m : Machine} {a : Activation} {below : List Activation}
    (h : m.stack = a :: below) : m.indices = a.index :: below.map Activation.index := by
  rw [indices, h, List.map_cons]

theorem indices_close (s : Setting) (m : Machine) (a : Activation) (below : List Activation) :
    (close s m a below).indices = below.map Activation.index := by
  cases below with
  | nil => rfl
  | cons b below =>
    obtain ⟨_, _, _, hb⟩ := Activation.resume_eq b (a.finish s).entrance
    simp only [close, indices, List.map_cons, hb]

theorem outline_close (s : Setting) (m : Machine) (a : Activation) (below : List Activation) :
    (close s m a below).tree.outline = m.tree.outline := by
  cases below <;> exact Tree.outline_setRanges _ _ _

theorem grows_close (s : Setting) {m : Machine} {a : Activation} {below : List Activation}
    (h : m.stack = a :: below) : Grows s m (close s m a below) := by
  have hindices : m.indices = a.index :: (close s m a below).indices := by
    rw [indices_close, indices_eq h]
  cases below with
  | nil => exact .ends rfl rfl (outline_close s m a []) hindices
  | cons b below => exact .ends rfl rfl (outline_close s m a (b :: below)) hindices

theorem grows_of_moves {s : Setting} {m n : Machine} (h : Moves s m n) : Grows s m n := by
  cases h with
  | root hstack hmore hrest hpoint =>
    have hindices : m.indices = [] := by rw [indices, hstack, List.map_nil]
    exact .begins hrest hpoint rfl rfl (.inr ⟨hindices, rfl, hmore, rfl⟩)
  | close hstack _ => exact grows_close s hstack
  | @go a below scan own hstack _ =>
    obtain ⟨_, hown⟩ := Activation.addOwn_eq {a with scan := scan} own
    refine .still rfl rfl rfl ?_
    rw [indices_eq hstack]
    simp only [indices, List.map_cons, hown]
  | ended hstack _ _ => exact .still rfl rfl rfl (indices_eq hstack).symm
  | refuse hstack _ _ _ _ => exact .still rfl rfl rfl (indices_eq hstack).symm
  | enter hstack _ hrest hpoint henter =>
    obtain ⟨_, _, _, rfl⟩ := Activation.rebound_enter? henter
    refine .begins hrest hpoint rfl ?_ (.inl ⟨?_, rfl⟩)
    · rw [indices_eq hstack]
      rfl
    · rw [indices_eq hstack]
      rfl

theorem grown_of_moves {s : Setting} {m n : Machine} (h : Moves s m n) :
    m.tree.Grown n.tree ∧ n.rest.length ≤ m.rest.length := by
  cases grows_of_moves h with
  | still hrest _ htree _ =>
    exact ⟨Tree.grown_of_outline htree, Nat.le_of_eq (congrArg List.length hrest)⟩
  | ends hrest _ htree _ =>
    exact ⟨Tree.grown_of_outline htree, Nat.le_of_eq (congrArg List.length hrest)⟩
  | begins hrest _ htree _ _ =>
    rw [htree, hrest]
    exact ⟨Tree.grown_push _ _ _, Nat.le_succ _⟩

theorem size_start (s : Setting) (m : Machine) (rest : List Nat) (parent id : Nat)
    (point : TracePoint) (e : Entrance) :
    (start s m rest parent id point e).tree.size = m.tree.size + 1 :=
  Tree.size_push _ _ _

/-! ### The invariant -/

/-- The node of a child of the root stands for a trace point of a kind that `accepts` allows. -/
def Stands (s : Setting) (t : Tree) (accepts : PointKind → Prop) (c : Nat) : Prop :=
  ∃ id point, t.traceId? c = some (toString id) ∧ s.points.get? id = some point ∧
    accepts point.kind

/-- The children of the root are static initializers and, unless another may follow, a last one
of another kind. -/
def RootChildren (s : Setting) (t : Tree) (more : Bool) : Prop :=
  ∃ statics last, t.children 0 = statics ++ last ∧
    (∀ c ∈ statics, Stands s t (· = .staticInitializer) c) ∧
    (∀ c ∈ last, Stands s t (· ≠ .staticInitializer) c) ∧
    last.length = if more then 0 else 1

structure Placed (s : Setting) (taken : List Nat) (m : Machine) : Prop where
  size : m.tree.size = taken.length + 1
  carries : ∀ i (h : i < taken.length), m.tree.traceId? (i + 1) = some (toString taken[i])
  listed : m.tree.Listed
  rootless : m.tree.parent? 0 = none
  earlier : ∀ p c, m.tree.parent? c = some p → p < c
  nested : ∀ i, i + 1 < m.tree.size → ∃ p, m.tree.parent? (i + 1) = some p ∧ m.tree.Above p i
  /-- The latest node lies below every open activation. -/
  open_above : ∀ i ∈ m.indices, 0 < i ∧ i < m.tree.size ∧ m.tree.Above i (m.tree.size - 1)
  chain : m.indices.Pairwise fun i j => m.tree.Above j i
  descending : m.indices.Pairwise (· > ·)
  root : RootChildren s m.tree m.more

theorem placed_ofTokens (s : Setting) (tokens : List Nat) : Placed s [] (ofTokens tokens) where
  size := rfl
  carries := fun i h => absurd h (Nat.not_lt_zero i)
  listed := by
    intro i
    cases i with
    | zero => rfl
    | succ i => rfl
  rootless := rfl
  earlier := by
    intro p c h
    cases c with
    | zero => cases h
    | succ c => cases h
  nested := fun i h => by
    change i + 1 < 1 at h
    omega
  open_above := fun i h => nomatch h
  chain := .nil
  descending := .nil
  root := ⟨[], [], rfl, by simp, by simp, rfl⟩

/-- All that is said of the tree is said of its outline. -/
theorem placed_of_outline {s : Setting} {taken : List Nat} {m n : Machine} (h : Placed s taken m)
    (htree : n.tree.outline = m.tree.outline) (hmore : n.more = m.more)
    (hindices : n.indices.Sublist m.indices) : Placed s taken n := by
  have hsize := Tree.size_eq_of_outline htree
  have hids := Tree.traceId?_eq_of_outline htree
  have hparent := Tree.parent?_eq_of_outline htree
  have habove := Tree.above_of_outline htree
  have hchildren := Tree.children_eq_of_outline htree
  constructor
  · rw [hsize]
    exact h.size
  · rw [hids]
    exact h.carries
  · unfold Tree.Listed
    rw [hsize, hparent, hchildren]
    exact h.listed
  · rw [hparent]
    exact h.rootless
  · rw [hparent]
    exact h.earlier
  · rw [hsize, hparent, habove]
    exact h.nested
  · rw [hsize, habove]
    exact fun i hi => h.open_above i (hindices.subset hi)
  · rw [habove]
    exact h.chain.sublist hindices
  · exact h.descending.sublist hindices
  · unfold RootChildren Stands
    rw [hmore, hchildren, hids]
    exact h.root

theorem stands_push {s : Setting} {t : Tree} {accepts : PointKind → Prop} {c p : Nat}
    {n : Trace.Node} (h : Stands s t accepts c) (hc : c < t.size) :
    Stands s (t.push p n) accepts c := by
  obtain ⟨id, point, hid, hpoint, hk⟩ := h
  refine ⟨id, point, ?_, hpoint, hk⟩
  rw [Tree.traceId?_push, if_neg (by omega)]
  exact hid

theorem mem_children_lt {t : Tree} (h : t.Listed) {i c : Nat} (hc : c ∈ t.children i) :
    c < t.size := by
  rw [h i] at hc
  exact List.mem_range.mp (List.mem_filter.mp hc).1

theorem root_above {s : Setting} {taken : List Nat} {m : Machine} (h : Placed s taken m) (k : Nat)
    (hk : k < m.tree.size) : m.tree.Above 0 k := by
  induction k using Nat.strongRecOn with
  | _ k ih =>
    cases k with
    | zero => exact .refl
    | succ i =>
      obtain ⟨p, hp, _⟩ := h.nested i hk
      have hlt := h.earlier p (i + 1) hp
      exact .tail (ih p hlt (by omega)) hp

/-- The parent of the next node is an open activation or the root. -/
theorem parent_above {s : Setting} {taken : List Nat} {m : Machine} (h : Placed s taken m)
    {parent : Nat} (hparent : m.indices.head? = some parent ∨ m.indices = [] ∧ parent = 0) :
    parent < m.tree.size ∧ m.tree.Above parent (m.tree.size - 1) ∧
      ∀ i ∈ m.indices, m.tree.Above i parent := by
  rcases hparent with hparent | ⟨hnil, rfl⟩
  · obtain ⟨rest, hrest⟩ := List.head?_eq_some_iff.mp hparent
    have htop := h.open_above parent (by rw [hrest]; exact List.mem_cons_self)
    refine ⟨htop.2.1, htop.2.2, ?_⟩
    have hchain := h.chain
    rw [hrest] at hchain ⊢
    intro i hi
    rcases List.mem_cons.mp hi with rfl | hi
    · exact .refl
    · exact (List.pairwise_cons.mp hchain).1 i hi
  · refine ⟨by rw [h.size]; omega, root_above h _ (by rw [h.size]; omega), ?_⟩
    rw [hnil]
    exact fun i hi => nomatch hi

/-- A node below an open activation is no child of the root. A child of the root follows static
initializers only. -/
theorem rootChildren_push {s : Setting} {taken : List Nat} {m : Machine} {n : Trace.Node}
    {parent : Nat} (h : Placed s taken m) (hlt : parent < m.tree.size) (hn : n.children = #[]) :
    (0 < parent → RootChildren s (m.tree.push parent n) m.more) ∧
    (∀ {id point}, parent = 0 → m.more = true → s.points.get? id = some point →
      n.traceId = toString id →
      RootChildren s (m.tree.push parent n) (point.kind == .staticInitializer)) := by
  obtain ⟨statics, last, hroot, hstatics, hlast, hlength⟩ := h.root
  have hmem : ∀ c ∈ statics ++ last, c < m.tree.size := by
    rw [← hroot]
    exact fun c hc => mem_children_lt h.listed hc
  have hs : ∀ c ∈ statics, Stands s (m.tree.push parent n) (· = .staticInitializer) c :=
    fun c hc => stands_push (hstatics c hc) (hmem c (List.mem_append_left _ hc))
  have hl : ∀ c ∈ last, Stands s (m.tree.push parent n) (· ≠ .staticInitializer) c :=
    fun c hc => stands_push (hlast c hc) (hmem c (List.mem_append_right _ hc))
  have hchildren := Tree.children_push hlt hn 0
  constructor
  · intro hpos
    refine ⟨statics, last, ?_, hs, hl, hlength⟩
    rw [hchildren, if_neg (by omega), hroot]
  · rintro id point rfl hmore hpoint hid
    have hnew : (m.tree.push 0 n).traceId? m.tree.size = some (toString id) := by
      rw [Tree.traceId?_push, if_pos rfl, hid]
    rw [hmore] at hlength
    rw [if_pos rfl, hroot, List.length_eq_zero_iff.mp hlength, List.append_nil] at hchildren
    by_cases hkind : point.kind = .staticInitializer
    · refine ⟨statics ++ [m.tree.size], [], by rw [hchildren, List.append_nil], ?_, by simp, ?_⟩
      · intro c hc
        rcases List.mem_append.mp hc with hc | hc
        · exact hs c hc
        · rw [List.mem_singleton.mp hc]
          exact ⟨id, point, hnew, hpoint, hkind⟩
      · rw [hkind]
        rfl
    · refine ⟨statics, [m.tree.size], hchildren, hs, ?_, ?_⟩
      · intro c hc
        rw [List.mem_singleton.mp hc]
        exact ⟨id, point, hnew, hpoint, hkind⟩
      · rw [beq_false_of_ne hkind]
        rfl

/-- A new node for the next token. -/
theorem placed_begins {s : Setting} {taken : List Nat} {m n : Machine} {id parent : Nat}
    {point : TracePoint} {entrance : Entrance} (h : Placed s taken m)
    (hpoint : s.points.get? id = some point)
    (htree : n.tree = m.tree.push parent (newNode s m.tree parent id point entrance))
    (hindices : n.indices = m.tree.size :: m.indices)
    (hparent : m.indices.head? = some parent ∧ n.more = m.more ∨
      m.indices = [] ∧ parent = 0 ∧ m.more = true ∧ n.more = (point.kind == .staticInitializer)) :
    Placed s (taken ++ [id]) n := by
  obtain ⟨hlt, habove, hbelow⟩ := parent_above h (hparent.imp And.left fun hr => ⟨hr.1, hr.2.1⟩)
  have hsize : n.tree.size = m.tree.size + 1 := by rw [htree, Tree.size_push]
  have hnew : n.tree.parent? m.tree.size = some parent := by
    rw [htree, Tree.parent?_push, if_pos rfl]
    rfl
  have hold : ∀ i, i < m.tree.size → n.tree.parent? i = m.tree.parent? i := by
    intro i hi
    rw [htree, Tree.parent?_push, if_neg (by omega)]
  have hkeep : ∀ {i j}, m.tree.Above i j → n.tree.Above i j := by
    intro i j hij
    rw [htree]
    exact Tree.above_push hij
  have hunder : n.tree.Above parent m.tree.size := .single hnew
  constructor
  · rw [hsize, h.size, List.length_append, List.length_singleton]
  · intro i hi
    rw [List.length_append, List.length_singleton] at hi
    rw [htree, Tree.traceId?_push, h.size]
    by_cases hlast : i = taken.length
    · subst hlast
      rw [if_pos rfl, List.getElem_concat_length rfl]
      rfl
    · rw [if_neg (by omega), List.getElem_append_left (by omega)]
      exact h.carries i (by omega)
  · rw [htree]
    exact Tree.listed_push hlt h.listed rfl rfl
  · rw [hold 0 (by omega)]
    exact h.rootless
  · intro p c hc
    by_cases hlast : c = m.tree.size
    · subst hlast
      rw [hnew] at hc
      cases hc
      exact hlt
    · have := Tree.lt_size_of_parent? hc
      rw [hold c (by omega)] at hc
      exact h.earlier p c hc
  · intro i hi
    by_cases hlast : i + 1 = m.tree.size
    · refine ⟨parent, by rw [hlast]; exact hnew, hkeep ?_⟩
      rw [show i = m.tree.size - 1 by omega]
      exact habove
    · obtain ⟨p, hp, hpi⟩ := h.nested i (by omega)
      exact ⟨p, by rw [hold _ (by omega)]; exact hp, hkeep hpi⟩
  · intro i hi
    rw [hindices] at hi
    rw [hsize, show m.tree.size + 1 - 1 = m.tree.size from rfl]
    rcases List.mem_cons.mp hi with rfl | hi
    · exact ⟨by omega, by omega, .refl⟩
    · obtain ⟨hpos, hisize, _⟩ := h.open_above i hi
      exact ⟨hpos, by omega, (hkeep (hbelow i hi)).trans hunder⟩
  · rw [hindices]
    refine List.pairwise_cons.mpr ⟨fun i hi => (hkeep (hbelow i hi)).trans hunder, ?_⟩
    exact h.chain.imp hkeep
  · rw [hindices]
    exact List.pairwise_cons.mpr ⟨fun i hi => (h.open_above i hi).2.1, h.descending⟩
  · have hroot := rootChildren_push (n := newNode s m.tree parent id point entrance) h hlt rfl
    rw [htree]
    rcases hparent with ⟨hhead, hmore⟩ | ⟨_, rfl, hmore, hmore'⟩
    · rw [hmore]
      obtain ⟨rest, hrest⟩ := List.head?_eq_some_iff.mp hhead
      exact hroot.1 (h.open_above parent (by rw [hrest]; exact List.mem_cons_self)).1
    · rw [hmore']
      exact hroot.2 rfl hmore hpoint rfl

theorem placed_of_grows {s : Setting} {tokens : List Nat} {m n : Machine} (h : Grows s m n)
    (hm : ∃ taken, tokens = taken ++ m.rest ∧ Placed s taken m) :
    ∃ taken, tokens = taken ++ n.rest ∧ Placed s taken n := by
  obtain ⟨taken, htokens, hp⟩ := hm
  cases h with
  | still hrest hmore htree hindices =>
    have hsub : n.indices.Sublist m.indices := hindices ▸ List.Sublist.refl _
    exact ⟨taken, by rw [hrest]; exact htokens, placed_of_outline hp htree hmore hsub⟩
  | ends hrest hmore htree hindices =>
    refine ⟨taken, by rw [hrest]; exact htokens, placed_of_outline hp htree hmore ?_⟩
    rw [hindices]
    exact List.sublist_cons_self _ _
  | @begins id parent point entrance hrest hpoint htree hindices hparent =>
    refine ⟨taken ++ [id], ?_, placed_begins hp hpoint htree hindices hparent⟩
    rw [htokens, hrest, List.append_assoc]
    rfl

/-! ### The whole trace -/

/-- The tree of a trace is the pre-order of the tokens that were taken: a node for each, in their
order, each listed once, by its parent, behind the children listed before it, and each the child
of the node before it or of an ancestor of that node. The children of the root are static
initializers, and behind them at most one node of another kind. -/
theorem reconstruct_preorder (s : Setting) (partially : Bool) (tokens : List Nat)
    (r : Reconstruction) (h : reconstruct s partially (Stream.ofTokens tokens) = .ok r) :
    r.unconsumed ≤ tokens.length ∧
    r.tree.size = 1 + (tokens.length - r.unconsumed) ∧
    (∀ i (hi : i < tokens.length), i + 1 < r.tree.size →
      r.tree.traceId? (i + 1) = some (toString tokens[i])) ∧
    (∀ i, 0 < i → i < r.tree.size → ∃ p, r.tree.parent? i = some p ∧
      ∀ q, (r.tree.children q).count i = if q = p then 1 else 0) ∧
    (∀ i, (r.tree.children i).Pairwise (· < ·)) ∧
    (∀ i, i + 1 < r.tree.size → ∃ p, r.tree.parent? (i + 1) = some p ∧ r.tree.Above p i) ∧
    ∃ statics last, r.tree.children 0 = statics ++ last ∧
      (∀ c ∈ statics, Stands s r.tree (· = .staticInitializer) c) ∧
      (∀ c ∈ last, Stands s r.tree (· ≠ .staticInitializer) c) ∧ last.length ≤ 1 := by
  obtain ⟨k, hrun, htree, hunconsumed⟩ := halts_of_reconstruct h
  obtain ⟨⟨taken, htokens, hp⟩, _⟩ := run_keeps
    (P := fun m => ∃ taken, tokens = taken ++ m.rest ∧ Placed s taken m)
    (fun m n hm hmoves => placed_of_grows (grows_of_moves hmoves) hm)
    ⟨[], rfl, placed_ofTokens s tokens⟩ hrun
  have hlength : tokens.length = taken.length + k.rest.length := by
    rw [htokens, List.length_append]
  rw [htree, hunconsumed]
  refine ⟨by omega, by rw [hp.size]; omega, ?_, ?_, Tree.pairwise_children hp.listed, hp.nested, ?_⟩
  · intro i hi hsize
    have hi' : i < taken.length := by
      have := hp.size
      omega
    rw [hp.carries i hi']
    simp only [htokens, List.getElem_append_left hi']
  · intro i hpos hi
    obtain ⟨p, hparent, _⟩ := hp.nested (i - 1) (by omega)
    rw [show i - 1 + 1 = i by omega] at hparent
    refine ⟨p, hparent, fun q => ?_⟩
    rw [Tree.count_children hp.listed, hparent]
    by_cases hq : q = p
    · rw [if_pos hq, if_pos (by rw [hq])]
    · rw [if_neg hq, if_neg (by simpa using Ne.symm hq)]
  · obtain ⟨statics, last, hroot, hs, hl, hlast⟩ := hp.root
    refine ⟨statics, last, hroot, hs, hl, ?_⟩
    rw [hlast]
    split <;> omega

/-- A static initializer runs, then a method that calls another one. -/
theorem preorder_of_initializer_and_call :
    let s := Setting.ofSources [("A.java", "class A{static{}void f(){g();}void g(){}}")]
    ∃ r, reconstruct s true (Stream.ofTokens [1, 2, 3, 3]) = .ok r ∧
      r.tree.size = 1 + (4 - r.unconsumed) ∧ r.unconsumed = 1 ∧
      r.tree.children 0 = [1, 2] ∧ r.tree.parent? 3 = some 2 ∧ r.tree.Above 2 2 := by
  intro s
  have hrun : (outcome? s 60 [1, 2, 3, 3]).any fun r =>
      r.unconsumed = 1 ∧ r.tree.children 0 = [1, 2] ∧ r.tree.parent? 3 = some 2 := by
    decide +kernel
  obtain ⟨r, hr, hfacts⟩ := (Option.any_eq_true _ _).mp hrun
  obtain ⟨hunconsumed, hroot, hparent⟩ := of_decide_eq_true hfacts
  have hok := reconstruct_of_outcome? hr
  obtain ⟨_, hsize, _, _, _, hnested, _⟩ := reconstruct_preorder s true [1, 2, 3, 3] r hok
  obtain ⟨p, hp, habove⟩ := hnested 2 (by rw [hsize, hunconsumed]; decide)
  rw [hparent] at hp
  cases hp
  exact ⟨r, hok, hsize, hunconsumed, hroot, hparent, habove⟩

end Retrace.Reconstruct.Machine
