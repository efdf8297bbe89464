import Retrace.Proofs.Reconstruct.RoundNumbers

/-! Ledgers.

A ledger compares the children of a node with what its activation has bound. `Q` is said of an
open activation, `R` of a node that stands for a trace point, open or not. To be kept they have to
hold of a node that is new, and to survive a new child of the node and, for `Q`, the end of a
child. Whatever else a run does leaves them as they are, so `R` holds of every node at its end
(`ledger_of_reconstruct`). -/
namespace Retrace.Reconstruct
open Source Instrument Trace

/-- The tree with a node for the trace point. -/
def grow (s : Setting) (t : Tree) (parent id : Nat) (point : TracePoint) (e : Entrance) : Tree :=
  t.push parent (Machine.newNode s t parent id point e)

section Grow
variable {s : Setting} {t : Tree} {parent id : Nat} {point : TracePoint} {e : Entrance}

theorem children_grow (hparent : parent < t.size) (i : Nat) :
    (grow s t parent id point e).children i =
      if i = parent then t.children parent ++ [t.size] else t.children i :=
  Tree.children_push hparent rfl i

/-- The new node has no children. -/
theorem children_new (hparent : parent < t.size) :
    (grow s t parent id point e).children t.size = [] := by
  rw [children_grow hparent, if_neg (Nat.ne_of_gt hparent), Tree.children,
    Tree.get?_eq_none.mpr (Nat.le_refl t.size)]
  rfl

/-- The link of a node that was there before. -/
theorem link?_grow {c : Nat} (hc : c < t.size) :
    (grow s t parent id point e).link? c = t.link? c := by
  rw [grow, Tree.link?_push, if_neg (Nat.ne_of_lt hc)]

theorem link?_new : (grow s t parent id point e).link? t.size = e.link? := by
  rw [grow, Tree.link?_push, if_pos rfl]
  rfl

/-- A node stands for what it stood for, and the new one for its trace point. -/
theorem cases_of_grow {i : Nat} {own : TracePoint} (hpoint : s.points.get? id = some point)
    (h : Machine.Bears s (grow s t parent id point e) i own) :
    i = t.size ∧ own = point ∨ i < t.size ∧ Machine.Bears s t i own := by
  by_cases hi : i = t.size
  · subst hi
    exact .inl ⟨rfl, Machine.bears_unique h (Machine.bears_new hpoint)⟩
  · obtain ⟨id', htrace, hget⟩ := h
    rw [grow, Tree.traceId?_push, if_neg hi] at htrace
    exact .inr ⟨Machine.lt_size_of_bears ⟨id', htrace, hget⟩, id', htrace, hget⟩

end Grow

structure Ledger (s : Setting) (Q : Tree → Activation → Prop)
    (R : Tree → Nat → TracePoint → Prop) : Prop where
  /-- The scan and the place of an activation are of no account. -/
  still : ∀ {t u : Tree} {a b : Activation}, u.outline = t.outline → b.index = a.index →
    b.point = a.point → b.consumed = a.consumed → Q t a → Q u b
  outline : ∀ {t u : Tree} {i : Nat} {own : TracePoint}, u.outline = t.outline → R t i own →
    R u i own
  start : ∀ {t : Tree} {parent id : Nat} {point : TracePoint} (e : Entrance), t.Listed →
    parent < t.size → s.points.get? id = some point →
    Q (grow s t parent id point e) (Activation.start (s.file point.ref) t.size point e) ∧
      R (grow s t parent id point e) t.size point
  otherOpen : ∀ {t : Tree} {a : Activation} {parent id : Nat} {point : TracePoint} (e : Entrance),
    t.Listed → parent < t.size → a.index < t.size → a.index ≠ parent →
    s.points.get? id = some point → Q t a → Q (grow s t parent id point e) a
  other : ∀ {t : Tree} {i parent id : Nat} {own point : TracePoint} (e : Entrance),
    t.Listed → parent < t.size → i < t.size → i ≠ parent →
    s.points.get? id = some point → R t i own → R (grow s t parent id point e) i own
  enter : ∀ {t : Tree} {a b : Activation} {id : Nat} {point : TracePoint} {e : Entrance},
    t.Listed → a.index < t.size → Activation.Coherent s a → Machine.Bears s t a.index a.point →
    s.points.get? id = some point → Q t a → R t a.index a.point →
    a.enter? s point = some (e, b) →
    Q (grow s t a.index id point e) b ∧ R (grow s t a.index id point e) a.index a.point
  /-- The child that ends is the last one. -/
  resume : ∀ {t : Tree} {a a' b' : Activation} {c : Nat} {point : TracePoint} {e : Entrance},
    t.Listed → t.parent? c = some a.index → (∀ d, t.parent? d = some a.index → d ≤ c) →
    Machine.Bears s t a.index a.point → Machine.Bears s t c point → a'.point = a.point →
    a'.enter? s point = some (e, b') → Q t a → Q t (a.resume e)

/-- The root stands for nothing. -/
theorem not_bears_root {s : Setting} {t : Tree} (hroot : t.core? 0 = some Node.root.core)
    (point : TracePoint) : ¬Machine.Bears s t 0 point := by
  rintro ⟨id, htrace, _⟩
  rw [Tree.traceId?_eq_map_core?, hroot] at htrace
  have hnumber := Text.natural?_toString (Nat.lt_succ_self id)
  rw [← Option.some.inj htrace] at hnumber
  simp [Text.natural?, Text.dropPlus, Node.core, Node.root] at hnumber

namespace Machine
open Activation

structure Balanced (s : Setting) (Q : Tree → Activation → Prop)
    (R : Tree → Nat → TracePoint → Prop) (tokens : List Nat) (past : List Machine) (m : Machine) :
    Prop extends Recorded s tokens past m where
  rounded : Rounded s tokens m
  held : ∀ a ∈ m.stack, Q m.tree a
  every : ∀ i own, Bears s m.tree i own → R m.tree i own

section Moves
variable {s : Setting} {Q : Tree → Activation → Prop} {R : Tree → Nat → TracePoint → Prop}
  {tokens : List Nat} {past : List Machine} {m n : Machine}

theorem Balanced.listed (h : Balanced s Q R tokens past m) : m.tree.Listed := by
  obtain ⟨_, _, hp⟩ := h.placed
  exact hp.listed

/-- A move of the innermost activation alone. -/
theorem Balanced.innermost (hL : Ledger s Q R) (h : Balanced s Q R tokens past m)
    {a b : Activation} {below : List Activation} (hstack : m.stack = a :: below)
    (hindex : b.index = a.index) (hpoint : b.point = a.point) (hentrance : b.entrance = a.entrance)
    (hconsumed : b.consumed = a.consumed) (hmoves : Moves s m {m with stack := b :: below}) :
    Balanced s Q R tokens ({m with stack := b :: below} :: past) {m with stack := b :: below} := by
  have hheld : ∀ c ∈ a :: below, Q m.tree c := hstack ▸ h.held
  refine ⟨h.toRecorded.innermost hstack hindex hpoint hentrance hmoves,
    rounded_of_moves h.rounded hmoves, fun c hc => ?_, h.every⟩
  rcases List.mem_cons.mp hc with rfl | hc
  · exact hL.still rfl hindex hpoint hconsumed (hheld a List.mem_cons_self)
  · exact hheld c (List.mem_cons_of_mem a hc)

theorem Balanced.close (hL : Ledger s Q R) (h : Balanced s Q R tokens past m) {a : Activation}
    {below : List Activation} (hstack : m.stack = a :: below)
    (hscan : a.scan.step a.cursor = .done) :
    let n := Machine.close s m a below
    Balanced s Q R tokens (n :: past) n := by
  have hrecorded := h.toRecorded.close hstack hscan
  have houtline := Tree.outline_setRanges m.tree a.index (a.finish s).ranges
  have hrounded := rounded_of_moves h.rounded (Moves.close hstack hscan)
  rw [close_eq] at hrecorded hrounded ⊢
  refine ⟨hrecorded, hrounded, fun c hc => ?_, fun i own hown => ?_⟩
  rotate_left
  · exact hL.outline houtline (h.every i own (bears_of_outline houtline.symm hown))
  cases below with
  | nil => cases hc
  | cons b below =>
    have hheld : ∀ c ∈ b :: below, Q m.tree c := fun c hc =>
      h.held c (by rw [hstack]; exact List.mem_cons_of_mem a hc)
    rcases List.mem_cons.mp hc with rfl | hc
    · refine hL.still houtline rfl rfl rfl ?_
      -- the entry of the child tells how it was started
      have hknown : Known past ⟨a.index, a.entrance, b⟩ := by
        refine ⟨m, h.latest, ?_⟩
        unfold entries
        rw [hstack]
        exact List.mem_cons_self
      have hborne := h.borne _ hknown
      obtain ⟨point, hbears, a', b', _, hpoint, henter⟩ := hborne.child
      obtain ⟨_, _, hp⟩ := h.placed
      have hopen : a.index ∈ m.indices := by
        rw [indices_eq hstack]
        exact List.mem_cons_self
      exact hL.resume hp.listed hborne.parent
        (fun d hd => le_of_sibling hp hopen hborne.parent hd) hborne.owner hbears hpoint henter
        (hheld b List.mem_cons_self)
    · exact hL.still houtline rfl rfl rfl (hheld c (List.mem_cons_of_mem b hc))

theorem Balanced.enter (hL : Ledger s Q R) (h : Balanced s Q R tokens past m) {a b : Activation}
    {below : List Activation} {scan : Scan} {id : Nat} {rest : List Nat} {point : TracePoint}
    {e : Entrance} (hstack : m.stack = a :: below) (hscan : a.scan.step a.cursor = .ask scan)
    (hrest : m.rest = id :: rest) (hpoint : s.points.get? id = some point)
    (henter : ({a with scan := scan}).enter? s point = some (e, b)) :
    let n := Machine.start s {m with stack := {b with cursor := .unset} :: below} rest b.index id
      point e
    Balanced s Q R tokens (n :: past) n := by
  intro n
  obtain ⟨_, _, hp⟩ := h.placed
  have ha : a ∈ m.stack := by
    rw [hstack]
    exact List.mem_cons_self
  have hsize := (h.index_lt ha).2
  have hb : b.index = a.index := by
    obtain ⟨_, _, _, rfl⟩ := rebound_enter? henter
    rfl
  have hQ : Q m.tree {a with scan := scan} := hL.still (a := a) rfl rfl rfl rfl (h.held a ha)
  have hcoherent := (h.coherent a ha).ask hscan
  have hbears := h.named a ha
  obtain ⟨hentered, hgrown⟩ := hL.enter (a := {a with scan := scan}) hp.listed hsize hcoherent
    hbears hpoint hQ (h.every _ _ hbears) henter
  have htree : n.tree = grow s m.tree a.index id point e := by
    rw [← hb]
    rfl
  refine ⟨(h.toRecorded.enter hstack hscan hrest hpoint henter).1,
    rounded_of_moves h.rounded (Moves.enter hstack hscan hrest hpoint henter), fun c hc => ?_,
    fun i own hown => ?_⟩ <;> rw [htree]
  · rcases List.mem_cons.mp hc with rfl | hc
    · exact (hL.start e hp.listed hsize hpoint).1
    rcases List.mem_cons.mp hc with rfl | hc
    · exact hL.still (a := b) rfl rfl rfl rfl hentered
    · have hmem : c ∈ m.stack := by
        rw [hstack]
        exact List.mem_cons_of_mem a hc
      have hlt : c.index < a.index := by
        have hdescending := hp.descending
        rw [indices_eq hstack] at hdescending
        exact (List.pairwise_cons.mp hdescending).1 _ (List.mem_map_of_mem hc)
      exact hL.otherOpen e hp.listed hsize (h.index_lt hmem).2 (Nat.ne_of_lt hlt) hpoint
        (h.held c hmem)
  · rw [htree] at hown
    rcases cases_of_grow hpoint hown with ⟨rfl, rfl⟩ | ⟨hi, hbefore⟩
    · exact (hL.start e hp.listed hsize hpoint).2
    by_cases heq : i = a.index
    · subst heq
      rw [bears_unique hbefore hbears]
      exact hgrown
    · exact hL.other e hp.listed hsize hi heq hpoint (h.every i own hbefore)

theorem balanced_of_moves (hL : Ledger s Q R) (h : Balanced s Q R tokens past m)
    (hmoves : Moves s m n) : Balanced s Q R tokens (n :: past) n := by
  have hmoves' := hmoves
  cases hmoves with
  | @root id rest point hstack hmore hrest hpoint =>
    obtain ⟨_, _, hp⟩ := h.placed
    have hsize : 0 < m.tree.size := by rw [hp.size]; omega
    refine ⟨h.toRecorded.root hstack hmore hrest hpoint, rounded_of_moves h.rounded hmoves',
      fun c hc => ?_, fun i own hown => ?_⟩
    · rw [show (Machine.start s m rest 0 id point .root).stack = _ :: m.stack from rfl,
        hstack] at hc
      rw [List.mem_singleton.mp hc]
      exact (hL.start .root hp.listed hsize hpoint).1
    · rcases cases_of_grow hpoint hown with ⟨rfl, rfl⟩ | ⟨hi, hbefore⟩
      · exact (hL.start .root hp.listed hsize hpoint).2
      · refine hL.other .root hp.listed hsize hi ?_ hpoint (h.every i own hbefore)
        rintro rfl
        exact not_bears_root h.rounded.root own hbefore
  | close hstack hscan => exact h.close hL hstack hscan
  | @go a below scan own hstack _ =>
    obtain ⟨_, hown⟩ := addOwn_eq {a with scan := scan} own
    exact h.innermost hL hstack (by rw [hown]) (by rw [hown]) (by rw [hown]) (by rw [hown]) hmoves'
  | ended hstack _ _ => exact h.innermost hL hstack rfl rfl rfl rfl hmoves'
  | refuse hstack _ _ _ _ => exact h.innermost hL hstack rfl rfl rfl rfl hmoves'
  | enter hstack hscan hrest hpoint henter => exact h.enter hL hstack hscan hrest hpoint henter

theorem balanced_ofTokens (tokens : List Nat) :
    Balanced s Q R tokens [ofTokens tokens] (ofTokens tokens) where
  toRecorded := recorded_ofTokens s tokens
  rounded := rounded_ofTokens s tokens
  held _ ha := nomatch ha
  every i own hown := by
    obtain rfl : i = 0 := Nat.lt_one_iff.mp (lt_size_of_bears hown)
    exact absurd hown (not_bears_root rfl own)

end Moves

end Machine

open Machine

theorem listed_of_reconstruct {s : Setting} {partially : Bool} {tokens : List Nat}
    {r : Reconstruction} (h : reconstruct s partially (Stream.ofTokens tokens) = .ok r) :
    r.tree.Listed := by
  obtain ⟨_, htree, ⟨_, _, hp⟩, _⟩ :=
    reconstruct_keeps (fun _ _ => rounded_of_moves) h (rounded_ofTokens s tokens)
  rw [htree]
  exact hp.listed

/-- At the end of a run `R` holds of every node that stands for a trace point. -/
theorem ledger_of_reconstruct {s : Setting} {Q : Tree → Activation → Prop}
    {R : Tree → Nat → TracePoint → Prop} (hL : Ledger s Q R) {partially : Bool} {stream : Stream}
    {r : Reconstruction} (h : reconstruct s partially stream = .ok r) {i : Nat} {own : TracePoint}
    (hown : Bears s r.tree i own) : R r.tree i own := by
  obtain ⟨k, hrun, htree, _⟩ := halts_of_reconstruct h
  rw [htree] at hown ⊢
  exact (run_keeps_past (fun _ _ _ hm hmoves => balanced_of_moves hL hm hmoves)
    (balanced_ofTokens stream.rest) hrun).1.every i own hown

end Retrace.Reconstruct
