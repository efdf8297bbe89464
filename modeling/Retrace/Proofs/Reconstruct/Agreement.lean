import Retrace.Proofs.Reconstruct.Coherence
import Retrace.Proofs.Reconstruct.Preorder

/-! When the scanning machine agrees with the plain stack machine.

The scan of an activation stops asking when it is done, and then the activation ends. For the
plain machine an activation ends only when a token passes it. A child in sight, inside of the last
statement of the scope or in front of it, is met by the scan, which asks again behind it; a child
beyond the last statement lets the scan pass everything that is left (`Setting.Decided`).
`Lively` is the invariant of the stack that this gives.

`fate` is what the plain machine makes of a state of the scanning machine. No move changes it
(`bound_of_moves`), up to the end of an activation to which the plain machine goes back. From there
on the machines have parted (`Parted`): the node of the next token has another parent, or there is
none. So they agree exactly when the plain machine goes back to no such activation
(`run_eq_plain_iff`). -/
namespace Retrace.Reconstruct
open Source Instrument Trace

open Activation

/-- The child stands where no part of the scope's pieces meets it. -/
def Passed (s : Setting) (a : Activation) (k : Range) : Prop :=
  ∀ p ∈ pieces s a, ∀ r ∈ p.range :: p.guards, ¬Scan.Meets k r

/-- A child that the last statement does not meet is met by no other part of the scope either. -/
def Setting.Decided (s : Setting) : Prop :=
  ∀ {a b : Activation} {id : Nat} {point : TracePoint} {e : Entrance}, Coherent s a →
    s.points.get? id = some point → a.enter? s point = some (e, b) →
    Plain.beyond s a e = true → ∀ k, e.marker? = some k → Passed s a k

theorem beyond_iff {s : Setting} {a : Activation} {e : Entrance} :
    Plain.beyond s a e = true ↔ ∃ k, e.marker? = some k ∧
      ∃ l, (pieces s a).getLast? = some l ∧ ¬Scan.Meets k l.range := by
  unfold Plain.beyond pieces Scan.Meets
  rw [List.getLast?_map]
  cases e.marker? <;> cases (Plain.scope s a).getLast? <;> simp [piece]

/-! ### The invariant of the stack -/

/-- The scan has the last piece still before it, and the place in sight of that. -/
def Ahead (s : Setting) (a : Activation) (place : Option Range) : Prop :=
  ∃ l, a.scan.todo.getLast? = some l ∧ (pieces s a).getLast? = some l ∧
    ∀ k, place = some k → Scan.Meets k l.range

/-- The scan will ask again behind the place, or the activation has been left and the scan passes
all that is to come. -/
def Expecting (s : Setting) (left : List Nat) (a : Activation) (place : Option Range) : Prop :=
  a.index ∉ left ∧ Ahead s a place ∨ a.index ∈ left ∧ ∃ k, place = some k ∧ Passed s a k

def Cursor.place? : Cursor → Option Range
  | .child k => some k
  | _ => none

/-- The innermost activation has nothing to wait for, or its scan goes on. -/
def Alive (s : Setting) (left : List Nat) (a : Activation) : Prop :=
  a.cursor = .exhausted ∨ (pieces s a = [] ∧ a.scan.todo = []) ∨
    Expecting s left a a.cursor.place?

/-- The activations below a child that was entered by way of `e`. -/
def Waiting (s : Setting) (left : List Nat) (e : Entrance) : List Activation → Prop
  | [] => True
  | b :: below => Expecting s left b e.marker? ∧ Waiting s left b.entrance below

def Lively (s : Setting) (left : List Nat) : List Activation → Prop
  | [] => True
  | a :: below => Alive s left a ∧ Waiting s left a.entrance below

theorem alive_start {s : Setting} {left : List Nat} {index : Nat} (hindex : index ∉ left)
    (point : TracePoint) (e : Entrance) :
    Alive s left (start (s.file point.ref) index point e) := by
  cases hlast : (pieces s (start (s.file point.ref) index point e)).getLast? with
  | none =>
    have hnil := List.getLast?_eq_none_iff.mp hlast
    exact .inr (.inl ⟨hnil, hnil⟩)
  | some l => exact .inr (.inr (.inl ⟨hindex, l, hlast, hlast, fun k hk => nomatch hk⟩))

theorem lively_resume {s : Setting} {left : List Nat} {e : Entrance} {b : Activation}
    {below : List Activation} (h : Waiting s left e (b :: below)) :
    Lively s left (b.resume e :: below) := by
  obtain ⟨hb, hw⟩ := h
  have hcursor : (b.resume e).cursor.place? = e.marker? := by
    unfold resume
    cases e.marker? <;> rfl
  refine ⟨.inr (.inr ?_), ?_⟩
  · rw [hcursor]
    obtain ⟨_, _, _, hresume⟩ := resume_eq b e
    rw [hresume]
    exact hb
  · obtain ⟨_, _, _, hresume⟩ := resume_eq b e
    rw [hresume]
    exact hw

/-- A piece is dropped only when the place has been met or passed, or there is nothing to wait
for. -/
theorem alive_go {s : Setting} {left : List Nat} {a : Activation} {scan : Scan}
    {own : Option Range} (h : Alive s left a) (hscan : a.scan.step a.cursor = .go scan own) :
    Alive s left (({a with scan := scan}).addOwn own) := by
  obtain ⟨_, hown⟩ := addOwn_eq {a with scan := scan} own
  rw [hown]
  rcases h with h | ⟨_, hnil⟩ | ⟨hindex, l, htodo, hlast, hmeets⟩ | hpassed
  · exact .inl h
  · unfold Scan.step at hscan
    rw [hnil] at hscan
    cases hscan
  · rcases Scan.todo_of_go hscan with hsame | ⟨p, hp, hsettled⟩
    · exact .inr (.inr (.inl ⟨hindex, l, by rw [← hsame] at htodo; exact htodo, hlast, hmeets⟩))
    · rcases Scan.verdict_settled hsettled with hexhausted | ⟨k, hchild, hmiss⟩
      · exact .inl hexhausted
      · have hk := hmeets k (by rw [hchild]; rfl)
        rw [hp] at htodo
        cases hrest : scan.todo with
        | nil =>
          rw [hrest] at htodo
          cases htodo
          exact absurd hk hmiss
        | cons q rest =>
          rw [hrest, List.getLast?_cons_cons, ← hrest] at htodo
          exact .inr (.inr (.inl ⟨hindex, l, htodo, hlast, hmeets⟩))
  · exact .inr (.inr (.inr hpassed))

theorem not_exhausted_of_ask {a : Activation} {scan : Scan}
    (hscan : a.scan.step a.cursor = .ask scan) : a.cursor ≠ .exhausted := by
  intro hexhausted
  have hrank := Scan.rank_pos_of_ask hscan
  rw [hexhausted] at hrank
  exact absurd hrank (Nat.lt_irrefl 0)

/-- An activation that asks has its last piece before it and has not been left. -/
theorem ahead_of_ask {s : Setting} {left : List Nat} {a : Activation} {scan : Scan}
    (ha : Coherent s a) (h : Alive s left a) (hscan : a.scan.step a.cursor = .ask scan) :
    a.index ∉ left ∧
      ∃ l, scan.todo.getLast? = some l ∧ (pieces s a).getLast? = some l := by
  obtain ⟨htodo, hne⟩ := Scan.todo_of_ask hscan
  rcases h with h | ⟨_, hnil⟩ | ⟨hindex, l, hl, hlast, _⟩ | ⟨_, k, hk, hpassed⟩
  · exact absurd h (not_exhausted_of_ask hscan)
  · exact absurd hnil hne
  · exact ⟨hindex, l, by rw [htodo]; exact hl, hlast⟩
  · have hcursor : a.cursor = .child k := by
      cases hc : a.cursor <;> rw [hc] at hk <;> cases hk
      rfl
    rw [hcursor] at hscan
    exact absurd hscan (Scan.not_ask_of_passed ha.within hpassed)

/-- Another activation may be left. -/
theorem waiting_leave {s : Setting} {left : List Nat} {i : Nat} {below : List Activation}
    {e : Entrance} (hi : ∀ b ∈ below, b.index ≠ i) (h : Waiting s left e below) :
    Waiting s (i :: left) e below := by
  induction below generalizing e with
  | nil => trivial
  | cons b below ih =>
    obtain ⟨hb, hw⟩ := h
    refine ⟨?_, ih (fun c hc => hi c (List.mem_cons_of_mem b hc)) hw⟩
    have hne := hi b List.mem_cons_self
    unfold Expecting
    rw [List.mem_cons, or_iff_right hne]
    exact hb

/-! ### What the plain machine makes of a state -/

theorem plain_eq_rescan (a : Activation) :
    a.plain = a.rescan .unset ⟨[], .before, false⟩ [] [] := rfl

theorem enter?_plain (s : Setting) (a : Activation) (point : TracePoint) :
    a.plain.enter? s point = (a.enter? s point).map (Prod.map id plain) := by
  rw [plain_eq_rescan, enter?_rescan]
  rfl

theorem plain_resume (a : Activation) (e : Entrance) :
    (a.resume e).plain = a.plain.releaseHeader e.header? := by
  unfold resume
  cases hheader : e.header? <;> cases e.marker? <;> rfl

theorem round_outline (t : Tree) (parent : Nat) (traceId : String) :
    Machine.round t.outline parent traceId = Machine.round t parent traceId := by
  have hids : ∀ c, (t.outline.get? c).map Node.traceId = (t.get? c).map Node.traceId :=
    fun c => congrFun (Tree.traceId?_outline t) c
  unfold Machine.round
  simp only [hids]
  rw [Tree.get?_outline]
  cases t.get? parent <;> rfl

theorem outline_newNode (s : Setting) (t : Tree) (parent id : Nat) (point : TracePoint)
    (e : Entrance) :
    (Machine.newNode s t parent id point e).outline =
      Machine.newNode s t.outline parent id point e := by
  unfold Machine.newNode
  rw [round_outline]
  rfl

/-- The stack as the plain machine has it: one that has nothing to wait for has ended. -/
def plainStack : List Activation → List Activation
  | [] => []
  | a :: below =>
    if a.cursor = .exhausted then Plain.ended a (below.map plain)
    else a.plain :: below.map plain

def view (m : Machine) : Plain := ⟨m.tree.outline, plainStack m.stack, m.more⟩

/-- The tree and the tokens left over that the plain machine comes to from here. -/
def fate (s : Setting) (m : Machine) : Tree × List Nat := Plain.outcome s (view m) m.rest

theorem plainStack_start (f : File) (index : Nat) (point : TracePoint) (e : Entrance)
    (below : List Activation) :
    plainStack (start f index point e :: below) =
      (start f index point e).plain :: below.map plain := by
  rw [plainStack, if_neg (show (start f index point e).cursor ≠ .exhausted by simp [start])]

theorem opened_eq (s : Setting) (m : Machine) (below : List Activation) (more : Bool)
    (rest : List Nat) (parent id : Nat) (point : TracePoint) (e : Entrance) :
    Plain.opened s m.tree.outline (below.map plain) more parent id point e =
      view {Machine.start s {m with stack := below} rest parent id point e with more := more} := by
  unfold view Plain.opened Machine.start
  simp only
  rw [Tree.outline_push, outline_newNode, plainStack_start, Tree.size_outline]

theorem scope_ne_nil {s : Setting} {a : Activation} {l : Piece}
    (h : (pieces s a).getLast? = some l) : Plain.scope s a ≠ [] := by
  intro hnil
  unfold pieces at h
  rw [hnil] at h
  cases h

/-- The plain machine comes to the same from both states. -/
def Alike (s : Setting) (left : List Nat) (m : Machine) (left' : List Nat) (n : Machine) : Prop :=
  fate s n = fate s m ∧
    Plain.revisits s left' (view n) n.rest = Plain.revisits s left (view m) m.rest

theorem alike_of_view {s : Setting} {left : List Nat} {m n : Machine} (hview : view n = view m)
    (hrest : n.rest = m.rest) : Alike s left m left n := by
  unfold Alike fate
  rw [hview, hrest]
  exact ⟨rfl, rfl⟩

/-- The innermost activation ends where the next token passes it. -/
theorem alike_of_pass {s : Setting} {left : List Nat} {m n : Machine} {a : Activation}
    {below : List Activation} (hstack : m.stack = a :: below) (hcursor : a.cursor ≠ .exhausted)
    (hn : view n = ⟨m.tree.outline, Plain.ended a (below.map plain), m.more⟩)
    (hrest : n.rest = m.rest)
    (hpass : ∀ id point, m.rest.head? = some id → s.points.get? id = some point →
      Plain.scope s a = [] ∨ a.enter? s point = none) : Alike s left m left n := by
  have hm : view m = ⟨m.tree.outline, a.plain :: below.map plain, m.more⟩ := by
    unfold view
    rw [hstack, plainStack, if_neg hcursor]
  have htaker : ∀ id point, m.rest.head? = some id → s.points.get? id = some point →
      Plain.taker? s point none (a.plain :: below.map plain) =
        Plain.taker? s point none (Plain.ended a (below.map plain)) := by
    intro id point hid hpoint
    refine Plain.taker?_pass (a := a.plain) ((hpass id point hid hpoint).imp_right fun hnone => ?_)
    rw [enter?_plain, hnone]
    rfl
  unfold Alike fate
  rw [hm, hn, hrest]
  exact ⟨(Plain.outcome_congr htaker).symm, (Plain.revisits_congr htaker).symm⟩

theorem alike_root {s : Setting} {left : List Nat} {m : Machine} {id : Nat} {rest : List Nat}
    {point : TracePoint} (hstack : m.stack = []) (hmore : m.more = true)
    (hrest : m.rest = id :: rest) (hpoint : s.points.get? id = some point) :
    Alike s left m left
      {Machine.start s m rest 0 id point .root with more := point.kind == .staticInitializer} := by
  have hview : Plain.take? s (view m) id point =
      some (Plain.opened s m.tree.outline [] (point.kind == .staticInitializer) 0 id point
        .root) := by
    unfold view Plain.take?
    rw [hstack, hmore]
    rfl
  have hstart := opened_eq s m [] (point.kind == .staticInitializer) rest 0 id point .root
  simp only [List.map_nil] at hstart
  unfold Alike fate
  rw [hrest, Plain.outcome_cons hpoint, Plain.revisits_cons hpoint, hview, hstart]
  unfold Machine.start
  rw [hstack]
  exact ⟨rfl, rfl⟩

theorem view_close (s : Setting) {m : Machine} {a : Activation} {below : List Activation} :
    view (Machine.close s m a below) =
      ⟨m.tree.outline, Plain.ended a (below.map plain), m.more⟩ := by
  have hended : plainStack (Machine.close s m a below).stack =
      Plain.ended a (below.map plain) := by
    obtain ⟨_, hfinish⟩ := finish_eq s a
    cases below with
    | nil => rfl
    | cons b below =>
      simp only [Machine.close, hfinish]
      have hcursor : (b.resume a.entrance).cursor ≠ .exhausted := by
        unfold resume
        cases a.entrance.marker? <;> simp
      rw [plainStack, if_neg hcursor, plain_resume]
      rfl
  unfold view
  rw [hended]
  cases below <;> simp [Machine.close, Tree.outline_setRanges]

theorem alike_enter {s : Setting} {left : List Nat} {m : Machine} {a b : Activation}
    {below : List Activation} {scan : Scan} {id : Nat} {rest : List Nat} {point : TracePoint}
    {e : Entrance} (hstack : m.stack = a :: below) (hcursor : a.cursor ≠ .exhausted)
    (hscope : Plain.scope s a ≠ []) (hleft : a.index ∉ left) (hrest : m.rest = id :: rest)
    (hpoint : s.points.get? id = some point)
    (henter : ({a with scan := scan}).enter? s point = some (e, b)) :
    Alike s left m (if Plain.beyond s b e then b.index :: left else left)
      (Machine.start s {m with stack := {b with cursor := .unset} :: below} rest b.index id point
        e) := by
  have hsome : a.plain.enter? s point = some (e, b.plain) := by
    have hplain := enter?_plain s {a with scan := scan} point
    rw [henter] at hplain
    exact hplain
  have htake : Plain.take? s (view m) id point =
      some (Plain.opened s m.tree.outline (({b with cursor := .unset} :: below).map plain) m.more
        b.index id point e) := by
    have htaker : Plain.taker? s point none (a.plain :: below.map plain) =
        some (e, b.plain, below.map plain) := Plain.taker?_take hscope hsome
    unfold Plain.take? view
    rw [hstack, plainStack, if_neg hcursor, htaker]
    rfl
  have hreturns : Plain.returns left (Plain.opened s m.tree.outline
      (({b with cursor := .unset} :: below).map plain) m.more b.index id point e) = false := by
    obtain ⟨_, _, _, rfl⟩ := rebound_enter? henter
    simpa [Plain.returns, Plain.opened, plain] using hleft
  unfold Alike fate
  rw [hrest, Plain.outcome_cons hpoint, Plain.revisits_cons hpoint, htake]
  simp only [hreturns, Bool.false_or]
  rw [opened_eq s m _ m.more rest]
  exact ⟨rfl, rfl⟩

/-! ### One move -/

/-- The machines have agreed so far. -/
structure Bound (s : Setting) (tokens left : List Nat) (m : Machine) : Prop where
  coherent : ∀ a ∈ m.stack, Coherent s a
  placed : ∃ taken, tokens = taken ++ m.rest ∧ Machine.Placed s taken m
  lively : Lively s left m.stack
  earlier : ∀ i ∈ left, i < m.tree.size
  alike : Alike s [] (Machine.ofTokens tokens) left m

/-- The plain machine goes back to an activation that has ended here. -/
structure Parted (s : Setting) (tokens : List Nat) (m : Machine) : Prop where
  placed : ∃ taken, tokens = taken ++ m.rest ∧ Machine.Placed s taken m
  revisits : Plain.revisits s [] (view (Machine.ofTokens tokens)) tokens = true
  parent : ∃ c i, (fate s (Machine.ofTokens tokens)).1.parent? c = some i ∧ 0 < i ∧
    i < m.tree.size ∧ i ∉ m.indices ∧ m.tree.parent? c ≠ some i

theorem Alike.trans {s : Setting} {left left' left'' : List Nat} {m n k : Machine}
    (h : Alike s left m left' n) (h' : Alike s left' n left'' k) : Alike s left m left'' k :=
  ⟨h'.1.trans h.1, h'.2.trans h.2⟩

section Bound
variable {s : Setting} {tokens left : List Nat} {m n : Machine} (h : Bound s tokens left m)
include h

theorem Bound.placed_moves (hmoves : Machine.Moves s m n) :
    ∃ taken, tokens = taken ++ n.rest ∧ Machine.Placed s taken n :=
  Machine.placed_of_grows (Machine.grows_of_moves hmoves) h.placed

theorem Bound.move (hmoves : Machine.Moves s m n) {left' : List Nat}
    (hlively : Lively s left' n.stack) (hearlier : ∀ i ∈ left', i < n.tree.size)
    (halike : Alike s left m left' n) : Bound s tokens left' n where
  coherent := coherent_of_moves hmoves h.coherent
  placed := h.placed_moves hmoves
  lively := hlively
  earlier := hearlier
  alike := h.alike.trans halike

/-- An activation that can still bind the next token ends when it has been left. -/
theorem Bound.parted_close {a b : Activation} {below : List Activation} {id : Nat}
    {point : TracePoint} {e : Entrance} (hstack : m.stack = a :: below)
    (hmoves : Machine.Moves s m (Machine.close s m a below)) (hcursor : a.cursor ≠ .exhausted)
    (hscope : Plain.scope s a ≠ []) (hleft : a.index ∈ left) (hid : m.rest.head? = some id)
    (hpoint : s.points.get? id = some point) (henter : a.enter? s point = some (e, b)) :
    Parted s tokens (Machine.close s m a below) := by
  obtain ⟨rest, hrest⟩ := List.head?_eq_some_iff.mp hid
  have hindex : b.index = a.index := by
    obtain ⟨_, _, _, rfl⟩ := rebound_enter? henter
    rfl
  have hsome : a.plain.enter? s point = some (e, b.plain) := by
    rw [enter?_plain, henter]
    rfl
  have htake : Plain.take? s (view m) id point =
      some (Plain.opened s m.tree.outline (b.plain :: below.map plain) m.more b.index id point
        e) := by
    have htaker : Plain.taker? s point none (a.plain :: below.map plain) =
        some (e, b.plain, below.map plain) := Plain.taker?_take hscope hsome
    unfold Plain.take? view
    rw [hstack, plainStack, if_neg hcursor, htaker]
    rfl
  have htree := Machine.outline_close s m a below
  have hsize := Tree.size_eq_of_outline htree
  have hindices : m.indices = a.index :: (Machine.close s m a below).indices := by
    rw [Machine.indices_close, Machine.indices_eq hstack]
  obtain ⟨_, _, hplaced⟩ := h.placed
  have hopen := hplaced.open_above a.index (by rw [hindices]; exact List.mem_cons_self)
  have hdescending := hplaced.descending
  rw [hindices] at hdescending
  refine ⟨h.placed_moves hmoves, ?_, m.tree.size, a.index, ?_, hopen.1, ?_, ?_, ?_⟩
  · refine h.alike.2.symm.trans ?_
    rw [hrest, Plain.revisits_cons hpoint, htake]
    simp only [Bool.or_eq_true]
    refine .inl ?_
    rw [← hindex] at hleft
    simpa [Plain.returns, Plain.opened, plain] using hleft
  · rw [← h.alike.1]
    unfold fate
    rw [hrest, Plain.outcome_cons hpoint, htake]
    simp only
    have hsize' : m.tree.size < (Plain.opened s m.tree.outline (b.plain :: below.map plain) m.more
        b.index id point e).tree.size := by
      unfold Plain.opened
      rw [Tree.size_push, Tree.size_outline]
      omega
    rw [Plain.parent?_outcome _ _ _ hsize', Plain.parent?_opened, Tree.size_outline, if_pos rfl,
      hindex]
  · rw [hsize]
    exact hopen.2.1
  · intro hmem
    exact absurd ((List.pairwise_cons.mp hdescending).1 _ hmem) (Nat.lt_irrefl _)
  · rw [Tree.parent?_eq_of_outline htree]
    intro hparent
    exact absurd (Tree.lt_size_of_parent? hparent) (Nat.lt_irrefl _)

theorem Bound.close {a : Activation} {below : List Activation} (hstack : m.stack = a :: below)
    (hscan : a.scan.step a.cursor = .done) :
    Bound s tokens left (Machine.close s m a below) ∨
      Parted s tokens (Machine.close s m a below) := by
  have hmoves : Machine.Moves s m (Machine.close s m a below) := .close hstack hscan
  have hlively := h.lively
  rw [hstack] at hlively
  have hbelow : Lively s left (Machine.close s m a below).stack := by
    cases below with
    | nil => trivial
    | cons b below =>
      obtain ⟨_, hfinish⟩ := finish_eq s a
      simp only [Machine.close, hfinish]
      exact lively_resume hlively.2
  have hrest : (Machine.close s m a below).rest = m.rest := by
    cases below <;> rfl
  have hsize : (Machine.close s m a below).tree.size = m.tree.size := by
    cases below <;> exact Tree.size_modify _ _ _
  have hearlier : ∀ i ∈ left, i < (Machine.close s m a below).tree.size := by
    rw [hsize]
    exact h.earlier
  by_cases hcursor : a.cursor = .exhausted
  · refine .inl (h.move hmoves hbelow hearlier (alike_of_view ?_ hrest))
    rw [view_close, view, hstack, plainStack, if_pos hcursor]
  by_cases hpass : ∀ id point, m.rest.head? = some id → s.points.get? id = some point →
      Plain.scope s a = [] ∨ a.enter? s point = none
  · exact .inl (h.move hmoves hbelow hearlier
      (alike_of_pass hstack hcursor (view_close s) hrest hpass))
  · simp only [not_forall, not_or] at hpass
    obtain ⟨id, point, hid, hpoint, hscope, henter⟩ := hpass
    obtain ⟨⟨e, b⟩, henter⟩ := Option.ne_none_iff_exists'.mp henter
    refine .inr (h.parted_close hstack hmoves hcursor hscope ?_ hid hpoint henter)
    rcases hlively.1 with hexhausted | ⟨hnil, _⟩ | ⟨_, l, htodo, _, _⟩ | ⟨hleft, _⟩
    · exact absurd hexhausted hcursor
    · exact absurd (List.map_eq_nil_iff.mp hnil) hscope
    · rw [Scan.todo_of_done hscan] at htodo
      cases htodo
    · exact hleft

theorem Bound.enter (hdecided : s.Decided) {a b : Activation} {below : List Activation}
    {scan : Scan} {id : Nat} {rest : List Nat} {point : TracePoint} {e : Entrance}
    (hstack : m.stack = a :: below) (hscan : a.scan.step a.cursor = .ask scan)
    (hrest : m.rest = id :: rest) (hpoint : s.points.get? id = some point)
    (henter : ({a with scan := scan}).enter? s point = some (e, b)) :
    ∃ left', Bound s tokens left' (Machine.start s
      {m with stack := {b with cursor := .unset} :: below} rest b.index id point e) := by
  have hlively := h.lively
  have hcoherent := h.coherent
  rw [hstack] at hlively hcoherent
  obtain ⟨halive, hw⟩ := hlively
  have ha := hcoherent a List.mem_cons_self
  obtain ⟨hleft, l, htodo, hlast⟩ := ahead_of_ask ha halive hscan
  obtain ⟨_, _, hplaced⟩ := h.placed
  have hindices : m.indices = a.index :: below.map Activation.index := Machine.indices_eq hstack
  have hsize := (hplaced.open_above a.index (by rw [hindices]; exact List.mem_cons_self)).2.1
  have hdescending := hplaced.descending
  rw [hindices] at hdescending
  have hne : ∀ c ∈ below, c.index ≠ a.index := fun c hc =>
    Nat.ne_of_lt ((List.pairwise_cons.mp hdescending).1 _ (List.mem_map_of_mem hc))
  have halike := alike_enter hstack (not_exhausted_of_ask hscan) (scope_ne_nil hlast) hleft hrest
    hpoint henter
  have hbeyond : Plain.beyond s {a with scan := scan} e = Plain.beyond s b e := by
    obtain ⟨_, _, _, rfl⟩ := rebound_enter? henter
    rfl
  have hpassed := hdecided (ha.ask hscan) hpoint henter
  have hbound : Machine.Moves s m (Machine.start s
    {m with stack := {b with cursor := .unset} :: below} rest b.index id point e) :=
    .enter hstack hscan hrest hpoint henter
  obtain ⟨_, _, _, rfl⟩ := rebound_enter? henter
  -- The latest trace point has a number that no activation has had before.
  have hstart : ∀ {left' : List Nat} {below' : List Activation}, (∀ i ∈ left', i < m.tree.size) →
      Waiting s left' e below' →
      Lively s left' (start (s.file point.ref) m.tree.size point e :: below') :=
    fun hearlier hw' => ⟨alive_start (fun hi => Nat.lt_irrefl _ (hearlier _ hi)) point e, hw'⟩
  refine ⟨_, h.move hbound ?_ ?_ halike⟩
  · cases hcase : Plain.beyond s {a with scan := scan} e with
    | true =>
      rw [← hbeyond, hcase]
      refine hstart (fun i hi => ?_) ⟨.inr ⟨List.mem_cons_self, ?_⟩, waiting_leave hne hw⟩
      · rcases List.mem_cons.mp hi with rfl | hi
        · exact hsize
        · exact h.earlier i hi
      · obtain ⟨k, hk, _⟩ := beyond_iff.mp hcase
        exact ⟨k, hk, hpassed hcase k hk⟩
    | false =>
      rw [← hbeyond, hcase]
      refine hstart h.earlier ⟨.inl ⟨hleft, l, htodo, hlast, fun k hk => ?_⟩, hw⟩
      refine Classical.byContradiction fun hmiss => ?_
      have hbehind : Plain.beyond s {a with scan := scan} e = true :=
        beyond_iff.mpr ⟨k, hk, l, hlast, hmiss⟩
      rw [hcase] at hbehind
      cases hbehind
  · intro i hi
    rw [Machine.size_start]
    split at hi
    · rcases List.mem_cons.mp hi with rfl | hi
      · exact Nat.lt_succ_of_lt hsize
      · exact Nat.lt_succ_of_lt (h.earlier i hi)
    · exact Nat.lt_succ_of_lt (h.earlier i hi)

end Bound

theorem bound_of_moves {s : Setting} (hdecided : s.Decided) {tokens left : List Nat}
    {m n : Machine} (h : Bound s tokens left m) (hmoves : Machine.Moves s m n) :
    (∃ left', Bound s tokens left' n) ∨ Parted s tokens n := by
  have hlively := h.lively
  have hmoves' := hmoves
  cases hmoves with
  | @root id rest point hstack hmore hrest hpoint =>
    refine .inl ⟨left, h.move hmoves' ?_ ?_ (alike_root hstack hmore hrest hpoint)⟩
    · rw [show (Machine.start s m _ 0 _ _ .root).stack = _ :: m.stack from rfl, hstack]
      exact ⟨alive_start (fun hi => Nat.lt_irrefl _ (h.earlier _ hi)) _ _, trivial⟩
    · intro i hi
      have hsize := Machine.size_start s m rest 0 id point .root
      exact Nat.lt_of_lt_of_eq (Nat.lt_succ_of_lt (h.earlier i hi)) hsize.symm
  | close hstack hscan => exact (h.close hstack hscan).imp_left fun hbound => ⟨left, hbound⟩
  | @go a below scan own hstack hscan =>
    rw [hstack] at hlively
    obtain ⟨_, hown⟩ := addOwn_eq {a with scan := scan} own
    refine .inl ⟨left, h.move hmoves' ⟨alive_go hlively.1 hscan, ?_⟩ h.earlier
      (alike_of_view ?_ rfl)⟩
    · rw [hown]
      exact hlively.2
    · unfold view
      rw [hstack]
      simp only [plainStack, hown]
      rfl
  | @ended a below scan hstack hscan hrest =>
    rw [hstack] at hlively
    refine .inl ⟨left, h.move hmoves' ⟨.inl rfl, hlively.2⟩ h.earlier ?_⟩
    refine alike_of_pass hstack (not_exhausted_of_ask hscan) rfl rfl fun id point hid => ?_
    rw [hrest] at hid
    cases hid
  | @refuse a below scan id rest point hstack hscan hrest hpoint henter =>
    rw [hstack] at hlively
    refine .inl ⟨left, h.move hmoves' ⟨.inl rfl, hlively.2⟩ h.earlier ?_⟩
    refine alike_of_pass hstack (not_exhausted_of_ask hscan) rfl rfl
      fun id' point' hid hpoint' => ?_
    rw [hrest] at hid
    cases hid
    rw [hpoint] at hpoint'
    cases hpoint'
    have hplain := enter?_plain s {a with scan := scan} point
    rw [henter] at hplain
    exact .inr (Option.map_eq_none_iff.mp ((enter?_plain s a point).symm.trans hplain))
  | enter hstack hscan hrest hpoint henter =>
    exact .inl (h.enter hdecided hstack hscan hrest hpoint henter)

/-- An activation that has ended gets no further child. -/
theorem parted_of_moves {s : Setting} {tokens : List Nat} {m n : Machine}
    (h : Parted s tokens m) (hmoves : Machine.Moves s m n) : Parted s tokens n := by
  have hgrows := Machine.grows_of_moves hmoves
  have hplaced := Machine.placed_of_grows hgrows h.placed
  obtain ⟨c, i, hparent, hpos, hsize, hindices, hother⟩ := h.parent
  refine ⟨hplaced, h.revisits, c, i, hparent, hpos, ?_⟩
  cases hgrows with
  | still hrest hmore htree hsame =>
    rw [Tree.size_eq_of_outline htree, Tree.parent?_eq_of_outline htree, hsame]
    exact ⟨hsize, hindices, hother⟩
  | ends hrest hmore htree hends =>
    rw [Tree.size_eq_of_outline htree, Tree.parent?_eq_of_outline htree]
    rw [hends] at hindices
    exact ⟨hsize, fun hi => hindices (List.mem_cons_of_mem _ hi), hother⟩
  | @begins id parent point entrance hrest hpoint htree hbegins hat =>
    have hne : parent ≠ i := by
      rintro rfl
      rcases hat with ⟨hhead, _⟩ | ⟨_, rfl, _⟩
      · exact hindices (List.mem_of_head? hhead)
      · exact Nat.lt_irrefl 0 hpos
    rw [htree, hbegins, Tree.size_push, Tree.parent?_push]
    refine ⟨Nat.lt_succ_of_lt hsize, ?_, ?_⟩
    · rw [List.mem_cons, not_or]
      exact ⟨Nat.ne_of_lt hsize, hindices⟩
    · split
      · exact fun heq => hne (Option.some.inj heq)
      · exact hother

/-! ### Whole runs -/

/-- The machine does not fail on tokens that all name trace points. -/
theorem step_ok {s : Setting} {m : Machine}
    (h : ∀ id ∈ m.rest, ∃ point, s.points.get? id = some point) :
    ∃ r, Machine.step s m = .ok r := by
  unfold Machine.step
  split
  · unfold Machine.startRoot
    split
    · rename_i id rest _ hrest
      obtain ⟨point, hpoint⟩ := h id (by rw [hrest]; exact List.mem_cons_self)
      rw [Machine.point?_eq_ok.mpr hpoint]
      exact ⟨_, rfl⟩
    · exact ⟨_, rfl⟩
  · split
    · exact ⟨_, rfl⟩
    · exact ⟨_, rfl⟩
    · unfold Machine.ask
      split
      · exact ⟨_, rfl⟩
      · rename_i id rest hrest
        obtain ⟨point, hpoint⟩ := h id (by rw [hrest]; exact List.mem_cons_self)
        rw [Machine.point?_eq_ok.mpr hpoint]
        simp only [bind, Except.bind]
        split <;> exact ⟨_, rfl⟩

theorem rest_subset_of_moves {s : Setting} {m n : Machine} (h : Machine.Moves s m n) :
    n.rest ⊆ m.rest := by
  cases h with
  | root _ _ hrest _ => rw [hrest]; exact List.subset_cons_self _ _
  | @close a below _ _ => cases below <;> exact List.Subset.refl _
  | go _ _ => exact List.Subset.refl _
  | ended _ _ _ => exact List.Subset.refl _
  | refuse _ _ _ _ _ => exact List.Subset.refl _
  | enter _ _ hrest _ _ => rw [hrest]; exact List.subset_cons_self _ _

theorem run_ok {s : Setting} {m : Machine}
    (h : ∀ id ∈ m.rest, ∃ point, s.points.get? id = some point) :
    ∃ k, Machine.run s m = .ok k := by
  induction m using Machine.run.induct s with
  | case1 m f hstep =>
    obtain ⟨r, hr⟩ := step_ok h
    rw [hstep] at hr
    cases hr
  | case2 m hstep =>
    rw [Machine.run_eq, hstep]
    exact ⟨m, rfl⟩
  | case3 m n hstep ih =>
    rw [Machine.run_eq, hstep]
    exact ih fun id hid => h id (rest_subset_of_moves (Machine.moves_of_step hstep) hid)

theorem fate_ofTokens (s : Setting) (tokens : List Nat) :
    fate s (Machine.ofTokens tokens) = Plain.outcome s Plain.bare tokens := by
  have hbare : Tree.bare.outline = Tree.bare := by
    simp [Tree.outline, Tree.bare, Node.outline, Node.root]
  unfold fate view Machine.ofTokens
  simp only [hbare]
  rfl

theorem bound_ofTokens (s : Setting) (tokens : List Nat) :
    Bound s tokens [] (Machine.ofTokens tokens) where
  coherent _ ha := nomatch ha
  placed := ⟨[], rfl, Machine.placed_ofTokens s tokens⟩
  lively := trivial
  earlier _ hi := nomatch hi
  alike := ⟨rfl, rfl⟩

/-- A machine that has halted is where the plain machine is. -/
theorem fate_of_halted {s : Setting} {k : Machine} (h : Machine.step s k = .ok none)
    (left : List Nat) :
    fate s k = (k.tree.outline, k.rest) ∧ Plain.revisits s left (view k) k.rest = false := by
  obtain ⟨hstack, hend⟩ := Machine.step_eq_none h
  unfold fate view
  rw [hstack]
  cases hrest : k.rest with
  | nil => exact ⟨rfl, rfl⟩
  | cons id rest =>
    have hmore : k.more = false := by
      rcases hend with hmore | hnil
      · exact hmore
      · rw [hrest] at hnil
        cases hnil
    rw [hmore]
    cases hpoint : s.points.get? id with
    | none => exact ⟨Plain.outcome_unknown hpoint _ _, Plain.revisits_unknown hpoint _ _ _⟩
    | some point =>
      rw [Plain.outcome_cons hpoint, Plain.revisits_cons hpoint]
      exact ⟨rfl, rfl⟩

/-- A run comes to what the plain machine comes to exactly when that never goes back to an
activation that has had a child beyond its last statement. -/
theorem run_eq_plain_iff {s : Setting} (hdecided : s.Decided) {tokens : List Nat} {k : Machine}
    (h : Machine.run s (Machine.ofTokens tokens) = .ok k) :
    (k.tree.outline, k.rest.length) = ((Plain.outcome s Plain.bare tokens).1,
        (Plain.outcome s Plain.bare tokens).2.length) ↔
      Plain.revisits s [] Plain.bare tokens = false := by
  obtain ⟨hstate, hhalt⟩ := Machine.run_keeps
    (P := fun m => (∃ left, Bound s tokens left m) ∨ Parted s tokens m)
    (fun m n hm hmoves => hm.elim (fun ⟨_, hbound⟩ => bound_of_moves hdecided hbound hmoves)
      fun hparted => .inr (parted_of_moves hparted hmoves))
    (.inl ⟨[], bound_ofTokens s tokens⟩) h
  have hbare : view (Machine.ofTokens tokens) = Plain.bare := by
    simp [view, Machine.ofTokens, Plain.bare, plainStack, Tree.outline, Tree.bare, Node.outline,
      Node.root]
  rcases hstate with ⟨left, hbound⟩ | hparted
  · obtain ⟨hfate, hrevisits⟩ := fate_of_halted hhalt left
    have halike := hbound.alike
    unfold Alike at halike
    rw [hfate, hrevisits, fate_ofTokens, hbare] at halike
    rw [← halike.1]
    exact ⟨fun _ => halike.2.symm, fun _ => rfl⟩
  · obtain ⟨c, i, hparent, _, _, _, hother⟩ := hparted.parent
    have hrevisits := hparted.revisits
    rw [hbare] at hrevisits
    rw [fate_ofTokens] at hparent
    rw [hrevisits]
    refine ⟨fun heq => ?_, Bool.noConfusion⟩
    rw [← (Prod.mk.inj heq).1, Tree.parent?_outline] at hparent
    exact absurd hparent hother

end Retrace.Reconstruct
