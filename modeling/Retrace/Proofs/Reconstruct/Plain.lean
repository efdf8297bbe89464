import Retrace.Proofs.Reconstruct.Bindings
import Retrace.Proofs.Reconstruct.Run
import Retrace.Proofs.Reconstruct.Scanning
import Retrace.Proofs.Trace.Shape

/-! The plain stack machine.

What a reconstruction does with a trace can be said without any scan. Keep a stack of open
activations; a token goes to the innermost one that has a statement and can bind it, and the ones
above it end (`taker?`). When none takes it, it hangs under the root, if another trace point may
follow there, or else the trace ends (`take?`).

A scan may come to its end while its activation could still bind a token: it does so after a child
that stands behind the last statement. `revisits` says whether the plain machine ever goes back to
an activation that has had such a child. -/
namespace Retrace.Reconstruct
open Source Instrument Trace

/-- What is left of an activation when nothing is scanned. -/
def Activation.plain (a : Activation) : Activation :=
  {a with cursor := .unset, scan := ⟨[], .before, false⟩, markers := [], ranges := []}

structure Plain where
  tree : Tree
  stack : List Activation
  /-- Another trace point may follow under the root. -/
  more : Bool

namespace Plain

def bare : Plain := ⟨Tree.bare, [], true⟩

def scope (s : Setting) (a : Activation) : List Nat :=
  scopeStatements (a.fileOf s) a.point.ref.node a.point.kind

/-- The activation that takes a token, the way in, and the activations below it. `freed` is the
header of the loop whose round ended last. -/
def taker? (s : Setting) (point : TracePoint) (freed : Option Range) :
    List Activation → Option (Entrance × Activation × List Activation)
  | [] => none
  | a :: below =>
    let a := a.releaseHeader freed
    match if (scope s a).isEmpty then none else a.enter? s point with
    | some (entrance, b) => some (entrance, b, below)
    | none => taker? s point a.entrance.header? below

/-- Hangs a trace point under a node and opens its activation. -/
def opened (s : Setting) (t : Tree) (stack : List Activation) (more : Bool) (parent id : Nat)
    (point : TracePoint) (entrance : Entrance) : Plain where
  tree := t.push parent (Machine.newNode s t parent id point entrance)
  stack := (Activation.start (s.file point.ref) t.size point entrance).plain :: stack
  more := more

def take? (s : Setting) (p : Plain) (id : Nat) (point : TracePoint) : Option Plain :=
  match taker? s point none p.stack with
  | some (entrance, b, below) =>
    some (opened s p.tree (b :: below) p.more b.index id point entrance)
  | none =>
    if p.more then
      some (opened s p.tree [] (point.kind == .staticInitializer) 0 id point .root)
    else none

/-- Takes tokens as long as they are taken; what is left comes with the result. -/
def run (s : Setting) (p : Plain) : List Nat → Plain × List Nat
  | [] => (p, [])
  | id :: rest =>
    match (s.points.get? id).bind (take? s p id) with
    | some q => run s q rest
    | none => (p, id :: rest)

/-- The tree in the end and the tokens that are left. -/
def outcome (s : Setting) (p : Plain) (tokens : List Nat) : Tree × List Nat :=
  ((run s p tokens).1.tree, (run s p tokens).2)

theorem outcome_cons {s : Setting} {id : Nat} {point : TracePoint}
    (hpoint : s.points.get? id = some point) (p : Plain) (rest : List Nat) :
    outcome s p (id :: rest) =
      match take? s p id point with
      | some q => outcome s q rest
      | none => (p.tree, id :: rest) := by
  unfold outcome
  rw [run, hpoint, Option.bind_some]
  cases take? s p id point <;> rfl

theorem outcome_unknown {s : Setting} {id : Nat} (hpoint : s.points.get? id = none) (p : Plain)
    (rest : List Nat) : outcome s p (id :: rest) = (p.tree, id :: rest) := by
  unfold outcome
  rw [run, hpoint, Option.bind_none]

/-! ### Children behind the last statement -/

/-- The child that was entered by way of `e` stands neither inside of the last statement of the
scope nor in front of it. -/
def beyond (s : Setting) (a : Activation) (e : Entrance) : Bool :=
  match e.marker?, (scope s a).getLast? with
  | some k, some l =>
    let r := (a.fileOf s).range l
    !r.contains k && !k.last.lt r.first
  | _, _ => false

/-- The latest token has gone to one of the activations `left`. -/
def returns (left : List Nat) (p : Plain) : Bool :=
  match p.stack with
  | _ :: b :: _ => left.contains b.index
  | _ => false

/-- The activations left when the latest token has started a child beyond the last statement. -/
def leave (s : Setting) (left : List Nat) (p : Plain) : List Nat :=
  match p.stack with
  | a :: b :: _ => if beyond s b a.entrance then b.index :: left else left
  | _ => left

/-- Some token goes to an activation that has had a child beyond its last statement before. -/
def revisits (s : Setting) (left : List Nat) (p : Plain) : List Nat → Bool
  | [] => false
  | id :: rest =>
    match (s.points.get? id).bind (take? s p id) with
    | some q => returns left q || revisits s (leave s left q) q rest
    | none => false

theorem revisits_cons {s : Setting} {id : Nat} {point : TracePoint}
    (hpoint : s.points.get? id = some point) (left : List Nat) (p : Plain) (rest : List Nat) :
    revisits s left p (id :: rest) =
      match take? s p id point with
      | some q => returns left q || revisits s (leave s left q) q rest
      | none => false := by
  rw [revisits, hpoint, Option.bind_some]

theorem revisits_unknown {s : Setting} {id : Nat} (hpoint : s.points.get? id = none)
    (left : List Nat) (p : Plain) (rest : List Nat) : revisits s left p (id :: rest) = false := by
  rw [revisits, hpoint, Option.bind_none]

/-! ### What a run keeps -/

/-- A stack counts only by who takes the next token. -/
theorem outcome_congr {s : Setting} {t : Tree} {more : Bool} {stack stack' : List Activation}
    {tokens : List Nat}
    (h : ∀ id point, tokens.head? = some id → s.points.get? id = some point →
      taker? s point none stack = taker? s point none stack') :
    outcome s ⟨t, stack, more⟩ tokens = outcome s ⟨t, stack', more⟩ tokens := by
  cases tokens with
  | nil => rfl
  | cons id rest =>
    cases hpoint : s.points.get? id with
    | none => rw [outcome_unknown hpoint, outcome_unknown hpoint]
    | some point =>
      rw [outcome_cons hpoint, outcome_cons hpoint]
      unfold take?
      rw [h id point rfl hpoint]

theorem revisits_congr {s : Setting} {t : Tree} {more : Bool} {stack stack' : List Activation}
    {left tokens : List Nat}
    (h : ∀ id point, tokens.head? = some id → s.points.get? id = some point →
      taker? s point none stack = taker? s point none stack') :
    revisits s left ⟨t, stack, more⟩ tokens = revisits s left ⟨t, stack', more⟩ tokens := by
  cases tokens with
  | nil => rfl
  | cons id rest =>
    cases hpoint : s.points.get? id with
    | none => rw [revisits_unknown hpoint, revisits_unknown hpoint]
    | some point =>
      rw [revisits_cons hpoint, revisits_cons hpoint]
      unfold take?
      rw [h id point rfl hpoint]

theorem parent?_opened {s : Setting} {t : Tree} {stack : List Activation} {more : Bool}
    {parent id : Nat} {point : TracePoint} {e : Entrance} {c : Nat} :
    (opened s t stack more parent id point e).tree.parent? c =
      if c = t.size then some parent else t.parent? c :=
  Tree.parent?_push c

theorem tree_of_take? {s : Setting} {p q : Plain} {id : Nat} {point : TracePoint}
    (h : take? s p id point = some q) :
    p.tree.size < q.tree.size ∧ ∀ c, c < p.tree.size → q.tree.parent? c = p.tree.parent? c := by
  have hopened : ∃ stack more parent e, q = opened s p.tree stack more parent id point e := by
    unfold take? at h
    split at h
    · cases h
      exact ⟨_, _, _, _, rfl⟩
    · split at h
      · cases h
        exact ⟨_, _, _, _, rfl⟩
      · cases h
  obtain ⟨stack, more, parent, e, rfl⟩ := hopened
  refine ⟨?_, fun c hc => ?_⟩
  · unfold opened
    rw [Tree.size_push]
    omega
  · rw [parent?_opened, if_neg (by omega)]

/-- A node keeps its parent to the end. -/
theorem parent?_outcome (s : Setting) (tokens : List Nat) (p : Plain) {c : Nat}
    (hc : c < p.tree.size) : (outcome s p tokens).1.parent? c = p.tree.parent? c := by
  induction tokens generalizing p with
  | nil => rfl
  | cons id rest ih =>
    cases hpoint : s.points.get? id with
    | none => rw [outcome_unknown hpoint]
    | some point =>
      rw [outcome_cons hpoint]
      cases hq : take? s p id point with
      | none => rfl
      | some q =>
        obtain ⟨hsize, hparent⟩ := tree_of_take? hq
        exact (ih q (Nat.lt_trans hc hsize)).trans (hparent c hc)

/-! ### The end of an activation -/

/-- The stack below an activation that has ended. -/
def ended (a : Activation) : List Activation → List Activation
  | [] => []
  | b :: below => b.releaseHeader a.entrance.header? :: below

theorem taker?_ended (s : Setting) (point : TracePoint) (a : Activation)
    (below : List Activation) :
    taker? s point none (ended a below) = taker? s point a.entrance.header? below := by
  cases below with
  | nil => rfl
  | cons b below => rfl

/-- An activation that does not take a token ends. -/
theorem taker?_pass {s : Setting} {point : TracePoint} {a : Activation} {below : List Activation}
    (h : scope s a = [] ∨ a.enter? s point = none) :
    taker? s point none (a :: below) = taker? s point none (ended a below) := by
  rw [taker?_ended, taker?]
  have hnone : (if (scope s a).isEmpty then none else a.enter? s point) = none := by
    rcases h with h | h
    · rw [h]
      rfl
    · rw [h, ite_self]
  show (match if (scope s a).isEmpty then none else a.enter? s point with
    | some (entrance, b) => some (entrance, b, below)
    | none => taker? s point a.entrance.header? below) = _
  rw [hnone]

theorem taker?_take {s : Setting} {point : TracePoint} {a b : Activation}
    {below : List Activation} {e : Entrance} (hscope : scope s a ≠ [])
    (h : a.enter? s point = some (e, b)) :
    taker? s point none (a :: below) = some (e, b, below) := by
  have hsome : (if (scope s a).isEmpty then none else a.enter? s point) = some (e, b) := by
    rw [if_neg (by simpa using hscope), h]
  rw [taker?]
  show (match if (scope s a).isEmpty then none else a.enter? s point with
    | some (entrance, b) => some (entrance, b, below)
    | none => taker? s point a.entrance.header? below) = _
  rw [hsome]

end Plain

end Retrace.Reconstruct
