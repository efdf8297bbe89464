import Retrace.Reconstruct.Activation
import Retrace.Trace.Stream

/-! Reconstruction.

The machine reads the trace once, from front to back. It keeps the tree so far and a stack of
activations; the innermost one is scanned until a token starts a child of it or it has ended. The
first trace point hangs under the root, behind the static initializers that ran in front of it.
Every step takes a token, ends an activation, or moves a scan on, so the machine halts
(`step_decreases`).

`reconstruct` fails when a token names no trace point, and when tokens are left over, unless part
of the trace is asked for. -/
namespace Retrace.Reconstruct
open Source Instrument Trace

structure Machine where
  rest : List Nat
  tree : Tree
  stack : List Activation
  /-- Another trace point may follow under the root. -/
  more : Bool

namespace Machine

def ofTokens (tokens : List Nat) : Machine := ⟨tokens, Tree.bare, [], true⟩

def point? (s : Setting) (id : Nat) : Except Fault TracePoint :=
  match s.points.get? id with
  | some point => .ok point
  | none => .error (.unknownTraceId id)

/-- The number of the next round of a loop: one more than there are nodes of it. -/
def round (t : Tree) (parent : Nat) (traceId : String) : UInt32 :=
  let siblings := match t.get? parent with
    | some p => p.children.filter fun c => ((t.get? c).map Node.traceId) == some traceId
    | none => #[]
  (siblings.size + 1).toUInt32

def methodName? (f : File) (point : TracePoint) : Option String :=
  if point.kind == .method || point.kind == .constructor then f.name? point.ref.node else none

def newNode (s : Setting) (t : Tree) (parent id : Nat) (point : TracePoint)
    (entrance : Entrance) : Trace.Node :=
  {Tree.childOf parent id with
    link := entrance.link?
    outLinks := entrance.landings
    outIndex := entrance.link?.map fun _ => parent
    iteration := if point.kind.isLoop then some (round t parent (toString id)) else none
    methodName := methodName? (s.file point.ref) point}

/-- Begins a trace point under a parent; its token has been taken. -/
def start (s : Setting) (m : Machine) (rest : List Nat) (parent id : Nat) (point : TracePoint)
    (entrance : Entrance) : Machine :=
  let index := m.tree.size
  {m with
    rest := rest
    tree := m.tree.push parent (newNode s m.tree parent id point entrance)
    stack := Activation.start (s.file point.ref) index point entrance :: m.stack}

/-- The next trace point under the root. -/
def startRoot (s : Setting) (m : Machine) : Except Fault (Option Machine) :=
  match m.more, m.rest with
  | true, id :: rest => do
    let point ← point? s id
    return some {start s m rest 0 id point .root with
      more := point.kind == .staticInitializer}
  | _, _ => .ok none

/-- Ends the innermost activation `a` on top of `below`. -/
def close (s : Setting) (m : Machine) (a : Activation) (below : List Activation) : Machine :=
  let a := a.finish s
  let tree := m.tree.modify a.index fun n => {n with ranges := a.ranges}
  match below with
  | [] => {m with tree := tree, stack := []}
  | b :: below => {m with tree := tree, stack := b.resume a.entrance :: below}

/-- Looks at the next token on behalf of the innermost activation. -/
def ask (s : Setting) (m : Machine) (a : Activation) (below : List Activation) :
    Except Fault Machine :=
  match m.rest with
  | [] => .ok {m with stack := {a with cursor := .exhausted} :: below}
  | id :: rest => do
    let point ← point? s id
    match a.enter? s point with
    | some (entrance, b) =>
      return start s {m with stack := {b with cursor := .unset} :: below} rest b.index id point
        entrance
    | none => return {m with stack := {a with cursor := .exhausted} :: below}

def step (s : Setting) (m : Machine) : Except Fault (Option Machine) :=
  match m.stack with
  | [] => startRoot s m
  | a :: below =>
    match a.scan.step a.cursor with
    | .done => .ok (some (close s m a below))
    | .go scan own =>
      .ok (some {m with stack := ({a with scan := scan}).addOwn own :: below})
    | .ask scan => (ask s m {a with scan := scan} below).map some

/-! ### The machine halts -/

def topWeight (m : Machine) : Nat × Nat :=
  match m.stack with
  | [] => (0, 0)
  | a :: _ => (Scan.rank a.cursor, a.scan.weight)

/-- Tokens left, activations, and what the innermost one has still to scan. -/
def measure (m : Machine) : Nat × Nat × Nat × Nat :=
  (m.rest.length, m.stack.length, m.topWeight)

def Less : Nat × Nat × Nat × Nat → Nat × Nat × Nat × Nat → Prop :=
  Prod.Lex (· < ·) (Prod.Lex (· < ·) (Prod.Lex (· < ·) (· < ·)))

theorem scan_addOwn (a : Activation) (r : Option Range) :
    (a.addOwn r).scan = a.scan ∧ (a.addOwn r).cursor = a.cursor := by
  unfold Activation.addOwn
  split
  · unfold Activation.addRange
    split
    · exact ⟨rfl, rfl⟩
    · split <;> exact ⟨rfl, rfl⟩
  · exact ⟨rfl, rfl⟩

theorem close_decreases (s : Setting) (m : Machine) (a : Activation) (below : List Activation)
    (h : m.stack = a :: below) : Less (close s m a below).measure m.measure := by
  unfold close measure
  rw [h]
  cases below <;> exact .right _ (.left _ _ (by simp))

theorem ask_decreases {s : Setting} {m n : Machine} {a : Activation} {scan : Scan}
    {below : List Activation} (h : m.stack = a :: below) (ha : a.scan.step a.cursor = .ask scan)
    (hn : ask s m {a with scan := scan} below = .ok n) : Less n.measure m.measure := by
  have hrank := Scan.rank_pos_of_ask ha
  unfold ask at hn
  split at hn
  · cases hn
    unfold measure topWeight
    rw [h]
    exact .right _ (.right _ (.left _ _ hrank))
  · rename_i id rest hrest
    cases hp : point? s id with
    | error e => rw [hp] at hn; cases hn
    | ok point =>
      rw [hp] at hn
      simp only [bind, Except.bind] at hn
      split at hn
      · cases hn
        unfold measure
        exact .left _ _ (by simp [start, hrest])
      · cases hn
        unfold measure topWeight
        rw [h]
        exact .right _ (.right _ (.left _ _ hrank))

theorem step_decreases {s : Setting} {m n : Machine} (hn : step s m = .ok (some n)) :
    Less n.measure m.measure := by
  unfold step at hn
  split at hn
  · unfold startRoot at hn
    split at hn
    · rename_i id rest _ hrest
      cases hp : point? s id with
      | error e => rw [hp] at hn; cases hn
      | ok point =>
        rw [hp] at hn
        cases hn
        exact .left _ _ (by simp [start, hrest])
    · cases hn
  · rename_i a below h
    split at hn
    · cases hn
      exact close_decreases s m a below h
    · rename_i scan own hgo
      cases hn
      have hw := Scan.weight_lt_of_go hgo
      unfold measure topWeight
      rw [h]
      simp only [(scan_addOwn _ _).1, (scan_addOwn _ _).2]
      exact .right _ (.right _ (.right _ hw))
    · rename_i scan ha
      cases hask : ask s m {a with scan := scan} below with
      | error e => rw [hask] at hn; cases hn
      | ok k =>
        rw [hask] at hn
        cases hn
        exact ask_decreases h ha hask

/-- Steps until nothing is left to do. -/
def run (s : Setting) (m : Machine) : Except Fault Machine :=
  match _h : step s m with
  | .error f => .error f
  | .ok none => .ok m
  | .ok (some n) => run s n
termination_by m.measure
decreasing_by exact step_decreases ‹step s m = .ok (some n)›

end Machine

structure Reconstruction where
  tree : Tree
  unconsumed : Nat
  deriving DecidableEq, Repr

def reconstruct (s : Setting) (allowPartial : Bool) (stream : Stream) :
    Except Fault Reconstruction := do
  let m ← Machine.run s (Machine.ofTokens stream.rest)
  let remaining := m.rest.length
  if remaining ≠ 0 ∧ !allowPartial then .error (.incompleteTrace remaining stream.size)
  else return ⟨m.tree, remaining⟩

end Retrace.Reconstruct
