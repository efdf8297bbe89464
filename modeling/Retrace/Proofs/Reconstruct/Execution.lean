import Mathlib.Logic.Relation
import Retrace.Proofs.Trace.Shape
import Retrace.Reconstruct.Machine

/-! What a structured program executes.

`Runs` says what the code of a project can run, statement by statement: the methods that it calls,
in the order of evaluation, at most one branch of an `if`, the blocks, and the rounds of the loops
with the calls of their conditions between them. A `Run` has a trace (`Run.trace`), the ids of the
trace points in the order in which they begin, and a tree (`Run.hang`), which a reconstruction of
the trace is to give.

`Structured` says which projects run this way: nothing in them is evaluated at another time than
its statement, the headers of branches and loops call methods in their conditions only, and no
method comes to call itself. Operators that leave out an operand, such as `&&`, need no rule of
their own: a run evaluates every call of a statement. -/
namespace Retrace.Reconstruct
open Java (Form)
open Source Instrument Trace

/-! ### Calls -/

def declaredNames (p : Project) : List String :=
  p.fileList.flatMap fun f => f.numbersOf.filterMap fun i =>
    if f.form i == .methodDeclaration then f.name? i else none

/-- The node calls a method of the project. -/
def callsMethod (p : Project) (f : File) (i : Nat) : Bool :=
  (calledName? f i).any fun name => (declaredNames p).contains name

/-- What is evaluated with a node, outside of blocks: its operands, from left to right, and then
the node itself. -/
def evaluated (f : File) (i : Nat) : List Nat :=
  if f.form i == .block || f.form i == .classBody then []
  else
    (f.children i).flatMap (fun c => if i < c ∧ c < f.nodes.size then evaluated f c else []) ++ [i]
termination_by f.nodes.size - i
decreasing_by omega

def callsIn (p : Project) (f : File) (i : Nat) : List Nat :=
  (evaluated f i).filter (callsMethod p f)

/-- The calls in the condition of a branch or a loop. -/
def headerCalls (p : Project) (f : File) (i : Nat) : List Nat :=
  (f.child? i .condition).toList.flatMap (callsIn p f)

/-! ### Runs -/

/-- A run of a trace point: its id, the call that it comes from, if any, and what runs in it. -/
inductive Run
  | node (id : Nat) (call : Option Nat) (parts : List Run)

mutual

/-- The ids of the trace points that begin, one after the other. -/
def Run.trace : Run → List Nat
  | .node id _ parts => id :: traceAll parts

def traceAll : List Run → List Nat
  | [] => []
  | r :: rs => r.trace ++ traceAll rs

end

/-- The number of nodes of a trace point that a node lists. -/
def siblings (t : Tree) (parent id : Nat) : Nat :=
  (t.children parent).countP fun c => t.traceId? c == some (toString id)

/-- The node of a run under a parent. A method is linked to the call in the parent's file `f`, and
a round of a loop is numbered. -/
def runNode (s : Setting) (f : File) (t : Tree) (parent id : Nat) (call : Option Nat)
    (point : TracePoint) : Trace.Node where
  parentIndex := some parent
  traceId := toString id
  link := call.map fun x => ⟨f.range x, f.path⟩
  outLinks := (call.bind fun _ => Activation.landing? s point.ref).toList
  outIndex := call.map fun _ => parent
  iteration := if point.kind.isLoop then some (siblings t parent id + 1).toUInt32 else none
  methodName := if point.kind == .method then (s.file point.ref).name? point.ref.node else none

mutual

/-- Hangs the nodes of a run into a tree, below the node `parent` that runs code of the file `f`. -/
def Run.hang (s : Setting) (f : File) (parent : Nat) (t : Tree) : Run → Tree
  | .node id call parts =>
    match s.points.get? id with
    | some point =>
      hangAll s (s.file point.ref) t.size (t.push parent (runNode s f t parent id call point)) parts
    | none => t

def hangAll (s : Setting) (f : File) (parent : Nat) (t : Tree) : List Run → Tree
  | [] => t
  | r :: rs => hangAll s f parent (r.hang s f parent t) rs

end

/-- The tree of a run that no call has started. -/
def Run.tree (s : Setting) (r : Run) : Tree := r.hang s default 0 Tree.bare

/-! ### What can be run -/

/-- A part of the code of a file, which is given by its number. -/
inductive Code
  | statements (n : Nat) (is : List Nat)
  | statement (n i : Nat)
  /-- The rounds of a loop that are still to come. -/
  | rounds (n i : Nat)
  /-- One round of a loop and what is evaluated behind it. -/
  | round (n i : Nat)
  | calls (n : Nat) (xs : List Nat)

/-- The statements that a trace point runs itself. -/
def scopeOf (p : Project) (point : TracePoint) : List Nat :=
  scopeStatements (p.file point.ref.file) point.ref.node point.kind

def Code.of (p : Project) (point : TracePoint) : Code :=
  .statements point.ref.file (scopeOf p point)

/-- The statements that only evaluate expressions. -/
def isSimple : Form → Bool
  | .localVariableDeclaration => true
  | .expressionStatement => true
  | .returnStatement => true
  | _ => false

/-- The loops whose condition, if they have one, is evaluated before the first round. -/
def testsFirst : Form → Bool
  | .whileStatement => true
  | .forStatement => true
  | .enhancedForStatement => true
  | _ => false

/-- What a part of the code of a project can run. -/
inductive Runs (s : Setting) : Code → List Run → Prop
  | nothing (n : Nat) : Runs s (.statements n []) []
  | next {n i : Nat} {is : List Nat} {xs ys : List Run} :
    Runs s (.statement n i) xs → Runs s (.statements n is) ys →
    Runs s (.statements n (i :: is)) (xs ++ ys)
  | simple {n i : Nat} {xs : List Run} : isSimple ((s.project.file n).form i) = true →
    Runs s (.calls n (callsIn s.project (s.project.file n) i)) xs → Runs s (.statement n i) xs
  | block {n i id : Nat} {xs : List Run} : s.points.get? id = some ⟨⟨n, i⟩, .block⟩ →
    Runs s (.of s.project ⟨⟨n, i⟩, .block⟩) xs → Runs s (.statement n i) [.node id none xs]
  | skip {n i : Nat} {xs : List Run} : (s.project.file n).form i = .ifStatement →
    Runs s (.calls n (headerCalls s.project (s.project.file n) i)) xs → Runs s (.statement n i) xs
  | branch {n i b id : Nat} {xs ys : List Run} : (s.project.file n).form i = .ifStatement →
    b ∈ (s.project.file n).children i → s.points.get? id = some ⟨⟨n, b⟩, .branch⟩ →
    Runs s (.calls n (headerCalls s.project (s.project.file n) i)) xs →
    Runs s (.of s.project ⟨⟨n, b⟩, .branch⟩) ys → Runs s (.statement n i) (xs ++ [.node id none ys])
  | loop {n i : Nat} {xs ys : List Run} : testsFirst ((s.project.file n).form i) = true →
    Runs s (.calls n (headerCalls s.project (s.project.file n) i)) xs → Runs s (.rounds n i) ys →
    Runs s (.statement n i) (xs ++ ys)
  | doLoop {n i : Nat} {xs ys : List Run} : (s.project.file n).form i = .doStatement →
    Runs s (.round n i) xs → Runs s (.rounds n i) ys → Runs s (.statement n i) (xs ++ ys)
  | leave (n i : Nat) : Runs s (.rounds n i) []
  | again {n i : Nat} {xs ys : List Run} : Runs s (.round n i) xs → Runs s (.rounds n i) ys →
    Runs s (.rounds n i) (xs ++ ys)
  | round {n i id : Nat} {kind : PointKind} {xs ys : List Run} :
    s.points.get? id = some ⟨⟨n, i⟩, kind⟩ → kind.isLoop = true →
    Runs s (.of s.project ⟨⟨n, i⟩, kind⟩) xs →
    Runs s (.calls n (headerCalls s.project (s.project.file n) i)) ys →
    Runs s (.round n i) (.node id none xs :: ys)
  | returned (n : Nat) : Runs s (.calls n []) []
  | call {n x id : Nat} {point : TracePoint} {xs : List Nat} {ys zs : List Run} :
    s.points.get? id = some point → point.kind = .method →
    (s.file point.ref).name? point.ref.node = calledName? (s.project.file n) x →
    Runs s (.of s.project point) ys → Runs s (.calls n xs) zs →
    Runs s (.calls n (x :: xs)) (.node id (some x) ys :: zs)

/-- A method runs that no call in the project has started. -/
inductive Execution (s : Setting) : Run → Prop
  | method {id : Nat} {point : TracePoint} {xs : List Run} :
    s.points.get? id = some point → point.kind = .method → Runs s (.of s.project point) xs →
    Execution s (.node id none xs)

/-! ### Structured projects -/

/-- Nothing of this form runs code at another time, creates an object or names a method that is
called elsewhere. -/
def isImmediate : Form → Bool
  | .lambdaExpression => false
  | .methodReference => false
  | .objectCreationExpression => false
  | _ => true

/-- The forms of branches and loops. -/
def hasHeader : Form → Bool
  | .ifStatement => true
  | .doStatement => true
  | form => testsFirst form

/-- The method declared at `m` calls one of the name of that at `k`. -/
def Calls (p : Project) (m k : Ref) : Prop :=
  (p.file m.file).form m.node = .methodDeclaration ∧
    (p.file k.file).form k.node = .methodDeclaration ∧
    ∃ x name, m.node ∈ x :: (p.file m.file).ancestors x ∧
      calledName? (p.file m.file) x = some name ∧ (p.file k.file).name? k.node = some name

structure Structured (p : Project) : Prop where
  immediate : ∀ f ∈ p.fileList, ∀ i ∈ f.numbersOf, isImmediate (f.form i) = true
  /-- Outside of their blocks, branches and loops call methods in their conditions only. -/
  headers : ∀ f ∈ p.fileList, ∀ i ∈ f.numbersOf, hasHeader (f.form i) = true →
    callsIn p f i = headerCalls p f i
  /-- No method stands inside of another, as those of local classes do. -/
  flat : ∀ f ∈ p.fileList, ∀ i ∈ f.numbersOf, f.form i = .methodDeclaration →
    ∀ j ∈ f.ancestors i, f.form j ≠ .methodDeclaration
  acyclic : ∀ m, ¬Relation.TransGen (Calls p) m m

end Retrace.Reconstruct
