import Retrace.Source.Project

/-! Trace points.

A trace point is a stretch of code that reports when it begins to run: the body of a method, a
constructor or an initializer, a block, a branch or a round of a loop. `kind?` says which nodes of
a file are trace points and of which kind. Code that runs at a time of its own is left out: lambda
bodies, anonymous classes, and the constructors and initializers of what is not a class. -/
namespace Retrace.Instrument
open Java Source

inductive PointKind
  | method
  | constructor
  | initializer
  | staticInitializer
  | block
  | branch
  | forLoop
  | forEachLoop
  | whileLoop
  | doWhileLoop
  deriving DecidableEq, Repr, Inhabited

/-- What the start of a trace point is matched with: a call, an object creation, nothing at all
for the loading of a class, or the place of the code inside of what is running. -/
inductive Binding
  | callSite
  | creationSite
  | classInit
  | nested
  deriving DecidableEq, Repr

namespace PointKind

def name : PointKind → String
  | method => "method"
  | constructor => "constructor"
  | initializer => "initializer"
  | staticInitializer => "static-initializer"
  | block => "block"
  | branch => "branch"
  | forLoop => "for"
  | forEachLoop => "for-each"
  | whileLoop => "while"
  | doWhileLoop => "do-while"

/-- The rounds of a loop are counted. -/
def isLoop : PointKind → Bool
  | forLoop => true
  | forEachLoop => true
  | whileLoop => true
  | doWhileLoop => true
  | _ => false

def binding : PointKind → Binding
  | method => .callSite
  | constructor => .creationSite
  | initializer => .creationSite
  | staticInitializer => .classInit
  | _ => .nested

def ofLoop? : Form → Option PointKind
  | .forStatement => some forLoop
  | .enhancedForStatement => some forEachLoop
  | .whileStatement => some whileLoop
  | .doStatement => some doWhileLoop
  | _ => none

end PointKind

def Binding.name : Binding → String
  | callSite => "CallSite"
  | creationSite => "CreationSite"
  | classInit => "ClassInit"
  | nested => "Nested"

structure TracePoint where
  ref : Ref
  kind : PointKind
  deriving DecidableEq, Repr, Inhabited

/-! ### Which nodes are trace points -/

/-- The class declaration in whose body a member stands directly. -/
def declaringClass? (f : File) (i : Nat) : Option Nat :=
  match f.parent? i with
  | some body =>
    if f.form body == .classBody then
      (f.parent? body).filter fun c => f.form c == .classDeclaration
    else none
  | none => none

/-- The node itself keeps what is inside of it from being traced. -/
def isUntraced (f : File) (i : Nat) : Bool :=
  let parent := (f.parent? i).map f.form
  match f.form i with
  | .lambdaExpression => true
  | .classBody => parent == some .objectCreationExpression
  | .constructorDeclaration => (declaringClass? f i).isNone
  | .block =>
    (parent == some .classBody && (declaringClass? f i).isNone) ||
      parent == some .enumBodyDeclarations || parent == some .compactConstructorDeclaration
  | _ => false

def inUntraced (f : File) (i : Nat) : Bool :=
  (i :: f.ancestors i).any (isUntraced f)

def blockBody? (f : File) (i : Nat) : Option Nat :=
  (f.child? i .body).filter fun b => f.form b == .block

def blockChild? (f : File) (i : Nat) : Option Nat :=
  (f.children i).find? fun c => f.form c == .block

/-- Blocks are trace points unless they are the body of one. -/
def blockKind? (f : File) (i : Nat) : Option PointKind :=
  match f.parent? i with
  | none => none
  | some p =>
    let form := f.form p
    let slot := f.slot? i
    if form == .methodDeclaration && slot == some .body then none
    else if form == .staticInitializer then none
    else if form == .classBody then some .initializer
    else if form.isLoop && slot == some .body then none
    else if form == .ifStatement && (slot == some .consequence || slot == some .alternative) then
      some .branch
    else some .block

def kind? (f : File) (i : Nat) : Option PointKind :=
  match f.form i with
  | .methodDeclaration => (blockBody? f i).map fun _ => .method
  | .constructorDeclaration => (f.child? i .body).map fun _ => .constructor
  | .staticInitializer => (blockChild? f i).map fun _ => .staticInitializer
  | .block => blockKind? f i
  | form => (PointKind.ofLoop? form).bind fun k => (blockBody? f i).map fun _ => k

/-- The block at whose start the probe stands. -/
def probeBlock? (f : File) (i : Nat) (kind : PointKind) : Option Nat :=
  match kind with
  | .block => some i
  | .branch => some i
  | .initializer => some i
  | .staticInitializer => blockChild? f i
  | _ => f.child? i .body

/-- A constructor that begins by calling another one reports behind that call. -/
def delegation? (f : File) (i : Nat) (kind : PointKind) : Option Nat :=
  if kind == .constructor then
    (f.child? i .body).bind fun body =>
      (f.children body).find? fun c => f.form c == .explicitConstructorInvocation
  else none

/-- Where the probe goes: behind the opening brace or behind the call of another constructor. -/
def probeOffset? (f : File) (i : Nat) (kind : PointKind) : Option Nat :=
  match delegation? f i kind with
  | some call => some (f.node call).stop
  | none => (probeBlock? f i kind).map fun b => (f.node b).start + 1

/-! ### Numbering -/

/-- A trace point of a file and the offset of its probe. -/
structure Placement where
  node : Nat
  kind : PointKind
  offset : Nat
  deriving DecidableEq, Repr

def placement? (f : File) (i : Nat) : Option Placement :=
  if inUntraced f i then none
  else
    (kind? f i).bind fun kind => (probeOffset? f i kind).map fun offset => ⟨i, kind, offset⟩

def placements (f : File) : List Placement := f.numbersOf.filterMap (placement? f)

/-- The trace points of a project. Trace ids count them from one, in the order of the files and,
inside of a file, of the text. -/
structure PointMap where
  points : Array TracePoint
  deriving DecidableEq, Repr, Inhabited

namespace PointMap

def ofProject (p : Project) : PointMap :=
  ⟨(p.numbered.flatMap fun (n, f) =>
    (placements f).map fun x => ⟨⟨n, x.node⟩, x.kind⟩).toArray⟩

def get? (m : PointMap) (id : Nat) : Option TracePoint :=
  if id = 0 then none else m.points[id - 1]?

def size (m : PointMap) : Nat := m.points.size

/-- The points with their ids. -/
def entries (m : PointMap) : List (Nat × TracePoint) :=
  m.points.toList.zipIdx.map fun (t, i) => (i + 1, t)

end PointMap

end Retrace.Instrument
