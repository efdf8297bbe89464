import Retrace.Instrument.TracePoint

/-! Scopes and sites.

The scope of a trace point is the list of statements that it runs itself. The sites of a scope are
the calls, method references and object creations in it, in the order in which they are evaluated.
Code of nested blocks and classes belongs to other trace points. What stands in a lambda or in an
anonymous class is deferred: it may run whenever the lambda or the object is used. -/
namespace Retrace.Reconstruct
open Java Source Instrument

/-! ### Scopes -/

def scopeBody? (f : File) (i : Nat) (kind : PointKind) : Option Nat := probeBlock? f i kind

/-- The call of another constructor has run before the constructor reports. -/
def scopeStatements (f : File) (i : Nat) (kind : PointKind) : List Nat :=
  match scopeBody? f i kind with
  | some body => (f.children body).filter fun c => f.form c != .explicitConstructorInvocation
  | none => []

/-- The parts of a statement that are evaluated in front of its body. -/
def guardRanges (f : File) (i : Nat) : List Range :=
  match f.form i with
  | .ifStatement => condition
  | .whileStatement => condition
  | .doStatement => condition
  | .forStatement => (f.childrenUnder i .init ++ (f.child? i .condition).toList).map f.range
  | .enhancedForStatement => loopVariable ++ ((f.child? i .value).map f.range).toList
  | _ => []
where
  condition := ((f.child? i .condition).map fun c => f.range (f.unparenthesized c)).toList
  loopVariable :=
    match f.child? i .type, f.child? i .name with
    | some t, some n => [Range.spanning (f.range t) (f.range n)]
    | _, _ => []

/-! ### Sites -/

structure Site where
  node : Nat
  deferred : Bool
  deriving DecidableEq, Repr

def isAnonymousBody (f : File) (i : Nat) : Bool :=
  f.form i == .classBody && (f.parent? i).any fun p => f.form p == .objectCreationExpression

def isSite : Form → Bool
  | .methodInvocation => true
  | .methodReference => true
  | .objectCreationExpression => true
  | _ => false

/-- The sites of a node, those of its children first. -/
def sitesWithin (f : File) (deferred : Bool) (i : Nat) : List Site :=
  let form := f.form i
  let later := deferred || form == .lambdaExpression || isAnonymousBody f i
  if !later && (form == .block || form == .classBody) then []
  else
    (f.children i).flatMap (fun c =>
      if i < c ∧ c < f.nodes.size then sitesWithin f later c else []) ++
      if isSite form then [⟨i, later⟩] else []
termination_by f.nodes.size - i
decreasing_by omega

def scopeSites (f : File) (i : Nat) (kind : PointKind) : List Site :=
  (scopeStatements f i kind).flatMap (sitesWithin f false)

/-- The name of the method that a call or a method reference is to run. -/
def calledName? (f : File) (i : Nat) : Option String :=
  match f.form i with
  | .methodInvocation => f.name? i
  | .methodReference =>
    (((f.children i).filter fun c => f.form c == .identifier).getLast?).bind f.word?
  | _ => none

/-- The site to be bound next: the first that has not been bound, or else the first deferred one,
which may run any number of times. -/
def pickSite? (f : File) (consumed : List Range) (sites : List Site) (wanted : Nat → Bool) :
    Option Site :=
  let candidates := sites.filter fun s => wanted s.node
  (candidates.find? fun s => !consumed.contains (f.range s.node)).or
    (candidates.find? fun s => s.deferred)

end Retrace.Reconstruct
