import Retrace.Reconstruct.Classes
import Retrace.Reconstruct.Scan
import Retrace.Trace.Tree

/-! Activations.

An activation is one run of a trace point. It knows the sites that have been bound, the ranges
that its children take up, and the ranges that are its own, which lie apart from those of the
children. `Activation.enter?` says whether the trace point of the next token can be a child of an
activation, and in what way:

* a method is bound to a call of its name in the scope, or else to one that the creation of an
  object in the scope evaluates;
* a constructor or an initializer is bound to a creation of an object whose ancestry has its
  class, and takes part in the chain of constructors that the creation runs;
* a static initializer may run at any time;
* anything else, and a method or constructor that no site fits, has to lie inside of the
  activation's own code. -/
namespace Retrace.Reconstruct
open Java Source Instrument Trace

/-- How a child was entered. -/
inductive Entrance
  | root
  /-- By way of a site. The marker is the site's range if it lies in the code of the parent. -/
  | site (link : Link) (landing : Option Link) (marker : Option Range)
  /-- Inside of the parent's code. The header is the range of a whole loop statement. -/
  | nested (extent : Range) (header : Option Range)
  | detached
  deriving DecidableEq, Repr

namespace Entrance

def link? : Entrance → Option Link
  | site link _ _ => some link
  | _ => none

def landings : Entrance → List Link
  | site _ landing _ => landing.toList
  | _ => []

def marker? : Entrance → Option Range
  | site _ _ marker => marker
  | nested extent _ => some extent
  | _ => none

def header? : Entrance → Option Range
  | nested _ header => header
  | _ => none

end Entrance

structure Activation where
  index : Nat
  point : TracePoint
  entrance : Entrance
  sites : List Site
  cursor : Cursor
  scan : Scan
  /-- The ranges of the sites that have been bound. -/
  consumed : List Range
  /-- The ranges that children take up. -/
  markers : List Range
  ranges : List Range
  /-- A creation whose chain of constructors has begun and not ended. -/
  openCreation : Option Nat
  lastCreation : Option Nat

namespace Activation

def piece (f : File) (i : Nat) : Piece := ⟨f.range i, guardRanges f i⟩

def start (f : File) (index : Nat) (point : TracePoint) (entrance : Entrance) : Activation where
  index := index
  point := point
  entrance := entrance
  sites := scopeSites f point.ref.node point.kind
  cursor := .unset
  scan := Scan.ofPieces ((scopeStatements f point.ref.node point.kind).map (piece f))
  consumed := []
  markers := []
  ranges := []
  openCreation := none
  lastCreation := none

def fileOf (s : Setting) (a : Activation) : File := s.file a.point.ref

/-! ### Own ranges -/

/-- Own ranges keep clear of children and of one another. -/
def addRange (a : Activation) (r : Range) : Activation :=
  if a.markers.any r.contains then a
  else if a.ranges.any fun q => q.contains r then a
  else {a with ranges := a.ranges.filter (fun q => !r.contains q) ++ [r]}

def addOwn (a : Activation) : Option Range → Activation
  | some r => a.addRange r
  | none => a

def consume (a : Activation) (r : Range) : Activation :=
  if a.consumed.contains r then a else {a with consumed := r :: a.consumed}

/-! ### Methods -/

def landing? (s : Setting) (unit : Ref) : Option Link :=
  let f := s.file unit
  (f.nameNode? unit.node).map fun n => ⟨f.range n, f.path⟩

def calls (f : File) (name : String) (i : Nat) : Bool := calledName? f i == some name

/-- The creations whose classes may be evaluating something: the one that has begun, those that
have not, and the latest. -/
def pendingCreations (s : Setting) (a : Activation) : List Nat :=
  let f := a.fileOf s
  let fresh := a.sites.filter fun x =>
    f.form x.node == .objectCreationExpression && !a.consumed.contains (f.range x.node)
  a.openCreation.toList ++ fresh.map Site.node ++ a.lastCreation.toList

def setupCallIn? (f : File) (name : String) (expression : Nat) : Option Nat :=
  ((sitesWithin f false expression).find? fun x => calls f name x.node).map Site.node

def setupCallOf? (s : Setting) (name : String) (c : Ref) : Option Ref :=
  let f := s.file c
  ((setupExpressions f c.node).findSome? (setupCallIn? f name)).map fun i => ⟨c.file, i⟩

/-- A call of a name that the creation of an object evaluates. -/
def setupCall? (s : Setting) (a : Activation) (name : String) : Option Ref :=
  (pendingCreations s a).findSome? fun creation =>
    (createdType? (a.fileOf s) creation).bind fun created =>
      (s.ancestry created).findSome? (setupCallOf? s name)

def enterSetupCall (s : Setting) (a : Activation) (unit call : Ref) : Entrance :=
  let f := s.file call
  let r := f.range call.node
  let inside := call.file == a.point.ref.file && (f.range a.point.ref.node).contains r
  .site ⟨r, f.path⟩ (landing? s unit) (if inside then some r else none)

def enterMethod? (s : Setting) (a : Activation) (unit : Ref) : Option (Entrance × Activation) :=
  ((s.file unit).name? unit.node).bind fun name =>
    let f := a.fileOf s
    match pickSite? f a.consumed a.sites (calls f name) with
    | some site =>
      let r := f.range site.node
      some (.site ⟨r, f.path⟩ (landing? s unit) (some r), a.consume r)
    | none => (setupCall? s a name).map fun call => (enterSetupCall s a unit call, a)

/-! ### Constructors and initializers -/

def creates (s : Setting) (f : File) (c : Ref) (creation : Nat) : Bool :=
  match createdType? f creation with
  | some created => (s.ancestry created).contains c
  | none => false

/-- The creation that runs a constructor or initializer of a class: the one that has begun, a
fresh one, or the latest. A fresh one is bound. -/
def creationFor? (s : Setting) (a : Activation) (c : Ref) : Option (Nat × Activation) :=
  let f := a.fileOf s
  match a.openCreation.filter (creates s f c) with
  | some creation => some (creation, a)
  | none =>
    let wanted (i : Nat) := f.form i == .objectCreationExpression && creates s f c i
    match pickSite? f a.consumed a.sites wanted with
    | some site => some (site.node, a.consume (f.range site.node))
    | none => (a.lastCreation.filter (creates s f c)).map fun creation => (creation, a)

/-- The chain of constructors ends with the last step of the nearest class that has setup code of
its own. -/
def completesChain (s : Setting) (f : File) (creation : Nat) (unit c : Ref)
    (className created : String) : Bool :=
  let g := s.file unit
  let innermost :=
    (s.ancestry created).find? (fun k => runsSetupCode (s.file k) k.node) == some c
  let lastStep :=
    if g.form unit.node == .constructorDeclaration then
      className ≠ created || arityMatches g unit.node f creation
    else !declaresConstructor g c.node && lastInitializer? g c.node == some unit.node
  innermost && lastStep

def enterCreation? (s : Setting) (a : Activation) (unit : Ref) : Option (Entrance × Activation) :=
  let g := s.file unit
  (declaringClass? g unit.node).bind fun i =>
    let c : Ref := ⟨unit.file, i⟩
    (g.name? i).bind fun className =>
      (creationFor? s a c).bind fun (creation, a) =>
        let f := a.fileOf s
        (createdType? f creation).map fun created =>
          let completes := completesChain s f creation unit c className created
          let r := f.range creation
          (.site ⟨r, f.path⟩ (landing? s unit) (some r),
            {a with
              lastCreation := some creation
              openCreation := if completes then none else some creation})

/-! ### Nested code -/

def enterNested? (s : Setting) (a : Activation) (point : TracePoint) : Option Entrance :=
  let f := a.fileOf s
  let unit := f.range point.ref.node
  if point.ref.file == a.point.ref.file && (f.range a.point.ref.node).strictlyContains unit then
    some (if point.kind.isLoop then
      .nested (f.range ((f.child? point.ref.node .body).getD point.ref.node)) (some unit)
    else .nested unit none)
  else none

/-- How the trace point of the next token is entered, and the activation that it is entered from,
with what has been bound. -/
def enter? (s : Setting) (a : Activation) (point : TracePoint) : Option (Entrance × Activation) :=
  let bound := match point.kind.binding with
    | .callSite => enterMethod? s a point.ref
    | .creationSite => enterCreation? s a point.ref
    | .classInit => some (.detached, a)
    | .nested => none
  bound.or ((enterNested? s a point).map fun entrance => (entrance, a))

/-! ### The end of a child -/

/-- The calls in the header of a loop run again in the next round. -/
def releaseHeader (a : Activation) : Option Range → Activation
  | some header => {a with consumed := a.consumed.filter fun r => !header.contains r}
  | none => a

/-- What an activation learns from a child that has ended. -/
def resume (a : Activation) (entrance : Entrance) : Activation :=
  let a := a.releaseHeader entrance.header?
  match entrance.marker? with
  | some marker => {a with markers := marker :: a.markers, cursor := .child marker}
  | none => {a with cursor := .unset}

/-- The update clauses of a `for` loop run at the end of its body. -/
def finish (s : Setting) (a : Activation) : Activation :=
  if a.point.kind == .forLoop then
    let f := a.fileOf s
    ((f.childrenUnder a.point.ref.node .update).map f.range).foldl addRange a
  else a

end Activation

end Retrace.Reconstruct
