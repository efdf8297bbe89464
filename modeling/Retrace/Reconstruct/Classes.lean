import Retrace.Reconstruct.Site
import Retrace.Text.Words

/-! The classes of a project.

Types are known by their simple names, and of several classes of one name the first counts. The
ancestry of a type is its class and the superclasses of that, as far as they belong to the
project; a hierarchy that goes round in a circle is cut off. When an object is created, the field
initializers and constructor calls of its ancestry are evaluated although no trace point holds
them. -/
namespace Retrace.Reconstruct
open Java Source Instrument

/-- `pkg.Outer.Inner<T>` is known as `Inner`. -/
def simpleTypeName (text : String) : String :=
  let base := Text.trimChars (text.toList.takeWhile (· ≠ '<'))
  String.ofList (Text.trimChars (base.reverse.takeWhile (· ≠ '.')).reverse)

def namedClass? (f : File) (i : Nat) : Option String :=
  if f.form i == .classDeclaration then f.name? i else none

def classesOf (n : Nat) (f : File) : List (String × Ref) :=
  f.numbersOf.filterMap fun i => (namedClass? f i).map fun name => (name, ⟨n, i⟩)

/-- A project with what is looked up in it. -/
structure Setting where
  project : Project
  points : PointMap
  classes : List (String × Ref)

namespace Setting

def of (project : Project) (points : PointMap) : Setting :=
  ⟨project, points, project.numbered.flatMap fun (n, f) => classesOf n f⟩

def file (s : Setting) (r : Ref) : File := s.project.file r.file

def class? (s : Setting) (name : String) : Option Ref :=
  (s.classes.find? fun c => c.1 == name).map Prod.snd

def superclassName? (s : Setting) (c : Ref) : Option String :=
  let f := s.file c
  (f.child? c.node .superclass).bind fun clause =>
    (f.children clause).head?.map fun t => simpleTypeName (f.sourceText t)

def ancestryWithin (s : Setting) : Nat → String → List Ref
  | 0, _ => []
  | limit + 1, name =>
    match s.class? name with
    | none => []
    | some c =>
      c :: match s.superclassName? c with
        | some parent => ancestryWithin s limit parent
        | none => []

/-- The class of a name and its superclasses, nearest first. -/
def ancestry (s : Setting) (name : String) : List Ref := s.ancestryWithin 64 name

end Setting

def createdType? (f : File) (i : Nat) : Option String :=
  (f.child? i .type).map fun t => simpleTypeName (f.sourceText t)

def classMembers (f : File) (i : Nat) : List Nat :=
  match f.child? i .body with
  | some body => f.children body
  | none => []

/-- The class has a constructor or an initializer of its own. -/
def runsSetupCode (f : File) (i : Nat) : Bool :=
  (classMembers f i).any fun m => f.form m == .constructorDeclaration || f.form m == .block

def declaresConstructor (f : File) (i : Nat) : Bool :=
  (classMembers f i).any fun m => f.form m == .constructorDeclaration

def lastInitializer? (f : File) (i : Nat) : Option Nat :=
  ((classMembers f i).filter fun m => f.form m == .block).getLast?

def isStatic (f : File) (i : Nat) : Bool :=
  (f.children i).any fun c =>
    f.form c == .modifiers &&
      (Text.words (f.sourceText c).toList).contains ['s', 't', 'a', 't', 'i', 'c']

/-- What a class evaluates while an object is set up, outside of any trace point. -/
def setupExpressions (f : File) (i : Nat) : List Nat :=
  (classMembers f i).flatMap fun m =>
    match f.form m with
    | .fieldDeclaration =>
      if isStatic f m then [] else (f.children m).filter fun c => f.form c == .variableDeclarator
    | .constructorDeclaration =>
      match f.child? m .body with
      | some body => (f.children body).filter fun c => f.form c == .explicitConstructorInvocation
      | none => []
    | _ => []

/-- The number of arguments of a creation fits the parameters of a constructor. -/
def arityMatches (f : File) (constructor : Nat) (g : File) (creation : Nat) : Bool :=
  let parameters := match f.child? constructor .parameters with
    | some p => f.children p
    | none => []
  let arguments := match g.child? creation .arguments with
    | some a => (g.children a).length
    | none => 0
  if parameters.any fun p => f.form p == .spreadParameter then
    parameters.length ≤ arguments + 1
  else arguments == parameters.length

end Retrace.Reconstruct
