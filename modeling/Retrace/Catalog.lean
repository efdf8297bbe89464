import Retrace.Source.Project
import Retrace.Source.Record

/-! The methods of a project.

`Catalog.methods` lists every method declaration in the order of the files and of their texts. -/
namespace Retrace.Catalog
open Source

structure Method where
  name : String
  range : Range
  file : String
  deriving DecidableEq, Repr

def method? (f : File) (i : Nat) : Option Method :=
  if f.form i == .methodDeclaration then (f.name? i).map fun name => ⟨name, f.range i, f.path⟩
  else none

def Method.toValue (m : Method) : Json.Value :=
  .object [("methodName", .string m.name), ("range", m.range.toValue), ("file", .string m.file)]

def methods (p : Project) : List Method :=
  p.fileList.flatMap fun f => f.numbersOf.filterMap (method? f)

end Retrace.Catalog
