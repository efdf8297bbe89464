import Retrace.Json.Printer
import Retrace.Json.Shape
import Retrace.Limit
import Retrace.Source.Project
import Retrace.Table

/-! Declared variables.

The index knows for each simple file name and line the names of the variables that are declared
there, in the order of the files and of their texts. Variables are those of declarators and of
`for` loops over a collection. The index is written as an object of files, each an object of
lines, and `DeclarationIndex.ofOutline` reads it back. -/
namespace Retrace.Symbolic
open Source

structure Declaration where
  line : UInt32
  name : String
  deriving DecidableEq, Repr

def declaredName? (f : File) (i : Nat) : Option Nat :=
  match f.form i with
  | .variableDeclarator => f.nameNode? i
  | .enhancedForStatement => f.nameNode? i
  | _ => none

def declaration? (f : File) (i : Nat) : Option Declaration :=
  (declaredName? f i).bind fun n => (f.word? n).map fun w => ⟨(f.range n).beginLine, w⟩

def declarations (f : File) : List Declaration := f.numbersOf.filterMap (declaration? f)

abbrev Lines := Table UInt32 (List String)

structure DeclarationIndex where
  files : Table String Lines
  deriving DecidableEq, Repr, Inhabited

namespace DeclarationIndex

def empty : DeclarationIndex := ⟨Table.empty⟩

/-- One more name on a line. -/
def Lines.record (lines : Lines) (line : UInt32) (name : String) : Lines :=
  lines.alter line fun names => names.getD [] ++ [name]

def record (d : DeclarationIndex) (file : String) (line : UInt32) (name : String) :
    DeclarationIndex :=
  ⟨d.files.alter file fun lines => Lines.record (lines.getD Table.empty) line name⟩

def recordFile (d : DeclarationIndex) (f : File) : DeclarationIndex :=
  (declarations f).foldl (fun d x => d.record f.simpleName x.line x.name) d

def ofProject (p : Project) : DeclarationIndex := p.fileList.foldl recordFile empty

def names (d : DeclarationIndex) (file : String) (line : UInt32) : List String :=
  ((d.files.get? file).bind fun lines => lines.get? line).getD []

def first? (d : DeclarationIndex) (file : String) (line : UInt32) : Option String :=
  (d.names file line).head?

def linesRecord (lines : Lines) : Json.Value :=
  .object (lines.entries.map fun e => (toString e.1, .array (e.2.map .string)))

def toValue (d : DeclarationIndex) : Json.Value :=
  .object (d.files.entries.map fun e => (e.1, linesRecord e.2))

/-- A line as the name of a member: a number and nothing else. -/
def lineOf (name : String) : Except JsonFault UInt32 := do
  let cs := name.toList
  if !(cs.head?.any fun c => c.isDigit || c == '-') then .error .malformed
  else
    let (n, rest) ← Json.Numeral.scan cs
    match n.value? with
    | none => .error .malformed
    | some (.whole k) =>
      if k < 0 ∨ Limit.word ≤ k then .error .shape
      else if rest.isEmpty then return k.toNat.toUInt32
      else .error .malformed
    | some (.double _) => .error .shape

def takeLine (name : String) (v : Json.Outline) (lines : Lines) :
    Except JsonFault Lines := do
  let line ← lineOf name
  return lines.put line (← Json.Shape.list Json.Shape.string v)

def linesOfOutline : Json.Outline → Except JsonFault Lines
  | .object members => Json.Shape.fold takeLine Table.empty members
  | v => .error (Json.Shape.mismatch v)

def takeFile (name : String) (v : Json.Outline) (files : Table String Lines) :
    Except JsonFault (Table String Lines) :=
  (linesOfOutline v).map (files.put name)

def ofOutline : Json.Outline → Except JsonFault DeclarationIndex
  | .object members => (Json.Shape.fold takeFile Table.empty members).map .mk
  | v => .error (Json.Shape.mismatch v)

def fileCount (d : DeclarationIndex) : Nat := d.files.size

def isEmpty (d : DeclarationIndex) : Bool := d.files.isEmpty

end DeclarationIndex

end Retrace.Symbolic
