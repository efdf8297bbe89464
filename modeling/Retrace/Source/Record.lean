import Retrace.Json.Printer
import Retrace.Json.Shape
import Retrace.Source.Range

/-! Ranges as JSON.

A range is written as an object of its four bounds. It is read from such an object, in which
members of other names do not count, or from an array of the four bounds. -/
namespace Retrace.Source.Range
open Json

def toValue (r : Range) : Value :=
  .object [
    ("beginLine", .nat r.beginLine.toNat), ("beginCol", .nat r.beginCol.toNat),
    ("endLine", .nat r.endLine.toNat), ("endCol", .nat r.endCol.toNat)]

/-- The bounds that have been read so far. -/
structure Bounds where
  beginLine : Option UInt32 := none
  beginCol : Option UInt32 := none
  endLine : Option UInt32 := none
  endCol : Option UInt32 := none
  deriving DecidableEq, Repr

namespace Bounds

def complete (b : Bounds) : Except JsonFault Range := do
  return ⟨← Shape.required b.beginLine, ← Shape.required b.beginCol,
    ← Shape.required b.endLine, ← Shape.required b.endCol⟩

/-- Takes one member; a bound may be given only once. -/
def take (name : String) (v : Outline) (b : Bounds) : Except JsonFault Bounds :=
  match name with
  | "beginLine" => do return {b with beginLine := ← Shape.once b.beginLine (Shape.word32 v)}
  | "beginCol" => do return {b with beginCol := ← Shape.once b.beginCol (Shape.word32 v)}
  | "endLine" => do return {b with endLine := ← Shape.once b.endLine (Shape.word32 v)}
  | "endCol" => do return {b with endCol := ← Shape.once b.endCol (Shape.word32 v)}
  | _ => (Shape.skip v).map fun _ => b

end Bounds

def ofItems (items : Items) : Except JsonFault Range := do
  let (beginLine, items) ← Shape.next Shape.word32 items
  let (beginCol, items) ← Shape.next Shape.word32 items
  let (endLine, items) ← Shape.next Shape.word32 items
  let (endCol, items) ← Shape.next Shape.word32 items
  Shape.finish items
  return ⟨beginLine, beginCol, endLine, endCol⟩

def ofOutline : Outline → Except JsonFault Range
  | .object members => (Shape.fold Bounds.take {} members).bind Bounds.complete
  | .array items => ofItems items
  | v => .error (Shape.mismatch v)

end Retrace.Source.Range
