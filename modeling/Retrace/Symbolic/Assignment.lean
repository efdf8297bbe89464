import Retrace.Json.Printer
import Retrace.Json.Shape
import Retrace.Limit
import Retrace.Text.Blank
import Retrace.Text.Words

/-! Assignments found by a checker.

The checker writes a message, or an array of messages. A message may hold results, a result may
hold a trace, and the steps of a trace that assign a variable are the assignments. What a step
does not say is left open; a value that is no text is shown as compact JSON. -/
namespace Retrace.Symbolic
open Json

structure Assignment where
  name : String
  value : String
  file : Option String
  line : Option UInt32
  iteration : Option UInt32
  deriving DecidableEq, Repr

namespace Assignment

def noName : String := "<no_var>"

def noValue : String := "<no_val>"

def text? : Value → Option String
  | .string s => some s
  | _ => none

def items? : Value → Option (List Value)
  | .array items => some items
  | _ => none

/-- A number, or a text that holds one between white space. -/
def number? : Value → Option UInt32
  | .number (.whole n) => if 0 ≤ n ∧ n < Limit.word then some n.toNat.toUInt32 else none
  | .string s => (Text.natural? Limit.word (Text.trimChars s.toList)).map Nat.toUInt32
  | _ => none

def shown (v : Value) : String :=
  match v with
  | .string s => s
  | v =>
    match v.get? "data" with
    | some (.string s) => s
    | some data => compact data
    | none => compact v

def isAssignment (step : Value) : Bool :=
  match (step.get? "stepType").bind text? with
  | some kind => kind == "assignment"
  | none => (step.get? "lhs").isSome

def ofStep (step : Value) : Assignment :=
  let place := step.get? "sourceLocation"
  { name := ((step.get? "lhs").bind text?).getD noName
    value := ((step.get? "value").map shown).getD noValue
    file := ((place.bind (·.get? "file")).bind text?).filter (· ≠ "")
    line := ((place.bind (·.get? "line")).bind number?).filter (0 < ·)
    iteration := (step.get? "iteration").bind number? }

/-- The steps of a result: its trace, or what the trace holds as its steps. -/
def steps (result : Value) : List Value :=
  match result.get? "trace" with
  | some (.array steps) => steps
  | some trace => ((trace.get? "steps").bind items?).getD []
  | none => []

def ofMessage (message : Value) : List Assignment :=
  let results := ((message.get? "result").bind items?).getD []
  results.flatMap fun r => ((steps r).filter isAssignment).map ofStep

def ofValue : Value → List Assignment
  | .array messages => messages.flatMap ofMessage
  | message => ofMessage message

/-- Reads the output of a checker. -/
def ofText (text : String) : Except Fault (List Assignment) :=
  (Json.parse (fun v => (Shape.value 0 v).mapError .json) text).map ofValue

def toValue (a : Assignment) : Value :=
  .object [
    ("name", .string a.name), ("value", .string a.value),
    ("file", Value.optional Value.string a.file),
    ("line", Value.optional (fun n => Value.nat n.toNat) a.line),
    ("iteration", Value.optional (fun n => Value.nat n.toNat) a.iteration)]

end Assignment

end Retrace.Symbolic
