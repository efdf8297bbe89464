import Retrace.Limit
import Retrace.Toml.Document

/-! The configuration.

A configuration has four sections. Every section and every setting may be left out and has a
default; settings that nobody knows are passed over. `Config.ofValue?` reads a configuration from
a structured value and fails when a setting has the wrong type; `Config.ofText` reads it from a
TOML document. -/
namespace Retrace

namespace Config

structure Instrument where
  tracerClass : String := "runvis.Tracer"
  traceFile : String := "Trace.tr"
  deriving DecidableEq, Repr

structure Reconstruct where
  allowPartial : Bool := false
  deriving DecidableEq, Repr

structure Checker where
  binary : String := "jbmc"
  unwind : Nat := 5
  maxArrayLength : Nat := 5
  acceptedExitCodes : List Int := [0, 10]
  timeoutSeconds : Option Nat := some 120
  extraArguments : List String := []
  deriving DecidableEq, Repr

structure Output where
  pretty : Bool := false
  deriving DecidableEq, Repr

end Config

structure Config where
  instrument : Config.Instrument := {}
  reconstruct : Config.Reconstruct := {}
  checker : Config.Checker := {}
  output : Config.Output := {}
  deriving DecidableEq, Repr

namespace Config
open Json (Value)

/-! ### Reading -/

def text? : Value → Option String
  | .string s => some s
  | _ => none

def flag? : Value → Option Bool
  | .bool b => some b
  | _ => none

def whole? (low high : Int) : Value → Option Int
  | .number (.whole n) => if low ≤ n ∧ n < high then some n else none
  | _ => none

def count? (limit : Nat) (v : Value) : Option Nat :=
  (whole? 0 limit v).map Int.toNat

def exitCode? (v : Value) : Option Int := whole? (-Limit.signedWord) Limit.signedWord v

def list? {α : Type} (f : Value → Option α) : Value → Option (List α)
  | .array items => items.mapM f
  | _ => none

def maybe? {α : Type} (f : Value → Option α) : Value → Option (Option α)
  | .null => some none
  | v => (f v).map some

/-- A section as the settings that are given. An array gives them in the order of their names. -/
def settings? (names : List String) : Value → Option (List (String × Value))
  | .object members => some members
  | .array items => if items.length ≤ names.length then some (names.zip items) else none
  | _ => none

/-- The setting of a name, or its default. -/
def setting? {α : Type} (settings : List (String × Value)) (name : String) (default : α)
    (f : Value → Option α) : Option α :=
  match settings.find? fun s => s.1 == name with
  | some s => f s.2
  | none => some default

def Instrument.ofValue? (v : Value) : Option Instrument := do
  let s ← settings? ["tracer_class", "trace_file"] v
  let d : Instrument := {}
  return ⟨← setting? s "tracer_class" d.tracerClass text?,
    ← setting? s "trace_file" d.traceFile text?⟩

def Reconstruct.ofValue? (v : Value) : Option Reconstruct := do
  let s ← settings? ["allow_partial"] v
  return ⟨← setting? s "allow_partial" false flag?⟩

def checkerNames : List String :=
  ["binary", "unwind", "max_array_length", "accepted_exit_codes", "timeout_secs", "extra_args"]

def Checker.ofValue? (v : Value) : Option Checker := do
  let s ← settings? checkerNames v
  let d : Checker := {}
  return {
    binary := ← setting? s "binary" d.binary text?
    unwind := ← setting? s "unwind" d.unwind (count? Limit.word)
    maxArrayLength := ← setting? s "max_array_length" d.maxArrayLength (count? Limit.word)
    acceptedExitCodes :=
      ← setting? s "accepted_exit_codes" d.acceptedExitCodes (list? exitCode?)
    timeoutSeconds := ← setting? s "timeout_secs" d.timeoutSeconds (maybe? (count? Limit.long))
    extraArguments := ← setting? s "extra_args" d.extraArguments (list? text?) }

def Output.ofValue? (v : Value) : Option Output := do
  let s ← settings? ["pretty"] v
  return ⟨← setting? s "pretty" false flag?⟩

def ofValue? (v : Value) : Option Config := do
  let s ← settings? ["instrument", "reconstruct", "checker", "output"] v
  return ⟨← setting? s "instrument" {} Instrument.ofValue?,
    ← setting? s "reconstruct" {} Reconstruct.ofValue?,
    ← setting? s "checker" {} Checker.ofValue?, ← setting? s "output" {} Output.ofValue?⟩

def ofText (text : String) : Except Fault Config :=
  match (Toml.parse? text).bind fun document => ofValue? document.toValue with
  | some c => .ok c
  | none => .error .toml

/-! ### Writing -/

def Checker.toValue (c : Checker) : Value :=
  .object [
    ("binary", .string c.binary), ("unwind", .nat c.unwind),
    ("max_array_length", .nat c.maxArrayLength),
    ("accepted_exit_codes", .array (c.acceptedExitCodes.map fun n => .number (.whole n))),
    ("timeout_secs", Value.optional Value.nat c.timeoutSeconds),
    ("extra_args", .array (c.extraArguments.map .string))]

def toValue (c : Config) : Value :=
  .object [
    ("instrument", .object [("tracer_class", .string c.instrument.tracerClass),
      ("trace_file", .string c.instrument.traceFile)]),
    ("reconstruct", .object [("allow_partial", .bool c.reconstruct.allowPartial)]),
    ("checker", c.checker.toValue),
    ("output", .object [("pretty", .bool c.output.pretty)])]

theorem ofValue?_toValue_default : ofValue? (toValue {}) = some {} := by
  decide

end Config

end Retrace
