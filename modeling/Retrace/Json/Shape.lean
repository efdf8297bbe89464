import Retrace.Json.Outline
import Retrace.Limit
import Retrace.Table

/-! What an outline has to be.

Each function asks an outline to be of some kind and gives the value, or the first thing that is
wrong with it from left to right. `value` takes any value: objects keep their members in the
order of their names, and of equal names the last one counts. -/
namespace Retrace.Json

namespace Shape

/-- Arrays and objects stand inside at most this many others, themselves included. -/
def depthLimit : Nat := 127

def mismatch : Outline → JsonFault
  | .string s => match s.value with
    | .error f => f
    | .ok _ => .shape
  | .number n => match n.value with
    | .error f => f
    | .ok _ => .shape
  | .broken f => f
  | _ => .shape

def string : Outline → Except JsonFault String
  | .string s => s.value
  | v => .error (mismatch v)

def natural (limit : Nat) : Outline → Except JsonFault Nat
  | .number n => do
    match ← n.value with
    | .whole k => if 0 ≤ k ∧ k < limit then return k.toNat else .error .shape
    | .double _ => .error .shape
  | v => .error (mismatch v)

def word32 (v : Outline) : Except JsonFault UInt32 :=
  (natural Limit.word v).map Nat.toUInt32

def index (v : Outline) : Except JsonFault Nat := natural Limit.long v

def optional {α : Type} (f : Outline → Except JsonFault α) : Outline → Except JsonFault (Option α)
  | .null => .ok none
  | v => (f v).map some

/-! ### Skipping -/

def ends : Option JsonFault → Except JsonFault Unit
  | none => .ok ()
  | some f => .error f

mutual

/-- Passes over a value that nobody asks for: only its form matters. -/
def skip : Outline → Except JsonFault Unit
  | .string s => ends s.fault
  | .number n => ends n.fault
  | .array items => skipItems items
  | .object members => skipMembers members
  | .broken f => .error f
  | _ => .ok ()

def skipItems : Items → Except JsonFault Unit
  | .done f => ends f
  | .item v rest =>
    match skip v with
    | .ok _ => skipItems rest
    | .error f => .error f

def skipMembers : Members → Except JsonFault Unit
  | .done f => ends f
  | .member name v rest =>
    match name.fault, skip v with
    | some f, _ => .error f
    | none, .ok _ => skipMembers rest
    | none, .error f => .error f

end

/-! ### Values -/

mutual

/-- Any value, inside of `depth` others. -/
def value (depth : Nat) : Outline → Except JsonFault Value
  | .null => .ok .null
  | .bool b => .ok (.bool b)
  | .string s => s.value.map .string
  | .number n => n.value.map .number
  | .array items =>
    if depth < depthLimit then (itemValues (depth + 1) items).map .array else .error .malformed
  | .object members =>
    if depth < depthLimit then (memberValues (depth + 1) [] members).map .object
    else .error .malformed
  | .broken f => .error f

def itemValues (depth : Nat) : Items → Except JsonFault (List Value)
  | .done f => (ends f).map fun _ => []
  | .item v rest =>
    match value depth v with
    | .error f => .error f
    | .ok v => (itemValues depth rest).map (v :: ·)

def memberValues (depth : Nat) (found : List (String × Value)) :
    Members → Except JsonFault (List (String × Value))
  | .done f => (ends f).map fun _ => found
  | .member name v rest =>
    match name.value, value depth v with
    | .error f, _ => .error f
    | .ok _, .error f => .error f
    | .ok name, .ok v => memberValues depth (Entries.put name v found) rest

end

/-! ### Lists and records -/

def listItems {α : Type} (f : Outline → Except JsonFault α) (found : List α) :
    Items → Except JsonFault (List α)
  | .done fault => (ends fault).map fun _ => found.reverse
  | .item v rest =>
    match f v with
    | .error e => .error e
    | .ok a => listItems f (a :: found) rest

def list {α : Type} (f : Outline → Except JsonFault α) : Outline → Except JsonFault (List α)
  | .array items => listItems f [] items
  | v => .error (mismatch v)

/-- Reads the members of a record one after the other into what is known of it so far. -/
def fold {α : Type} (f : String → Outline → α → Except JsonFault α) (known : α) :
    Members → Except JsonFault α
  | .done fault => (ends fault).map fun _ => known
  | .member name v rest =>
    match name.value with
    | .error e => .error e
    | .ok name =>
      match f name v known with
      | .error e => .error e
      | .ok known => fold f known rest

/-- Fills in a field that must not be there yet. -/
def once {α : Type} (known : Option α) (read : Except JsonFault α) : Except JsonFault (Option α) :=
  match known with
  | some _ => .error .shape
  | none => read.map some

def required {α : Type} : Option α → Except JsonFault α
  | some a => .ok a
  | none => .error .shape

/-- The next field of a record that is written as an array. -/
def next {α : Type} (f : Outline → Except JsonFault α) : Items → Except JsonFault (α × Items)
  | .done (some fault) => .error fault
  | .done none => .error .shape
  | .item v rest => (f v).map fun a => (a, rest)

/-- A field that such an array may leave out at its end. -/
def nextOr {α : Type} (default : α) (f : Outline → Except JsonFault α) :
    Items → Except JsonFault (α × Items)
  | .done none => .ok (default, .done none)
  | items => next f items

/-- Nothing may follow the last field. -/
def finish : Items → Except JsonFault Unit
  | .done fault => ends fault
  | .item _ _ => .error .malformed

end Shape

/-- A text that holds one value and nothing behind it. -/
def parse {α : Type} (f : Outline → Except Fault α) (text : String) : Except Fault α := do
  let (v, more) := Outline.ofText text
  let a ← f v
  if more then .error (.json .malformed) else return a

end Retrace.Json
