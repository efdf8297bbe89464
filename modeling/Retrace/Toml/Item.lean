import Retrace.Json.Value

/-! TOML documents as trees of items.

A table remembers how it came about, because that decides whether it may still grow: one that a
header has named is not named again, one that is only implied by a longer header may be named
once, one that dotted keys have opened is extended by dotted keys alone, and an inline table is
closed. `Item.open?` walks down a path of keys and edits the table at its end. -/
namespace Retrace.Toml

inductive Origin
  | header
  | implied
  | dotted
  | inline
  deriving DecidableEq, Repr

inductive Item
  | string (s : String)
  | integer (n : Int)
  | float (bits : UInt64)
  | boolean (b : Bool)
  | date (text : String)
  | array (items : List Item)
  | table (origin : Origin) (members : List (String × Item))
  /-- The tables of one double header, the latest first. -/
  | tables (elements : List Item)
  deriving Repr, Inhabited

abbrev Members := List (String × Item)

/-- A path of keys. -/
abbrev Key := List String

namespace Members

def get? (ms : Members) (k : String) : Option Item := (ms.find? fun m => m.1 == k).map Prod.snd

def set (ms : Members) (k : String) (v : Item) : Members :=
  ms.map fun m => if m.1 == k then (k, v) else m

/-- A member with a name of its own. -/
def add? (ms : Members) (k : String) (v : Item) : Option Members :=
  match get? ms k with
  | some _ => none
  | none => some (ms ++ [(k, v)])

end Members

namespace Item

/-- Edits a table below another, or the latest of several tables. -/
def enter (through : Origin → Bool) (f : Item → Option Item) : Item → Option Item
  | table o ms => if through o then f (table o ms) else none
  | tables (t :: earlier) => (f t).map fun t => tables (t :: earlier)
  | _ => none

/-- Edits the table at the end of a path. Tables that are missing on the way are made; those that
are there have to let the path through. -/
def open? (made : Origin) (through : Origin → Bool) (f : Item → Option Item) :
    Key → Item → Option Item
  | [], t => f t
  | k :: ks, table o ms =>
    match Members.get? ms k with
    | none => (open? made through f ks (table made [])).map fun t => table o (ms ++ [(k, t)])
    | some child =>
      (enter through (open? made through f ks) child).map fun t => table o (Members.set ms k t)
  | _, _ => none

/-! ### Keys with values -/

def isGrowing (o : Origin) : Bool := o == .implied || o == .dotted

def addMember (isPlain : Bool) (k : String) (v : Item) : Item → Option Item
  | table o ms =>
    if (o == .dotted) == isPlain then none
    else (Members.add? ms k v).map (table o)
  | _ => none

/-- Gives a value to a key of a table. All but the last part of the key name tables that only
dotted keys have opened. -/
def assign? (t : Item) (key : Key) (v : Item) : Option Item :=
  match key.getLast? with
  | none => none
  | some last => open? .dotted isGrowing (addMember (key.length == 1) last v) key.dropLast t

/-! ### Headers -/

def isOpen (o : Origin) : Bool := o != .inline

def nameTable (k : String) : Item → Option Item
  | table o ms =>
    match Members.get? ms k with
    | none => some (table o (ms ++ [(k, table .header [])]))
    | some (table .implied inner) => some (table o (Members.set ms k (table .header inner)))
    | some _ => none
  | _ => none

def appendTable (k : String) : Item → Option Item
  | table o ms =>
    match Members.get? ms k with
    | none => some (table o (ms ++ [(k, tables [table .header []])]))
    | some (tables ts) => some (table o (Members.set ms k (tables (table .header [] :: ts))))
    | some _ => none
  | _ => none

/-- Makes the table that a header names: one of its own, or another one of several. -/
def header? (several : Bool) (key : Key) (root : Item) : Option Item :=
  match key.getLast? with
  | none => none
  | some last =>
    open? .implied isOpen (if several then appendTable last else nameTable last) key.dropLast root

/-! ### Values -/

mutual

/-- The item as a structured value; a date is a record of its own. -/
def toValue : Item → Json.Value
  | string s => .string s
  | integer n => .number (.whole n)
  | float bits => .number (.double bits)
  | boolean b => .bool b
  | date text => .object [("date", .string text)]
  | array items => .array (valuesOf items)
  | table _ ms => .object (membersOf ms)
  | tables ts => .array (valuesOf ts).reverse

def valuesOf : List Item → List Json.Value
  | [] => []
  | i :: rest => toValue i :: valuesOf rest

def membersOf : List (String × Item) → List (String × Json.Value)
  | [] => []
  | m :: rest => memberOf m :: membersOf rest

def memberOf : String × Item → String × Json.Value
  | (k, i) => (k, toValue i)

end

end Item

end Retrace.Toml
