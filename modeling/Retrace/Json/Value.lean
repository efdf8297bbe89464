/-! JSON values.

Whole numbers from the least long word with a sign up to the largest long word are kept as they
are, all others as the bits of a number in double precision. The members of an object stand in the
order in which they are written. -/
namespace Retrace.Json

inductive Number
  | whole (n : Int)
  | double (bits : UInt64)
  deriving DecidableEq, Repr

inductive Value
  | null
  | bool (b : Bool)
  | number (n : Number)
  | string (s : String)
  | array (items : List Value)
  | object (members : List (String × Value))
  deriving Repr, Inhabited

namespace Value

def nat (n : Nat) : Value := number (.whole n)

def optional {α : Type} (f : α → Value) : Option α → Value
  | some a => f a
  | none => null

/-- The value of the last member of a name, as in a table that is filled in order. -/
def get? (v : Value) (name : String) : Option Value :=
  match v with
  | object members => (members.reverse.find? fun m => m.1 == name).map Prod.snd
  | _ => none

end Value

end Retrace.Json
