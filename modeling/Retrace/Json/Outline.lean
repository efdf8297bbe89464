import Retrace.Json.Token

/-! Outlines.

An outline is what a text makes known of a JSON value, read from left to right: the value itself
or, when the text is at fault, the part of it in front of the first fault. `read` builds the
outline of a text in one pass, with the arrays and objects that are still open on a stack.

What an outline has to be is asked of it in the same order, so of several things that are wrong
with a text the first one counts. -/
namespace Retrace.Json

mutual

inductive Outline
  | null
  | bool (b : Bool)
  | string (s : Scan String)
  | number (n : Scan Number)
  | array (items : Items)
  | object (members : Members)
  | broken (fault : JsonFault)

/-- Items up to the closing bracket or to a fault. -/
inductive Items
  | done (fault : Option JsonFault)
  | item (v : Outline) (rest : Items)

inductive Members
  | done (fault : Option JsonFault)
  | member (name : Scan String) (v : Outline) (rest : Members)

end

instance : Inhabited Outline := ⟨.null⟩

namespace Outline

/-! ### Building -/

/-- An open array or object with its items so far, the latest first. An object is open at the
value of a member, or between members. -/
inductive Frame
  | array (items : List Outline)
  | object (members : List (Scan String × Outline)) (name : Option (Scan String))

def itemsOf (fault : Option JsonFault) (reversed : List Outline) : Items :=
  reversed.foldl (fun rest v => .item v rest) (.done fault)

def membersOf (fault : Option JsonFault) (reversed : List (Scan String × Outline)) : Members :=
  reversed.foldl (fun rest m => .member m.1 m.2 rest) (.done fault)

/-- Takes a finished value into the innermost open array or object. -/
def Frame.add (v : Outline) : Frame → Frame
  | array items => array (v :: items)
  | object members (some name) => object ((name, v) :: members) none
  | object members none => object members none

def Frame.close (fault : Option JsonFault) : Frame → Outline
  | array items => .array (itemsOf fault items)
  | object members (some name) =>
    .object (membersOf fault ((name, .broken (fault.getD .malformed)) :: members))
  | object members none => .object (membersOf fault members)

/-- The outline of a text that is at fault inside of the open arrays and objects. -/
def cut (fault : JsonFault) : Outline → List Frame → Outline
  | v, [] => v
  | v, f :: fs => cut fault ((f.add v).close (some fault)) fs

/-- What may come next. -/
inductive Expectation
  | value
  | firstItem
  | firstName
  | name
  | colon
  | next

/-- Ends in a fault where no value stands. -/
def cutOpen (fault : JsonFault) : List Frame → Outline
  | [] => .broken fault
  | f :: fs => cut fault (f.close (some fault)) fs

/-- Ends in a fault where a value should stand. -/
def cutValue (fault : JsonFault) (fs : List Frame) : Outline := cut fault (.broken fault) fs

/-- What a token means where a value may stand: a scalar, an opening bracket, or a fault. -/
inductive Beginning
  | scalar (v : Outline)
  | opening (f : Frame) (e : Expectation)
  | fault (v : Outline) (f : JsonFault)

def beginning : Token → Beginning
  | .null => .scalar .null
  | .bool b => .scalar (.bool b)
  | .string s =>
    match s.fault with
    | none => .scalar (.string s)
    | some f => .fault (.string s) f
  | .number n =>
    match n.fault with
    | none => .scalar (.number n)
    | some f => .fault (.number n) f
  | .openArray => .opening (.array []) .firstItem
  | .openObject => .opening (.object [] none) .firstName
  | .misspelt f => .fault (.broken f) f
  | _ => .fault (.broken .malformed) .malformed

/-- What closes or continues the innermost open array or object. -/
def Frame.follows : Frame → Token → Option (Option Expectation)
  | array _, .comma => some (some .value)
  | array _, .closeArray => some none
  | object _ _, .comma => some (some .name)
  | object _ _, .closeObject => some none
  | _, _ => none

/-- Where reading stands after a token. -/
inductive Progress
  | open (fs : List Frame) (e : Expectation)
  | whole (v : Outline)
  | cut (v : Outline)

/-- Puts a finished value where it belongs. -/
def settle (v : Outline) : List Frame → Progress
  | [] => .whole v
  | f :: fs => .open (f.add v :: fs) .next

def readValue (fs : List Frame) (t : Token) : Progress :=
  match beginning t with
  | .scalar v => settle v fs
  | .opening f e => .open (f :: fs) e
  | .fault v f => .cut (cut f v fs)

def readName (fs : List Frame) (t : Token) : Progress :=
  match t, fs with
  | .string s, .object members _ :: fs =>
    match s.fault with
    | none => .open (.object members (some s) :: fs) .colon
    | some f => .cut (cut f (.object (membersOf (some f) ((s, .broken f) :: members))) fs)
  | _, fs => .cut (cutOpen .malformed fs)

def readNext (fs : List Frame) (t : Token) : Progress :=
  match fs with
  | [] => .cut (.broken .malformed)
  | f :: fs =>
    match f.follows t with
    | some (some e) => .open (f :: fs) e
    | some none => settle (f.close none) fs
    | none => .cut (cutOpen .malformed (f :: fs))

def advance (fs : List Frame) (e : Expectation) (t : Token) : Progress :=
  match e, t, fs with
  | .firstItem, .closeArray, f :: fs => settle (f.close none) fs
  | .firstName, .closeObject, f :: fs => settle (f.close none) fs
  | .colon, .colon, fs => .open fs .value
  | .colon, _, fs => .cut (cutOpen .malformed fs)
  | .value, t, fs => readValue fs t
  | .firstItem, t, fs => readValue fs t
  | .firstName, t, fs => readName fs t
  | .name, t, fs => readName fs t
  | .next, t, fs => readNext fs t

/-- The outline of a text that ends too early. -/
def ended (fs : List Frame) : Expectation → Outline
  | .value => cutValue .eof fs
  | .firstItem => cutValue .eof fs
  | _ => cutOpen .eof fs

/-- Reads one value; the tokens behind it are left. -/
def build (fs : List Frame) (e : Expectation) : List Token → Outline × List Token
  | [] => (ended fs e, [])
  | t :: ts =>
    match advance fs e t with
    | .open fs e => build fs e ts
    | .whole v => (v, ts)
    | .cut v => (v, [])

/-- The outline of a text and whether the text goes on behind the value. -/
def ofText (text : String) : Outline × Bool :=
  let (v, rest) := build [] .value (Token.tokens text)
  (v, !rest.isEmpty)

end Outline

end Retrace.Json
