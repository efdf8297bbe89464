import Retrace.Fault
import Retrace.Toml.Quote

/-! Reading TOML.

A document is a sequence of lines: headers, and keys with their values. `Toml.parse?` reads one
and fails when it is malformed or when a key or a table is given twice. Arrays and inline tables
nest no deeper than `depthLimit`, and a key has no more parts than that. -/
namespace Retrace.Toml

def depthLimit : Nat := 79

def skipInline (cs : List Char) : List Char := cs.dropWhile isInlineBlank

/-- Passes over a comment up to the end of its line. -/
def comment? : List Char → Option (List Char)
  | [] => some []
  | '\n' :: rest => some ('\n' :: rest)
  | c :: rest => if isPlain c then comment? rest else none

def optionalComment? : List Char → Option (List Char)
  | '#' :: rest => comment? rest
  | cs => some cs

/-- Nothing but white space and a comment may follow on a line. -/
def endLine? (cs : List Char) : Option (List Char) :=
  match optionalComment? (skipInline cs) with
  | some [] => some []
  | some ('\n' :: rest) => some rest
  | _ => none

/-- Passes over white space, line breaks and comments. -/
def skipLines? : Nat → List Char → Option (List Char)
  | 0, cs => some cs
  | fuel + 1, cs =>
    match cs.dropWhile fun c => isInlineBlank c || isLineBreak c with
    | '#' :: rest => (comment? rest).bind (skipLines? fuel)
    | rest => some rest

/-! ### Keys -/

def isBare (c : Char) : Bool := c.isAlphanum || c == '_' || c == '-'

def keyPart? (cs : List Char) : Option (String × List Char) :=
  match cs with
  | '"' :: rest => (basicLine [] rest).map fun (k, rest) => (String.ofList k, rest)
  | '\'' :: rest => (literalLine [] rest).map fun (k, rest) => (String.ofList k, rest)
  | cs =>
    match cs.takeWhile isBare with
    | [] => none
    | word => some (String.ofList word, cs.dropWhile isBare)

def key? : Nat → List Char → Option (Key × List Char)
  | 0, _ => none
  | limit + 1, cs => do
    let (part, rest) ← keyPart? (skipInline cs)
    match skipInline rest with
    | '.' :: rest =>
      let (parts, rest) ← key? limit rest
      return (part :: parts, rest)
    | rest => return ([part], rest)

/-! ### Values -/

def isWordChar (c : Char) : Bool := isBare c || c == '+' || c == '.' || c == ':'

/-- The word at the front. A date takes a time with it that follows behind one blank. -/
def word (cs : List Char) : List Char × List Char :=
  let first := cs.takeWhile isWordChar
  let rest := cs.dropWhile isWordChar
  match rest with
  | ' ' :: later =>
    let second := later.takeWhile isWordChar
    if (fullDate? first).any List.isEmpty && (time? second).any isOffset then
      (first ++ ' ' :: second, later.dropWhile isWordChar)
    else (first, rest)
  | _ => (first, rest)

def atom? (cs : List Char) : Option (Item × List Char) :=
  if cs.head?.any fun c => c == '"' || c == '\'' then
    (quoted? cs).map fun (s, rest) => (.string (String.ofList s), rest)
  else
    let (w, rest) := word cs
    (scalar? w).map (·, rest)

/-- The items of an array behind its opening bracket. -/
def items? (item? : List Char → Option (Item × List Char)) (found : List Item) :
    Nat → List Char → Option (Item × List Char)
  | 0, _ => none
  | fuel + 1, cs => do
    match ← skipLines? cs.length cs with
    | ']' :: rest => return (.array found.reverse, rest)
    | cs =>
      let (v, rest) ← item? cs
      match ← skipLines? rest.length rest with
      | ',' :: rest => items? item? (v :: found) fuel rest
      | ']' :: rest => return (.array (v :: found).reverse, rest)
      | _ => none

/-- A key with its value, added to a table. -/
def member? (item? : List Char → Option (Item × List Char)) (cs : List Char) :
    Option (Key × Item × List Char) := do
  let (key, rest) ← key? depthLimit cs
  match rest with
  | '=' :: rest =>
    let (v, rest) ← item? (skipInline rest)
    return (key, v, rest)
  | _ => none

def closeInline : Item → Item
  | .table _ ms => .table .inline ms
  | t => t

/-- The members of an inline table behind its opening brace. -/
def members? (item? : List Char → Option (Item × List Char)) (table : Item) :
    Nat → List Char → Option (Item × List Char)
  | 0, _ => none
  | fuel + 1, cs => do
    let (key, v, rest) ← member? item? cs
    let table ← table.assign? key v
    match skipInline rest with
    | ',' :: rest => members? item? table fuel rest
    | '\x7d' :: rest => return (closeInline table, rest)
    | _ => none

def inlineTable? (item? : List Char → Option (Item × List Char)) (cs : List Char) :
    Option (Item × List Char) :=
  match skipInline cs with
  | '\x7d' :: rest => some (.table .inline [], rest)
  | cs => members? item? (.table .header []) cs.length cs

/-- A value that may hold `depth` levels of arrays and inline tables. -/
def item? : Nat → List Char → Option (Item × List Char)
  | 0, cs => atom? cs
  | depth + 1, cs =>
    match cs with
    | '[' :: rest => items? (item? depth) [] cs.length rest
    | '\x7b' :: rest => inlineTable? (item? depth) rest
    | cs => atom? cs

/-! ### Documents -/

/-- The document so far and the table that lines belong to. -/
structure Progress where
  root : Item
  current : Key

def header? (several : Bool) (p : Progress) (cs : List Char) :
    Option (Progress × List Char) := do
  let (key, rest) ← key? depthLimit cs
  let root ← p.root.header? several key
  match several, rest with
  | false, ']' :: rest => return (⟨root, key⟩, ← endLine? rest)
  | true, ']' :: ']' :: rest => return (⟨root, key⟩, ← endLine? rest)
  | _, _ => none

def assignment? (p : Progress) (cs : List Char) : Option (Progress × List Char) := do
  let (key, v, rest) ← member? (item? depthLimit) cs
  let root ← Item.open? .header Item.isOpen (fun t => t.assign? key v) p.current p.root
  return ({p with root := root}, ← endLine? rest)

def lines? : Nat → Progress → List Char → Option Item
  | 0, _, _ => none
  | fuel + 1, p, cs => do
    match ← skipLines? cs.length cs with
    | [] => return p.root
    | '[' :: '[' :: rest =>
      let (p, rest) ← header? true p rest
      lines? fuel p rest
    | '[' :: rest =>
      let (p, rest) ← header? false p rest
      lines? fuel p rest
    | cs =>
      let (p, rest) ← assignment? p cs
      lines? fuel p rest

/-- Line breaks of two characters count as one. -/
def plainBreaks : List Char → List Char
  | '\r' :: '\n' :: rest => '\n' :: plainBreaks rest
  | c :: rest => c :: plainBreaks rest
  | [] => []

def dropMark : List Char → List Char
  | '\ufeff' :: rest => rest
  | cs => cs

def parse? (text : String) : Option Item :=
  let cs := plainBreaks (dropMark text.toList)
  lines? (cs.length + 1) ⟨.table .header [], []⟩ cs

end Retrace.Toml
