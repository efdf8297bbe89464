import Retrace.Text.Split

/-! File paths.

A path is its text; what files it names is decided by its components. Repeated and trailing
slashes do not count, nor does a dot but as the first component, and `..` is kept as it stands.
Paths are compared component by component (`Path.compare`), so a directory's files stand
together. -/
namespace Retrace.Path

/-- The order of the constructors is the order of components of different kinds. -/
inductive Component
  | root
  | current
  | parent
  | normal (name : String)
  deriving DecidableEq, Repr

namespace Component

def rank : Component → Nat
  | root => 0
  | current => 1
  | parent => 2
  | normal _ => 3

def text : Component → String
  | root => "/"
  | current => "."
  | parent => ".."
  | normal name => name

def compare (a b : Component) : Ordering :=
  match a, b with
  | normal x, normal y => Ord.compare x y
  | a, b => Ord.compare a.rank b.rank

end Component

def isAbsolute (path : String) : Bool :=
  path.toList.head? == some '/'

/-- The pieces between slashes; the first is the text before the first slash. -/
def pieces (path : String) : List String := Text.splitAt '/' path

def component? (piece : String) : Option Component :=
  if piece == "" || piece == "." then none
  else if piece == ".." then some .parent
  else some (.normal piece)

def components (path : String) : List Component :=
  let body := (pieces path).filterMap component?
  if isAbsolute path then .root :: body
  else if (pieces path).head? == some "." then .current :: body
  else body

def compareComponents : List Component → List Component → Ordering
  | [], [] => .eq
  | [], _ :: _ => .lt
  | _ :: _, [] => .gt
  | a :: as, b :: bs => (a.compare b).then (compareComponents as bs)

def compare (a b : String) : Ordering :=
  compareComponents (components a) (components b)

/-- Two texts name the same path when their components agree. -/
def same (a b : String) : Bool :=
  components a == components b

/-- The last component, when it is a plain name. -/
def fileName? (path : String) : Option String :=
  match (components path).getLast? with
  | some (.normal name) => some name
  | _ => none

/-- The file name without directories, empty when the path has none. -/
def simpleName (path : String) : String :=
  (fileName? path).getD ""

/-- A name is cut at its last dot, unless that is its first character. -/
def splitName (name : List Char) : List Char × Option (List Char) :=
  let after := (name.reverse.takeWhile (· ≠ '.')).reverse
  let before := name.take (name.length - after.length - 1)
  if before.isEmpty || after.length == name.length then (name, none) else (before, some after)

def stem? (path : String) : Option String :=
  (fileName? path).map fun name => String.ofList (splitName name.toList).1

def extension? (path : String) : Option String :=
  (fileName? path).bind fun name => (splitName name.toList).2.map String.ofList

/-- An absolute second path replaces the first. -/
def join (base path : String) : String :=
  if isAbsolute path || base == "" then path
  else if base.endsWith "/" then base ++ path
  else base ++ "/" ++ path

def ofComponents : List Component → String
  | [] => ""
  | .root :: rest => "/" ++ String.intercalate "/" (rest.map Component.text)
  | parts => String.intercalate "/" (parts.map Component.text)

/-- The path without its last component; a path of no component and the root have no parent. -/
def parent? (path : String) : Option String :=
  match components path with
  | [] => none
  | parts => if parts.getLast? == some .root then none else some (ofComponents parts.dropLast)

/-- The path with another extension of its last component. -/
def withExtension (path extension : String) : String :=
  match stem? path with
  | none => path
  | some stem =>
    let name := stem ++ "." ++ extension
    ofComponents ((components path).dropLast ++ [.normal name])

end Retrace.Path
