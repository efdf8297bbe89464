import Retrace.Fault
import Retrace.Path
import Retrace.Table

/-! Disks.

A disk is a tree of directories and files, kept as a table from addresses to entries. An address
is the list of the names that lead to an entry; a path is resolved to an address name by name, and
everything that it passes through has to be a directory. `Disk.read` is the text of a file,
`Disk.write` replaces a file, and `Disk.makeDirectories` makes what is missing of a path. -/
namespace Retrace

/-- What a file holds: text, or bytes that are no text. -/
inductive Content
  | text (s : String)
  | binary (bytes : List UInt8)
  deriving DecidableEq, Repr

def Content.size : Content → Nat
  | text s => s.utf8ByteSize
  | binary bytes => bytes.length

/-- Bytes are text when they are well-formed UTF-8. -/
def Content.ofBytes (bytes : List UInt8) : Content :=
  match String.fromUTF8? (ByteArray.mk bytes.toArray) with
  | some s => text s
  | none => binary bytes

def Content.toBytes : Content → List UInt8
  | text s => s.toUTF8.toList
  | binary bytes => bytes

inductive Entry
  | directory
  | file (c : Content)
  deriving DecidableEq, Repr

abbrev Address := List String

structure Disk where
  entries : Table Address Entry
  deriving DecidableEq, Repr, Inhabited

namespace Disk

def empty : Disk := ⟨Table.empty⟩

/-- The entry at an address. The root is a directory on every disk. -/
def get? (d : Disk) (a : Address) : Option Entry :=
  if a.isEmpty then some .directory else d.entries.get? a

def put (d : Disk) (a : Address) (e : Entry) : Disk := ⟨d.entries.put a e⟩

def erase (d : Disk) (a : Address) : Disk := ⟨d.entries.erase a⟩

/-! ### Resolving paths -/

/-- Follows one component. An absolute path leads away from the disk. -/
def follow (d : Disk) (a : Address) (c : Path.Component) : Except FileFault Address :=
  match d.get? a with
  | none => .error .notFound
  | some (.file _) => .error .notADirectory
  | some .directory =>
    match c with
    | .root => .error .notFound
    | .current => .ok a
    | .parent => .ok a.dropLast
    | .normal name => .ok (a ++ [name])

def resolve (d : Disk) (path : String) : Except FileFault Address :=
  if path == "" then .error .notFound else (Path.components path).foldlM d.follow []

/-- The path says that it leads to a directory. -/
def namesDirectory (path : String) : Bool :=
  path.endsWith "/" || path.endsWith "/."

def find (d : Disk) (path : String) : Except FileFault Entry := do
  match d.get? (← d.resolve path) with
  | none => .error .notFound
  | some .directory => return .directory
  | some (.file c) =>
    if namesDirectory path then .error .notADirectory else return .file c

def isDirectory (d : Disk) (path : String) : Bool :=
  match d.find path with
  | .ok .directory => true
  | _ => false

def isPresent (d : Disk) (path : String) : Bool :=
  match d.find path with
  | .ok _ => true
  | .error _ => false

/-! ### Reading -/

def content (d : Disk) (path : String) : Except FileFault Content := do
  match ← d.find path with
  | .directory => .error .isADirectory
  | .file c => return c

def textOf : Content → Except FileFault String
  | .text s => .ok s
  | .binary _ => .error .invalidData

def read (d : Disk) (path : String) : Except FileFault String :=
  (d.content path).bind textOf

/-! ### Writing -/

def write (d : Disk) (path : String) (text : String) : Except FileFault Disk := do
  let a ← d.resolve path
  match d.get? a with
  | some .directory => .error .isADirectory
  | _ =>
    if namesDirectory path then .error .isADirectory
    else return d.put a (.file (.text text))

/-- Makes the directories from an address on, one name after the other. Those that have been made
stay when a file stands in the way. -/
def makeFrom (d : Disk) (a : Address) : List Path.Component → Disk × Except FileFault Unit
  | [] => (d, .ok ())
  | .root :: _ => (d, .error .permissionDenied)
  | .current :: rest => makeFrom d a rest
  | .parent :: rest => makeFrom d a.dropLast rest
  | .normal name :: rest =>
    let b := a ++ [name]
    match d.get? b with
    | some .directory => makeFrom d b rest
    | some (.file _) => (d, .error (if rest.isEmpty then .alreadyExists else .notADirectory))
    | none => makeFrom (d.put b .directory) b rest

def makeDirectories (d : Disk) (path : String) : Disk × Except FileFault Unit :=
  d.makeFrom [] (Path.components path)

/-- Makes the directories above a path. -/
def makeParents (d : Disk) (path : String) : Disk × Except FileFault Unit :=
  match Path.parent? path with
  | some parent => d.makeDirectories parent
  | none => (d, .ok ())

/-- Moves a file. What is there is replaced, unless it is a directory. -/
def rename (d : Disk) (source target : String) : Except FileFault Disk := do
  let a ← d.resolve source
  let b ← d.resolve target
  match d.get? a, d.get? b with
  | none, _ => .error .notFound
  | _, some .directory => .error .isADirectory
  | some e, _ =>
    if namesDirectory target then .error .notADirectory
    else return (d.erase a).put b e

/-- Puts an entry at an address, and directories above it. -/
def place (d : Disk) (a : Address) (e : Entry) : Disk :=
  let above := (List.range a.length).map fun n => a.take n
  (above.foldl (fun d b => if (d.get? b).isNone then d.put b .directory else d) d).put a e

/-! ### Listing -/

/-- The files in a directory and below it, with the names that lead there from the directory, in
the order of these names. -/
def filesBelow (d : Disk) (a : Address) : List (Address × Content) :=
  d.entries.entries.filterMap fun (b, e) =>
    match e with
    | .file c => if a.isPrefixOf b then some (b.drop a.length, c) else none
    | .directory => none

/-- The files of `new` that `old` does not have in this form. -/
def changes (old new : Disk) : List (Address × Content) :=
  new.entries.entries.filterMap fun (a, e) =>
    match e with
    | .file c => if old.get? a == some (.file c) then none else some (a, c)
    | .directory => none

end Disk

end Retrace
