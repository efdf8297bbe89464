import Retrace.Disk.IgnoreFile
import Retrace.Java.Parse
import Retrace.Source.Project

/-! Java sources on a disk.

The sources below a directory are the files that end in `.java`, in upper or lower case, are not
too large, and are not ignored. What stands in an ignored directory is ignored. `Disk.load` parses
them as a project, whose paths are those from the directory on. -/
namespace Retrace.Disk

/-- Larger files are left out. -/
def sizeLimit : Nat := 1048576

def isJava (a : Address) : Bool :=
  match a.getLast? with
  | some name =>
    ((Path.extension? name).map fun e => e.toList.map Char.toLower) == some ['j', 'a', 'v', 'a']
  | none => false

/-- Neither the file below `root` nor a directory on the way is ignored. -/
def isVisible (d : Disk) (root below : Address) : Bool :=
  (List.range below.length).all fun n =>
    !IgnoreFile.isIgnored d (n + 1 < below.length) (root ++ below.take (n + 1))

structure SourceFile where
  /-- The names that lead to the file from the root of the sources. -/
  below : Address
  content : Content
  deriving DecidableEq, Repr

def SourceFile.path (s : SourceFile) : String := String.intercalate "/" s.below

/-- The sources below a directory, in the order of their paths. -/
def sourceFiles (d : Disk) (root : String) : Except Fault (List SourceFile) :=
  match d.isDirectory root, d.resolve root with
  | true, .ok a =>
    .ok (((d.filesBelow a).filter fun (below, c) =>
      isJava below && c.size ≤ sizeLimit && isVisible d a below).map fun (below, c) => ⟨below, c⟩)
  | _, _ => .error (.sourceNotFound root)

def parsed (s : SourceFile) : Except Fault Source.File :=
  match textOf s.content with
  | .ok text => .ok (Java.parse s.path text)
  | .error cause => .error (.file cause)

def load (d : Disk) (root : String) : Except Fault Source.Project := do
  return Source.Project.ofFiles (← (← d.sourceFiles root).mapM parsed)

end Retrace.Disk
