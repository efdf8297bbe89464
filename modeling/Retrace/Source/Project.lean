import Retrace.Source.File

/-! Projects.

A project holds its files in the order of their paths, compared component by component; files
of one path keep the order in which they were given. -/
namespace Retrace.Source

structure Project where
  files : Array File
  deriving DecidableEq, Repr, Inhabited

/-- A node of a project. -/
structure Ref where
  file : Nat
  node : Nat
  deriving DecidableEq, Repr, Inhabited

namespace Project

def pathNotAfter (a b : File) : Bool := (Path.compare a.path b.path).isLE

def ofFiles (files : List File) : Project :=
  ⟨(files.mergeSort pathNotAfter).toArray⟩

def file (p : Project) (i : Nat) : File := p.files.getD i default

def fileList (p : Project) : List File := p.files.toList

/-- The files with their numbers. -/
def numbered (p : Project) : List (Nat × File) :=
  p.fileList.zipIdx.map fun (f, i) => (i, f)

theorem ofFiles_perm (files : List File) : (ofFiles files).fileList.Perm files := by
  simpa [ofFiles, fileList] using List.mergeSort_perm files pathNotAfter

end Project

end Retrace.Source
