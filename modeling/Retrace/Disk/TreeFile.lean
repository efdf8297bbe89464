import Retrace.Disk
import Retrace.Text.Utf8
import Retrace.Trace.Record

/-! Trees on a disk.

A tree is written next to its place first and then moved there, so that no file ever holds half
a tree. -/
namespace Retrace.Disk
open Trace

/-- A byte that is no text makes a tree malformed. -/
def treeText : Content → String
  | .text s => s
  | .binary bytes => Text.Utf8.decode '\x00' bytes

def loadTree (d : Disk) (path : String) : Except Fault Tree :=
  match d.find path with
  | .error cause => .error (.file cause)
  | .ok .directory => .error (.json .unreadable)
  | .ok (.file c) => Tree.ofText (treeText c)

def draftPath (path : String) : String := Path.withExtension path "json.tmp"

/-- Writes the text of a file by way of a draft. -/
def replace (d : Disk) (path text : String) : Disk × Except FileFault Unit :=
  match d.makeParents path with
  | (d, .error cause) => (d, .error cause)
  | (d, .ok ()) =>
    match d.write (draftPath path) text with
    | .error cause => (d, .error cause)
    | .ok drafted =>
      match drafted.rename (draftPath path) path with
      | .error cause => (drafted, .error cause)
      | .ok done => (done, .ok ())

def saveTree (d : Disk) (pretty : Bool) (path : String) (t : Tree) : Disk × Except Fault Unit :=
  let (d, saved) := d.replace path (t.json pretty)
  (d, saved.mapError .file)

end Retrace.Disk
