import Retrace.Java.Parse
import Retrace.Source.Edit
import Retrace.Source.Project

/-! Braces around single statements.

A branch of an `if` and the body of a loop may be a single statement. Such a statement is put in
braces, so that every branch and every loop body is a block. Where several insertions meet, the
closing braces stand in front of the opening ones, the outer opening brace first and the inner
closing brace first. -/
namespace Retrace.Instrument.Braces
open Java Source

/-- The branches and bodies of a node. -/
def bodies (f : File) (i : Nat) : List Nat :=
  if f.form i == .ifStatement then
    (f.child? i .consequence).toList ++ (f.child? i .alternative).toList
  else if (f.form i).isLoop then (f.child? i .body).toList
  else []

def bare (f : File) (i : Nat) : List Nat :=
  (bodies f i).filter fun b => f.form b != .block

def around (f : File) (body : Nat) : List Insertion :=
  let n := f.node body
  let depth : Int := f.depth body
  [⟨n.start, "\x7b ", depth⟩, ⟨n.stop, " \x7d", -depth - 1⟩]

def insertions (f : File) : List Insertion :=
  f.numbersOf.flatMap fun i => (bare f i).flatMap (around f)

/-- The text with its braces; none when nothing lacks them. -/
def text? (f : File) : Option String :=
  match insertions f with
  | [] => none
  | is => some ((Edit.apply f.text is).getD f.text)

def normalizedText (f : File) : String := (text? f).getD f.text

/-- Every file with its braces, parsed anew. -/
def normalize (p : Project) : Project :=
  Project.ofFiles (p.fileList.map fun f => parse f.path (normalizedText f))

end Retrace.Instrument.Braces
