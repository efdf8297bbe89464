import Retrace.Java.Grammar
import Retrace.Java.Lexer
import Retrace.Source.File

/-! Parsing.

The root of a file's tree reaches from its first lexeme or comment to the end of the text. A text
that the grammar does not accept is kept as a lone root and marked as erroneous. -/
namespace Retrace.Java
open Source (File)

def rootOf (cs : List Char) (children : List Tree) : Tree :=
  .node .program none (Lexer.firstPoint cs) (Point.origin.advance cs) none children

def parseTree? (cs : List Char) : Option Tree :=
  (Rule.readAll Grammar.grammar Grammar.compilationUnit (Lexer.lex cs)).map (rootOf cs)

def parse (path text : String) : File :=
  let cs := text.toList
  match parseTree? cs with
  | some t => ⟨path, text, Source.ofTree t, false⟩
  | none => ⟨path, text, Source.ofTree (rootOf cs []), true⟩

end Retrace.Java
