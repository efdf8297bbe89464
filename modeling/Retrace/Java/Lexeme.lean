import Retrace.Java.Form
import Retrace.Source.Range

/-! Lexemes.

A lexeme is a piece of source text with the points between which it stands. A point counts bytes
from the start of the text, lines from one and the bytes of its line from zero. A string is
several lexemes: its quotes, its runs of plain text and its escapes. -/
namespace Retrace.Java

structure Point where
  offset : Nat
  line : UInt32
  column : UInt32
  deriving DecidableEq, Repr, Inhabited

namespace Point

def origin : Point := ⟨0, 1, 0⟩

def after (p : Point) (c : Char) : Point :=
  if c == '\n' then ⟨p.offset + 1, p.line + 1, 0⟩
  else ⟨p.offset + c.utf8Size, p.line, p.column + c.utf8Size.toUInt32⟩

def advance (p : Point) (cs : List Char) : Point :=
  cs.foldl after p

end Point

/-- The range of the text from one point up to another, in which columns count from one and the
last byte is included. -/
def rangeBetween (start stop : Point) : Source.Range :=
  ⟨start.line, start.column + 1, stop.line, stop.column⟩

inductive LexemeKind
  | word
  | symbol
  | literal (form : Form)
  | openQuote
  | closeQuote
  | openBlock
  | closeBlock
  /-- Part of a string that is a node of its own. -/
  | piece (form : Form)
  /-- Part of a string that is no node. -/
  | bare
  | openHole
  | closeHole
  | stray
  deriving DecidableEq, Repr

structure Lexeme where
  kind : LexemeKind
  text : String
  start : Point
  stop : Point
  deriving DecidableEq, Repr

namespace Lexeme

def isSymbol (text : String) (l : Lexeme) : Bool :=
  l.kind == .symbol && l.text == text

def isWord (text : String) (l : Lexeme) : Bool :=
  l.kind == .word && l.text == text

/-- Words that can never name anything. -/
def reserved : List String :=
  ["abstract", "assert", "boolean", "break", "byte", "case", "catch", "char", "class", "continue",
    "default", "do", "double", "else", "enum", "extends", "false", "final", "finally", "float",
    "for", "if", "implements", "import", "instanceof", "int", "interface", "long", "native",
    "new", "null", "package", "private", "protected", "public", "return", "short", "static",
    "strictfp", "super", "switch", "synchronized", "this", "throw", "throws", "transient", "true",
    "try", "void", "volatile", "while"]

def isName (l : Lexeme) : Bool :=
  l.kind == .word && !reserved.contains l.text

/-- No text stands between the two. -/
def touches (a b : Lexeme) : Bool :=
  a.stop.offset == b.start.offset

end Lexeme

end Retrace.Java
