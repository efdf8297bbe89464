import Retrace.Disk
import Retrace.Disk.Glob
import Retrace.Text.Blank
import Retrace.Text.Split

/-! Files that say what to leave out.

Each line of such a file is a rule: a pattern, behind an exclamation mark if it takes things in
again, and with a slash behind it if it is about directories alone. A pattern that holds a slash
is about the path from the directory of the file on, any other about names at any depth below.
The last rule that fits decides. -/
namespace Retrace.Disk

structure Rule where
  pattern : List Glob.Token
  /-- Takes things in again. -/
  keeps : Bool
  directoriesOnly : Bool
  deriving DecidableEq, Repr

namespace Rule

def trimEnd (cs : List Char) : List Char := (cs.reverse.dropWhile Text.isBlank).reverse

/-- A blank behind a backslash at the end of a line counts. -/
def lineText (cs : List Char) : List Char :=
  if ['\\', ' '].isSuffixOf cs then cs else trimEnd cs

/-- The slash at the end of a rule, escaped or not, is no part of its pattern. -/
def dropSlash (cs : List Char) : List Char :=
  let body := cs.dropLast
  if body.getLast? == some '\\' then body.dropLast else body

def hasAnyPrefix (cs : List Char) : Bool :=
  ['*', '*', '/'].isPrefixOf cs || cs == ['*', '*']

/-- Names are looked for at any depth; what is below a directory does not name the directory. -/
def fullPattern (anchored : Bool) (cs : List Char) : List Char :=
  let body :=
    if anchored || cs.contains '/' || hasAnyPrefix cs then cs else '*' :: '*' :: '/' :: cs
  if ['/', '*', '*'].isSuffixOf body then body ++ ['/', '*'] else body

def ofPattern? (keeps anchored : Bool) (cs : List Char) : Option Rule :=
  let directoriesOnly := cs.getLast? == some '/'
  let body := if directoriesOnly then dropSlash cs else cs
  (Glob.tokens? none [] (fullPattern anchored body)).map fun pattern =>
    ⟨pattern, keeps, directoriesOnly⟩

def ofAnchor? (keeps : Bool) : List Char → Option Rule
  | '/' :: rest => ofPattern? keeps true rest
  | cs => ofPattern? keeps false cs

/-- The rule on a line; none on a blank line, on a comment, or when the pattern is malformed. -/
def ofLine? (line : List Char) : Option Rule :=
  if line.head? == some '#' then none
  else
    match lineText line with
    | [] => none
    | '\\' :: '!' :: rest => ofPattern? false false ('!' :: rest)
    | '\\' :: '#' :: rest => ofPattern? false false ('#' :: rest)
    | '!' :: rest => ofAnchor? true rest
    | cs => ofAnchor? false cs

def fits (r : Rule) (isDirectory : Bool) (path : Glob.Bytes) : Bool :=
  Glob.accepts r.pattern path && (!r.directoriesOnly || isDirectory)

end Rule

namespace IgnoreFile

def dropReturn (line : List Char) : List Char :=
  if line.getLast? == some '\r' then line.dropLast else line

def rules (text : String) : List Rule :=
  (Text.splitAt '\n' text).filterMap fun line => Rule.ofLine? (dropReturn line.toList)

/-- Whether the last rule that fits keeps the path. -/
def verdict? (rules : List Rule) (isDirectory : Bool) (names : Address) : Option Bool :=
  let path := (String.intercalate "/" names).toUTF8.toList
  (rules.reverse.find? fun r => r.fits isDirectory path).map Rule.keeps

/-- The rules in a file of a directory. -/
def rulesAt (d : Disk) (directory : Address) (name : String) : List Rule :=
  match d.get? (directory ++ [name]) with
  | some (.file (.text text)) => rules text
  | _ => []

/-- What the files of a name say about an entry; the nearest directory that says anything
counts. -/
def decision? (d : Disk) (name : String) (isDirectory : Bool) (a : Address) : Option Bool :=
  ((List.range a.length).reverse).findSome? fun n =>
    verdict? (rulesAt d (a.take n) name) isDirectory (a.drop n)

/-- Files of the tool's own come before those of version control. A name that begins with a dot is
left out unless a rule keeps it. -/
def isIgnored (d : Disk) (isDirectory : Bool) (a : Address) : Bool :=
  match (decision? d ".ignore" isDirectory a).or (decision? d ".gitignore" isDirectory a) with
  | some keeps => !keeps
  | none => (a.getLast?.any fun name => name.startsWith ".")

end IgnoreFile

end Retrace.Disk
