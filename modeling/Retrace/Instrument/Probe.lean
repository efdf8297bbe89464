import Retrace.Config
import Retrace.Fault
import Retrace.Text.Alphanumeric
import Retrace.Text.Blank
import Retrace.Text.Split

/-! Probes.

A probe is a statement that reports a trace id to the tracer, a class of which the instrumented
program gets the source. The tracer writes one id to a line of the trace file and swallows every
failure, so that the program runs as it would without it. -/
namespace Retrace.Instrument

structure Probe where
  tracer : String
  package : Option String
  className : String
  traceFile : String
  deriving DecidableEq, Repr

namespace Probe

def isNamePart (part : String) : Bool :=
  part ≠ "" && part.toList.all fun c => Text.isAlphanumeric c || c == '_'

/-- The parts between the dots of the trimmed name; none when one of them is no name. -/
def nameParts? (tracerClass : String) : Option (List String) :=
  let parts := Text.splitAt '.' (Text.trim tracerClass)
  if parts.all isNamePart then some parts else none

def packageOf (parts : List String) : Option String :=
  if parts.length ≤ 1 then none else some (String.intercalate "." parts.dropLast)

def of (c : Config.Instrument) : Except Fault Probe :=
  match nameParts? c.tracerClass with
  | some parts =>
    .ok ⟨Text.trim c.tracerClass, packageOf parts, parts.getLastD "", c.traceFile⟩
  | none => .error (.configuration ("invalid tracer class name: " ++ Text.quoted c.tracerClass))

/-- What a call of the tracer begins with. -/
def marker (p : Probe) : String := p.tracer ++ ".trace("

def statement (p : Probe) (id : Nat) : String := " " ++ p.tracer ++ s!".trace({id});"

def supportPath (p : Probe) : String :=
  match p.package with
  | some package =>
    String.intercalate "/" (Text.splitAt '.' package) ++ "/" ++ p.className ++ ".java"
  | none => p.className ++ ".java"

/-- The text with `part` in place of every `mark`. -/
def replaced (mark : Char) (part cs : List Char) : List Char :=
  cs.flatMap fun c => if c == mark then part else [c]

/-- A text as it stands inside of a string literal. The backslashes are doubled before the quotes
get theirs. -/
def literalBody (s : String) : String :=
  String.ofList (replaced '"' ['\\', '"'] (replaced '\\' ['\\', '\\'] s.toList))

def unlines (lines : List String) : String := String.join (lines.map (· ++ "\n"))

/-- The lines of the source in front of the one with the name of the trace file. -/
def opening (package : Option String) (className : String) : List String :=
  let heading := match package with
    | some package => ["package " ++ package ++ ";", ""]
    | none => []
  heading ++ [
    "import java.io.FileWriter;",
    "import java.io.IOException;",
    "",
    "public final class " ++ className ++ " \x7b",
    "    private static FileWriter out;",
    "    private static boolean failed;",
    "",
    "    private " ++ className ++ "() \x7b",
    "    \x7d",
    "",
    "    public static synchronized void trace(int id) \x7b",
    "        if (failed) \x7b",
    "            return;",
    "        \x7d",
    "        try \x7b",
    "            if (out == null) \x7b"]

/-- The source behind the literal that names the trace file. -/
def closing : String :=
  unlines [", false);",
    "            \x7d",
    "            out.write(id + \"\\n\");",
    "            out.flush();",
    "        \x7d catch (IOException | RuntimeException e) \x7b",
    "            failed = true;",
    "        \x7d",
    "    \x7d",
    "\x7d"]

def supportSource (p : Probe) : String :=
  unlines (opening p.package p.className) ++ "                out = new FileWriter(\"" ++
    literalBody p.traceFile ++ "\"" ++ closing

end Probe

end Retrace.Instrument
