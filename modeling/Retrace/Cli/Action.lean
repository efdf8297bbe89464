import Retrace.Cli.Arguments
import Retrace.Limit

/-! What the program can be asked to do.

`Invocation.ofArguments` reads a command line as an action with its parameters and the file of the
configuration. -/
namespace Retrace.Cli

inductive Action
  | instrument (source out : String) (showsMap : Bool)
  | process (source : String) (traces : List String) (checker output : Option String)
      (allowPartial pretty : Bool)
  | check (function classpath : String) (unwind maxArrayLength timeout : Option Nat)
      (output : Option String)
  | methods (source : String) (pretty : Bool)
  | declarations (source : String) (pretty : Bool)
  | flatten (tree : String) (pretty : Bool)
  deriving DecidableEq, Repr

structure Invocation where
  config : Option String
  action : Action
  deriving DecidableEq, Repr

def programName : String := "runvis"

def versionText : String := "0.4.0"

/-! ### The form of the command line -/

def configOption : Parameter := {name := "config", kind := some .path}

def prettyFlag : Parameter := {name := "pretty"}

def outputOption : Parameter := {name := "output", letter := some 'o', kind := some .path}

def pathOperand (name : String) : Parameter :=
  {name := name, kind := some .path, isRequired := true}

def instrumentForm : CommandForm where
  name := "instrument"
  short := some "i"
  operand := pathOperand "source"
  options := [
    {name := "out", letter := some 'o', kind := some .path, isRequired := true},
    {name := "map"}]

def processForm : CommandForm where
  name := "process"
  short := some "p"
  operand := pathOperand "source"
  options := [
    {name := "trace", letter := some 't', kind := some .path, isRepeatable := true,
      isRequired := true},
    {name := "checker", kind := some .path}, outputOption, {name := "allow-partial"}, prettyFlag]

def wordKind : ValueKind := .number Limit.word

def checkForm : CommandForm where
  name := "check"
  operand := {name := "function", kind := some .text, isRequired := true}
  options := [
    {name := "classpath", kind := some .path, isRequired := true},
    {name := "unwind", kind := some wordKind},
    {name := "max-array-length", kind := some wordKind},
    {name := "timeout", kind := some (.number Limit.long)}, outputOption]

def methodsForm : CommandForm := ⟨"methods", none, pathOperand "source", [prettyFlag]⟩

def declarationsForm : CommandForm := ⟨"decls", none, pathOperand "source", [prettyFlag]⟩

def flattenForm : CommandForm := ⟨"flatten", none, pathOperand "tree", [prettyFlag]⟩

def programForm : ProgramForm where
  name := programName
  shared := [configOption]
  commands := [
    instrumentForm, processForm, checkForm, methodsForm, declarationsForm, flattenForm]

/-! ### Actions -/

def text (r : Reading) (name : String) : String := (r.get? name).getD ""

def number? (r : Reading) (name : String) : Option Nat :=
  (r.get? name).bind fun value => Text.natural? Limit.long value.toList

def Action.ofReading (name : String) (r : Reading) : Action :=
  match name with
  | "instrument" => .instrument (text r "source") (text r "out") (r.has "map")
  | "process" =>
    .process (text r "source") (r.all "trace") (r.get? "checker") (r.get? "output")
      (r.has "allow-partial") (r.has "pretty")
  | "check" =>
    .check (text r "function") (text r "classpath") (number? r "unwind")
      (number? r "max-array-length") (number? r "timeout") (r.get? "output")
  | "methods" => .methods (text r "source") (r.has "pretty")
  | "decls" => .declarations (text r "source") (r.has "pretty")
  | _ => .flatten (text r "tree") (r.has "pretty")

/-- The configuration may be named in front of the command or behind it; the latter counts. -/
def Invocation.ofArguments (arguments : List String) : Except UsageFault Invocation := do
  let request ← programForm.read arguments
  return ⟨(request.own.get? "config").or (request.shared.get? "config"),
    .ofReading request.command.name request.own⟩

/-! ### Answers without an action -/

/-- What is written for a request that is answered at once. -/
def UsageFault.message? : UsageFault → Option String
  | .version name => some (name ++ " " ++ versionText ++ "\n")
  | _ => none

def usageText : String :=
  "Usage: " ++ programName ++ " [--config <FILE>] <COMMAND>\n\nCommands: "
    ++ String.intercalate ", " (programForm.commands.map CommandForm.name) ++ "\n"

def UsageFault.text : UsageFault → String
  | help => usageText
  | version name => name ++ " " ++ versionText ++ "\n"
  | helpOnNothing => usageText
  | missingCommand => "error: a command is needed\n\n" ++ usageText
  | unknownCommand => "error: there is no such command\n\n" ++ usageText
  | unknownArgument => "error: there is an argument that nothing takes\n"
  | missingArgument => "error: an argument is missing\n"
  | missingValue => "error: an option needs a value\n"
  | malformedValue => "error: a value is malformed\n"
  | unneededValue => "error: an option takes no value\n"
  | repeated => "error: an option is given more than once\n"

/-- Help and the version are what was asked for; anything else is a mistake. -/
def UsageFault.isMistake : UsageFault → Bool
  | help => false
  | version _ => false
  | _ => true

end Retrace.Cli
