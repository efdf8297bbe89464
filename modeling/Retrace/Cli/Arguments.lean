import Retrace.Text.Words

/-! Reading a command line.

A command has options, some of which take a value, and at most one value of its own. Options are
given by their long names, or by one letter that may be followed by its value; behind two dashes
everything is a value. A value is checked when the next argument has been looked at, so of two
mistakes the earlier one counts (`Reading.settle`). -/
namespace Retrace.Cli

inductive ValueKind
  | path
  | text
  | number (limit : Nat)
  deriving DecidableEq, Repr

/-- An option, or the value that a command has of its own. An option that takes no value is a
flag. -/
structure Parameter where
  name : String
  letter : Option Char := none
  kind : Option ValueKind := none
  isRepeatable : Bool := false
  isRequired : Bool := false
  deriving DecidableEq, Repr

structure CommandForm where
  name : String
  short : Option String := none
  operand : Parameter
  options : List Parameter
  deriving DecidableEq, Repr

/-- Why a command line is not carried out. -/
inductive UsageFault
  | help
  | version (name : String)
  | helpOnNothing
  | missingCommand
  | unknownCommand
  | unknownArgument
  | missingArgument
  | missingValue
  | malformedValue
  | unneededValue
  | repeated
  deriving DecidableEq, Repr

/-- A parameter that has been named, and its value as soon as it is known. -/
structure Pending where
  parameter : Parameter
  value : Option String
  deriving DecidableEq, Repr

structure Reading where
  /-- The latest first. -/
  given : List (String × String) := []
  pending : Option Pending := none
  /-- The next argument is the value of an option. -/
  awaits : Bool := false
  hasOperand : Bool := false
  /-- Two dashes have been passed. -/
  onlyValues : Bool := false
  deriving DecidableEq, Repr

namespace Reading

def has (r : Reading) (name : String) : Bool := r.given.any fun g => g.1 == name

def all (r : Reading) (name : String) : List String :=
  (r.given.reverse.filter fun g => g.1 == name).map Prod.snd

def get? (r : Reading) (name : String) : Option String := (r.all name).head?

def checkValue (kind : Option ValueKind) (value : String) : Except UsageFault Unit :=
  match kind with
  | some .path => if value == "" then .error .missingValue else .ok ()
  | some (.number limit) =>
    if (Text.natural? limit value.toList).isSome then .ok () else .error .malformedValue
  | _ => .ok ()

/-- Takes a value down. Only some parameters may be given more than once. -/
def accept (r : Reading) (p : Parameter) (value : String) : Except UsageFault Reading :=
  if r.has p.name && !p.isRepeatable then .error .repeated
  else (checkValue p.kind value).map fun _ => {r with given := (p.name, value) :: r.given}

/-- Takes down what is pending. -/
def settle (r : Reading) : Except UsageFault Reading :=
  match r.pending with
  | none => .ok {r with awaits := false}
  | some ⟨_, none⟩ => .error .missingValue
  | some ⟨p, some value⟩ => {r with pending := none, awaits := false}.accept p value

/-- An option with a value directly behind it, or with one that may follow. -/
def option (r : Reading) (p : Parameter) (value : Option String) : Except UsageFault Reading := do
  let r ← r.settle
  match value with
  | some v => r.accept p v
  | none => return {r with pending := some ⟨p, none⟩, awaits := true}

def flag (r : Reading) (p : Parameter) : Except UsageFault Reading := do
  (← r.settle).accept p ""

def operand (r : Reading) (p : Parameter) (value : String) : Except UsageFault Reading := do
  if r.hasOperand then .error .unknownArgument
  else return {← r.settle with pending := some ⟨p, some value⟩, hasOperand := true}

/-- Everything that a command needs has been given. -/
def complete (r : Reading) (needed : List Parameter) : Except UsageFault Reading := do
  let r ← r.settle
  if needed.all fun p => !p.isRequired || r.has p.name then return r else .error .missingArgument

end Reading

/-! ### Names of options -/

inductive Named
  | option (p : Parameter)
  | help
  | version

def named? (options : List Parameter) (wanted : Parameter → Bool) (isHelp isVersion : Bool) :
    Option Named :=
  match options.find? wanted with
  | some p => some (.option p)
  | none => if isHelp then some .help else if isVersion then some .version else none

def byName? (options : List Parameter) (name : String) : Option Named :=
  named? options (fun p => p.name == name) (name == "help") (name == "version")

def byLetter? (options : List Parameter) (c : Char) : Option Named :=
  named? options (fun p => p.letter == some c) (c == 'h') (c == 'V')

/-- The name and the value of a long option. -/
def splitLong (body : List Char) : String × Option String :=
  match body.span (· ≠ '=') with
  | (name, _ :: value) => (String.ofList name, some (String.ofList value))
  | (name, []) => (String.ofList name, none)

namespace Reading

def long (title : String) (options : List Parameter) (r : Reading) (body : List Char) :
    Except UsageFault Reading :=
  let (name, value) := splitLong body
  match byName? options name, value with
  | none, _ => .error .unknownArgument
  | some (.option p), value =>
    match p.kind, value with
    | some _, value => r.option p value
    | none, none => r.flag p
    | none, some _ => .error .unneededValue
  | some _, some _ => .error .unneededValue
  | some .help, none => r.settle.bind fun _ => .error .help
  | some .version, none => r.settle.bind fun _ => .error (.version title)

/-- Letters behind one dash. What follows the letter of an option that takes a value is the
value. -/
def letters (title : String) (options : List Parameter) (r : Reading) :
    List Char → Except UsageFault Reading
  | [] => .ok r
  | c :: rest =>
    match byLetter? options c with
    | none => .error .unknownArgument
    | some .help => r.settle.bind fun _ => .error .help
    | some .version => r.settle.bind fun _ => .error (.version title)
    | some (.option p) =>
      match p.kind, rest with
      | none, rest => (r.flag p).bind fun r => letters title options r rest
      | some _, [] => r.option p none
      | some _, '=' :: value => r.option p (some (String.ofList value))
      | some _, value => r.option p (some (String.ofList value))

/-- What an argument is, unless it is a value. -/
inductive Mark
  | dashes
  | long (body : List Char)
  | letters (body : List Char)
  | value

def mark (argument : String) : Mark :=
  match argument.toList with
  | ['-', '-'] => .dashes
  | '-' :: '-' :: body => .long body
  | '-' :: c :: body => .letters (c :: body)
  | _ => .value

def take (title : String) (options : List Parameter)
    (own : Reading → String → Except UsageFault Reading) (r : Reading) (argument : String) :
    Except UsageFault Reading :=
  if r.onlyValues then own r argument
  else
    match mark argument with
    | .dashes => .ok {r with onlyValues := true}
    | .long body => r.long title options body
    | .letters body => r.letters title options body
    | .value =>
      match r.awaits, r.pending with
      | true, some p =>
        .ok {r with pending := some {p with value := some argument}, awaits := false}
      | _, _ => own r argument

end Reading

/-! ### Commands -/

namespace CommandForm

def answersTo (c : CommandForm) (name : String) : Bool := c.name == name || c.short == some name

def read (program : String) (shared : List Parameter) (c : CommandForm)
    (arguments : List String) : Except UsageFault Reading := do
  let title := program ++ "-" ++ c.name
  let r ← arguments.foldlM
    (Reading.take title (c.options ++ shared) fun r a => r.operand c.operand a) {}
  r.complete (c.operand :: c.options)

end CommandForm

/-- A program with its commands and the options that all of them share. -/
structure ProgramForm where
  name : String
  shared : List Parameter
  commands : List CommandForm
  deriving DecidableEq, Repr

/-- What a command line asks for. -/
structure Request where
  command : CommandForm
  shared : Reading
  own : Reading
  deriving DecidableEq, Repr

namespace ProgramForm

def command? (p : ProgramForm) (name : String) : Option CommandForm :=
  p.commands.find? fun c => c.answersTo name

/-- Help is shown on the program, or on one of its commands. -/
def helpOn (p : ProgramForm) : List String → UsageFault
  | [] => .help
  | [name] => if name == "help" || (p.command? name).isSome then .help else .unknownCommand
  | _ => .unknownCommand

/-- A value where the name of a command should stand. -/
def stray (p : ProgramForm) (r : Reading) (argument : String) : Except UsageFault Reading :=
  if r.onlyValues && (argument == "help" || (p.command? argument).isSome) then
    .error .unknownArgument
  else .error .unknownCommand

def finish (r : Reading) : UsageFault :=
  match r.settle with
  | .error fault => fault
  | .ok r => if r.given.isEmpty then .helpOnNothing else .missingCommand

def readFrom (p : ProgramForm) (r : Reading) : List String → Except UsageFault Request
  | [] => .error (finish r)
  | a :: rest =>
    let isName := !r.onlyValues && !r.awaits
    if isName && a == "help" then .error (p.helpOn rest)
    else
      match if isName then p.command? a else none with
      | some c => do
        let own ← c.read p.name p.shared rest
        return ⟨c, ← r.settle, own⟩
      | none =>
        match r.take p.name p.shared p.stray a with
        | .error fault => .error fault
        | .ok r => readFrom p r rest

def read (p : ProgramForm) (arguments : List String) : Except UsageFault Request :=
  p.readFrom {} arguments

end ProgramForm

end Retrace.Cli
