import Retrace.Config
import Retrace.Fault
import Retrace.Text.Utf8

/-! Running a checker.

A checker is a program that is started with a command line in the directory of the compiled
classes. `Command.judge` says what its run amounts to: an exit code that is accepted makes the
run a success, any other a failure that shows what the checker has complained of, and so is a run
that takes too long. -/
namespace Retrace.Checker

structure Command where
  program : String
  arguments : List String
  directory : Option String
  accepted : List Int
  /-- In milliseconds. -/
  limit : Option Nat
  deriving DecidableEq, Repr

/-- The exit code of a checker that has found a counterexample. -/
def counterexampleCode : Int := 10

structure Output where
  code : Int
  stdout : String
  stderr : String
  deriving DecidableEq, Repr

def Output.foundCounterexample (o : Output) : Bool := o.code == counterexampleCode

/-- How a program ran: it was not started, or it wrote two streams of bytes and ended after some
milliseconds, with a code unless it was killed. -/
inductive Completion
  | failed (cause : FileFault)
  | ended (code : Option Int) (stdout stderr : List UInt8) (duration : Nat)
  deriving DecidableEq, Repr

namespace Command

def plain (program : String) (arguments : List String) : Command :=
  ⟨program, arguments, none, [0, counterexampleCode], none⟩

/-- The command that checks one method. -/
def ofFunction (c : Config.Checker) (function classpath : String) : Command where
  program := c.binary
  arguments := [
    function, "--classpath", classpath, "--unwind", toString c.unwind,
    "--unwinding-assertions", "--disable-uncaught-exception-check",
    "--throw-runtime-exceptions", "--max-nondet-array-length", toString c.maxArrayLength,
    "--json-ui"] ++ c.extraArguments
  directory := some classpath
  accepted := c.acceptedExitCodes
  limit := c.timeoutSeconds.map (1000 * ·)

def withArguments (c : Command) (more : List String) : Command :=
  {c with arguments := c.arguments ++ more}

/-- The program and its arguments. -/
def line (c : Command) : List String := c.program :: c.arguments

def shown (bytes : List UInt8) : String := Text.Utf8.decode Text.Utf8.replacement bytes

def judgeCode (c : Command) (code : Option Int) (stdout stderr : List UInt8) :
    Except Fault Output :=
  match code with
  | some n =>
    if c.accepted.contains n then .ok ⟨n, shown stdout, shown stderr⟩
    else .error (.externalExit c.program (some n) (shown stderr))
  | none => .error (.externalExit c.program none (shown stderr))

def judge (c : Command) : Completion → Except Fault Output
  | .failed cause => .error (.file cause)
  | .ended code stdout stderr duration =>
    match c.limit with
    | some limit =>
      if limit ≤ duration then .error (.externalTimeout c.program (limit / 1000))
      else c.judgeCode code stdout stderr
    | none => c.judgeCode code stdout stderr

end Command

end Retrace.Checker
