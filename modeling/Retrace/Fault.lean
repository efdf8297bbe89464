import Retrace.Text.Quoted

/-! What can go wrong.

A fault is its cause; `Fault.message?` gives the wording of the causes that have one of their own.
A fault is attributed to at most one phase of a job, the first that claims it
(`Fault.inPhase_inPhase`). -/
namespace Retrace

inductive Phase
  | load
  | instrument
  | reconstruct
  | merge
  | serialize
  deriving DecidableEq, Repr

def Phase.name : Phase → String
  | load => "load"
  | instrument => "instrument"
  | reconstruct => "reconstruct"
  | merge => "merge"
  | serialize => "serialize"

/-- Why a file could not be read or written. -/
inductive FileFault
  | notFound
  | invalidData
  | isADirectory
  | notADirectory
  | alreadyExists
  | permissionDenied
  deriving DecidableEq, Repr

/-- How a text fails to be the JSON that is asked for: it ends too early, it is malformed, it is
well formed and of the wrong shape, or there is nothing that could be read. -/
inductive JsonFault
  | eof
  | malformed
  | shape
  | unreadable
  deriving DecidableEq, Repr

/-- How a list of nodes fails to be a tree. -/
inductive TreeFault
  | noRoot
  | firstNotRoot
  | noParent (node : Nat)
  | missingParent (node parent : Nat)
  deriving DecidableEq, Repr

def TreeFault.message : TreeFault → String
  | noRoot => "trace tree holds no root node"
  | firstNotRoot => "first trace node is not the root"
  | noParent node => s!"trace node {node} has no parent"
  | missingParent node parent => s!"trace node {node} points at missing parent {parent}"

inductive Fault
  | unknownTraceId (id : Nat)
  | traceFormat (position : Nat) (token : String)
  | incompleteTrace (remaining total : Nat)
  | alreadyInstrumented (path : String)
  | unparsed (path message : String)
  | sourceNotFound (path : String)
  | externalExit (program : String) (code : Option Int) (stderr : String)
  | externalTimeout (program : String) (seconds : Nat)
  | configuration (message : String)
  | jobsFailed (failed total : Nat)
  | file (cause : FileFault)
  | json (cause : JsonFault)
  | tree (cause : TreeFault)
  | toml
  | during (phase : Phase) (source : Fault)
  deriving DecidableEq, Repr

namespace Fault

def codeText : Option Int → String
  | none => "None"
  | some code => s!"Some({code})"

def message? : Fault → Option String
  | unknownTraceId id => some s!"Trace references unknown trace id {id}"
  | traceFormat position token =>
    some ("Malformed trace token " ++ Text.quoted token ++ s!" at position {position}")
  | incompleteTrace remaining total =>
    some s!"Trace incomplete: {remaining} of {total} tokens left unconsumed"
  | alreadyInstrumented path => some ("Source already instrumented: " ++ path)
  | unparsed path message => some ("Parse error in " ++ path ++ ": " ++ message)
  | sourceNotFound path => some ("Source directory not found: " ++ path)
  | externalExit program code stderr =>
    some (program ++ " exited with unexpected code " ++ codeText code ++ ": " ++ stderr)
  | externalTimeout program seconds => some (program ++ s!" timed out after {seconds}s")
  | configuration message => some ("Configuration error: " ++ message)
  | jobsFailed failed total => some s!"{failed} of {total} job(s) failed"
  | file _ => none
  | json _ => none
  | tree cause => some cause.message
  | toml => none
  | during p source =>
    source.message?.map fun text => p.name ++ " phase failed: " ++ text

/-- What is shown of a fault: its message, or else what kind of thing failed. -/
def text : Fault → String
  | file _ => "IO error"
  | json _ => "JSON error"
  | tree _ => "JSON error"
  | toml => "TOML parse error"
  | during p source => p.name ++ " phase failed: " ++ source.text
  | cause => cause.message?.getD ""

/-- A fault that has a phase already keeps it. -/
def inPhase (p : Phase) : Fault → Fault
  | during q source => during q source
  | cause => during p cause

def phase? : Fault → Option Phase
  | during p _ => some p
  | _ => none

theorem inPhase_inPhase (p q : Phase) (f : Fault) : (f.inPhase p).inPhase q = f.inPhase p := by
  cases f <;> rfl

theorem phase?_inPhase (p : Phase) (f : Fault) :
    (f.inPhase p).phase? = some (f.phase?.getD p) := by
  cases f <;> rfl

end Fault

/-- Attributes the failure of a step to a phase. -/
def duringPhase {α : Type} (p : Phase) : Except Fault α → Except Fault α
  | .error f => .error (f.inPhase p)
  | .ok a => .ok a

end Retrace
