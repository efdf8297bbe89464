import Retrace.Instrument.Braces
import Retrace.Instrument.Probe
import Retrace.Instrument.TracePoint

/-! Instrumenting a project.

The files get their braces and are parsed anew, and each trace point of the result gets a probe.
A project that holds a call of the tracer already is refused, so that nothing is instrumented
twice. Neither the braces nor the probes break a line. -/
namespace Retrace.Instrument
open Java Source

structure TextFile where
  path : String
  text : String
  deriving DecidableEq, Repr

structure Instrumentation where
  project : Project
  points : PointMap
  files : List TextFile
  support : TextFile
  deriving DecidableEq, Repr

namespace Instrumentation

def contains (text part : List Char) : Bool :=
  match text with
  | [] => part.isEmpty
  | c :: cs => part.isPrefixOf (c :: cs) || contains cs part

def marked? (probe : Probe) (p : Project) : Option File :=
  p.fileList.find? fun f => contains f.text.toList probe.marker.toList

/-- The probes of a file whose first trace point has the id `first`. -/
def probes (probe : Probe) (first : Nat) (ps : List Placement) : List Insertion :=
  ps.zipIdx.map fun (x, k) => ⟨x.offset, probe.statement (first + k), 0⟩

def instrumentFile (probe : Probe) (first : Nat) (f : File) (ps : List Placement) : TextFile :=
  ⟨f.path, (Edit.apply f.text (probes probe first ps)).getD f.text⟩

def instrumentFiles (probe : Probe) (first : Nat) : List File → List TextFile
  | [] => []
  | f :: rest =>
    let ps := placements f
    instrumentFile probe first f ps :: instrumentFiles probe (first + ps.length) rest

def run (probe : Probe) (p : Project) : Except Fault Instrumentation :=
  match marked? probe p with
  | some f => .error (.alreadyInstrumented f.path)
  | none =>
    let q := Braces.normalize p
    .ok ⟨q, PointMap.ofProject q, instrumentFiles probe 1 q.fileList,
      ⟨probe.supportPath, probe.supportSource⟩⟩

def of (c : Config.Instrument) (p : Project) : Except Fault Instrumentation := do
  run (← Probe.of c) p

end Instrumentation

end Retrace.Instrument
