import Retrace.Disk.Sources
import Retrace.Disk.TreeFile
import Retrace.Instrument.Instrumentation
import Retrace.Job.Registry
import Retrace.Reconstruct.Machine
import Retrace.Symbolic.Merge

/-! Jobs.

A job rebuilds the tree of one recorded trace: it loads the sources, numbers their trace points,
reads the trace and reconstructs the tree, merges what a checker has found, and writes the tree.
`Job.result` is what it comes to and `Job.run` what it leaves behind. A fault names the phase it
happened in. Only a tree that has taken up the whole trace is published. -/
namespace Retrace
open Trace

structure Job where
  id : String
  source : String
  trace : String
  checker : Option String := none
  output : Option String := none
  deriving DecidableEq, Repr

/-- Where jobs are run. -/
structure Workspace where
  disk : Disk
  registry : Registry
  deriving DecidableEq, Repr

namespace Job

structure Outcome where
  id : String
  tree : Tree
  unconsumed : Nat
  merged : Option Symbolic.MergeReport
  deriving DecidableEq, Repr

def readText (d : Disk) (path : String) : Except Fault String := (d.read path).mapError .file

def readTrace (d : Disk) (path : String) : Except Fault Stream := do
  Stream.parse (← readText d path)

def readAssignments (d : Disk) (path : String) : Except Fault (List Symbolic.Assignment) := do
  Symbolic.Assignment.ofText (← readText d path)

def rebuild (c : Config) (d : Disk) (job : Job) (x : Instrument.Instrumentation) :
    Except Fault Reconstruct.Reconstruction := do
  let stream ← readTrace d job.trace
  Reconstruct.reconstruct (Reconstruct.Setting.of x.project x.points) c.reconstruct.allowPartial
    stream

def mergeChecked (d : Disk) (job : Job) (x : Instrument.Instrumentation) (t : Tree) :
    Except Fault (Tree × Option Symbolic.MergeReport) :=
  match job.checker with
  | none => .ok (t, none)
  | some path => do
    let assignments ← readAssignments d path
    let (t, report) := Symbolic.merge (Symbolic.DeclarationIndex.ofProject x.project) assignments t
    return (t, some report)

/-- What the job comes to, before anything is written. -/
def result (c : Config) (d : Disk) (job : Job) : Except Fault Outcome := do
  let project ← duringPhase .load (d.load job.source)
  let x ← duringPhase .instrument (Instrument.Instrumentation.of c.instrument project)
  let r ← duringPhase .reconstruct (rebuild c d job x)
  let (tree, report) ← duringPhase .merge (mergeChecked d job x r.tree)
  return ⟨job.id, tree, r.unconsumed, report⟩

def save (c : Config) (d : Disk) (job : Job) (o : Outcome) : Disk × Except Fault Unit :=
  match job.output with
  | none => (d, .ok ())
  | some path =>
    let (d, saved) := d.saveTree c.output.pretty path o.tree
    (d, duringPhase .serialize saved)

def publish (r : Registry) (o : Outcome) : Registry :=
  if o.unconsumed = 0 then r.publish o.id o.tree else r

def run (c : Config) (w : Workspace) (job : Job) : Workspace × Except Fault Outcome :=
  match result c w.disk job with
  | .error fault => (w, .error fault)
  | .ok o =>
    match save c w.disk job o with
    | (d, .error fault) => ({w with disk := d}, .error fault)
    | (d, .ok ()) => (⟨d, publish w.registry o⟩, .ok o)

/-- Runs jobs one after the other. -/
def runAll (c : Config) (w : Workspace) : List Job → Workspace × List (Except Fault Outcome)
  | [] => (w, [])
  | job :: rest =>
    let (w, o) := run c w job
    let (w, os) := runAll c w rest
    (w, o :: os)

end Job

end Retrace
