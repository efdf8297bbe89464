import Retrace.Catalog
import Retrace.Checker.Host
import Retrace.Cli.Action
import Retrace.Job.Run
import Retrace.Symbolic.Flatten

/-! Carrying out a command.

A command works on a disk and writes lines. It ends with a fault or without one; what it has
written until then stays written. -/
namespace Retrace.Cli
open Json (Value)

structure Session where
  disk : Disk
  stdout : String := ""
  /-- Lines about what went wrong on the way. -/
  stderr : List String := []
  deriving DecidableEq, Repr

abbrev Ended := Session × Except Fault Unit

namespace Session

def print (s : Session) (text : String) : Session := {s with stdout := s.stdout ++ text}

def printLine (s : Session) (text : String) : Session := s.print (text ++ "\n")

def printValue (s : Session) (pretty : Bool) (v : Value) : Session :=
  s.printLine (Json.write pretty v)

def complain (s : Session) (text : String) : Session := {s with stderr := s.stderr ++ [text]}

/-- Goes on with what a step gives, or ends with its fault. -/
def andThen {α : Type} (s : Session) (step : Except Fault α) (next : α → Ended) : Ended :=
  match step with
  | .error fault => (s, .error fault)
  | .ok a => next a

def done (s : Session) : Ended := (s, .ok ())

/-- Writes a file and the directories above it. -/
def writeFile (s : Session) (path text : String) : Ended :=
  match s.disk.makeParents path with
  | (d, .error cause) => ({s with disk := d}, .error (.file cause))
  | (d, .ok ()) =>
    match d.write path text with
    | .error cause => ({s with disk := d}, .error (.file cause))
    | .ok d => ({s with disk := d}, .ok ())

def writeFiles (s : Session) (directory : String) : List Instrument.TextFile → Ended
  | [] => s.done
  | f :: rest =>
    match s.writeFile (Path.join directory f.path) f.text with
    | (s, .error fault) => (s, .error fault)
    | (s, .ok ()) => writeFiles s directory rest

end Session

/-! ### The configuration -/

/-- A configuration that does not exist is the default one. -/
def loadConfig (d : Disk) (path : String) : Except Fault Config :=
  if d.isPresent path then (Job.readText d path).bind Config.ofText else .ok {}

/-! ### Commands -/

def pointValue (p : Source.Project) (e : Nat × Instrument.TracePoint) : Value :=
  let (id, point) := e
  let f := p.file point.ref.file
  .object [
    ("traceId", .nat id), ("kind", .string point.kind.name), ("file", .string f.path),
    ("range", (f.range point.ref.node).toValue)]

def pointMapValue (x : Instrument.Instrumentation) : Value :=
  .array (x.points.entries.map (pointValue x.project))

def instrument (c : Config) (s : Session) (source out : String) (showsMap : Bool) : Ended :=
  s.andThen (s.disk.load source) fun project =>
    s.andThen (Instrument.Instrumentation.of c.instrument project) fun x =>
      match s.writeFiles out (x.files ++ [x.support]) with
      | (s, .error fault) => (s, .error fault)
      | (s, .ok ()) =>
        if showsMap then (s.printValue c.output.pretty (pointMapValue x)).done
        else
          (s.printLine (s!"Instrumented {x.files.length} files ({x.points.size} trace points) into "
            ++ out)).done

/-- With several traces the output is a directory, and each tree is named after its trace. -/
def treePath (several : Bool) (output trace : String) : String :=
  if several then Path.join output ((Path.stem? trace).getD "trace" ++ ".json") else output

/-- A job for each trace. -/
def planJobs (source : String) (traces : List String) (checker output : Option String) :
    List Job :=
  let several := 1 < traces.length
  traces.zipIdx.map fun (trace, n) =>
    ⟨toString n, source, trace, checker, output.map fun o => treePath several o trace⟩

def showOutcome (pretty : Bool) (s : Session) (job : Job) (o : Job.Outcome) : Session :=
  match job.output with
  | some path => s.printLine (job.trace ++ s!": {o.tree.size} nodes -> " ++ path)
  | none => s.printValue pretty o.tree.toValue

def showResult (pretty : Bool) (s : Session) (r : Job × Except Fault Job.Outcome) : Session :=
  match r.2 with
  | .ok o => showOutcome pretty s r.1 o
  | .error fault => s.complain (r.1.trace ++ ": " ++ fault.text)

def isFailure (r : Except Fault Job.Outcome) : Bool :=
  match r with
  | .error _ => true
  | .ok _ => false

def process (c : Config) (s : Session) (jobs : List Job) : Ended :=
  let (w, results) := Job.runAll c ⟨s.disk, Registry.empty⟩ jobs
  let s := (jobs.zip results).foldl (showResult c.output.pretty) {s with disk := w.disk}
  let failed := (results.filter isFailure).length
  if failed = 0 then s.done else (s, .error (.jobsFailed failed jobs.length))

def verdictText (o : Checker.Output) : String :=
  if o.foundCounterexample then "counterexample found" else "no counterexample"

def check (s : Session) (command : Checker.Command) (function : String)
    (output : Option String) : Ended :=
  let (d, judged) := Checker.run s.disk command
  let s := {s with disk := d}
  s.andThen judged fun o =>
    match output with
    | none => (s.print o.stdout).done
    | some path =>
      match s.writeFile path o.stdout with
      | (s, .error fault) => (s, .error fault)
      | (s, .ok ()) =>
        (s.printLine (function ++ ": " ++ verdictText o ++ " -> " ++ path)).done

/-- The command of a check, with what its command line says in place of the configuration. -/
def checkCommand (c : Config.Checker) (function classpath : String)
    (unwind maxArrayLength timeout : Option Nat) : Checker.Command :=
  let c := {c with
    unwind := unwind.getD c.unwind
    maxArrayLength := maxArrayLength.getD c.maxArrayLength
    timeoutSeconds := timeout.or c.timeoutSeconds}
  Checker.Command.ofFunction c function classpath

def methods (s : Session) (source : String) (pretty : Bool) : Ended :=
  s.andThen (s.disk.load source) fun project =>
    (s.printValue pretty (.array ((Catalog.methods project).map Catalog.Method.toValue))).done

/-- Lines are those of the sources with their braces. -/
def declarations (s : Session) (source : String) (pretty : Bool) : Ended :=
  s.andThen (s.disk.load source) fun project =>
    let index := Symbolic.DeclarationIndex.ofProject (Instrument.Braces.normalize project)
    (s.printValue pretty index.toValue).done

def flatten (s : Session) (tree : String) (pretty : Bool) : Ended :=
  s.andThen (s.disk.loadTree tree) fun t =>
    (s.printValue pretty (.array ((Symbolic.flatten t).map Symbolic.FlatValue.toValue))).done

def act (c : Config) (s : Session) : Action → Ended
  | .instrument source out showsMap => instrument c s source out showsMap
  | .process source traces checker output allowPartial pretty =>
    let c := {c with
      reconstruct := ⟨c.reconstruct.allowPartial || allowPartial⟩
      output := ⟨c.output.pretty || pretty⟩}
    process c s (planJobs source traces checker output)
  | .check function classpath unwind maxArrayLength timeout output =>
    check s (checkCommand c.checker function classpath unwind maxArrayLength timeout) function
      output
  | .methods source pretty => methods s source (pretty || c.output.pretty)
  | .declarations source pretty => declarations s source (pretty || c.output.pretty)
  | .flatten tree pretty => flatten s tree (pretty || c.output.pretty)

/-- Carries out an invocation. `defaultConfig` is the configuration that is used when none is
named. -/
def run (d : Disk) (defaultConfig : String) (i : Invocation) : Ended :=
  let s : Session := {disk := d}
  s.andThen (loadConfig d (i.config.getD defaultConfig)) fun c => act c s i.action

end Retrace.Cli
