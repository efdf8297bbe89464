import Retrace.Proofs.Disk.Trails
import Retrace.Proofs.Job.Faults

/-! Jobs step by step.

While a job runs, others may run too, so what it comes to depends on what the disk is like at each
of its steps. A `Stage` says how far a job has come, and `Stage.advance` takes one step: it loads,
rebuilds or merges, makes one directory, writes the draft, moves it, or publishes the tree.

`Stage.remaining` is what a job comes to from a stage on if nothing else runs. A step leaves it as
it is (`remaining_advance`), so `Job.run` is what the steps come to one after the other, and there
are no more of them than `Job.turns` says (`left_advance`). -/
namespace Retrace

/-! ### Replacing a file step by step -/

namespace Disk
open Retrace.Path (Component components)

def moveDraft (d : Disk) (path : String) : Disk × Except FileFault Unit :=
  match d.rename (draftPath path) path with
  | .error cause => (d, .error cause)
  | .ok done => (done, .ok ())

def draft (d : Disk) (path text : String) : Disk × Except FileFault Unit :=
  match d.write (draftPath path) text with
  | .error cause => (d, .error cause)
  | .ok drafted => drafted.moveDraft path

/-- Replaces a file, when the directories above it have been made up to `a`. -/
def replaceFrom (d : Disk) (a : Address) (rest : List Component) (path text : String) :
    Disk × Except FileFault Unit :=
  match d.makeFrom a rest with
  | (d, .error cause) => (d, .error cause)
  | (d, .ok ()) => d.draft path text

theorem replace_eq (d : Disk) (path text : String) :
    d.replace path text = d.replaceFrom [] (components path).dropLast path text := by
  unfold replace replaceFrom
  rw [makeParents_eq]
  rfl

end Disk

namespace Job
open Disk (draftPath makeOne towards)
open Retrace.Path (Component components)

/-- How far a job has come. -/
inductive Stage
  | fresh
  /-- The sources have been loaded and their trace points numbered. -/
  | loaded (x : Instrument.Instrumentation)
  | rebuilt (x : Instrument.Instrumentation) (r : Reconstruct.Reconstruction)
  /-- The tree is merged. Of the directories above its file those beyond `a` are to be made. -/
  | making (o : Outcome) (path : String) (a : Address) (rest : List Component)
  | drafting (o : Outcome) (path : String)
  | moving (o : Outcome) (path : String)
  | saved (o : Outcome)
  | ended (result : Except Fault Outcome)

/-- The most steps that a job takes. -/
def turns (job : Job) : Nat := (job.output.elim 0 fun path => (components path).length) + 7

def number (c : Config) (d : Disk) (job : Job) : Except Fault Instrument.Instrumentation := do
  let project ← duringPhase .load (d.load job.source)
  duringPhase .instrument (Instrument.Instrumentation.of c.instrument project)

namespace Stage

def following {α : Type} (x : Except Fault α) (next : α → Stage) : Stage :=
  match x with
  | .error f => ended (.error f)
  | .ok a => next a

/-- A tree is complete; it may have to be written. -/
def complete (job : Job) (o : Outcome) : Stage :=
  match job.output with
  | none => saved o
  | some path => making o path [] (components path).dropLast

def writing (w : Workspace) (x : Except FileFault Disk) (next : Stage) : Workspace × Stage :=
  match x with
  | .error cause => (w, ended (.error ((Fault.file cause).inPhase .serialize)))
  | .ok d => ({w with disk := d}, next)

def advance (c : Config) (job : Job) (w : Workspace) : Stage → Workspace × Stage
  | fresh => (w, following (number c w.disk job) loaded)
  | loaded x => (w, following (duringPhase .reconstruct (rebuild c w.disk job x)) (rebuilt x))
  | rebuilt x r =>
    (w, following (duringPhase .merge (mergeChecked w.disk job x r.tree)) fun (tree, report) =>
      complete job ⟨job.id, tree, r.unconsumed, report⟩)
  | making o path _ [] => (w, drafting o path)
  | making o path a (part :: rest) =>
    writing w (w.disk.makeOne a part rest.isEmpty) (making o path (towards a part) rest)
  | drafting o path =>
    writing w (w.disk.write (draftPath path) (o.tree.json c.output.pretty)) (moving o path)
  | moving o path => writing w (w.disk.rename (draftPath path) path) (saved o)
  | saved o => ({w with registry := publish w.registry o}, ended (.ok o))
  | ended result => (w, ended result)

def result? : Stage → Option (Except Fault Outcome)
  | ended result => some result
  | _ => none

/-! ### What the steps come to -/

def afterSaving (w : Workspace) (o : Outcome) :
    Disk × Except FileFault Unit → Workspace × Except Fault Outcome
  | (d, .error cause) => ({w with disk := d}, .error ((Fault.file cause).inPhase .serialize))
  | (d, .ok ()) => (⟨d, publish w.registry o⟩, .ok o)

/-- What a job comes to when its tree is known, or when it has none. -/
def afterMerging (c : Config) (job : Job) (w : Workspace) :
    Except Fault Outcome → Workspace × Except Fault Outcome
  | .error fault => (w, .error fault)
  | .ok o =>
    match job.output with
    | none => (⟨w.disk, publish w.registry o⟩, .ok o)
    | some path => afterSaving w o (w.disk.replace path (o.tree.json c.output.pretty))

def merging (d : Disk) (job : Job) (x : Instrument.Instrumentation)
    (r : Reconstruct.Reconstruction) : Except Fault Outcome := do
  let (tree, report) ← duringPhase .merge (mergeChecked d job x r.tree)
  return ⟨job.id, tree, r.unconsumed, report⟩

def rebuilding (c : Config) (d : Disk) (job : Job) (x : Instrument.Instrumentation) :
    Except Fault Outcome := do
  merging d job x (← duringPhase .reconstruct (rebuild c d job x))

/-- What a job comes to from a stage on, if it runs alone. -/
def remaining (c : Config) (job : Job) (w : Workspace) : Stage → Workspace × Except Fault Outcome
  | fresh => run c w job
  | loaded x => afterMerging c job w (rebuilding c w.disk job x)
  | rebuilt x r => afterMerging c job w (merging w.disk job x r)
  | making o path a rest =>
    afterSaving w o (w.disk.replaceFrom a rest path (o.tree.json c.output.pretty))
  | drafting o path => afterSaving w o (w.disk.draft path (o.tree.json c.output.pretty))
  | moving o path => afterSaving w o (w.disk.moveDraft path)
  | saved o => (⟨w.disk, publish w.registry o⟩, .ok o)
  | ended result => (w, result)

theorem result_eq (c : Config) (d : Disk) (job : Job) :
    result c d job = number c d job >>= rebuilding c d job := by
  unfold result number
  rw [bind_assoc]
  rfl

theorem run_eq (c : Config) (w : Workspace) (job : Job) :
    run c w job = afterMerging c job w (number c w.disk job >>= rebuilding c w.disk job) := by
  unfold run
  rw [result_eq]
  cases number c w.disk job >>= rebuilding c w.disk job with
  | error f => rfl
  | ok o =>
    unfold afterMerging save
    cases job.output with
    | none => rfl
    | some path =>
      dsimp only
      unfold Disk.saveTree
      cases w.disk.replace path (o.tree.json c.output.pretty) with
      | mk d saved => cases saved <;> rfl

section Remaining
variable (c : Config) (job : Job) (w : Workspace)

theorem remaining_complete (o : Outcome) :
    remaining c job w (complete job o) = afterMerging c job w (.ok o) := by
  unfold complete afterMerging
  cases job.output with
  | none => rfl
  | some path =>
    dsimp only
    rw [Disk.replace_eq]
    rfl

theorem remaining_writing (x : Except FileFault Disk) (next : Stage) :
    remaining c job (writing w x next).1 (writing w x next).2 =
      match x with
      | .error cause => (w, .error ((Fault.file cause).inPhase .serialize))
      | .ok d => remaining c job {w with disk := d} next := by
  cases x <;> rfl

/-- A step does not change what a job comes to alone. -/
theorem remaining_advance (stage : Stage) :
    remaining c job (stage.advance c job w).1 (stage.advance c job w).2 =
      remaining c job w stage := by
  cases stage with
  | fresh =>
    rw [advance, remaining, run_eq]
    cases number c w.disk job <;> rfl
  | loaded x =>
    rw [advance, remaining, rebuilding]
    cases duringPhase .reconstruct (rebuild c w.disk job x) <;> rfl
  | rebuilt x r =>
    rw [advance, remaining, merging]
    cases duringPhase .merge (mergeChecked w.disk job x r.tree) with
    | error f => rfl
    | ok merged => exact remaining_complete c job w _
  | making o path a rest =>
    cases rest with
    | nil => rfl
    | cons part rest =>
      refine (remaining_writing c job w _ _).trans ?_
      show _ = afterSaving w o (w.disk.replaceFrom a (part :: rest) path _)
      unfold Disk.replaceFrom
      rw [Disk.makeFrom_cons]
      cases w.disk.makeOne a part rest.isEmpty <;> rfl
  | drafting o path =>
    refine (remaining_writing c job w _ _).trans ?_
    show _ = afterSaving w o (w.disk.draft path _)
    unfold Disk.draft
    cases w.disk.write (draftPath path) (o.tree.json c.output.pretty) <;> rfl
  | moving o path =>
    refine (remaining_writing c job w _ _).trans ?_
    show _ = afterSaving w o (w.disk.moveDraft path)
    unfold Disk.moveDraft
    cases w.disk.rename (draftPath path) path <;> rfl
  | saved o => rfl
  | ended result => rfl

end Remaining

/-! ### The steps come to an end -/

/-- The most steps that are left. -/
def left (job : Job) : Stage → Nat
  | fresh => job.turns
  | loaded _ => job.turns - 1
  | rebuilt _ _ => job.turns - 2
  | making _ _ _ rest => rest.length + 4
  | drafting _ _ => 3
  | moving _ _ => 2
  | saved _ => 1
  | ended _ => 0

theorem left_eq_zero_iff {job : Job} {stage : Stage} :
    stage.left job = 0 ↔ stage.result?.isSome = true := by
  cases stage <;> simp [left, result?, turns]

theorem left_following {α : Type} {job : Job} {n : Nat} {x : Except Fault α} {next : α → Stage}
    (hn : 0 < n) (h : ∀ a, (next a).left job < n) : (following x next).left job < n := by
  cases x with
  | error f => exact hn
  | ok a => exact h a

theorem left_writing {job : Job} {n : Nat} {w : Workspace} {x : Except FileFault Disk}
    {next : Stage} (h : next.left job < n) : (writing w x next).2.left job < n := by
  cases x with
  | error cause => exact Nat.zero_lt_of_lt h
  | ok d => exact h

theorem left_complete (job : Job) (o : Outcome) : (complete job o).left job < job.turns - 2 := by
  unfold complete turns
  cases job.output with
  | none =>
    rw [left]
    omega
  | some path =>
    rw [left, List.length_dropLast, Option.elim]
    omega

/-- Each step that is taken is one less to take. -/
theorem left_advance (c : Config) (job : Job) (w : Workspace) {stage : Stage}
    (h : stage.result? = none) : (stage.advance c job w).2.left job < stage.left job := by
  have hturns : 7 ≤ job.turns := Nat.le_add_left _ _
  cases stage with
  | fresh =>
    rw [left]
    refine left_following (by omega) fun x => ?_
    rw [left]
    omega
  | loaded x =>
    rw [left]
    refine left_following (by omega) fun r => ?_
    rw [left]
    omega
  | rebuilt x r =>
    rw [left]
    exact left_following (by omega) fun _ => left_complete job _
  | making o path a rest =>
    cases rest with
    | nil => exact Nat.lt_succ_self 3
    | cons part rest => exact left_writing (Nat.lt_succ_self _)
  | drafting o path => exact left_writing (Nat.lt_succ_self 2)
  | moving o path => exact left_writing (Nat.lt_succ_self 1)
  | saved o => exact Nat.lt_succ_self 0
  | ended result => cases h

end Stage

end Job

end Retrace
