import Retrace.Proofs.Job.Stages

/-! Jobs that run together.

The jobs of a batch share one disk and one registry and take their steps in any order; a schedule
lists the jobs in the order in which they get their turns. Whatever the schedule is, a job comes to
its end once, and has come to it when it has had its turns (`Tally`, `left_run`). Its fault, if it
has one, names one phase (`attributed_run`), and the registry is what the jobs have left there in
the order in which they came to their ends (`registry_run`).

Jobs that run one after the other are a batch that gives each of them all of its turns at once
(`run_inTurn`), so the jobs may come to their ends in any order. -/
namespace Retrace.Job
open Trace

/-- What a job that has come to its end leaves in the registry. -/
def settle (r : Registry) : Except Fault Outcome → Registry
  | .ok o => publish r o
  | .error _ => r

/-- The tree that a job publishes under a name. -/
def published? (id : String) : Except Fault Outcome → Option Tree
  | .ok o => if o.id = id ∧ o.unconsumed = 0 then some o.tree else none
  | .error _ => none

structure Batch where
  workspace : Workspace
  stage : Nat → Stage
  /-- The jobs that have come to their ends, in this order. -/
  finished : List Nat

namespace Batch

def start (w : Workspace) : Batch := ⟨w, fun _ => .fresh, []⟩

/-- What a job has come to, once it has come to its end. -/
def result? (b : Batch) (k : Nat) : Option (Except Fault Outcome) := (b.stage k).result?

/-- Takes a step of the job at a place. -/
def step (c : Config) (job : Job) (b : Batch) (k : Nat) : Batch :=
  let (w, next) := (b.stage k).advance c job b.workspace
  { workspace := w
    stage := fun i => if i = k then next else b.stage i
    finished := if next.result?.isSome then b.finished ++ [k] else b.finished }

/-- Gives a job its turn; one that has come to its end makes nothing of it. -/
def turn (c : Config) (jobs : List Job) (b : Batch) (k : Nat) : Batch :=
  match jobs[k]?, b.result? k with
  | some job, none => step c job b k
  | _, _ => b

def run (c : Config) (jobs : List Job) (b : Batch) (schedule : List Nat) : Batch :=
  schedule.foldl (turn c jobs) b

variable {c : Config} {jobs : List Job} {b : Batch} {k : Nat} {job : Job}

theorem step_stage_self : (step c job b k).stage k = ((b.stage k).advance c job b.workspace).2 :=
  if_pos rfl

theorem step_stage_of_ne {i : Nat} (h : i ≠ k) : (step c job b k).stage i = b.stage i := if_neg h

theorem step_result?_of_ne {i : Nat} (h : i ≠ k) : (step c job b k).result? i = b.result? i :=
  congrArg Stage.result? (step_stage_of_ne h)

theorem step_finished : (step c job b k).finished =
    if ((step c job b k).result? k).isSome then b.finished ++ [k] else b.finished := by
  rw [result?, step_stage_self]
  rfl

theorem turn_of_running (hjob : jobs[k]? = some job) (h : b.result? k = none) :
    turn c jobs b k = step c job b k := by
  unfold turn
  rw [hjob, h]

theorem turn_of_ended (h : (b.result? k).isSome) : turn c jobs b k = b := by
  obtain ⟨result, hresult⟩ := Option.isSome_iff_exists.mp h
  unfold turn
  rw [hresult]
  cases jobs[k]? <;> rfl

/-- What every step of a running job keeps holds after every schedule. -/
theorem run_induction {P : Batch → Prop}
    (hstep : ∀ b k job, jobs[k]? = some job → b.result? k = none → P b → P (step c job b k))
    (h : P b) (schedule : List Nat) : P (b.run c jobs schedule) := by
  induction schedule generalizing b with
  | nil => exact h
  | cons k rest ih =>
    refine ih ?_
    unfold turn
    split
    · rename_i job hjob hrunning
      exact hstep b k job hjob hrunning h
    · exact h

/-! ### Coming to an end -/

/-- The finished jobs are those that have come to their ends, each of them once. -/
structure Tally (jobs : List Job) (b : Batch) : Prop where
  nodup : b.finished.Nodup
  mem_iff : ∀ k, k ∈ b.finished ↔ (b.result? k).isSome
  lt : ∀ k ∈ b.finished, k < jobs.length

theorem tally_step (hjob : jobs[k]? = some job) (hrunning : b.result? k = none)
    (h : Tally jobs b) : Tally jobs (step c job b k) := by
  have hk : k ∉ b.finished := by
    rw [h.mem_iff, hrunning]
    decide
  have hlt : k < jobs.length := (List.getElem?_eq_some_iff.mp hjob).1
  cases hnext : (step c job b k).result? k with
  | none =>
    have hfinished : (step c job b k).finished = b.finished := by
      rw [step_finished, hnext]
      rfl
    refine ⟨hfinished ▸ h.nodup, fun i => ?_, hfinished ▸ h.lt⟩
    rw [hfinished]
    by_cases hi : i = k
    · subst hi
      rw [hnext]
      simpa using hk
    · rw [step_result?_of_ne hi]
      exact h.mem_iff i
  | some result =>
    have hfinished : (step c job b k).finished = b.finished ++ [k] := by
      rw [step_finished, hnext]
      rfl
    refine ⟨?_, fun i => ?_, fun i hi => ?_⟩
    · rw [hfinished]
      exact List.nodup_append.mpr ⟨h.nodup, List.pairwise_singleton _ k,
        fun i hi j hj heq => hk (List.mem_singleton.mp hj ▸ heq ▸ hi)⟩
    · rw [hfinished, List.mem_append, List.mem_singleton]
      by_cases hi : i = k
      · subst hi
        simp [hnext]
      · rw [step_result?_of_ne hi, ← h.mem_iff i]
        simp [hi]
    · rw [hfinished] at hi
      rcases List.mem_append.mp hi with hi | hi
      · exact h.lt i hi
      · exact List.mem_singleton.mp hi ▸ hlt

theorem tally_start (w : Workspace) : Tally jobs (start w) where
  nodup := List.Pairwise.nil
  mem_iff _ := ⟨fun hk => absurd hk List.not_mem_nil, fun hk => nomatch hk⟩
  lt _ hk := absurd hk List.not_mem_nil

theorem tally_run (w : Workspace) (schedule : List Nat) :
    Tally jobs ((start w).run c jobs schedule) :=
  run_induction (fun _ _ _ => tally_step) (tally_start w) schedule

/-- Each turn of a job is one less to take. -/
theorem left_run (hjob : jobs[k]? = some job) (schedule : List Nat) :
    ((b.run c jobs schedule).stage k).left job ≤ (b.stage k).left job - schedule.count k := by
  induction schedule generalizing b with
  | nil => exact Nat.le_refl _
  | cons i rest ih =>
    refine Nat.le_trans ih ?_
    by_cases hi : i = k
    · subst hi
      rw [List.count_cons_self]
      cases hresult : b.result? i with
      | some result =>
        have hended : (b.stage i).left job = 0 :=
          Stage.left_eq_zero_iff.mpr (Option.isSome_iff_exists.mpr ⟨result, hresult⟩)
        rw [turn_of_ended (Option.isSome_iff_exists.mpr ⟨result, hresult⟩)]
        omega
      | none =>
        have hless := Stage.left_advance c job b.workspace hresult
        rw [turn_of_running hjob hresult, step_stage_self]
        omega
    · have hsame : (turn c jobs b i).stage k = b.stage k := by
        unfold turn
        split
        · exact step_stage_of_ne (Ne.symm hi)
        · rfl
      exact Nat.le_of_eq (by rw [List.count_cons_of_ne hi, hsame])

/-- A job that has had its turns has come to its end. -/
theorem isSome_result? (w : Workspace) {schedule : List Nat} (hjob : jobs[k]? = some job)
    (h : job.turns ≤ schedule.count k) :
    (((start w).run c jobs schedule).result? k).isSome := by
  have hleft := left_run (c := c) (b := start w) hjob schedule
  rw [show ((start w).stage k).left job = job.turns from rfl, Nat.sub_eq_zero_of_le h] at hleft
  exact Stage.left_eq_zero_iff.mp (Nat.le_zero.mp hleft)

theorem perm_finished (w : Workspace) {schedule : List Nat}
    (h : ∀ k job, jobs[k]? = some job → job.turns ≤ schedule.count k) :
    ((start w).run c jobs schedule).finished.Perm (List.range jobs.length) := by
  have htally : Tally jobs ((start w).run c jobs schedule) := tally_run w schedule
  refine (List.perm_ext_iff_of_nodup htally.nodup List.nodup_range).mpr fun k => ?_
  rw [List.mem_range]
  refine ⟨htally.lt k, fun hk => (htally.mem_iff k).mpr ?_⟩
  exact isSome_result? w (List.getElem?_eq_getElem hk) (h k _ (List.getElem?_eq_getElem hk))

/-! ### Faults and published trees -/

end Batch

namespace Stage
variable {c : Config} {job : Job} {w : Workspace}

theorem attributed_following {α : Type} {x : Except Fault α} {next : α → Stage} {f : Fault}
    (hx : ∀ f, x = .error f → f.Attributed) (hnext : ∀ a, (next a).result? = none)
    (h : (following x next).result? = some (.error f)) : f.Attributed := by
  cases x with
  | error cause =>
    cases h
    exact hx f rfl
  | ok a => rw [following, hnext a] at h; cases h

theorem result?_complete (job : Job) (o : Outcome) : (complete job o).result? = none := by
  unfold complete
  split <;> rfl

theorem attributed_writing {x : Except FileFault Disk} {next : Stage} {f : Fault}
    (hnext : next.result? = none) (h : (writing w x next).2.result? = some (.error f)) :
    f.Attributed := by
  cases x with
  | error cause =>
    cases h
    exact ⟨.serialize, .file cause, rfl, rfl⟩
  | ok d =>
    rw [writing, hnext] at h
    cases h

theorem attributed_number {d : Disk} {f : Fault} (h : number c d job = .error f) :
    f.Attributed := by
  unfold number at h
  cases hload : duringPhase .load (d.load job.source) with
  | error cause =>
    rw [hload] at h
    cases h
    exact attributed_of_duringPhase (d.bare_load job.source) hload
  | ok project =>
    rw [hload] at h
    simp only [bind, Except.bind] at h
    exact attributed_of_duringPhase (Instrument.bare_instrumentation c.instrument project) h

/-- A fault with which a job comes to its end names one phase. -/
theorem attributed_advance {stage : Stage} {f : Fault} (hstage : stage.result? = none)
    (h : (stage.advance c job w).2.result? = some (.error f)) : f.Attributed := by
  cases stage with
  | fresh => exact attributed_following (fun _ => attributed_number) (fun _ => rfl) h
  | loaded x =>
    exact attributed_following (fun _ => attributed_of_duringPhase (bare_rebuild c w.disk job x))
      (fun _ => rfl) h
  | rebuilt x r =>
    exact attributed_following
      (fun _ => attributed_of_duringPhase (bare_mergeChecked w.disk job x r.tree))
      (fun _ => result?_complete job _) h
  | making o path a rest =>
    cases rest with
    | nil => cases h
    | cons part rest => exact attributed_writing rfl h
  | drafting o path => exact attributed_writing rfl h
  | moving o path => exact attributed_writing rfl h
  | saved o => cases h
  | ended result => cases hstage

theorem registry_following {α : Type} {x : Except Fault α} {next : α → Stage}
    (hnext : ∀ a, (next a).result? = none) (r : Registry) :
    (following x next).result?.elim r (settle r) = r := by
  cases x with
  | error cause => rfl
  | ok a => rw [following, hnext a]; rfl

theorem registry_writing {x : Except FileFault Disk} {next : Stage} (hnext : next.result? = none) :
    (writing w x next).1.registry =
      (writing w x next).2.result?.elim w.registry (settle w.registry) := by
  cases x with
  | error cause => rfl
  | ok d => rw [writing, hnext]; rfl

/-- Nothing is published but by the step in which a job comes to its end. -/
theorem registry_advance (c : Config) (job : Job) (w : Workspace) {stage : Stage}
    (h : stage.result? = none) :
    (stage.advance c job w).1.registry =
      (stage.advance c job w).2.result?.elim w.registry (settle w.registry) := by
  cases stage with
  | fresh => exact (registry_following (fun _ => rfl) _).symm
  | loaded x => exact (registry_following (fun _ => rfl) _).symm
  | rebuilt x r => exact (registry_following (fun _ => result?_complete job _) _).symm
  | making o path a rest =>
    cases rest with
    | nil => rfl
    | cons part rest => exact registry_writing rfl
  | drafting o path => exact registry_writing rfl
  | moving o path => exact registry_writing rfl
  | saved o => rfl
  | ended result => cases h

end Stage

namespace Batch
variable {c : Config} {jobs : List Job} {b : Batch}

theorem attributed_run (w : Workspace) (schedule : List Nat) {k : Nat} {f : Fault}
    (h : ((start w).run c jobs schedule).result? k = some (.error f)) : f.Attributed := by
  refine run_induction (P := fun b => ∀ k f, b.result? k = some (.error f) → f.Attributed)
    (fun b k job _ hrunning hb i f hi => ?_) (by rintro _ _ ⟨⟩) schedule k f h
  by_cases hik : i = k
  · subst hik
    rw [result?, step_stage_self] at hi
    exact Stage.attributed_advance hrunning hi
  · rw [step_result?_of_ne hik] at hi
    exact hb i f hi

/-- What the registry holds after the finished jobs. -/
def settled (b : Batch) (r : Registry) : Registry :=
  b.finished.foldl (fun r k => (b.result? k).elim r (settle r)) r

theorem settled_step {k : Nat} {job : Job} {r : Registry} (hrunning : b.result? k = none)
    (htally : Tally jobs b) (h : b.workspace.registry = b.settled r) :
    (step c job b k).workspace.registry = (step c job b k).settled r := by
  have hold : b.finished.foldl (fun r i => ((step c job b k).result? i).elim r (settle r)) r =
      b.settled r := by
    refine List.foldl_ext _ _ _ fun r i hi => ?_
    rw [step_result?_of_ne]
    rintro rfl
    rw [htally.mem_iff, hrunning] at hi
    cases hi
  have hregistry := Stage.registry_advance c job b.workspace hrunning
  rw [h, ← step_stage_self (c := c) (b := b), ← result?] at hregistry
  refine hregistry.trans ?_
  unfold settled
  rw [step_finished]
  cases hresult : (step c job b k).result? k with
  | none => exact hold.symm
  | some result =>
    rw [Option.isSome_some, if_pos rfl, List.foldl_append, hold, List.foldl_cons, List.foldl_nil,
      hresult]
    rfl

theorem registry_run (w : Workspace) (schedule : List Nat) :
    ((start w).run c jobs schedule).workspace.registry =
      ((start w).run c jobs schedule).settled w.registry := by
  refine (run_induction
    (P := fun b => Tally jobs b ∧ b.workspace.registry = b.settled w.registry)
    (fun b k job hjob hrunning hb => ?_) ⟨tally_start w, rfl⟩ schedule).2
  exact ⟨tally_step hjob hrunning hb.1, settled_step hrunning hb.1 hb.2⟩

theorem get?_settle (r : Registry) (result : Except Fault Outcome) (id : String) :
    (settle r result).get? id = (published? id result).or (r.get? id) := by
  cases result with
  | error f => rfl
  | ok o =>
    rw [settle, publish, published?]
    by_cases hwhole : o.unconsumed = 0
    · rw [if_pos hwhole, Registry.get?_publish]
      by_cases hid : o.id = id
      · simp [hid, hwhole]
      · simp [hid, Ne.symm hid]
    · simp [hwhole]

/-- The last of the jobs that has published a tree under a name decides. -/
theorem get?_settled (b : Batch) (r : Registry) (id : String) :
    (b.settled r).get? id =
      (b.finished.reverse.findSome? fun k => (b.result? k).bind (published? id)).or
        (r.get? id) := by
  unfold settled
  induction b.finished generalizing r with
  | nil => rfl
  | cons k rest ih =>
    rw [List.foldl_cons, ih, List.reverse_cons, List.findSome?_append, Option.or_assoc,
      List.findSome?_singleton]
    cases b.result? k with
    | none => rfl
    | some result => rw [Option.elim, get?_settle, Option.bind_some]

/-! ### One after the other -/

/-- Each job has all of its turns at once. -/
def inTurn (jobs : List Job) (order : List Nat) : List Nat :=
  order.flatMap fun k => List.replicate (jobs[k]?.elim 0 turns) k

/-- A job comes to its end. -/
def conclude (b : Batch) (k : Nat) (w : Workspace) (result : Except Fault Outcome) : Batch :=
  ⟨w, fun i => if i = k then .ended result else b.stage i, b.finished ++ [k]⟩

theorem conclude_stage_of_ne {i k : Nat} {w : Workspace} {result : Except Fault Outcome}
    (h : i ≠ k) : (b.conclude k w result).stage i = b.stage i := if_neg h

theorem run_append (b : Batch) (schedule more : List Nat) :
    b.run c jobs (schedule ++ more) = (b.run c jobs schedule).run c jobs more :=
  List.foldl_append

theorem run_replicate_of_ended {k : Nat} (h : (b.result? k).isSome) (n : Nat) :
    b.run c jobs (List.replicate n k) = b := by
  induction n with
  | zero => rfl
  | succ n ih =>
    rw [List.replicate_succ]
    show (turn c jobs b k).run c jobs _ = b
    rw [turn_of_ended h, ih]

/-- A job that has enough turns while the others wait comes to what it comes to alone. -/
theorem run_replicate {k : Nat} {job : Job} (hjob : jobs[k]? = some job) {n : Nat}
    (hrunning : b.result? k = none) (hn : (b.stage k).left job ≤ n) :
    ∃ w result, (b.stage k).remaining c job b.workspace = (w, result) ∧
      b.run c jobs (List.replicate n k) = b.conclude k w result := by
  induction n generalizing b with
  | zero =>
    have hended := Stage.left_eq_zero_iff.mp (Nat.le_zero.mp hn)
    rw [← result?, hrunning] at hended
    cases hended
  | succ n ih =>
    have hleft := Stage.left_advance c job b.workspace hrunning
    have hremaining := Stage.remaining_advance c job b.workspace (b.stage k)
    rw [List.replicate_succ]
    show ∃ w result, _ ∧ (turn c jobs b k).run c jobs _ = _
    rw [turn_of_running hjob hrunning, ← hremaining]
    cases hnext : (step c job b k).result? k with
    | none =>
      have hfinished : (step c job b k).finished = b.finished := by
        rw [step_finished, hnext]
        rfl
      obtain ⟨w, result, hresult, hrun⟩ := ih hnext (by rw [step_stage_self]; omega)
      rw [step_stage_self] at hresult
      refine ⟨w, result, hresult, ?_⟩
      rw [hrun]
      unfold conclude
      rw [hfinished]
      congr 1
      funext i
      by_cases hi : i = k
      · rw [if_pos hi, if_pos hi]
      · rw [if_neg hi, if_neg hi, step_stage_of_ne hi]
    | some result =>
      have hended : ((b.stage k).advance c job b.workspace).2 = .ended result := by
        rw [result?, step_stage_self] at hnext
        generalize ((b.stage k).advance c job b.workspace).2 = stage at hnext ⊢
        cases stage <;> cases hnext
        rfl
      refine ⟨((b.stage k).advance c job b.workspace).1, result, by rw [hended]; rfl, ?_⟩
      rw [run_replicate_of_ended (Option.isSome_iff_exists.mpr ⟨result, hnext⟩)]
      unfold step
      dsimp only
      rw [hended]
      rfl

/-- Jobs that have their turns one after the other come to what they come to when they are run one
after the other, in whatever order. -/
theorem run_inTurn {order : List Nat} (hnodup : order.Nodup)
    (hjobs : ∀ k ∈ order, k < jobs.length) (hfresh : ∀ k ∈ order, b.stage k = .fresh) :
    (b.run c jobs (inTurn jobs order)).workspace =
        (runAll c b.workspace (order.filterMap (jobs[·]?))).1 ∧
      order.map (b.run c jobs (inTurn jobs order)).result? =
        (runAll c b.workspace (order.filterMap (jobs[·]?))).2.map some ∧
      (b.run c jobs (inTurn jobs order)).finished = b.finished ++ order ∧
      ∀ k, k ∉ order → (b.run c jobs (inTurn jobs order)).stage k = b.stage k := by
  induction order generalizing b with
  | nil => exact ⟨rfl, rfl, (List.append_nil _).symm, fun _ _ => rfl⟩
  | cons k rest ih =>
    obtain ⟨hk, hrest⟩ := List.nodup_cons.mp hnodup
    obtain ⟨hlt, hlts⟩ := List.forall_mem_cons.mp hjobs
    obtain ⟨hstage, hstages⟩ := List.forall_mem_cons.mp hfresh
    have hjob : jobs[k]? = some jobs[k] := List.getElem?_eq_getElem hlt
    obtain ⟨w, result, hresult, hrun⟩ := run_replicate (c := c) (b := b) (n := jobs[k].turns) hjob
      (by rw [result?, hstage]; rfl) (by rw [hstage]; exact Nat.le_refl _)
    rw [hstage] at hresult
    have hturns : inTurn jobs (k :: rest) =
        List.replicate jobs[k].turns k ++ inTurn jobs rest := by
      unfold inTurn
      rw [List.flatMap_cons, hjob]
      rfl
    rw [hturns, run_append, hrun, List.filterMap_cons_some hjob, runAll]
    rw [show Job.run c b.workspace jobs[k] = (w, result) from hresult]
    have hwaiting : ∀ i ∈ rest, (b.conclude k w result).stage i = .fresh := by
      intro i hi
      rw [conclude_stage_of_ne (by rintro rfl; exact hk hi)]
      exact hstages i hi
    obtain ⟨hw, hresults, hfinished, hothers⟩ := ih hrest hlts hwaiting
    refine ⟨hw, ?_, ?_, fun i hi => ?_⟩
    · have hself : (b.conclude k w result).stage k = .ended result := if_pos rfl
      rw [List.map_cons, List.map_cons, hresults, result?, hothers k hk, hself]
      rfl
    · rw [hfinished, conclude, List.append_assoc]
      rfl
    · obtain ⟨hne, hnot⟩ := not_or.mp (mt List.mem_cons.mpr hi)
      rw [hothers i hnot, conclude_stage_of_ne hne]

end Batch

end Retrace.Job
