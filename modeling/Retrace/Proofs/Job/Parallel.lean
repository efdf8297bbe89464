import Retrace.Proofs.Job.Lockstep
import Retrace.Proofs.Reconstruct.Run

/-! What jobs come to that run together.

Each job of a batch comes to an end, a fault names one phase, and the registry holds what was
published last under each name. Jobs that spare each other come to what they come to alone, whatever
the schedule is (`result?_of_independent`).

`output_inside_of_output` shows two jobs that do not: the output of one stands where the other needs
a directory. -/
namespace Retrace.Job
open Trace
open Disk (Concerns Keeps destination)

/-- Every job has as many turns as it may need. -/
def Fair (jobs : List Job) (schedule : List Nat) : Prop :=
  ∀ k job, jobs[k]? = some job → job.turns ≤ schedule.count k

namespace Batch
variable {c : Config} {w : Workspace} {jobs : List Job} {b : Batch}

/-- Each job is on the way that it goes alone. -/
structure Sound (c : Config) (w : Workspace) (jobs : List Job) (b : Batch) : Prop where
  keeps : Keeps w.disk b.workspace.disk
  alone : ∀ k job, jobs[k]? = some job → ∃ own : Workspace,
    Alike job b.workspace.disk own.disk ∧ (b.stage k).Fits job own.disk ∧
      ((b.stage k).remaining c job own).2 = (Job.run c w job).2

theorem sound_start (c : Config) (w : Workspace) (jobs : List Job) : Sound c w jobs (start w) where
  keeps _ ha := ha
  alone _ job _ := ⟨w, alike_refl job w.disk, trivial, rfl⟩

/-- A step of one job leaves all of them on their ways. -/
theorem sound_step (hindependent : Independent w.disk jobs) {k : Nat} {job : Job}
    (hjob : jobs[k]? = some job) (h : Sound c w jobs b) : Sound c w jobs (step c job b k) := by
  obtain ⟨own, halike, hfits, hremaining⟩ := h.alone k job hjob
  have hchange : Change job b.workspace.disk (step c job b k).workspace.disk :=
    change_advance halike hfits
  refine ⟨fun a ha => hchange.keeps a (h.keeps a ha), fun i other hother => ?_⟩
  by_cases hi : i = k
  · subst hi
    obtain rfl := Option.some.inj (hjob.symm.trans hother)
    have htogether := advance_alike (c := c) halike hfits
    refine ⟨((b.stage i).advance c job own).1, htogether.alike, ?_, ?_⟩
    · rw [step_stage_self, htogether.stage]
      exact htogether.fits
    · rw [step_stage_self, htogether.stage, Stage.remaining_advance, hremaining]
  · obtain ⟨own', halike', hfits', hremaining'⟩ := h.alone i other hother
    have hspares := spares_of_independent hindependent hjob hother (Ne.symm hi)
    refine ⟨own', halike'.of_change hspares h.keeps hchange, ?_, ?_⟩
    · rw [step_stage_of_ne hi]
      exact hfits'
    · rw [step_stage_of_ne hi]
      exact hremaining'

/-- Jobs that spare each other come to what they come to alone. -/
theorem result?_of_independent (hindependent : Independent w.disk jobs) (schedule : List Nat)
    {k : Nat} {job : Job} (hjob : jobs[k]? = some job) {result : Except Fault Outcome}
    (hresult : ((start w).run c jobs schedule).result? k = some result) :
    result = (Job.run c w job).2 := by
  have hsound : Sound c w jobs ((start w).run c jobs schedule) :=
    run_induction (fun _ _ _ hjob _ => sound_step hindependent hjob) (sound_start c w jobs) schedule
  obtain ⟨own, -, -, hremaining⟩ := hsound.alone k job hjob
  unfold result? at hresult
  cases hstage : ((start w).run c jobs schedule).stage k with
  | ended result' =>
    rw [hstage] at hresult hremaining
    cases hresult
    exact hremaining
  | _ =>
    rw [hstage] at hresult
    cases hresult

/-! ### Schedules of every order -/

theorem turns_le_count_inTurn {order : List Nat} {k : Nat} {job : Job} (hk : k ∈ order)
    (hjob : jobs[k]? = some job) : job.turns ≤ (inTurn jobs order).count k := by
  unfold inTurn
  induction order with
  | nil => exact absurd hk List.not_mem_nil
  | cons i rest ih =>
    rw [List.flatMap_cons, List.count_append]
    rcases List.mem_cons.mp hk with rfl | hk
    · rw [hjob, List.count_replicate_self]
      exact Nat.le_add_right _ _
    · exact Nat.le_trans (ih hk) (Nat.le_add_left _ _)

theorem fair_inTurn {order : List Nat} (h : order.Perm (List.range jobs.length)) :
    Fair jobs (inTurn jobs order) := fun _ _ hjob =>
  turns_le_count_inTurn
    (h.mem_iff.mpr (List.mem_range.mpr (List.getElem?_eq_some_iff.mp hjob).1)) hjob

end Batch

/-! ### Jobs that can be followed -/

section Followed
open Reconstruct
variable {c : Config} {w : Workspace} {job : Job}

/-- What a job without a checker comes to, if its machine halts within so many steps. -/
def outcome? (c : Config) (d : Disk) (job : Job) (count : Nat) : Option Outcome :=
  match number c d job, readTrace d job.trace with
  | .ok x, .ok stream =>
    (Machine.outcome? (.of x.project x.points) count stream.rest).map fun r =>
      ⟨job.id, r.tree, r.unconsumed, none⟩
  | _, _ => none

theorem run_of_outcome? (count : Nat) {o : Outcome} (hchecker : job.checker = none)
    (h : outcome? c w.disk job count = some o) (hwhole : o.unconsumed = 0) :
    run c w job = Stage.afterMerging c job w (.ok o) := by
  unfold outcome? at h
  split at h
  · rename_i x stream hnumber hstream
    obtain ⟨r, hr, rfl⟩ := Option.map_eq_some_iff.mp h
    obtain ⟨m, hrun, rfl⟩ := Machine.run_of_outcome? hr
    have hrebuild : rebuild c w.disk job x = .ok ⟨m.tree, m.rest.length⟩ := by
      unfold rebuild reconstruct
      rw [hstream]
      simp only [bind, Except.bind, hrun]
      rw [if_neg fun hleft => hleft.1 hwhole]
      rfl
    rw [Stage.run_eq, hnumber]
    show Stage.afterMerging c job w (Stage.rebuilding c w.disk job x) = _
    unfold Stage.rebuilding Stage.merging mergeChecked
    rw [hrebuild, hchecker]
    rfl
  · cases h

/-- A property of the outcome of a job that writes its tree can be decided. -/
theorem exists_run (count : Nat) {path : String} {P : Outcome → Prop} [DecidablePred P]
    (hchecker : job.checker = none) (houtput : job.output = some path)
    (h : ((outcome? c w.disk job count).any fun o => decide (o.unconsumed = 0 ∧ P o ∧
      (w.disk.replace path (o.tree.json c.output.pretty)).2.isOk)) = true) :
    ∃ o, (run c w job).2 = .ok o ∧ o.unconsumed = 0 ∧ P o := by
  obtain ⟨o, ho, hdecided⟩ := (Option.any_eq_true _ _).mp h
  obtain ⟨hwhole, hP, hsaved⟩ := of_decide_eq_true hdecided
  refine ⟨o, ?_, hwhole, hP⟩
  rw [run_of_outcome? count hchecker ho hwhole, Stage.afterMerging, houtput]
  show (Stage.afterSaving w o (w.disk.replace path (o.tree.json c.output.pretty))).2 = _
  cases hreplace : w.disk.replace path (o.tree.json c.output.pretty) with
  | mk d saved =>
    rw [hreplace] at hsaved
    cases saved with
    | error cause => cases hsaved
    | ok _ => rfl

end Followed

/-! ### Every schedule -/

/-- Under every schedule the jobs that have come to their ends are counted once, a fault of theirs
names one phase, and the registry holds under each name what the last of them has published, or else
what it held before; jobs that spare each other have come to what they come to alone. A schedule
that gives the jobs their turns brings all of them to their ends, and there is one for every order,
which comes to what the jobs come to one after the other. -/
theorem results_of_batch (c : Config) (w : Workspace) (jobs : List Job) :
    (∀ schedule, let b := (Batch.start w).run c jobs schedule
      (Fair jobs schedule → b.finished.Perm (List.range jobs.length)) ∧
      b.finished.Nodup ∧ (∀ k, k ∈ b.finished ↔ (b.result? k).isSome) ∧
      (∀ k job result, jobs[k]? = some job → b.result? k = some result →
        (∀ f, result = .error f → f.Attributed) ∧
        (Independent w.disk jobs → result = (run c w job).2)) ∧
      ∀ id, b.workspace.registry.get? id =
        (b.finished.reverse.findSome? fun k => (b.result? k).bind (published? id)).or
          (w.registry.get? id)) ∧
    ∀ order : List Nat, order.Perm (List.range jobs.length) → ∃ schedule, Fair jobs schedule ∧
      let b := (Batch.start w).run c jobs schedule
      let inOrder := runAll c w (order.filterMap (jobs[·]?))
      b.finished = order ∧ b.workspace = inOrder.1 ∧ order.map b.result? = inOrder.2.map some := by
  refine ⟨fun schedule => ?_, fun order horder => ?_⟩
  · have htally : Batch.Tally jobs ((Batch.start w).run c jobs schedule) :=
      Batch.tally_run w schedule
    refine ⟨Batch.perm_finished w, htally.nodup, htally.mem_iff, ?_, fun id => ?_⟩
    · intro k job result hjob hresult
      refine ⟨?_, fun hindependent => ?_⟩
      · rintro f rfl
        exact Batch.attributed_run w schedule hresult
      · exact Batch.result?_of_independent hindependent schedule hjob hresult
    · rw [Batch.registry_run, Batch.get?_settled]
  · have hlt : ∀ k ∈ order, k < jobs.length := fun k hk =>
      List.mem_range.mp (horder.mem_iff.mp hk)
    obtain ⟨hworkspace, hresults, hfinished, -⟩ := Batch.run_inTurn (c := c) (b := Batch.start w)
      (horder.nodup_iff.mpr List.nodup_range) hlt fun _ _ => rfl
    exact ⟨Batch.inTurn jobs order, Batch.fair_inTurn horder, hfinished, hworkspace, hresults⟩

/-- Two jobs of one name that write into one directory, which is yet to be made. The first takes up
a longer trace and comes to its end after the second. -/
theorem later_of_two_is_published :
    let w : Workspace := ⟨⟨Table.ofList [
      (["src"], .directory), (["src", "A.java"], .file (.text "class A{void m(){}}")),
      (["long.tr"], .file (.text "1")), (["short.tr"], .file (.text ""))]⟩, Registry.empty⟩
    let jobs : List Job := [
      {id := "m", source := "src", trace := "long.tr", output := some "out/a.json"},
      {id := "m", source := "src", trace := "short.tr", output := some "out/b.json"}]
    Independent w.disk jobs ∧ ∃ schedule, Fair jobs schedule ∧ ∃ long short : Outcome,
      long.tree ≠ short.tree ∧
      let b := (Batch.start w).run {} jobs schedule
      b.finished = [1, 0] ∧ b.result? 0 = some (.ok long) ∧ b.result? 1 = some (.ok short) ∧
        b.workspace.registry.get? "m" = some long.tree := by
  intro w jobs
  have hindependent : Independent w.disk jobs := by decide +kernel
  obtain ⟨schedule, hfair, hfinished, -⟩ := (results_of_batch {} w jobs).2 [1, 0] (by decide)
  obtain ⟨-, -, hmem, hresults, hregistry⟩ := (results_of_batch {} w jobs).1 schedule
  have halone : ∀ k job, jobs[k]? = some job → k ∈ [1, 0] →
      ((Batch.start w).run {} jobs schedule).result? k = some (run {} w job).2 := by
    intro k job hjob hk
    obtain ⟨result, hresult⟩ := Option.isSome_iff_exists.mp ((hmem k).mp (hfinished ▸ hk))
    rw [hresult, (hresults k job result hjob hresult).2 hindependent]
  obtain ⟨long, hlong, hwhole, hid, hsize⟩ : ∃ o, (run {} w jobs[0]).2 = .ok o ∧
      o.unconsumed = 0 ∧ o.id = "m" ∧ o.tree.size = 2 :=
    exists_run 60 rfl rfl (by decide +kernel)
  obtain ⟨short, hshort, -, hsize'⟩ : ∃ o, (run {} w jobs[1]).2 = .ok o ∧
      o.unconsumed = 0 ∧ o.tree.size = 1 := exists_run 60 rfl rfl (by decide +kernel)
  have hfirst := halone 0 jobs[0] rfl (by decide)
  rw [hlong] at hfirst
  refine ⟨hindependent, schedule, hfair, long, short, ?_, hfinished, hfirst, ?_, ?_⟩
  · intro heq
    rw [heq, hsize'] at hsize
    cases hsize
  · rw [← hshort]
    exact halone 1 jobs[1] rfl (by decide)
  · rw [hregistry, hfinished]
    show (List.findSome? _ [0, 1]).or _ = _
    rw [List.findSome?_cons, hfirst, Option.bind_some, published?, if_pos ⟨hid, hwhole⟩]
    rfl

/-- Two jobs whose outputs differ and are no inputs. The output of the first is a file where the
second needs a directory, so that the second fails when it comes to its end after the first. -/
theorem output_inside_of_output :
    let w : Workspace := ⟨⟨Table.ofList [
      (["src"], .directory), (["t.tr"], .file (.text ""))]⟩, Registry.empty⟩
    let jobs : List Job := [
      {id := "a", source := "src", trace := "t.tr", output := some "out"},
      {id := "b", source := "src", trace := "t.tr", output := some "out/b.json"}]
    (jobs.filterMap Job.output).Pairwise (fun p q => Path.same p q = false) ∧
      (∀ p ∈ jobs.filterMap Job.output, ∀ job ∈ jobs, destination p ∉ job.looks ∧
        ¬Concerns (destination job.source) (destination p)) ∧
      ¬∀ schedule, Fair jobs schedule → ∀ k job result, jobs[k]? = some job →
        ((Batch.start w).run {} jobs schedule).result? k = some result →
          result = (run {} w job).2 := by
  intro w jobs
  refine ⟨by decide +kernel, by decide +kernel, fun hclaim => ?_⟩
  -- Alone the second job succeeds.
  obtain ⟨o, ho, -⟩ : ∃ o, (run {} w jobs[1]).2 = .ok o ∧ o.unconsumed = 0 ∧ True :=
    exists_run 60 rfl rfl (by decide +kernel)
  -- After the first one it does not.
  have hfirst : run {} w jobs[0] =
      Stage.afterMerging {} jobs[0] w (.ok ⟨"a", Tree.bare, 0, none⟩) :=
    run_of_outcome? 60 rfl (by decide +kernel) rfl
  have hsecond : (run {} (run {} w jobs[0]).1 jobs[1]).2 =
      .error (.during .serialize (.file .alreadyExists)) := by
    rw [hfirst, run_of_outcome? 60 (o := ⟨"b", Tree.bare, 0, none⟩) rfl (by decide +kernel)
      rfl]
    decide +kernel
  have hlt : ∀ k ∈ [0, 1], k < jobs.length := by decide
  obtain ⟨-, hresults, -⟩ := Batch.run_inTurn (c := {}) (b := .start w) (by decide) hlt
    fun _ _ => rfl
  have hresult : ((Batch.start w).run {} jobs (Batch.inTurn jobs [0, 1])).result? 1 =
      some (run {} (run {} w jobs[0]).1 jobs[1]).2 :=
    (List.cons.inj (List.cons.inj hresults).2).1
  have halone := hclaim _ (Batch.fair_inTurn (by decide)) 1 jobs[1] _ rfl hresult
  rw [hsecond, ho] at halone
  cases halone

end Retrace.Job
