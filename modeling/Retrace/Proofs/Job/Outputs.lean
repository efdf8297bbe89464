import Retrace.Cli.Run
import Retrace.Proofs.Job.Parallel

/-! The trees that jobs leave behind.

A job writes its draft and its tree and nothing else, so what it has written stays as long as no
other job writes there (`Written.of_change`), whatever the schedule is (`found_of_run`). With
several traces the tree of each is named after the stem of its trace: the trees of traces with
different stems stand in different places (`disjoint_writes`), and each of them is found in the end
(`tree_of_each_trace`).

Two traces may have one stem. Their trees share one place, and only one of them is left
(`one_tree_for_two_traces`). -/
namespace Retrace.Job
open Trace
open Disk (destination draftPath Keeps)
open Retrace.Path (Component components)

/-! ### What a job has written -/

theorem Change.file {job : Job} {d d' : Disk} (h : Change job d d') {a : Address} {x : Content}
    (ha : a ∉ job.writes) (hfile : d.get? a = some (.file x)) : d'.get? a = some (.file x) := by
  rcases h.get? a with hsame | hwritten | ⟨-, hmissing, -⟩
  · rw [hsame, hfile]
  · exact absurd hwritten ha
  · rw [hmissing] at hfile
    cases hfile

/-- At the path there is a file that holds the tree of the outcome. -/
def Found (c : Config) (d : Disk) (path : String) (o : Outcome) : Prop :=
  d.find path = .ok (.file (.text (o.tree.json c.output.pretty)))

namespace Stage
variable {c : Config} {job other : Job} {d d' : Disk} {w : Workspace} {stage : Stage}

/-- The draft of a tree that is to be moved is there, and so is a tree that has been saved. -/
def Written (c : Config) (job : Job) (d : Disk) : Stage → Prop
  | moving o path =>
    d.get? (destination (draftPath path)) = some (.file (.text (o.tree.json c.output.pretty)))
  | saved o | ended (.ok o) => ∀ path, job.output = some path → Found c d path o
  | _ => True

theorem written_following {α : Type} {x : Except Fault α} {next : α → Stage}
    (h : ∀ a, (next a).Written c job d) : (following x next).Written c job d := by
  cases x with
  | error f => exact trivial
  | ok a => exact h a

theorem written_complete (d : Disk) (o : Outcome) : (complete job o).Written c job d := by
  unfold complete
  split
  · rename_i hnone
    intro path houtput
    rw [hnone] at houtput
    cases houtput
  · exact trivial

theorem written_writing {x : Except FileFault Disk} {next : Stage}
    (h : ∀ d, x = .ok d → next.Written c job d) :
    (writing w x next).2.Written c job (writing w x next).1.disk := by
  cases x with
  | error cause => exact trivial
  | ok d => exact h d rfl

/-- A job finds what it writes. -/
theorem written_advance (hfits : stage.Fits job w.disk) (h : stage.Written c job w.disk) :
    (stage.advance c job w).2.Written c job (stage.advance c job w).1.disk := by
  cases stage with
  | fresh => exact written_following fun _ => trivial
  | loaded x => exact written_following fun _ => trivial
  | rebuilt x r => exact written_following fun _ => written_complete _ _
  | making o path a rest =>
    cases rest with
    | nil => exact trivial
    | cons part rest => exact written_writing fun _ _ => trivial
  | drafting o path =>
    refine written_writing fun drafted hdrafted => ?_
    obtain ⟨a, ha, hfree, rfl⟩ := Disk.write_eq_ok hdrafted
    obtain rfl := Disk.destination_of_resolve ha
    exact (Disk.get?_put (Disk.ne_nil_of_get? hfree) _ _).trans (if_pos rfl)
  | moving o path =>
    refine written_writing fun moved hmoved path' houtput => ?_
    obtain rfl : path = path' := Option.some.inj (hfits.1.symm.trans houtput)
    obtain ⟨a, -, -, ha, -⟩ := Disk.rename_eq_ok hmoved
    obtain rfl := Disk.destination_of_resolve ha
    exact Disk.find_of_rename hmoved ha h
  | saved o => exact h
  | ended result => exact h

section Others
variable (hapart : job.writes.Disjoint other.writes) (hchange : Change other d d')
include hapart hchange

/-- What another job does that writes elsewhere leaves a job's way open. -/
theorem Fits.of_change (h : stage.Fits job d) : stage.Fits job d' := by
  have hkeeps : Keeps d d' := hchange.keeps
  cases stage with
  | making o path a rest =>
    obtain ⟨houtput, ⟨done, hdone, ha, hbehind⟩, habove⟩ := h
    exact ⟨houtput, ⟨done, hdone, ha, fun b hb => hkeeps b (hbehind b hb)⟩,
      fun b hb => hkeeps b (habove b hb)⟩
  | drafting o path => exact ⟨h.1, fun b hb => hkeeps b (h.2 b hb)⟩
  | moving o path =>
    obtain ⟨houtput, hpassed, x, hdraft⟩ := h
    exact ⟨houtput, fun b hb => hkeeps b (hpassed b hb), x,
      hchange.file (hapart (draft_mem_writes houtput)) hdraft⟩
  | _ => exact trivial

/-- What a job has written is left alone by a job that writes elsewhere. -/
theorem Written.of_change (hfits : stage.Fits job d) (h : stage.Written c job d) :
    stage.Written c job d' := by
  have hfind : ∀ {path : String} {x : Content}, job.output = some path →
      d.find path = .ok (.file x) → d'.find path = .ok (.file x) := by
    intro path x houtput hfind
    obtain ⟨hresolve, hfile, hname⟩ := Disk.find_eq_file_iff.mp hfind
    exact Disk.find_eq_file_iff.mpr ⟨Disk.resolve_of_keeps hchange.keeps hresolve,
      hchange.file (hapart (mem_writes houtput)) hfile, hname⟩
  cases stage with
  | moving o path => exact hchange.file (hapart (draft_mem_writes hfits.1)) h
  | saved o => exact fun path houtput => hfind houtput (h path houtput)
  | ended result =>
    cases result with
    | error f => exact trivial
    | ok o => exact fun path houtput => hfind houtput (h path houtput)
  | _ => exact trivial

end Others

end Stage

/-- No two jobs write at one address. -/
def Apart (jobs : List Job) : Prop :=
  jobs.Pairwise fun job other => job.writes.Disjoint other.writes

namespace Batch
variable {c : Config} {w : Workspace} {jobs : List Job} {b : Batch}

/-- What the jobs have written is there. -/
def Intact (c : Config) (jobs : List Job) (b : Batch) : Prop :=
  ∀ k job, jobs[k]? = some job → (b.stage k).Fits job b.workspace.disk ∧
    (b.stage k).Written c job b.workspace.disk

theorem intact_start (c : Config) (w : Workspace) (jobs : List Job) : Intact c jobs (start w) :=
  fun _ _ _ => ⟨trivial, trivial⟩

theorem intact_step (hapart : Apart jobs) {k : Nat} {job : Job} (hjob : jobs[k]? = some job)
    (h : Intact c jobs b) : Intact c jobs (step c job b k) := by
  obtain ⟨hfits, hwritten⟩ := h k job hjob
  have halike := alike_refl job b.workspace.disk
  intro i other hother
  by_cases hi : i = k
  · subst hi
    obtain rfl := Option.some.inj (hjob.symm.trans hother)
    rw [step_stage_self]
    exact ⟨(advance_alike halike hfits).fits, Stage.written_advance hfits hwritten⟩
  · obtain ⟨hfits', hwritten'⟩ := h i other hother
    have hdisjoint := rel_of_pairwise hapart List.disjoint_symm hother hjob hi
    have hchange : Change job b.workspace.disk (step c job b k).workspace.disk :=
      change_advance halike hfits
    rw [step_stage_of_ne hi]
    exact ⟨hfits'.of_change hdisjoint hchange, hwritten'.of_change hdisjoint hchange hfits'⟩

/-- The tree of a job that has come to a good end is found, whatever the others have done. -/
theorem found_of_run (hapart : Apart jobs) (w : Workspace) (schedule : List Nat) {k : Nat}
    {job : Job} {o : Outcome} {path : String} (hjob : jobs[k]? = some job)
    (hresult : ((start w).run c jobs schedule).result? k = some (.ok o))
    (houtput : job.output = some path) :
    Found c ((start w).run c jobs schedule).workspace.disk path o := by
  have hintact : Intact c jobs ((start w).run c jobs schedule) :=
    run_induction (fun _ _ _ hjob _ => intact_step hapart hjob) (intact_start c w jobs) schedule
  obtain ⟨-, hwritten⟩ := hintact k job hjob
  unfold result? at hresult
  cases hstage : ((start w).run c jobs schedule).stage k with
  | ended result =>
    rw [hstage] at hresult hwritten
    cases hresult
    exact hwritten path houtput
  | _ =>
    rw [hstage] at hresult
    cases hresult

/-- Jobs that are run one after the other are a batch with a schedule. -/
theorem exists_schedule (c : Config) (w : Workspace) (jobs : List Job) : ∃ schedule,
    ((start w).run c jobs schedule).workspace = (runAll c w jobs).1 ∧
      ∀ k result, (runAll c w jobs).2[k]? = some result →
        ((start w).run c jobs schedule).result? k = some result := by
  have hall : (List.range jobs.length).map (jobs[·]?) = jobs.map some := by
    refine List.ext_getElem? fun k => ?_
    by_cases hk : k < jobs.length <;> simp [hk]
  have hjobs : (List.range jobs.length).filterMap (jobs[·]?) = jobs := by
    have hflat := congrArg (List.filterMap fun job => job) hall
    rw [List.filterMap_map, List.filterMap_map] at hflat
    exact hflat.trans List.filterMap_some
  have hlt : ∀ k ∈ List.range jobs.length, k < jobs.length := fun _ => List.mem_range.mp
  obtain ⟨hworkspace, hresults, -⟩ := run_inTurn (c := c) (b := start w) List.nodup_range hlt
    fun _ _ => rfl
  rw [hjobs] at hworkspace hresults
  refine ⟨inTurn jobs (List.range jobs.length), hworkspace, fun k result hresult => ?_⟩
  have hk := congrArg (·[k]?) hresults
  dsimp only [start] at hk
  rw [List.getElem?_map, List.getElem?_map, hresult, Option.map_some] at hk
  obtain ⟨i, hi, hresult'⟩ := Option.map_eq_some_iff.mp hk
  obtain ⟨_, rfl⟩ := List.getElem?_eq_some_iff.mp hi
  rwa [List.getElem_range] at hresult'

end Batch

/-- So it is when the jobs are run one after the other. -/
theorem found_of_runAll {c : Config} {w : Workspace} {jobs : List Job} (hapart : Apart jobs)
    {k : Nat} {job : Job} {o : Outcome} {path : String} (hjob : jobs[k]? = some job)
    (hresult : (runAll c w jobs).2[k]? = some (.ok o)) (houtput : job.output = some path) :
    Found c (runAll c w jobs).1.disk path o := by
  obtain ⟨schedule, hworkspace, hresults⟩ := Batch.exists_schedule c w jobs
  rw [← hworkspace]
  exact Batch.found_of_run hapart w schedule hjob (hresults k _ hresult) houtput

theorem found_of_job {c : Config} {w : Workspace} {job : Job} {o : Outcome} {path : String}
    (hresult : (Job.run c w job).2 = .ok o) (houtput : job.output = some path) :
    Found c (Job.run c w job).1.disk path o := by
  have hone : (runAll c w [job]).2[0]? = some (.ok o) := congrArg some hresult
  exact found_of_runAll (List.pairwise_singleton _ job) rfl hone houtput

theorem runAll_pair (c : Config) (w : Workspace) (job other : Job) :
    runAll c w [job, other] =
      ((run c (run c w job).1 other).1, [(run c w job).2, (run c (run c w job).1 other).2]) := rfl

/-! ### Planned jobs -/

section Planned
open Cli (planJobs treePath)

/-- The name of a trace's tree, without its extension. -/
def treeStem (trace : String) : String := (Path.stem? trace).getD "trace"

theorem treeStem_ne_empty (trace : String) : treeStem trace ≠ "" := by
  unfold treeStem
  cases hstem : Path.stem? trace with
  | none => decide
  | some stem => exact Path.ne_empty_of_stem? hstem

theorem not_mem_treeStem (trace : String) : '/' ∉ (treeStem trace).toList := by
  unfold treeStem
  cases hstem : Path.stem? trace with
  | none => decide
  | some stem => exact Path.not_mem_of_stem? hstem

/-- A tree stands in the directory of the output. -/
theorem components_treePath (output trace : String) : components (treePath true output trace) =
    components output ++ [.normal (treeStem trace ++ "." ++ "json")] := by
  have hpiece : (Component.normal (treeStem trace ++ "." ++ "json")).IsPiece := by
    refine Path.isPiece_of_getLast? (c := 'n') ?_ ?_ (by decide)
    · rw [String.toList_append, String.toList_append]
      simpa using not_mem_treeStem trace
    · rw [String.toList_append, List.getLast?_append]
      rfl
  have hjoin := Path.components_join hpiece output
  rw [String.append_assoc] at hjoin ⊢
  exact hjoin

theorem components_draft (output trace : String) :
    components (draftPath (treePath true output trace)) =
      components output ++ [.normal (treeStem trace ++ "." ++ "json.tmp")] := by
  have hcomponents := components_treePath output trace
  have hstem := Path.stem?_of_components hcomponents (treeStem_ne_empty trace) (by decide)
  rw [Disk.components_draftPath_of_stem? hstem, hcomponents, List.dropLast_concat]

theorem destination_of_components {path base name : String}
    (h : components path = components base ++ [.normal name]) :
    destination path = destination base ++ [name] := by
  unfold destination
  rw [h, List.foldl_append]
  rfl

theorem same_treePath_iff {output trace trace' : String} :
    Path.same (treePath true output trace) (treePath true output trace') = true ↔
      treeStem trace = treeStem trace' := by
  unfold Path.same
  rw [components_treePath, components_treePath, beq_iff_eq, List.append_right_inj,
    List.singleton_inj, Component.normal.injEq, String.append_left_inj, String.append_left_inj]

/-- Trees of different names are written at different addresses, and so are their drafts. -/
theorem disjoint_writes {job other : Job} (output trace trace' : String)
    (hjob : job.output = some (treePath true output trace))
    (hother : other.output = some (treePath true output trace'))
    (hne : treeStem trace ≠ treeStem trace') : job.writes.Disjoint other.writes := by
  have hsame : ∀ (a : Address) (x : String),
      a ++ [treeStem trace ++ "." ++ x] ≠ a ++ [treeStem trace' ++ "." ++ x] := by
    intro a x h
    rw [List.append_right_inj, List.singleton_inj, String.append_left_inj,
      String.append_left_inj] at h
    exact hne h
  have hdraft : ∀ (a : Address) (s s' : String),
      a ++ [s ++ "." ++ "json.tmp"] ≠ a ++ [s' ++ "." ++ "json"] := by
    intro a s s' h
    rw [List.append_right_inj, List.singleton_inj] at h
    have hlast := congrArg (fun s => s.toList.getLast?) h
    simp at hlast
  rw [writes_eq hjob, writes_eq hother, destination_of_components (components_draft output trace),
    destination_of_components (components_treePath output trace),
    destination_of_components (components_draft output trace'),
    destination_of_components (components_treePath output trace')]
  simp only [List.disjoint_cons_left, List.mem_cons, List.not_mem_nil, or_false, not_or,
    List.disjoint_nil_left, and_true]
  exact ⟨⟨hsame _ _, hdraft _ _ _⟩, (hdraft _ _ _).symm, hsame _ _⟩

theorem disk_process (c : Config) (s : Cli.Session) (jobs : List Job) :
    (Cli.process c s jobs).1.disk = (runAll c ⟨s.disk, Registry.empty⟩ jobs).1.disk := by
  have hshow : ∀ (results : List (Job × Except Fault Outcome)) (s : Cli.Session),
      (results.foldl (Cli.showResult c.output.pretty) s).disk = s.disk := by
    intro results
    induction results with
    | nil => exact fun _ => rfl
    | cons r rest ih =>
      intro s
      refine (ih _).trans ?_
      unfold Cli.showResult Cli.showOutcome
      split
      · split <;> rfl
      · rfl
  unfold Cli.process
  dsimp only
  split
  · exact hshow _ _
  · exact hshow _ _

section Several
variable (source : String) {traces : List String} (checker : Option String) (output : String)
  (hseveral : 1 < traces.length)
include hseveral

theorem planJobs_eq : planJobs source traces checker (some output) = traces.zipIdx.map fun x =>
    ⟨toString x.2, source, x.1, checker, some (treePath true output x.1)⟩ := by
  unfold planJobs
  dsimp only
  rw [decide_eq_true hseveral]
  rfl

theorem getElem?_planJobs (k : Nat) : (planJobs source traces checker (some output))[k]? =
    traces[k]?.map fun trace =>
      ⟨toString k, source, trace, checker, some (treePath true output trace)⟩ := by
  rw [planJobs_eq source checker output hseveral, List.getElem?_map, List.getElem?_zipIdx,
    Option.map_map, Nat.zero_add]
  rfl

theorem apart_planJobs (hstems : (traces.map treeStem).Nodup) :
    Apart (planJobs source traces checker (some output)) := by
  have hpairs : traces.zipIdx.Pairwise fun x y => treeStem x.1 ≠ treeStem y.1 := by
    rw [← List.zipIdx_map_fst 0 traces, List.map_map] at hstems
    exact List.pairwise_map.mp hstems
  rw [planJobs_eq source checker output hseveral]
  refine List.pairwise_map.mpr (hpairs.imp fun {x y} hne => ?_)
  exact disjoint_writes output x.1 y.1 rfl rfl hne

end Several

/-- With several traces the tree of each stands in the directory of the output. The paths of the
trees differ exactly when the stems of the traces do, and then each tree that a job has saved is
found in the end: under every schedule, and when the command runs the jobs one after the other. -/
theorem tree_of_each_trace (c : Config) (source : String) {traces : List String}
    (checker : Option String) (output : String) (hseveral : 1 < traces.length) :
    let jobs := planJobs source traces checker (some output)
    let paths := traces.map (treePath true output)
    jobs.map Job.trace = traces ∧ jobs.map Job.output = paths.map some ∧
    (∀ path ∈ paths, ∃ name, components path = components output ++ [.normal name]) ∧
    (paths.Pairwise (fun p q => Path.same p q = false) ↔ (traces.map treeStem).Nodup) ∧
    ((traces.map treeStem).Nodup → ∀ k path o, paths[k]? = some path →
      (∀ w schedule, ((Batch.start w).run c jobs schedule).result? k = some (.ok o) →
        Found c ((Batch.start w).run c jobs schedule).workspace.disk path o) ∧
      ∀ s : Cli.Session, (runAll c ⟨s.disk, Registry.empty⟩ jobs).2[k]? = some (.ok o) →
        Found c (Cli.process c s jobs).1.disk path o) := by
  intro jobs paths
  have hjobs := getElem?_planJobs source checker output hseveral
  refine ⟨?_, ?_, ?_, ?_, fun hstems k path o hpath => ?_⟩
  · refine List.ext_getElem? fun k => ?_
    rw [List.getElem?_map, hjobs, Option.map_map]
    cases traces[k]? <;> rfl
  · refine List.ext_getElem? fun k => ?_
    rw [List.getElem?_map, hjobs, Option.map_map, List.getElem?_map, List.getElem?_map,
      Option.map_map]
    rfl
  · refine List.forall_mem_map.mpr fun trace _ => ⟨_, components_treePath output trace⟩
  · rw [List.pairwise_map, List.nodup_iff_pairwise_ne, List.pairwise_map]
    simp only [← Bool.not_eq_true, same_treePath_iff, ne_eq]
  · have hapart := apart_planJobs source checker output hseveral hstems
    rw [List.getElem?_map] at hpath
    obtain ⟨trace, htrace, rfl⟩ := Option.map_eq_some_iff.mp hpath
    have hjob := hjobs k
    rw [htrace, Option.map_some] at hjob
    refine ⟨fun w schedule hresult => Batch.found_of_run hapart w schedule hjob hresult rfl,
      fun s hresult => ?_⟩
    rw [disk_process]
    exact found_of_runAll hapart hjob hresult rfl

/-- Two traces with different stems. The job of the second comes to its end first. -/
theorem trees_of_two_traces :
    let w : Workspace := ⟨⟨Table.ofList [
      (["src"], .directory), (["src", "A.java"], .file (.text "class A{void m(){}}")),
      (["long.tr"], .file (.text "1")), (["short.tr"], .file (.text ""))]⟩, Registry.empty⟩
    let traces := ["long.tr", "short.tr"]
    let jobs := planJobs "src" traces none (some "out")
    let b := (Batch.start w).run {} jobs (Batch.inTurn jobs [1, 0])
    1 < traces.length ∧ (traces.map treeStem).Nodup ∧ ∃ long short : Outcome,
      long.tree ≠ short.tree ∧ b.result? 0 = some (.ok long) ∧ b.result? 1 = some (.ok short) ∧
        Found {} b.workspace.disk "out/long.json" long ∧
        Found {} b.workspace.disk "out/short.json" short := by
  intro w traces jobs b
  have hstems : (traces.map treeStem).Nodup := by decide
  have hindependent : Independent w.disk jobs := by decide +kernel
  have halone : ∀ k job, jobs[k]? = some job → b.result? k = some (run {} w job).2 := by
    intro k job hjob
    have hfair : Fair jobs (Batch.inTurn jobs [1, 0]) := Batch.fair_inTurn (by decide)
    obtain ⟨result, hresult⟩ :=
      Option.isSome_iff_exists.mp (Batch.isSome_result? w hjob (hfair k job hjob))
    rw [hresult, Batch.result?_of_independent hindependent _ hjob hresult]
  obtain ⟨long, hlong, -, hsize⟩ : ∃ o, (run {} w jobs[0]).2 = .ok o ∧
      o.unconsumed = 0 ∧ o.tree.size = 2 := exists_run 60 rfl rfl (by decide +kernel)
  obtain ⟨short, hshort, -, hsize'⟩ : ∃ o, (run {} w jobs[1]).2 = .ok o ∧
      o.unconsumed = 0 ∧ o.tree.size = 1 := exists_run 60 rfl rfl (by decide +kernel)
  have hfirst : b.result? 0 = some (.ok long) := hlong ▸ halone 0 jobs[0] rfl
  have hsecond : b.result? 1 = some (.ok short) := hshort ▸ halone 1 jobs[1] rfl
  obtain ⟨-, -, -, -, hfound⟩ :=
    tree_of_each_trace {} "src" none "out" (show 1 < traces.length by decide)
  refine ⟨by decide, hstems, long, short, fun heq => ?_, hfirst, hsecond,
    (hfound hstems 0 _ long (by decide +kernel)).1 w _ hfirst,
    (hfound hstems 1 _ short (by decide +kernel)).1 w _ hsecond⟩
  rw [heq, hsize'] at hsize
  cases hsize

/-- Two traces with one stem. Both jobs succeed, with different trees, and the tree of the second
stands where the tree of the first has been. -/
theorem one_tree_for_two_traces :
    let w : Workspace := ⟨⟨Table.ofList [
      (["src"], .directory), (["src", "A.java"], .file (.text "class A{void m(){}}")),
      (["x"], .directory), (["x", "t.tr"], .file (.text "")),
      (["y"], .directory), (["y", "t.tr"], .file (.text "1"))]⟩, Registry.empty⟩
    let traces := ["x/t.tr", "y/t.tr"]
    let jobs := planJobs "src" traces none (some "out")
    1 < traces.length ∧ traces.Nodup ∧
      jobs.map Job.output = [some "out/t.json", some "out/t.json"] ∧ ∃ short long : Outcome,
        (runAll {} w jobs).2 = [.ok short, .ok long] ∧
        Found {} (runAll {} w jobs).1.disk "out/t.json" long ∧
        ¬Found {} (runAll {} w jobs).1.disk "out/t.json" short := by
  intro w traces jobs
  refine ⟨by decide, by decide, by decide +kernel, ?_⟩
  have hfirst : run {} w jobs[0] =
      Stage.afterMerging {} jobs[0] w (.ok ⟨"0", Tree.bare, 0, none⟩) :=
    run_of_outcome? 60 rfl (by decide +kernel) rfl
  have hshort : (run {} w jobs[0]).2 = .ok ⟨"0", Tree.bare, 0, none⟩ := by
    rw [hfirst]
    decide +kernel
  obtain ⟨long, hlong, -, hdiffers⟩ : ∃ o, (run {} (run {} w jobs[0]).1 jobs[1]).2 = .ok o ∧
      o.unconsumed = 0 ∧ o.tree.json false ≠ Tree.bare.json false := by
    rw [hfirst]
    exact exists_run 60 rfl rfl (by decide +kernel)
  have hjobs : jobs = [jobs[0], jobs[1]] := rfl
  have houtput : jobs[1].output = some "out/t.json" := by decide +kernel
  have hfound := found_of_job hlong houtput
  rw [hjobs, runAll_pair, hlong, hshort]
  refine ⟨_, long, rfl, hfound, fun hother => hdiffers ?_⟩
  have htexts := hfound.symm.trans hother
  injection htexts with hentry
  injection hentry with hcontent
  injection hcontent

end Planned

end Retrace.Job
