import Retrace.Job.Run

/-! What a job fails with.

No step of a job attributes its faults itself: whatever goes wrong in loading, instrumenting,
rebuilding or merging is a bare cause (`bare_load`, `bare_instrumentation`, `bare_rebuild`,
`bare_mergeChecked`). A fault of the whole job therefore names one phase, and the cause behind it
names none (`attributed_of_duringPhase`). -/
namespace Retrace

/-- The fault names one phase, and its cause names none. -/
def Fault.Attributed (f : Fault) : Prop :=
  ∃ phase cause, f = .during phase cause ∧ cause.phase? = none

/-- If the step fails, its fault names no phase. -/
def Bare {α : Type} (x : Except Fault α) : Prop := ∀ f, x = .error f → f.phase? = none

theorem attributed_of_duringPhase {α : Type} {x : Except Fault α} (h : Bare x) {phase : Phase}
    {f : Fault} (hf : duringPhase phase x = .error f) : f.Attributed := by
  cases x with
  | ok a => cases hf
  | error cause =>
    cases hf
    have hcause := h cause rfl
    refine ⟨phase, cause, ?_, hcause⟩
    unfold Fault.inPhase
    split
    · cases hcause
    · rfl

section Closure
variable {α β : Type}

theorem bare_ok (a : α) : Bare (.ok a : Except Fault α) := fun _ h => nomatch h

theorem bare_error {f : Fault} (h : f.phase? = none) : Bare (.error f : Except Fault α) := by
  rintro _ ⟨⟩
  exact h

theorem Bare.bind {x : Except Fault α} {next : α → Except Fault β} (h : Bare x)
    (hnext : ∀ a, Bare (next a)) : Bare (x >>= next) := by
  cases x with
  | error f => exact bare_error (h f rfl)
  | ok a => exact hnext a

theorem Bare.map {x : Except Fault α} (h : Bare x) (g : α → β) : Bare (x.map g) := by
  cases x with
  | error f => exact bare_error (h f rfl)
  | ok a => exact bare_ok _

theorem bare_mapError {ε : Type} {g : ε → Fault} (h : ∀ e, (g e).phase? = none)
    (x : Except ε α) : Bare (x.mapError g) := by
  cases x with
  | error e => exact bare_error (h e)
  | ok a => exact bare_ok a

theorem bare_mapM {g : α → Except Fault β} (h : ∀ a, Bare (g a)) (as : List α) :
    Bare (as.mapM g) := by
  induction as with
  | nil => exact bare_ok []
  | cons a rest ih =>
    rw [List.mapM_cons]
    exact (h a).bind fun b => ih.bind fun bs => bare_ok _

end Closure

/-! ### Loading and instrumenting -/

theorem Disk.bare_load (d : Disk) (root : String) : Bare (d.load root) := by
  have hparsed : ∀ s : SourceFile, Bare (parsed s) := by
    intro s
    unfold parsed
    split
    · exact bare_ok _
    · exact bare_error rfl
  have hsources : Bare (d.sourceFiles root) := by
    unfold sourceFiles
    split
    · exact bare_ok _
    · exact bare_error rfl
  exact hsources.bind fun files => (bare_mapM hparsed files).bind fun _ => bare_ok _

namespace Instrument

theorem bare_instrumentation (c : Config.Instrument) (p : Source.Project) :
    Bare (Instrumentation.of c p) := by
  have hprobe : Bare (Probe.of c) := by
    unfold Probe.of
    split
    · exact bare_ok _
    · exact bare_error rfl
  refine hprobe.bind fun probe => ?_
  unfold Instrumentation.run
  split
  · exact bare_error rfl
  · exact bare_ok _

end Instrument

/-! ### Rebuilding -/

namespace Reconstruct.Machine

theorem bare_point? (s : Setting) (id : Nat) : Bare (point? s id) := by
  unfold point?
  split
  · exact bare_ok _
  · exact bare_error rfl

theorem bare_step (s : Setting) (m : Machine) : Bare (step s m) := by
  unfold step
  split
  · unfold startRoot
    split
    · exact (bare_point? s _).bind fun _ => bare_ok _
    · exact bare_ok _
  · split
    · exact bare_ok _
    · exact bare_ok _
    · refine Bare.map ?_ _
      unfold ask
      split
      · exact bare_ok _
      · refine (bare_point? s _).bind fun point => ?_
        split
        · exact bare_ok _
        · exact bare_ok _

theorem bare_run (s : Setting) (m : Machine) : Bare (run s m) := by
  induction m using run.induct s with
  | case1 m f hstep =>
    rw [run.eq_def, hstep]
    exact bare_error (bare_step s m f hstep)
  | case2 m hstep =>
    rw [run.eq_def, hstep]
    exact bare_ok m
  | case3 m n hstep ih =>
    rw [run.eq_def, hstep]
    exact ih

end Reconstruct.Machine

theorem Reconstruct.bare_reconstruct (s : Setting) (allowPartial : Bool) (stream : Trace.Stream) :
    Bare (reconstruct s allowPartial stream) := by
  refine (Machine.bare_run s _).bind fun m => ?_
  dsimp only
  split
  · exact bare_error rfl
  · exact bare_ok _

theorem Trace.Stream.bare_parse (text : String) : Bare (Trace.Stream.parse text) := by
  have htokens : ∀ (words : List (List Char)) (position : Nat) (ids : List Nat),
      Bare (tokensFrom position words ids) := by
    intro words
    induction words with
    | nil => exact fun _ _ => bare_ok _
    | cons word rest ih =>
      intro position ids
      have htoken : Bare (tokenAt position word) := by
        unfold tokenAt
        split
        · exact bare_ok _
        · exact bare_error rfl
      exact htoken.bind fun id => ih _ _
  exact (htokens _ 0 []).map _

namespace Job

theorem bare_readText (d : Disk) (path : String) : Bare (readText d path) :=
  bare_mapError (fun _ => rfl) _

theorem bare_rebuild (c : Config) (d : Disk) (job : Job) (x : Instrument.Instrumentation) :
    Bare (rebuild c d job x) :=
  ((bare_readText d job.trace).bind fun text => Trace.Stream.bare_parse text).bind fun stream =>
    Reconstruct.bare_reconstruct _ _ stream

/-! ### Merging -/

theorem bare_readAssignments (d : Disk) (path : String) : Bare (readAssignments d path) := by
  refine (bare_readText d path).bind fun text => Bare.map ?_ _
  refine (bare_mapError (fun _ => rfl) _).bind fun v => ?_
  split
  · exact bare_error rfl
  · exact bare_ok _

theorem bare_mergeChecked (d : Disk) (job : Job) (x : Instrument.Instrumentation)
    (t : Trace.Tree) : Bare (mergeChecked d job x t) := by
  unfold mergeChecked
  split
  · exact bare_ok _
  · exact (bare_readAssignments d _).bind fun assignments => bare_ok _

end Job

end Retrace
