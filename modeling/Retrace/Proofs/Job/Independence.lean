import Retrace.Proofs.Disk.Sources
import Retrace.Proofs.Job.Batch

/-! Jobs that do not disturb each other.

A job spares another if nothing that it writes is read by the other or stands in the way of what the
other writes, and if it makes no directory that the other looks at (`Job.Spares`). Two jobs may
write into one directory, and either may make it.

A job of a batch in which all jobs spare each other goes the way that it goes alone: the disk of the
batch and the disk that it would have alone stay alike for it (`Alike`). A step of its own takes it
to the same stage on both (`advance_alike`), and a step of another job is not noticed
(`Alike.of_change`). -/
namespace Retrace.Job
open Disk (destination trail passed draftPath towards Concerns Keeps)
open Retrace.Path (Component components)

/-! ### What jobs read and write -/

/-- The paths that a job reads. -/
def inputs (job : Job) : List String := job.source :: job.trace :: job.checker.toList

/-- The addresses that decide what is found at the paths that a job reads. -/
def looks (job : Job) : List Address := job.inputs.flatMap trail

/-- Where a job writes its tree, and the draft of it. -/
def writes (job : Job) : List Address :=
  job.output.toList.flatMap fun path => [destination (draftPath path), destination path]

/-- The directories that the tree of a job is written in and below. -/
def opens (job : Job) : List Address :=
  job.output.toList.flatMap fun path => passed [] (components path)

/-- Nothing that the job does on the disk is noticed by the other one. -/
def Spares (d : Disk) (job other : Job) : Prop :=
  (∀ a ∈ job.writes, a ∉ other.looks ∧ ¬Concerns (destination other.source) a ∧
    a ∉ other.opens ∧ a ∉ other.writes) ∧
  ∀ a ∈ job.opens, d.get? a = some .directory ∨ a ∉ other.looks ∧ a ∉ other.writes

instance (d : Disk) (job other : Job) : Decidable (Spares d job other) :=
  inferInstanceAs (Decidable (_ ∧ _))

/-- No job notices what another one does on the disk. -/
def Independent (d : Disk) (jobs : List Job) : Prop :=
  jobs.Pairwise fun job other => job.Spares d other ∧ other.Spares d job

instance (d : Disk) (jobs : List Job) : Decidable (Independent d jobs) :=
  inferInstanceAs (Decidable (jobs.Pairwise _))

/-- What holds of each two jobs in both directions holds of any two at different places. -/
theorem rel_of_pairwise {R : Job → Job → Prop} {jobs : List Job} (h : jobs.Pairwise R)
    (hsymm : ∀ {job other}, R job other → R other job) {i k : Nat} {job other : Job}
    (hjob : jobs[i]? = some job) (hother : jobs[k]? = some other) (hne : i ≠ k) : R job other := by
  obtain ⟨hi, rfl⟩ := List.getElem?_eq_some_iff.mp hjob
  obtain ⟨hk, rfl⟩ := List.getElem?_eq_some_iff.mp hother
  rcases Nat.lt_or_gt_of_ne hne with hlt | hlt
  · exact List.pairwise_iff_getElem.mp h i k hi hk hlt
  · exact hsymm (List.pairwise_iff_getElem.mp h k i hk hi hlt)

theorem spares_of_independent {d : Disk} {jobs : List Job} (h : Independent d jobs) {i k : Nat}
    {job other : Job} (hjob : jobs[i]? = some job) (hother : jobs[k]? = some other) (hne : i ≠ k) :
    job.Spares d other :=
  (rel_of_pairwise h And.symm hjob hother hne).1

section Addresses
variable {job : Job} {path : String}

theorem trail_source {a : Address} (h : a ∈ trail job.source) : a ∈ job.looks :=
  List.mem_flatMap.mpr ⟨_, List.mem_cons_self, h⟩

theorem trail_trace {a : Address} (h : a ∈ trail job.trace) : a ∈ job.looks :=
  List.mem_flatMap.mpr ⟨_, List.mem_cons_of_mem _ List.mem_cons_self, h⟩

theorem trail_checker (hchecker : job.checker = some path) {a : Address} (h : a ∈ trail path) :
    a ∈ job.looks := by
  refine List.mem_flatMap.mpr ⟨path, ?_, h⟩
  unfold inputs
  rw [hchecker]
  exact List.mem_cons_of_mem _ (List.mem_cons_of_mem _ List.mem_cons_self)

variable (houtput : job.output = some path)
include houtput

theorem opens_eq : job.opens = passed [] (components path) := by
  unfold opens
  rw [houtput]
  exact List.append_nil _

theorem writes_eq : job.writes = [destination (draftPath path), destination path] := by
  unfold writes
  rw [houtput]
  rfl

theorem draft_mem_writes : destination (draftPath path) ∈ job.writes := by
  rw [writes_eq houtput]
  exact List.mem_cons_self

theorem mem_writes : destination path ∈ job.writes := by
  rw [writes_eq houtput]
  exact List.mem_cons_of_mem _ List.mem_cons_self

end Addresses

/-! ### Disks that are alike for a job -/

/-- The disk that a job shares with others is, for all that the job reads and writes, the disk that
it has alone. Directories that it would make may be there already. -/
structure Alike (job : Job) (shared own : Disk) : Prop where
  looks : ∀ a ∈ job.looks, shared.get? a = own.get? a
  sources : ∀ a, Concerns (destination job.source) a → shared.fileAt? a = own.fileAt? a
  opens : ∀ a ∈ job.opens, shared.get? a = own.get? a ∨
    shared.get? a = some .directory ∧ own.get? a = none
  writes : ∀ a ∈ job.writes, shared.get? a = own.get? a

theorem alike_refl (job : Job) (d : Disk) : Alike job d d :=
  ⟨fun _ _ => rfl, fun _ _ => rfl, fun _ _ => .inl rfl, fun _ _ => rfl⟩

theorem fileAt?_congr {d d' : Disk} {a : Address} (h : d.get? a = d'.get? a) :
    d.fileAt? a = d'.fileAt? a := by
  unfold Disk.fileAt?
  rw [h]

namespace Alike
variable {job : Job} {shared own : Disk} (h : Alike job shared own)
include h

/-- What is changed on both alike leaves them alike. -/
theorem change {shared' own' : Disk}
    (hchange : ∀ a, shared'.get? a = own'.get? a ∨
      shared'.get? a = shared.get? a ∧ own'.get? a = own.get? a) : Alike job shared' own' := by
  constructor
  · intro a ha
    rcases hchange a with heq | ⟨hshared, hown⟩
    · exact heq
    · rw [hshared, hown, h.looks a ha]
  · intro a ha
    rcases hchange a with heq | ⟨hshared, hown⟩
    · exact fileAt?_congr heq
    · rw [fileAt?_congr hshared, fileAt?_congr hown, h.sources a ha]
  · intro a ha
    rcases hchange a with heq | ⟨hshared, hown⟩
    · exact .inl heq
    · rw [hshared, hown]
      exact h.opens a ha
  · intro a ha
    rcases hchange a with heq | ⟨hshared, hown⟩
    · exact heq
    · rw [hshared, hown, h.writes a ha]

theorem put {a : Address} (ha : a ≠ []) (e : Entry) :
    Alike job (shared.put a e) (own.put a e) := by
  refine h.change fun b => ?_
  rw [Disk.get?_put ha, Disk.get?_put ha]
  by_cases hb : b = a
  · rw [if_pos hb, if_pos hb]
    exact .inl rfl
  · rw [if_neg hb, if_neg hb]
    exact .inr ⟨rfl, rfl⟩

theorem erase {a : Address} (ha : a ≠ []) : Alike job (shared.erase a) (own.erase a) := by
  refine h.change fun b => ?_
  rw [Disk.get?_erase ha, Disk.get?_erase ha]
  by_cases hb : b = a
  · rw [if_pos hb, if_pos hb]
    exact .inl rfl
  · rw [if_neg hb, if_neg hb]
    exact .inr ⟨rfl, rfl⟩

/-- A directory is made that is there already on the shared disk. -/
theorem put_own {a : Address} (ha : a ≠ []) (hdirectory : shared.get? a = some .directory) :
    Alike job shared (own.put a .directory) := by
  refine h.change fun b => ?_
  rw [Disk.get?_put ha]
  by_cases hb : b = a
  · rw [if_pos hb, hb]
    exact .inl hdirectory
  · rw [if_neg hb]
    exact .inr ⟨rfl, rfl⟩

/-- A directory on the job's own disk is one on the shared disk. -/
theorem directory {a : Address} (ha : a ∈ job.opens) (hown : own.get? a = some .directory) :
    shared.get? a = some .directory := by
  rcases h.opens a ha with heq | ⟨hthere, -⟩
  · rw [heq, hown]
  · exact hthere

theorem load : shared.load job.source = own.load job.source :=
  Disk.load_congr (fun _ ha => h.looks _ (trail_source ha)) h.sources

theorem rebuild (c : Config) (x : Instrument.Instrumentation) :
    Job.rebuild c shared job x = Job.rebuild c own job x := by
  unfold Job.rebuild readTrace readText
  rw [Disk.read_congr fun _ ha => h.looks _ (trail_trace ha)]

theorem mergeChecked (x : Instrument.Instrumentation) (t : Trace.Tree) :
    Job.mergeChecked shared job x t = Job.mergeChecked own job x t := by
  unfold Job.mergeChecked
  split
  · rfl
  · rename_i path hchecker
    unfold readAssignments readText
    rw [Disk.read_congr fun _ ha => h.looks _ (trail_checker hchecker ha)]

end Alike

end Retrace.Job
