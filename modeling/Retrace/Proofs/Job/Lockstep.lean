import Retrace.Proofs.Job.Independence

/-! The way of a job among others.

A job of which nothing is noticed by others takes the same steps on the disk that it shares as on a
disk of its own (`advance_alike`). What a step does to the disk is one `Change`, inside of what the
job writes and of the directories above it (`change_advance`), so a job that spares another leaves
the disk as the other has known it (`Alike.of_change`). -/
namespace Retrace.Job
open Disk (destination trail passed draftPath towards Concerns Keeps)
open Retrace.Path (Component components)

/-! ### How far the directories have been made -/

/-- Of the directories that a path passes through those up to `a` are there. -/
structure Reached (d : Disk) (path : String) (a : Address) (rest : List Component) : Prop where
  behind : ∃ done, (components path).dropLast = done ++ rest ∧ a = done.foldl towards [] ∧
    ∀ b ∈ passed [] done, d.get? b = some .directory
  above : ∀ b, b <+: a → d.get? b = some .directory

namespace Reached
variable {d : Disk} {path : String} {a : Address} {c : Component} {rest : List Component}

theorem start (d : Disk) (path : String) : Reached d path [] (components path).dropLast where
  behind := ⟨[], rfl, rfl, fun b hb => absurd hb List.not_mem_nil⟩
  above b hb := by
    rw [List.prefix_nil.mp hb]
    rfl

theorem all (h : Reached d path a []) :
    ∀ b ∈ passed [] (components path), d.get? b = some .directory := by
  obtain ⟨done, hdone, ha, hbehind⟩ := h.behind
  rw [List.append_nil] at hdone
  by_cases hnil : components path = []
  · rw [hnil]
    exact fun b hb => absurd hb List.not_mem_nil
  · rw [← List.dropLast_concat_getLast hnil, Disk.passed_concat, hdone, ← ha]
    exact List.forall_mem_append.mpr ⟨hbehind, List.forall_mem_singleton.mpr
      (h.above a (List.prefix_refl a))⟩

/-- The next directory is one that the path passes through. -/
theorem towards_mem (h : Reached d path a (c :: rest)) :
    towards a c ∈ passed [] (components path) := by
  obtain ⟨done, hdone, ha, -⟩ := h.behind
  have hnil : components path ≠ [] := by
    intro hnil
    rw [hnil] at hdone
    simp at hdone
  have hsplit : components path =
      (done ++ [c]) ++ (rest ++ [(components path).getLast hnil]) := by
    rw [← List.append_assoc, List.append_assoc done, List.singleton_append, ← hdone,
      List.dropLast_concat_getLast]
  have hlast : (done ++ [c]).foldl towards [] = towards a c := by
    rw [List.foldl_append, ← ha]
    rfl
  rw [hsplit, Disk.passed_append, hlast]
  cases rest with
  | nil => exact List.mem_append_right _ List.mem_cons_self
  | cons c' rest => exact List.mem_append_right _ List.mem_cons_self

theorem prefix_towards {b : Address} (h : b <+: towards a c) : b <+: a ∨ b = towards a c := by
  cases c with
  | root | current => exact .inl h
  | parent => exact .inl (h.trans (List.dropLast_prefix a))
  | normal name => exact (List.prefix_concat_iff.mp h).symm

theorem next {made : Disk} {isLast : Bool} (h : Reached d path a (c :: rest))
    (hmade : d.makeOne a c isLast = .ok made) : Reached made path (towards a c) rest := by
  obtain ⟨done, hdone, ha, hbehind⟩ := h.behind
  have hkeeps : Keeps d made ∧ made.get? (towards a c) = some .directory := by
    rcases Disk.makeOne_eq_ok hmade with ⟨rfl, hthere⟩ | ⟨hmissing, rfl⟩
    · exact ⟨fun _ hb => hb, hthere.elim (h.above _) fun hthere => hthere⟩
    · have hnot := Disk.not_directory_of_missing hmissing
      refine ⟨Disk.keeps_put hnot _, ?_⟩
      rw [Disk.get?_put (Disk.ne_nil_of_get? hnot), if_pos rfl]
  refine ⟨⟨done ++ [c], ?_, ?_, fun b hb => ?_⟩, fun b hb => ?_⟩
  · rw [hdone, List.append_assoc]
    rfl
  · rw [List.foldl_append, ← ha]
    rfl
  · rw [Disk.passed_concat, ← ha] at hb
    rcases List.mem_append.mp hb with hb | hb
    · exact hkeeps.1 b (hbehind b hb)
    · rw [List.mem_singleton.mp hb]
      exact hkeeps.1 a (h.above a (List.prefix_refl a))
  · rcases prefix_towards hb with hb | rfl
    · exact hkeeps.1 b (h.above b hb)
    · exact hkeeps.2

end Reached

/-- What is there of the way to a tree that is being written. -/
def Stage.Fits (job : Job) (d : Disk) : Stage → Prop
  | making _ path a rest => job.output = some path ∧ Reached d path a rest
  | drafting _ path => job.output = some path ∧
    ∀ b ∈ passed [] (components path), d.get? b = some .directory
  | moving _ path => job.output = some path ∧
    (∀ b ∈ passed [] (components path), d.get? b = some .directory) ∧
    ∃ c, d.get? (destination (draftPath path)) = some (.file c)
  | _ => True

/-! ### What a step does to the disk -/

/-- A disk, and what a step of the job makes of it. -/
inductive Change (job : Job) (d : Disk) : Disk → Prop
  | nothing : Change job d d
  | make {a : Address} (ha : a ∈ job.opens) (hmissing : d.get? a = none) :
    Change job d (d.put a .directory)
  | write {a : Address} (ha : a ∈ job.writes) (hfree : d.get? a ≠ some .directory) (c : Content) :
    Change job d (d.put a (.file c))
  | move {a b : Address} (ha : a ∈ job.writes) (hfree : d.get? a ≠ some .directory)
    (hb : b ∈ job.writes) (hfree' : d.get? b ≠ some .directory) (e : Entry) :
    Change job d ((d.erase a).put b e)

namespace Change
variable {job : Job} {d d' : Disk} (h : Change job d d')
include h

theorem keeps : Keeps d d' := by
  cases h with
  | nothing => exact fun _ hb => hb
  | make ha hmissing => exact Disk.keeps_put (Disk.not_directory_of_missing hmissing) _
  | write ha hfree c => exact Disk.keeps_put hfree _
  | @move a b ha hfree hb hfree' e =>
    have hnot : (d.erase a).get? b ≠ some .directory := by
      rw [Disk.get?_erase (Disk.ne_nil_of_get? hfree)]
      split
      · exact nofun
      · exact hfree'
    exact fun x hx => Disk.keeps_put hnot e x (Disk.keeps_erase hfree x hx)

/-- Where the disk has changed, the job has written something or made a directory. -/
theorem get? (a : Address) : d'.get? a = d.get? a ∨ a ∈ job.writes ∨
    a ∈ job.opens ∧ d.get? a = none ∧ d'.get? a = some .directory := by
  cases h with
  | nothing => exact .inl rfl
  | @make b hb hmissing =>
    rw [Disk.get?_put (Disk.ne_nil_of_get? (Disk.not_directory_of_missing hmissing))]
    by_cases hab : a = b
    · rw [if_pos hab, hab]
      exact .inr (.inr ⟨hb, hmissing, rfl⟩)
    · exact .inl (if_neg hab)
  | @write b hb hfree c =>
    rw [Disk.get?_put (Disk.ne_nil_of_get? hfree)]
    by_cases hab : a = b
    · exact .inr (.inl (hab ▸ hb))
    · exact .inl (if_neg hab)
  | @move x y hx hfree hy hfree' e =>
    rw [Disk.get?_put (Disk.ne_nil_of_get? hfree'), Disk.get?_erase (Disk.ne_nil_of_get? hfree)]
    by_cases hay : a = y
    · exact .inr (.inl (hay ▸ hy))
    · by_cases hax : a = x
      · exact .inr (.inl (hax ▸ hx))
      · exact .inl ((if_neg hay).trans (if_neg hax))

end Change

section Steps
variable {c : Config} {job : Job} {shared own : Workspace} {stage : Stage}

theorem change_writing {x : Except FileFault Disk} {next : Stage}
    (h : ∀ d, x = .ok d → Change job shared.disk d) :
    Change job shared.disk (Stage.writing shared x next).1.disk := by
  cases x with
  | error cause => exact .nothing
  | ok d => exact h d rfl

/-- A step changes the disk, if at all, where the job writes, and makes directories above it. -/
theorem change_advance (h : Alike job shared.disk own.disk) (hfits : stage.Fits job own.disk) :
    Change job shared.disk (stage.advance c job shared).1.disk := by
  cases stage with
  | making o path a rest =>
    cases rest with
    | nil => exact .nothing
    | cons part rest =>
      obtain ⟨houtput, hreached⟩ := hfits
      refine change_writing fun made hmade => ?_
      rcases Disk.makeOne_eq_ok hmade with ⟨rfl, -⟩ | ⟨hmissing, rfl⟩
      · exact .nothing
      · exact .make (opens_eq houtput ▸ hreached.towards_mem) hmissing
  | drafting o path =>
    obtain ⟨houtput, -⟩ := hfits
    refine change_writing fun drafted hdrafted => ?_
    obtain ⟨a, ha, hfree, rfl⟩ := Disk.write_eq_ok hdrafted
    obtain rfl := Disk.destination_of_resolve ha
    exact .write (draft_mem_writes houtput) hfree _
  | moving o path =>
    obtain ⟨houtput, -, content, hdraft⟩ := hfits
    refine change_writing fun moved hmoved => ?_
    obtain ⟨a, b, e, ha, hb, -, hfree, -, rfl⟩ := Disk.rename_eq_ok hmoved
    obtain rfl := Disk.destination_of_resolve ha
    obtain rfl := Disk.destination_of_resolve hb
    refine .move (draft_mem_writes houtput) ?_ (mem_writes houtput) hfree e
    rw [h.writes _ (draft_mem_writes houtput)]
    exact Disk.not_directory_of_file hdraft
  | _ => exact .nothing

/-- What another job does that spares this one leaves the shared disk alike. `start` is the disk as
it was before any job began. -/
theorem Alike.of_change {other : Job} {start d d' own : Disk} (hspares : other.Spares start job)
    (hkeeps : Keeps start d) (hchange : Change other d d') (h : Alike job d own) :
    Alike job d' own := by
  have hsame : ∀ a, a ∈ job.looks ∨ a ∈ job.writes → d'.get? a = d.get? a := by
    intro a ha
    rcases hchange.get? a with heq | hwritten | ⟨hopened, hmissing, -⟩
    · exact heq
    · obtain ⟨hlooks, -, -, hwrites⟩ := hspares.1 a hwritten
      exact absurd ha (not_or.mpr ⟨hlooks, hwrites⟩)
    · rcases hspares.2 a hopened with hthere | hnot
      · rw [hkeeps a hthere] at hmissing
        cases hmissing
      · exact absurd ha (not_or.mpr hnot)
  refine ⟨fun a ha => ?_, fun a ha => ?_, fun a ha => ?_, fun a ha => ?_⟩
  · rw [hsame a (.inl ha), h.looks a ha]
  · rw [← h.sources a ha]
    rcases hchange.get? a with heq | hwritten | ⟨-, hmissing, hmade⟩
    · exact fileAt?_congr heq
    · exact absurd ha (hspares.1 a hwritten).2.1
    · unfold Disk.fileAt?
      rw [hmissing, hmade]
  · rcases hchange.get? a with heq | hwritten | ⟨-, hmissing, hmade⟩
    · rw [heq]
      exact h.opens a ha
    · exact absurd ha (hspares.1 a hwritten).2.2.1
    · rcases h.opens a ha with heq | ⟨hthere, -⟩
      · exact .inr ⟨hmade, by rw [← heq, hmissing]⟩
      · rw [hmissing] at hthere
        cases hthere
  · rw [hsame a (.inr ha), h.writes a ha]

/-! ### The same steps -/

/-- Two workspaces of a job after a step that has led to one stage, the second its own. -/
structure Together (job : Job) (shared own : Workspace × Stage) : Prop where
  stage : shared.2 = own.2
  alike : Alike job shared.1.disk own.1.disk
  fits : own.2.Fits job own.1.disk

theorem together_following {α : Type} {x : Except Fault α} {next : α → Stage}
    (h : Alike job shared.disk own.disk) (hnext : ∀ a, (next a).Fits job own.disk) :
    Together job (shared, Stage.following x next) (own, Stage.following x next) := by
  refine ⟨rfl, h, ?_⟩
  cases x with
  | error f => exact trivial
  | ok a => exact hnext a

theorem together_failed {next : Stage} (h : Alike job shared.disk own.disk)
    {x y : Except FileFault Disk} {cause : FileFault} (hx : x = .error cause)
    (hy : y = .error cause) :
    Together job (Stage.writing shared x next) (Stage.writing own y next) := by
  rw [hx, hy]
  exact ⟨rfl, h, trivial⟩

theorem together_written {next : Stage} {d d' : Disk} {x y : Except FileFault Disk}
    (hx : x = .ok d) (hy : y = .ok d') (h : Alike job d d') (hfits : next.Fits job d') :
    Together job (Stage.writing shared x next) (Stage.writing own y next) := by
  rw [hx, hy]
  exact ⟨rfl, h, hfits⟩

theorem number_congr (h : Alike job shared.disk own.disk) :
    number c shared.disk job = number c own.disk job := by
  unfold number
  rw [h.load]

theorem fits_complete (d : Disk) (o : Outcome) : (Stage.complete job o).Fits job d := by
  unfold Stage.complete
  split
  · exact trivial
  · rename_i path houtput
    exact ⟨houtput, .start d path⟩

theorem trail_draftPath {path : String} (houtput : job.output = some path)
    (h : Alike job shared.disk own.disk)
    (hpassed : ∀ b ∈ passed [] (components path), own.disk.get? b = some .directory) :
    ∀ b ∈ trail (draftPath path), shared.disk.get? b = own.disk.get? b := by
  refine List.forall_mem_append.mpr ⟨fun b hb => ?_, List.forall_mem_singleton.mpr
    (h.writes _ (draft_mem_writes houtput))⟩
  rw [Disk.passed_draftPath] at hb
  rw [hpassed b hb, h.directory (opens_eq houtput ▸ hb) (hpassed b hb)]

theorem trail_output {path : String} (houtput : job.output = some path)
    (h : Alike job shared.disk own.disk)
    (hpassed : ∀ b ∈ passed [] (components path), own.disk.get? b = some .directory) :
    ∀ b ∈ trail path, shared.disk.get? b = own.disk.get? b := by
  refine List.forall_mem_append.mpr ⟨fun b hb => ?_, List.forall_mem_singleton.mpr
    (h.writes _ (mem_writes houtput))⟩
  rw [hpassed b hb, h.directory (opens_eq houtput ▸ hb) (hpassed b hb)]

/-- A job takes the same step on the shared disk as on its own. -/
theorem advance_alike (h : Alike job shared.disk own.disk) (hfits : stage.Fits job own.disk) :
    Together job (stage.advance c job shared) (stage.advance c job own) := by
  cases stage with
  | fresh =>
    rw [Stage.advance, Stage.advance, number_congr h]
    exact together_following h fun _ => trivial
  | loaded x =>
    rw [Stage.advance, Stage.advance, h.rebuild]
    exact together_following h fun _ => trivial
  | rebuilt x r =>
    rw [Stage.advance, Stage.advance, h.mergeChecked]
    exact together_following h fun _ => fits_complete _ _
  | making o path a rest =>
    obtain ⟨houtput, hreached⟩ := hfits
    cases rest with
    | nil => exact ⟨rfl, h, houtput, hreached.all⟩
    | cons part rest =>
      rw [Stage.advance, Stage.advance]
      have hmem : towards a part ∈ job.opens := opens_eq houtput ▸ hreached.towards_mem
      have hfit : ∀ {made}, own.disk.makeOne a part rest.isEmpty = .ok made →
          (Stage.making o path (towards a part) rest).Fits job made :=
        fun hmade => ⟨houtput, hreached.next hmade⟩
      rcases Disk.makeOne_congr (h.opens _ hmem) rest.isEmpty with
        ⟨cause, hshared, hown⟩ | ⟨hshared, hown⟩ | ⟨hmissing, hshared, hown⟩ |
        ⟨hthere, hmissing, hshared, hown⟩
      · exact together_failed h hshared hown
      · exact together_written hshared hown h (hfit hown)
      · exact together_written hshared hown (h.put hmissing _) (hfit hown)
      · exact together_written hshared hown (h.put_own hmissing hthere) (hfit hown)
  | drafting o path =>
    obtain ⟨houtput, hpassed⟩ := hfits
    rw [Stage.advance, Stage.advance]
    rcases Disk.write_congr (trail_draftPath houtput h hpassed) (o.tree.json c.output.pretty) with
      ⟨cause, hshared, hown⟩ | ⟨hfree, hshared, hown⟩
    · exact together_failed h hshared hown
    · rw [h.writes _ (draft_mem_writes houtput)] at hfree
      have hne := Disk.ne_nil_of_get? hfree
      exact together_written hshared hown (h.put hne _)
        ⟨houtput, fun b hb => Disk.keeps_put hfree _ b (hpassed b hb),
          _, (Disk.get?_put hne _ _).trans (if_pos rfl)⟩
  | moving o path =>
    obtain ⟨houtput, hpassed, content, hdraft⟩ := hfits
    rw [Stage.advance, Stage.advance]
    rcases Disk.rename_congr (trail_draftPath houtput h hpassed) (trail_output houtput h hpassed)
      with ⟨cause, hshared, hown⟩ | ⟨e, -, hfree, hshared, hown⟩
    · exact together_failed h hshared hown
    · have hne := Disk.ne_nil_of_get? (Disk.not_directory_of_file hdraft)
      exact together_written hshared hown ((h.erase hne).put (Disk.ne_nil_of_get? hfree) e) trivial
  | saved o => exact ⟨rfl, h, trivial⟩
  | ended result => exact ⟨rfl, h, trivial⟩

end Steps

end Retrace.Job
