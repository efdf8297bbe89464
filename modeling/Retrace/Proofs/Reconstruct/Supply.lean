import Retrace.Proofs.Instrument.Ids
import Retrace.Reconstruct.Machine

/-! Sources in any order.

A trace holds nothing but ids, and the ids of a later run are counted anew from sources that are
loaded again. They agree because files of different paths stand in one order only, that of their
paths, and because every later step keeps to it: the files with braces and the instrumented files
follow the sources one by one, and ids count the trace points in the order of the files and, inside
of a file, of its nodes (`sources_in_any_order`). -/
namespace Retrace.Instrument
open Java Source Trace

namespace Instrumentation

theorem map_path_instrumentFiles (probe : Probe) (first : Nat) (fs : List File) :
    (instrumentFiles probe first fs).map TextFile.path = fs.map File.path := by
  induction fs generalizing first with
  | nil => rfl
  | cons f fs ih => simp [instrumentFiles, instrumentFile, ih]

/-- The tree of a trace, with the ids that the sources are given when they are instrumented anew. -/
def replay (c : Config.Instrument) (p : Project) (partially : Bool) (stream : Stream) :
    Except Fault Reconstruct.Reconstruction := do
  let inst ← Instrumentation.of c p
  Reconstruct.reconstruct (.of inst.project inst.points) partially stream

/-- All files of an instrumented project stand in the order of the sources, and the ids in that of
the trace points. -/
theorem follows_sources {c : Config.Instrument} {sources : List (String × String)}
    {inst : Instrumentation} (h : Instrumentation.of c (Project.ofSources sources) = .ok inst) :
    inst.project.fileList.map File.path = (Project.ofSources sources).fileList.map File.path ∧
      inst.files.map TextFile.path = (Project.ofSources sources).fileList.map File.path ∧
      ∀ m n a b, m < n → inst.points.get? m = some a → inst.points.get? n = some b →
        a.ref.Before b.ref := by
  obtain ⟨probe, _, hproject, hpoints, hfiles⟩ := of_eq_ok h
  have hpaths : inst.project.fileList.map File.path =
      (Project.ofSources sources).fileList.map File.path := by
    rw [hproject, fileList_normalize, List.map_map]
    exact List.map_congr_left fun f _ => parse_path _ _
  refine ⟨hpaths, ?_, fun m n a b hmn ha hb => ?_⟩
  · rw [hfiles, map_path_instrumentFiles]
    exact hpaths
  · rw [hpoints] at ha hb
    exact PointMap.before_of_lt ha hb hmn

end Instrumentation

open Instrumentation in
/-- Sources of different paths make the same project in whatever order they are supplied: the one in
the order of their paths. So they are instrumented alike, with the same ids, and every trace has the
same tree. -/
theorem sources_in_any_order {sources others : List (String × String)}
    (hperm : sources.Perm others)
    (hpaths : sources.Pairwise fun x y => Path.same x.1 y.1 = false) :
    Project.ofSources sources = Project.ofSources others ∧
      (∀ c, Instrumentation.of c (Project.ofSources sources) =
        Instrumentation.of c (Project.ofSources others)) ∧
      (∀ c partially stream, replay c (Project.ofSources sources) partially stream =
        replay c (Project.ofSources others) partially stream) ∧
      ((Project.ofSources sources).fileList.Pairwise fun f g =>
        Path.compare f.path g.path = .lt) ∧
      ∀ c inst, Instrumentation.of c (Project.ofSources sources) = .ok inst →
        inst.project.fileList.map File.path = (Project.ofSources sources).fileList.map File.path ∧
        inst.files.map TextFile.path = (Project.ofSources sources).fileList.map File.path ∧
        ∀ m n a b, m < n → inst.points.get? m = some a → inst.points.get? n = some b →
          a.ref.Before b.ref := by
  have hfiles : (sources.map fun x => parse x.1 x.2).Pairwise fun f g =>
      Path.same f.path g.path = false := by
    simpa only [List.pairwise_map, parse_path] using hpaths
  have hproject : Project.ofSources sources = Project.ofSources others :=
    Project.ofFiles_of_perm (hperm.map _) hfiles
  refine ⟨hproject, fun c => ?_, fun c partially stream => ?_, Project.strictly_ofFiles hfiles,
    fun c inst hinst => follows_sources hinst⟩
  · rw [hproject]
  · rw [hproject]

/-- The class that is supplied last has the first ids. -/
theorem first_ids_of_last_source :
    let sources := [("B.java", "class B{void b(){}}"),
      ("A.java", "class A{void a(){}void c(){}}")]
    sources.reverse ≠ sources ∧
      Project.ofSources sources = Project.ofSources sources.reverse ∧
      (PointMap.ofProject (Project.ofSources sources)).points.toList.map (fun t => t.ref.file) =
        [0, 0, 1] ∧
      (Project.ofSources sources).fileList.map File.path = ["A.java", "B.java"] ∧
      ∀ c partially stream, Instrumentation.replay c (Project.ofSources sources) partially stream =
        Instrumentation.replay c (Project.ofSources sources.reverse) partially stream := by
  intro sources
  obtain ⟨hproject, _, hreplay, _⟩ :=
    sources_in_any_order (List.reverse_perm sources).symm (by decide +kernel)
  have hsorted : Project.ofSources sources.reverse = ⟨(sources.reverse.map fun x =>
      parse x.1 x.2).toArray⟩ := Reconstruct.ofSources_of_sorted (by decide +kernel)
  have hfacts : (PointMap.ofProject ⟨(sources.reverse.map fun x => parse x.1 x.2).toArray⟩
      ).points.toList.map (fun t => t.ref.file) = [0, 0, 1] := by
    decide +kernel
  refine ⟨by decide, hproject, ?_, ?_, hreplay⟩
  · rw [hproject, hsorted]
    exact hfacts
  · rw [hproject, hsorted]
    decide +kernel

end Retrace.Instrument
