import Mathlib.Data.Nat.Find
import Retrace.Proofs.Reconstruct.Supply

/-! A project is not instrumented twice.

A project is refused when a text of it holds the beginning of a call of the tracer. The probes hold
it, and the braces of a body cannot bring it about, for it has no blank and no brace
(`not_mem_marker`). So an instrumented file is refused exactly when it has got a probe
(`marker_infix_iff`), and the refusal names the first such file (`second_run_is_refused`). -/
namespace Retrace.Instrument
open Java Source

/-! ### The marker -/

namespace Probe

theorem toList_marker (probe : Probe) :
    probe.marker.toList = probe.tracer.toList ++ ".trace(".toList :=
  String.toList_append

theorem marker_ne_nil (probe : Probe) : probe.marker.toList ≠ [] := by
  rw [toList_marker]
  exact List.append_ne_nil_of_right_ne_nil _ (by decide)

theorem marker_infix_statement (probe : Probe) (id : Nat) :
    probe.marker.toList <:+: (probe.statement id).toList := by
  refine ⟨" ".toList, Nat.toDigits 10 id ++ ");".toList, ?_⟩
  rw [toList_statement, toList_marker]
  simp only [List.append_assoc]

theorem not_mem_marker {c : Config.Instrument} {probe : Probe} (h : Probe.of c = .ok probe) :
    ∀ e ∈ [' ', '\x7b', '\x7d'], e ∉ probe.marker.toList := by
  intro e he
  rw [toList_marker, List.mem_append, not_or]
  refine ⟨not_mem_tracer h (by decide +kernel) e he, ?_⟩
  rcases List.mem_cons.mp he with rfl | he
  · decide
  · rcases List.mem_pair.mp he with rfl | rfl <;> decide

end Probe

namespace Instrumentation

theorem contains_iff {text part : List Char} : contains text part = true ↔ part <:+: text := by
  induction text with
  | nil => simp [contains]
  | cons c cs ih => simp [contains, List.infix_cons_iff, ih]

theorem of_eq_run {c : Config.Instrument} {probe : Probe} (h : Probe.of c = .ok probe)
    (p : Project) : Instrumentation.of c p = run probe p := by
  unfold Instrumentation.of
  rw [h]
  rfl

/-- What could be instrumented had no marker. -/
theorem unmarked_of_ok {c : Config.Instrument} {probe : Probe} {p : Project}
    {inst : Instrumentation} (hprobe : Probe.of c = .ok probe)
    (h : Instrumentation.of c p = .ok inst) {f : File} (hf : f ∈ p.fileList) :
    ¬probe.marker.toList <:+: f.text.toList := by
  rw [of_eq_run hprobe, run] at h
  cases hmarked : marked? probe p with
  | some g =>
    rw [hmarked] at h
    cases h
  | none =>
    have hnone := List.find?_eq_none.mp hmarked f hf
    exact fun hheld => hnone (contains_iff.mpr hheld)

/-- A project with a marked file is refused, and the first one is named. -/
theorem of_eq_refused {c : Config.Instrument} {probe : Probe} {p : Project} {k : Nat} {f : File}
    (hprobe : Probe.of c = .ok probe) (hf : p.fileList[k]? = some f)
    (hmarked : probe.marker.toList <:+: f.text.toList)
    (hfirst : ∀ j < k, ∀ g, p.fileList[j]? = some g → ¬probe.marker.toList <:+: g.text.toList) :
    Instrumentation.of c p = .error (.alreadyInstrumented f.path) := by
  obtain ⟨hk, rfl⟩ := List.getElem?_eq_some_iff.mp hf
  have hfind : marked? probe p = some p.fileList[k] := by
    refine List.find?_eq_some_iff_getElem.mpr ⟨contains_iff.mpr hmarked, k, hk, rfl, fun j hj => ?_⟩
    have hnot := hfirst j hj _ (List.getElem?_eq_getElem (Nat.lt_trans hj hk))
    exact Bool.not_eq_true' _ ▸ Bool.eq_false_iff.mpr fun h => hnot (contains_iff.mp h)
  rw [of_eq_run hprobe, run, hfind]

theorem of_eq_ok_of_unmarked {c : Config.Instrument} {probe : Probe} {p : Project}
    (hprobe : Probe.of c = .ok probe)
    (h : ∀ f ∈ p.fileList, ¬probe.marker.toList <:+: f.text.toList) :
    ∃ inst, Instrumentation.of c p = .ok inst := by
  have hfind : marked? probe p = none :=
    List.find?_eq_none.mpr fun f hf hmarked => h f hf (contains_iff.mp hmarked)
  rw [of_eq_run hprobe, run, hfind]
  exact ⟨_, rfl⟩

end Instrumentation

/-! ### The instrumented files as sources -/

/-- The file has got a probe. -/
def Instrumentation.Receives (inst : Instrumentation) (k : Nat) : Prop :=
  ∃ id point, inst.points.get? id = some point ∧ point.ref.file = k

section Sources
variable {c : Config.Instrument} {sources again : List (String × String)} {inst : Instrumentation}
  (h : Instrumentation.of c (Project.ofSources sources) = .ok inst)
include h

theorem receives_iff {k : Nat} {g : File} (hg : inst.project.fileList[k]? = some g) :
    inst.Receives k ↔ placements g ≠ [] := by
  obtain ⟨_, _, _, hpoints, _⟩ := Instrumentation.of_eq_ok h
  unfold Instrumentation.Receives
  rw [hpoints]
  constructor
  · rintro ⟨id, point, hpoint, hfile⟩
    obtain ⟨j, f, n, x, hf, hx, rfl, _⟩ := PointMap.get?_ofProject.mp hpoint
    obtain rfl : j = k := hfile
    cases hg.symm.trans hf
    exact List.ne_nil_of_mem (List.mem_of_getElem? hx)
  · intro hne
    obtain ⟨x, rest, hcons⟩ := List.exists_cons_of_ne_nil hne
    have hx : (placements g)[0]? = some x := by
      rw [hcons]
      rfl
    exact ⟨_, _, PointMap.get?_ofProject.mpr ⟨k, g, 0, x, hg, hx, rfl, rfl⟩, rfl⟩

theorem exists_file_of_receives {k : Nat} (hk : inst.Receives k) :
    ∃ t, inst.files[k]? = some t := by
  obtain ⟨_, _, _, hpoints, hfiles⟩ := Instrumentation.of_eq_ok h
  obtain ⟨id, point, hpoint, rfl⟩ := hk
  rw [hpoints] at hpoint
  obtain ⟨k, f, n, x, hf, _, rfl, _⟩ := PointMap.get?_ofProject.mp hpoint
  rw [hfiles, Instrumentation.getElem?_instrumentFiles, hf]
  exact ⟨_, rfl⟩

theorem exists_source {k : Nat} {t : TextFile} (ht : inst.files[k]? = some t) :
    ∃ f, (Project.ofSources sources).fileList[k]? = some f := by
  obtain ⟨_, _, hproject, _, hfiles⟩ := Instrumentation.of_eq_ok h
  rw [hfiles, Instrumentation.getElem?_instrumentFiles, hproject, fileList_normalize,
    List.getElem?_map] at ht
  obtain ⟨g, hg, _⟩ := Option.map_eq_some_iff.mp ht
  obtain ⟨f, hf, _⟩ := Option.map_eq_some_iff.mp hg
  exact ⟨f, hf⟩

/-- An instrumented file has the marker exactly when it has got a probe. -/
theorem marker_infix_iff {probe : Probe} (hprobe : Probe.of c = .ok probe) {k : Nat}
    {t : TextFile} (ht : inst.files[k]? = some t) :
    probe.marker.toList <:+: t.text.toList ↔ inst.Receives k := by
  obtain ⟨f, hf⟩ := exists_source h ht
  obtain ⟨g, t', braces, probes, hg, ht', _, _, hbraces, hprobes, hadds, hadds'⟩ :=
    edits_of_instrumentation h hprobe hf
  cases ht.symm.trans ht'
  rw [receives_iff h hg]
  constructor
  · intro hheld hnil
    have hnone : Piece.insertions probes = [] := by
      rw [hprobes, hnil]
      exact (Insertion.sort_perm _).eq_nil
    rw [← hadds'.text] at hheld
    have hbraced : probe.marker.toList <:+: g.text.toList := by
      rw [← hadds'.source]
      refine Piece.infix_of_text probe.marker_ne_nil (fun i hi => ?_) hheld
      rw [hnone] at hi
      cases hi
    rw [← hadds.text] at hbraced
    refine Instrumentation.unmarked_of_ok hprobe h (List.mem_of_getElem? hf) ?_
    rw [← hadds.source]
    refine Piece.infix_of_text probe.marker_ne_nil (fun i hi e he => ?_) hbraced
    rw [hbraces] at hi
    obtain ⟨htext, _⟩ := unbroken_brace ((Insertion.sort_perm _).mem_iff.mp hi)
    have hbrace : ∀ s ∈ ["\x7b ", " \x7d"], s.toList.all fun e =>
        [' ', '\x7b', '\x7d'].contains e := by
      simp
    have hall := hbrace i.text (by simpa using htext)
    exact Probe.not_mem_marker hprobe e (List.contains_iff_mem.mp (List.all_eq_true.mp hall e he))
  · intro hne
    obtain ⟨x, rest, hcons⟩ := List.exists_cons_of_ne_nil hne
    obtain ⟨i, hi, id, htext⟩ : ∃ i ∈ Piece.insertions probes, ∃ id,
        i.text = probe.statement id := by
      rw [hprobes, hcons]
      exact ⟨_, (Insertion.sort_perm _).mem_iff.mpr List.mem_cons_self, _, rfl⟩
    rw [← hadds'.text]
    have hprobe' := Piece.infix_text_of_mem hi
    rw [htext] at hprobe'
    exact (probe.marker_infix_statement id).trans hprobe'

/-- The instrumented files stand in their order again when they are read, in whatever order they
are supplied. -/
theorem fileList_again (hpaths : sources.Pairwise fun x y => Path.same x.1 y.1 = false)
    (hagain : again.Perm (inst.files.map fun t => (t.path, t.text))) :
    (Project.ofSources again).fileList = inst.files.map fun t => parse t.path t.text := by
  have hfiles : (sources.map fun x => parse x.1 x.2).Pairwise fun f g =>
      Path.same f.path g.path = false := by
    simpa only [List.pairwise_map, parse_path] using hpaths
  have hordered : (inst.files.map fun t => parse t.path t.text).Pairwise fun f g =>
      Path.compare f.path g.path = .lt := by
    have hsources : ((Project.ofSources sources).fileList.map File.path).Pairwise fun x y =>
        Path.compare x y = .lt := List.pairwise_map.mpr (Project.strictly_ofFiles hfiles)
    rw [← (Instrumentation.follows_sources h).2.1] at hsources
    simpa only [List.pairwise_map, parse_path] using hsources
  have hread : (again.map fun x => parse x.1 x.2).Perm
      (inst.files.map fun t => parse t.path t.text) := by
    have hmap := hagain.map fun x => parse x.1 x.2
    rwa [List.map_map] at hmap
  have hdistinct : (inst.files.map fun t => parse t.path t.text).Pairwise fun f g =>
      Path.same f.path g.path = false := by
    refine hordered.imp fun {f g} hlt => Bool.eq_false_iff.mpr fun hsame => ?_
    rw [Path.compare_eq_iff.mpr hsame] at hlt
    cases hlt
  have hproject : Project.ofSources again =
      Project.ofFiles (inst.files.map fun t => parse t.path t.text) :=
    (Project.ofFiles_of_perm hread.symm hdistinct).symm
  rw [hproject]
  refine List.mergeSort_of_pairwise (hordered.imp fun {f g} hlt => ?_)
  unfold Project.pathNotAfter
  rw [hlt]
  rfl

/-- When the instrumented files are instrumented again, they are refused as soon as one trace point
has got an id, and the file that is named is the first with a trace point; they are accepted when
there is none. -/
theorem second_run_is_refused
    (hpaths : sources.Pairwise fun x y => Path.same x.1 y.1 = false)
    (hagain : again.Perm (inst.files.map fun t => (t.path, t.text))) :
    (0 < inst.points.size → ∃ k t, inst.files[k]? = some t ∧ inst.Receives k ∧
      (∀ j < k, ¬inst.Receives j) ∧
      Instrumentation.of c (Project.ofSources again) = .error (.alreadyInstrumented t.path)) ∧
    (inst.points.size = 0 →
      ∃ inst', Instrumentation.of c (Project.ofSources again) = .ok inst') := by
  obtain ⟨probe, hprobe, _⟩ := Instrumentation.of_eq_ok h
  have hread := fileList_again h hpaths hagain
  have hmarked : ∀ {k g}, (Project.ofSources again).fileList[k]? = some g →
      ∃ t, inst.files[k]? = some t ∧ g.path = t.path ∧
        (probe.marker.toList <:+: g.text.toList ↔ inst.Receives k) := by
    intro k g hg
    rw [hread, List.getElem?_map] at hg
    obtain ⟨t, ht, rfl⟩ := Option.map_eq_some_iff.mp hg
    refine ⟨t, ht, parse_path _ _, ?_⟩
    rw [parse_text]
    exact marker_infix_iff h hprobe ht
  constructor
  · intro hsize
    have hsome : ∃ k, inst.Receives k := by
      have hfirst := (PointMap.isSome_get? inst.points 1).mpr ⟨Nat.le_refl 1, hsize⟩
      obtain ⟨point, hpoint⟩ := Option.isSome_iff_exists.mp hfirst
      exact ⟨_, 1, point, hpoint, rfl⟩
    classical
    have hk := Nat.find_spec hsome
    obtain ⟨t, ht⟩ := exists_file_of_receives h hk
    have hg : (Project.ofSources again).fileList[Nat.find hsome]? =
        some (parse t.path t.text) := by
      rw [hread, List.getElem?_map, ht]
      rfl
    obtain ⟨t', ht', _, hiff⟩ := hmarked hg
    refine ⟨Nat.find hsome, t, ht, hk, fun j => Nat.find_min hsome, ?_⟩
    rw [← parse_path t.path t.text]
    refine Instrumentation.of_eq_refused hprobe hg (hiff.mpr hk) fun j hj g hg hheld => ?_
    obtain ⟨_, _, _, hiff'⟩ := hmarked hg
    exact Nat.find_min hsome hj (hiff'.mp hheld)
  · intro hsize
    refine Instrumentation.of_eq_ok_of_unmarked hprobe fun g hg hheld => ?_
    obtain ⟨k, hk⟩ := List.mem_iff_getElem?.mp hg
    obtain ⟨_, _, _, hiff⟩ := hmarked hk
    obtain ⟨id, point, hpoint, _⟩ := hiff.mp hheld
    have hid := (PointMap.isSome_get? inst.points id).mp (Option.isSome_of_eq_some hpoint)
    omega

end Sources

/-- The first file has nothing to trace. The refusal names the second one, which is supplied
first. -/
theorem second_run_names_second_file :
    let sources := [("A.java", "interface A{}"), ("B.java", "class B{void m(){}}")]
    ∃ inst, Instrumentation.of {} (Project.ofSources sources) = .ok inst ∧
      Instrumentation.of {} (Project.ofSources (inst.files.map fun t => (t.path, t.text)).reverse) =
        .error (.alreadyInstrumented "B.java") := by
  intro sources
  have hsorted : Project.ofSources sources = ⟨(sources.map fun x => parse x.1 x.2).toArray⟩ :=
    Reconstruct.ofSources_of_sorted (by decide +kernel)
  have hok : (Instrumentation.of {} (Project.ofSources sources)).isOk = true := by
    rw [hsorted]
    decide +kernel
  cases h : Instrumentation.of {} (Project.ofSources sources) with
  | error _ =>
    rw [h] at hok
    cases hok
  | ok inst =>
    obtain ⟨_, _, hproject, hpoints, _⟩ := Instrumentation.of_eq_ok h
    have hfiles : inst.points.points.toList.map (fun x => x.ref.file) = [1] := by
      have hlist := fileList_normalize sources
      rw [← hproject, hsorted] at hlist
      rw [hpoints, show inst.project = ⟨inst.project.fileList.toArray⟩ from rfl, hlist]
      decide +kernel
    have hsize : inst.points.size = 1 := by
      have hlength := congrArg List.length hfiles
      rw [List.length_map] at hlength
      exact hlength
    obtain ⟨k, t, ht, ⟨id, point, hpoint, rfl⟩, _, hrefused⟩ :=
      (second_run_is_refused h (by decide +kernel) (List.reverse_perm _)).1
        (hsize ▸ Nat.one_pos)
    obtain ⟨n, hn, _⟩ := PointMap.get?_eq_some.mp hpoint
    have hfile : point.ref.file = 1 := by
      have hmem := List.mem_map_of_mem (f := fun x : TracePoint => x.ref.file)
        (List.mem_of_getElem? hn)
      rw [hfiles] at hmem
      exact List.mem_singleton.mp hmem
    have hpath : t.path = "B.java" := by
      obtain ⟨_, hpaths, _⟩ := Instrumentation.follows_sources h
      have hsecond : (inst.files.map TextFile.path)[1]? = some t.path := by
        rw [List.getElem?_map, ← hfile, ht]
        rfl
      rw [hpaths, hsorted] at hsecond
      exact (Option.some.inj hsecond).symm.trans (parse_path _ _)
    exact ⟨inst, rfl, hpath ▸ hrefused⟩

end Retrace.Instrument
