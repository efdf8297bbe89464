import Retrace.Instrument.Instrumentation
import Retrace.Proofs.Instrument.Blocks
import Retrace.Proofs.Instrument.Braces
import Retrace.Proofs.Reconstruct.Sources
import Retrace.Proofs.Source.Projects

/-! Instrumentation adds text and breaks no line.

The braces of a file are inserted at the ends of nodes, and the probes behind opening braces and
calls, so both edits are made at boundaries of the text (`adds_normalizedText`, `adds_probes`). What
they add is without line ends: a tracer has a name of letters, digits, underscores and dots. So
each character of a source keeps its line (`keepsLines_of_adds`), in the text with braces as in the
instrumented one (`instrumentation_keeps_lines`). -/
namespace Retrace.Instrument
open Java Source

/-- The characters that end a line: line feed, carriage return, the tabulator and the feed that are
vertical, next line and the separators of lines and paragraphs. -/
def lineEnds : List Char := ['\n', '\r', '\u000b', '\u000c', '\u0085', '\u2028', '\u2029']

def Unbroken (text : String) : Prop := ∀ e ∈ lineEnds, e ∉ text.toList

instance (text : String) : Decidable (Unbroken text) :=
  List.decidableBAll (· ∉ text.toList) lineEnds

/-! ### What is added -/

namespace Probe

theorem mem_of_nameParts? {name : String} {parts : List String} (h : nameParts? name = some parts) :
    ∀ c ∈ (Text.trim name).toList, c = '.' ∨ Text.isAlphanumeric c = true ∨ c = '_' := by
  unfold nameParts? at h
  dsimp only at h
  split at h
  · rename_i hall
    intro c hc
    refine (Text.eq_mark_or_mem hc).imp_right fun ⟨s, hs, hmem⟩ => ?_
    have hpart := List.all_eq_true.mp hall (String.ofList s) (List.mem_map_of_mem hs)
    unfold isNamePart at hpart
    obtain ⟨_, hchars⟩ := Bool.and_eq_true_iff.mp hpart
    rw [String.toList_ofList] at hchars
    simpa using List.all_eq_true.mp hchars c hmem
  · cases h

theorem mem_tracer {c : Config.Instrument} {probe : Probe} (h : Probe.of c = .ok probe) :
    ∀ e ∈ probe.tracer.toList, e = '.' ∨ Text.isAlphanumeric e = true ∨ e = '_' := by
  unfold Probe.of at h
  split at h
  · rename_i parts hparts
    cases h
    exact mem_of_nameParts? hparts
  · cases h

/-- Nothing but letters, numbers, underscores and dots stands in the name. -/
theorem not_mem_tracer {c : Config.Instrument} {probe : Probe} (h : Probe.of c = .ok probe)
    {marks : List Char}
    (hmarks : marks.all (fun e => e != '.' && !Text.isAlphanumeric e && e != '_') = true) :
    ∀ e ∈ marks, e ∉ probe.tracer.toList := by
  intro e he hmem
  have hother := List.all_eq_true.mp hmarks e he
  rcases mem_tracer h e hmem with rfl | hletter | rfl
  · exact absurd hother (by decide)
  · rw [hletter, Bool.not_true, Bool.and_false, Bool.false_and] at hother
    cases hother
  · exact absurd hother (by decide)

theorem unbroken_tracer {c : Config.Instrument} {probe : Probe} (h : Probe.of c = .ok probe) :
    Unbroken probe.tracer :=
  not_mem_tracer h (by decide +kernel)

theorem toList_statement (probe : Probe) (id : Nat) : (probe.statement id).toList =
    " ".toList ++ probe.tracer.toList ++
      (".trace(".toList ++ Nat.toDigits 10 id ++ ");".toList) := by
  show (" " ++ probe.tracer ++ (".trace(" ++ Nat.repr id ++ ");")).toList = _
  simp only [String.toList_append, Nat.toList_repr]

theorem unbroken_statement {c : Config.Instrument} {probe : Probe} (h : Probe.of c = .ok probe)
    (id : Nat) : Unbroken (probe.statement id) := by
  intro e he
  have hfixed : Unbroken " " ∧ Unbroken ".trace(" ∧ Unbroken ");" := by decide
  obtain ⟨hblank, hcall, hclose⟩ := hfixed
  have hnone : lineEnds.all (fun e => !e.isDigit) = true := by decide
  have hid : e ∉ Nat.toDigits 10 id := by
    intro hmem
    have hnot := List.all_eq_true.mp hnone e he
    rw [Nat.isDigit_of_mem_toDigits (by decide) (by decide) hmem] at hnot
    cases hnot
  rw [toList_statement]
  simp only [List.mem_append, not_or]
  exact ⟨⟨hblank e he, unbroken_tracer h e he⟩, ⟨hcall e he, hid⟩, hclose e he⟩

end Probe

theorem unbroken_brace {f : File} {i : Insertion} (h : i ∈ Braces.insertions f) :
    (i.text = "\x7b " ∨ i.text = " \x7d") ∧ Unbroken i.text := by
  obtain ⟨n, _, hi⟩ := List.mem_flatMap.mp h
  obtain ⟨b, _, hi⟩ := List.mem_flatMap.mp hi
  have htext : i.text = "\x7b " ∨ i.text = " \x7d" := by
    rcases List.mem_cons.mp hi with rfl | hi
    · exact .inl rfl
    · rw [List.mem_singleton.mp hi]
      exact .inr rfl
  refine ⟨htext, ?_⟩
  rcases htext with htext | htext <;> rw [htext] <;> decide

/-! ### Where it is added -/

/-- The pieces are the first text with insertions, and together they are the second. -/
structure Adds (ps : List Piece) (old new : String) : Prop where
  source : Piece.source ps = old.toList
  text : Piece.text ps = new.toList

theorem adds_apply {text : String} {is : List Insertion}
    (h : ∀ i ∈ is, Boundary 0 text.toList i.offset) :
    ∃ ps, Piece.insertions ps = Insertion.sort is ∧ Piece.Aligned 0 ps ∧
      Adds ps text ((Edit.apply text is).getD text) := by
  obtain ⟨ps, hsource, hinsertions, haligned, happly⟩ := Piece.exists_apply h
  refine ⟨ps, hinsertions, haligned, hsource, ?_⟩
  rw [happly]
  exact String.toList_ofList.symm

theorem adds_normalizedText {f : File} (h : f.InText) :
    ∃ ps, Piece.insertions ps = Insertion.sort (Braces.insertions f) ∧
      Adds ps f.text (Braces.normalizedText f) := by
  rw [Braces.normalizedText_eq]
  have hboundary : ∀ i ∈ Braces.insertions f, Boundary 0 f.text.toList i.offset := by
    intro i hi
    obtain ⟨n, _, hi⟩ := List.mem_flatMap.mp hi
    obtain ⟨b, _, hi⟩ := List.mem_flatMap.mp hi
    rcases List.mem_cons.mp hi with rfl | hi
    · exact h.start b
    · rw [List.mem_singleton.mp hi]
      exact h.stop b
  obtain ⟨ps, hinsertions, _, hadds⟩ := adds_apply hboundary
  exact ⟨ps, hinsertions, hadds⟩

theorem boundary_of_placement {f : File} (hs : f.Shaped) (hin : f.InText) (hbraces : f.InBraces)
    {x : Placement} (h : x ∈ placements f) : Boundary 0 f.text.toList x.offset := by
  obtain ⟨b, hholds, _, ⟨_, hoffset⟩ | ⟨call, _, _, hoffset⟩⟩ := probeOffset_cases h
  · obtain ⟨front, back, hsplit, hstart⟩ := hbraces.opening (hholds.fenced hs)
    refine ⟨front ++ ['\x7b'], back, by rw [hsplit, List.append_assoc]; rfl, ?_⟩
    rw [hoffset, hstart, bytes_append, Nat.zero_add]
    rfl
  · rw [hoffset]
    exact hin.stop call

theorem adds_probes {f : File} (hs : f.Shaped) (hin : f.InText) (hbraces : f.InBraces)
    (probe : Probe) (first : Nat) :
    ∃ ps, Piece.insertions ps =
        Insertion.sort (Instrumentation.probes probe first (placements f)) ∧
      Piece.Aligned 0 ps ∧
      Adds ps f.text (Instrumentation.instrumentFile probe first f (placements f)).text := by
  refine adds_apply fun i hi => ?_
  obtain ⟨⟨x, k⟩, hx, rfl⟩ := List.mem_map.mp hi
  exact boundary_of_placement hs hin hbraces (List.fst_mem_of_mem_zipIdx hx)

/-! ### Lines -/

/-- Each character is moved and keeps its line, however lines end. -/
structure KeepsLines (move : Nat → Nat) (old new : List Char) : Prop where
  moved : ∀ {n c}, old[n]? = some c → new[move n]? = some c
  lt : ∀ {m n}, m < n → move m < move n
  le : ∀ {n}, n ≤ old.length → move n ≤ new.length
  line : ∀ e ∈ lineEnds, ∀ n ≤ old.length, (new.take (move n)).count e = (old.take n).count e
  lines : ∀ e ∈ lineEnds, new.count e = old.count e

theorem keepsLines_of_adds {ps : List Piece} {old new : String} (h : Adds ps old new)
    (hps : ∀ i ∈ Piece.insertions ps, Unbroken i.text) :
    KeepsLines (Piece.position ps) old.toList new.toList := by
  rw [← h.source, ← h.text]
  have hnone : ∀ e ∈ lineEnds, ∀ i ∈ Piece.insertions ps, e ∉ i.text.toList :=
    fun e he i hi => hps i hi e he
  exact ⟨Piece.getElem?_position, Piece.position_lt, Piece.position_le,
    fun e he _ hn => Piece.count_take_position (hnone e he) hn,
    fun e he => Piece.count_text (hnone e he)⟩

theorem KeepsLines.trans {move move' : Nat → Nat} {a b c : List Char} (h : KeepsLines move a b)
    (h' : KeepsLines move' b c) : KeepsLines (fun n => move' (move n)) a c where
  moved hn := h'.moved (h.moved hn)
  lt hmn := h'.lt (h.lt hmn)
  le hn := h'.le (h.le hn)
  line e he n hn := (h'.line e he (move n) (h.le hn)).trans (h.line e he n hn)
  lines e he := (h'.lines e he).trans (h.lines e he)

/-! ### A whole project -/

namespace Instrumentation

theorem of_eq_ok {c : Config.Instrument} {p : Project} {inst : Instrumentation}
    (h : Instrumentation.of c p = .ok inst) : ∃ probe, Probe.of c = .ok probe ∧
      inst.project = Braces.normalize p ∧ inst.points = PointMap.ofProject inst.project ∧
      inst.files = instrumentFiles probe 1 inst.project.fileList := by
  unfold Instrumentation.of at h
  cases hprobe : Probe.of c with
  | error fault =>
    rw [hprobe] at h
    cases h
  | ok probe =>
    rw [hprobe] at h
    replace h : run probe p = .ok inst := h
    unfold run at h
    split at h
    · cases h
    · cases h
      exact ⟨probe, rfl, rfl, rfl, rfl⟩

/-- The probes of a file are counted behind those of the files in front of it. -/
theorem getElem?_instrumentFiles (probe : Probe) (first : Nat) (fs : List File) (k : Nat) :
    (instrumentFiles probe first fs)[k]? = fs[k]?.map fun f =>
      instrumentFile probe (first + ((fs.take k).flatMap placements).length) f (placements f) := by
  induction fs generalizing first k with
  | nil => rfl
  | cons f fs ih =>
    cases k with
    | zero => rfl
    | succ k =>
      rw [instrumentFiles, List.getElem?_cons_succ, List.getElem?_cons_succ, ih,
        List.take_succ_cons, List.flatMap_cons, List.length_append, Nat.add_assoc]

end Instrumentation

theorem fileList_normalize (sources : List (String × String)) :
    (Braces.normalize (Project.ofSources sources)).fileList =
      (Project.ofSources sources).fileList.map fun f => parse f.path (Braces.normalizedText f) :=
  Project.fileList_map _ fun _ => parse_path _ _

section Sources
variable {c : Config.Instrument} {sources : List (String × String)} {inst : Instrumentation}
  (h : Instrumentation.of c (Project.ofSources sources) = .ok inst)
include h

/-- A file of an instrumented project has the text of its source with braces, and then probes. -/
theorem edits_of_instrumentation {probe : Probe} (hprobe : Probe.of c = .ok probe) {k : Nat}
    {f : File} (hf : (Project.ofSources sources).fileList[k]? = some f) :
    ∃ g t braces probes, inst.project.fileList[k]? = some g ∧ inst.files[k]? = some t ∧
      g = parse f.path (Braces.normalizedText f) ∧ t.path = f.path ∧
      Piece.insertions braces = Insertion.sort (Braces.insertions f) ∧
      Piece.insertions probes = Insertion.sort (Instrumentation.probes probe
        (1 + ((inst.project.fileList.take k).flatMap placements).length) (placements g)) ∧
      Adds braces f.text g.text ∧ Adds probes g.text t.text := by
  obtain ⟨probe', hprobe', hproject, _, hfiles⟩ := Instrumentation.of_eq_ok h
  cases hprobe.symm.trans hprobe'
  obtain ⟨x, _, hx⟩ := Reconstruct.mem_ofSources (List.mem_of_getElem? hf)
  have hg : inst.project.fileList[k]? = some (parse f.path (Braces.normalizedText f)) := by
    rw [hproject, fileList_normalize, List.getElem?_map, hf]
    rfl
  obtain ⟨braces, hbraces, hadds⟩ : ∃ ps, Piece.insertions ps =
      Insertion.sort (Braces.insertions f) ∧ Adds ps f.text (Braces.normalizedText f) :=
    adds_normalizedText (by rw [hx]; exact parse_inText _ _)
  obtain ⟨probes, hprobes, _, hadds'⟩ := adds_probes (parse_shaped f.path (Braces.normalizedText f))
    (parse_inText _ _) (parse_inBraces _ _) probe
    (1 + ((inst.project.fileList.take k).flatMap placements).length)
  rw [← parse_text f.path (Braces.normalizedText f)] at hadds
  refine ⟨_, _, braces, probes, hg, ?_, rfl, parse_path _ _, hbraces, hprobes, hadds, hadds'⟩
  rw [hfiles, Instrumentation.getElem?_instrumentFiles, hg]
  rfl

/-- Every file of an instrumented project is its source with braces added, then probes. Nothing that
is added breaks a line, so every character of the source keeps its line in both texts. -/
theorem instrumentation_keeps_lines {k : Nat} {f : File}
    (hf : (Project.ofSources sources).fileList[k]? = some f) :
    ∃ probe g t braces probes, Probe.of c = .ok probe ∧
      inst.project.fileList[k]? = some g ∧ inst.files[k]? = some t ∧
      g.path = f.path ∧ t.path = f.path ∧
      Adds braces f.text g.text ∧ Adds probes g.text t.text ∧
      (∀ i ∈ Piece.insertions braces, i.text = "\x7b " ∨ i.text = " \x7d") ∧
      (∀ i ∈ Piece.insertions probes, ∃ id, i.text = probe.statement id) ∧
      (∀ i ∈ Piece.insertions braces ++ Piece.insertions probes, Unbroken i.text) ∧
      KeepsLines (Piece.position braces) f.text.toList g.text.toList ∧
      KeepsLines (fun n => Piece.position probes (Piece.position braces n))
        f.text.toList t.text.toList := by
  obtain ⟨probe, hprobe, _⟩ := Instrumentation.of_eq_ok h
  obtain ⟨g, t, braces, probes, hg, ht, rfl, hpath, hbraces, hprobes, hadds, hadds'⟩ :=
    edits_of_instrumentation h hprobe hf
  have hleft : ∀ i ∈ Piece.insertions braces,
      (i.text = "\x7b " ∨ i.text = " \x7d") ∧ Unbroken i.text := by
    intro i hi
    rw [hbraces] at hi
    exact unbroken_brace ((Insertion.sort_perm _).mem_iff.mp hi)
  have hright : ∀ i ∈ Piece.insertions probes, ∃ id, i.text = probe.statement id := by
    intro i hi
    rw [hprobes] at hi
    obtain ⟨⟨y, n⟩, _, rfl⟩ := List.mem_map.mp ((Insertion.sort_perm _).mem_iff.mp hi)
    exact ⟨_, rfl⟩
  have hunbroken : ∀ i ∈ Piece.insertions probes, Unbroken i.text := by
    intro i hi
    obtain ⟨id, hid⟩ := hright i hi
    rw [hid]
    exact Probe.unbroken_statement hprobe id
  have hfirst := keepsLines_of_adds hadds fun i hi => (hleft i hi).2
  have hsecond := keepsLines_of_adds hadds' hunbroken
  refine ⟨probe, _, t, braces, probes, hprobe, hg, ht, parse_path _ _, hpath, hadds, hadds',
    fun i hi => (hleft i hi).1, hright, ?_, hfirst, hfirst.trans hsecond⟩
  exact List.forall_mem_append.mpr ⟨fun i hi => (hleft i hi).2, hunbroken⟩

end Sources

/-- A loop gets braces and probes, and its body stays on the line below. -/
theorem lines_of_loop :
    let p := Project.ofSources [("A.java", "class A\x7bvoid m()\x7bwhile(b)\nn();\x7d\x7d")]
    ∃ inst t, Instrumentation.of {} p = .ok inst ∧ inst.files[0]? = some t ∧
      t.text.toList.count '\n' = 1 := by
  intro p
  obtain ⟨f, hf, htext⟩ : ∃ f, p.fileList[0]? = some f ∧
      f.text = "class A\x7bvoid m()\x7bwhile(b)\nn();\x7d\x7d" := by
    unfold p
    rw [Reconstruct.ofSources_of_sorted (by decide)]
    exact ⟨_, rfl, parse_text _ _⟩
  have hrun : (Instrumentation.of {} p).isOk = true := by decide +kernel
  cases h : Instrumentation.of {} p with
  | error _ =>
    rw [h] at hrun
    cases hrun
  | ok inst =>
    obtain ⟨_, _, t, _, _, _, _, ht, _, _, _, _, _, _, _, _, hlines⟩ :=
      instrumentation_keeps_lines h hf
    refine ⟨inst, t, rfl, ht, (hlines.lines '\n' List.mem_cons_self).trans ?_⟩
    rw [htext]
    rfl

end Retrace.Instrument
