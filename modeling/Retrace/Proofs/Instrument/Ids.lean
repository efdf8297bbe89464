import Retrace.Proofs.Instrument.Lines

/-! Trace ids.

Ids count the trace points of a project file after file (`PointMap.get?_ofProject`), so they are in
the order of the files and, in a file, of the nodes (`PointMap.before_of_lt`). The probes of a file
are the statements of its ids, each made once (`probed_parse`). -/
namespace Retrace.Instrument
open Java Source

/-- The members of joined lists are counted from list to list. -/
theorem getElem?_flatMap {α β : Type} {f : α → List β} {l : List α} {m : Nat} {y : β} :
    (l.flatMap f)[m]? = some y ↔ ∃ k x n, l[k]? = some x ∧ (f x)[n]? = some y ∧
      m = ((l.take k).flatMap f).length + n := by
  induction l generalizing m with
  | nil =>
    rw [List.flatMap_nil, List.getElem?_nil]
    exact ⟨(fun h => nomatch h), fun ⟨k, x, _, hx, _⟩ => by rw [List.getElem?_nil] at hx; cases hx⟩
  | cons a l ih =>
    rw [List.flatMap_cons]
    by_cases hm : m < (f a).length
    · rw [List.getElem?_append_left hm]
      refine ⟨fun h => ⟨0, a, m, rfl, h, (Nat.zero_add m).symm⟩, ?_⟩
      rintro ⟨k, x, n, hx, hy, heq⟩
      cases k with
      | zero =>
        cases hx
        rwa [heq, List.take_zero, List.flatMap_nil, List.length_nil, Nat.zero_add]
      | succ k =>
        rw [List.take_succ_cons, List.flatMap_cons, List.length_append] at heq
        omega
    · rw [List.getElem?_append_right (Nat.le_of_not_lt hm), ih]
      constructor
      · rintro ⟨k, x, n, hx, hy, heq⟩
        refine ⟨k + 1, x, n, hx, hy, ?_⟩
        rw [List.take_succ_cons, List.flatMap_cons, List.length_append]
        omega
      · rintro ⟨k, x, n, hx, hy, heq⟩
        cases k with
        | zero =>
          cases hx
          have hn := (List.getElem?_eq_some_iff.mp hy).1
          rw [List.take_zero, List.flatMap_nil, List.length_nil] at heq
          omega
        | succ k =>
          refine ⟨k, x, n, hx, hy, ?_⟩
          rw [List.take_succ_cons, List.flatMap_cons, List.length_append] at heq
          omega

/-- The first of the ids of a file. -/
def firstId (p : Project) (k : Nat) : Nat :=
  1 + ((p.fileList.take k).flatMap placements).length

namespace PointMap

theorem get?_eq_some {m : PointMap} {id : Nat} {point : TracePoint} :
    m.get? id = some point ↔ ∃ n, m.points.toList[n]? = some point ∧ id = 1 + n := by
  cases id with
  | zero => exact ⟨(fun h => nomatch h), fun ⟨n, _, hn⟩ => by omega⟩
  | succ id =>
    show m.points[id]? = some point ↔ _
    rw [← Array.getElem?_toList]
    refine ⟨fun h => ⟨id, h, Nat.add_comm id 1⟩, ?_⟩
    rintro ⟨n, h, hn⟩
    obtain rfl : id = n := by omega
    exact h

theorem isSome_get? (m : PointMap) (id : Nat) :
    (m.get? id).isSome = true ↔ 1 ≤ id ∧ id ≤ m.size := by
  rw [Option.isSome_iff_exists]
  constructor
  · rintro ⟨point, h⟩
    obtain ⟨n, hn, rfl⟩ := get?_eq_some.mp h
    have hlt : n < m.points.size := (List.getElem?_eq_some_iff.mp hn).1
    unfold size
    omega
  · rintro ⟨hpos, hle⟩
    have hlt : id - 1 < m.points.toList.length := by
      show id - 1 < m.points.size
      unfold size at hle
      omega
    exact ⟨_, get?_eq_some.mpr ⟨id - 1, List.getElem?_eq_getElem hlt, by omega⟩⟩

variable {p : Project}

theorem length_points {points : Nat × File → List TracePoint}
    (h : ∀ x, (points x).length = (placements x.2).length) (k : Nat) :
    ((p.numbered.take k).flatMap points).length =
      ((p.fileList.take k).flatMap placements).length := by
  have hfiles : p.numbered.map Prod.snd = p.fileList := by
    unfold Project.numbered
    rw [List.map_map]
    exact List.zipIdx_map_fst 0 p.fileList
  rw [← hfiles, ← List.map_take, List.flatMap_map, List.length_flatMap, List.length_flatMap]
  exact congrArg List.sum (List.map_congr_left fun x _ => h x)

/-- Ids stand for the placements of the files, one after the other. -/
theorem get?_ofProject {id : Nat} {point : TracePoint} :
    (ofProject p).get? id = some point ↔ ∃ k f n x, p.fileList[k]? = some f ∧
      (placements f)[n]? = some x ∧ point = ⟨⟨k, x.node⟩, x.kind⟩ ∧ id = firstId p k + n := by
  rw [get?_eq_some]
  constructor
  · rintro ⟨m, h, rfl⟩
    obtain ⟨k, ⟨j, f⟩, n, hf, hx, rfl⟩ := getElem?_flatMap.mp h
    obtain ⟨rfl, hf⟩ := Project.getElem?_numbered.mp hf
    rw [List.getElem?_map] at hx
    obtain ⟨x, hplacement, rfl⟩ := Option.map_eq_some_iff.mp hx
    refine ⟨j, f, n, x, hf, hplacement, rfl, ?_⟩
    unfold firstId
    rw [length_points (fun _ => List.length_map _), Nat.add_assoc]
  · rintro ⟨k, f, n, x, hf, hx, rfl, rfl⟩
    refine ⟨((p.fileList.take k).flatMap placements).length + n, ?_, Nat.add_assoc _ _ _⟩
    refine getElem?_flatMap.mpr ⟨k, (k, f), n, Project.getElem?_numbered.mpr ⟨rfl, hf⟩, ?_, ?_⟩
    · rw [List.getElem?_map, hx]
      rfl
    · rw [length_points (fun _ => List.length_map _)]

theorem pairwise_ofProject (p : Project) :
    (ofProject p).points.toList.Pairwise fun a b => a.ref.Before b.ref := by
  refine List.pairwise_flatMap.mpr ⟨fun (n, f) _ => ?_, ?_⟩
  · refine List.pairwise_map.mpr ((pairwise_placements f).imp fun {x y} hxy => ?_)
    exact .inr ⟨rfl, hxy⟩
  · refine (Project.pairwise_numbered p).imp fun {x y} hxy a ha b hb => ?_
    obtain ⟨_, _, rfl⟩ := List.mem_map.mp ha
    obtain ⟨_, _, rfl⟩ := List.mem_map.mp hb
    exact .inl hxy

/-- Ids are in the order of what they stand for. -/
theorem before_of_lt {m n : Nat} {a b : TracePoint} (ha : (ofProject p).get? m = some a)
    (hb : (ofProject p).get? n = some b) (hmn : m < n) : a.ref.Before b.ref := by
  obtain ⟨i, hi, rfl⟩ := get?_eq_some.mp ha
  obtain ⟨j, hj, rfl⟩ := get?_eq_some.mp hb
  obtain ⟨hi', rfl⟩ := List.getElem?_eq_some_iff.mp hi
  obtain ⟨hj', rfl⟩ := List.getElem?_eq_some_iff.mp hj
  exact List.pairwise_iff_getElem.mp (pairwise_ofProject p) i j hi' hj' (by omega)

theorem id_inj {m n : Nat} {a b : TracePoint} (ha : (ofProject p).get? m = some a)
    (hb : (ofProject p).get? n = some b) (h : a.ref = b.ref) : m = n := by
  by_contra hne
  rcases Nat.lt_or_gt_of_ne hne with hlt | hgt
  · have hbefore := before_of_lt ha hb hlt
    rw [h] at hbefore
    exact hbefore.asymm hbefore
  · have hbefore := before_of_lt hb ha hgt
    rw [h] at hbefore
    exact hbefore.asymm hbefore

end PointMap

/-! ### The probes of a file -/

/-- The id stands for a trace point of file `k`, the probe of which goes to its offset. -/
structure Marks (m : PointMap) (k : Nat) (f : File) (id : Nat) (x : Placement) : Prop where
  point : m.get? id = some ⟨⟨k, x.node⟩, x.kind⟩
  offset : probeOffset? f x.node x.kind = some x.offset

theorem offset_of_placement {f : File} {x : Placement} (h : x ∈ placements f) :
    probeOffset? f x.node x.kind = some x.offset := by
  obtain ⟨i, _, hx⟩ := List.mem_filterMap.mp h
  unfold placement? at hx
  split at hx
  · cases hx
  · obtain ⟨kind, _, hx⟩ := Option.bind_eq_some_iff.mp hx
    obtain ⟨offset, hoffset, rfl⟩ := Option.map_eq_some_iff.mp hx
    exact hoffset

section Marks
variable {p : Project} {k : Nat} {f : File} (hf : p.fileList[k]? = some f)
include hf

/-- A file has the ids of its placements. -/
theorem marks_iff {id : Nat} {x : Placement} : Marks (PointMap.ofProject p) k f id x ↔
    ∃ n, (placements f)[n]? = some x ∧ id = firstId p k + n := by
  constructor
  · rintro ⟨hpoint, hoffset⟩
    obtain ⟨k', f', n, y, hf', hy, heq, hid⟩ := PointMap.get?_ofProject.mp hpoint
    injection heq with href hkind
    injection href with hfile hnode
    subst hfile
    cases hf.symm.trans hf'
    have hoffset' := offset_of_placement (List.mem_of_getElem? hy)
    rw [← hnode, ← hkind, hoffset] at hoffset'
    obtain rfl : x = y := by
      obtain ⟨node, kind, offset⟩ := x
      obtain ⟨node', kind', offset'⟩ := y
      cases hnode
      cases hkind
      cases hoffset'
      rfl
    exact ⟨n, hy, hid⟩
  · rintro ⟨n, hx, hid⟩
    exact ⟨PointMap.get?_ofProject.mpr ⟨k, f, n, x, hf, hx, rfl, hid⟩,
      offset_of_placement (List.mem_of_getElem? hx)⟩

theorem Marks.mem {id : Nat} {x : Placement} (h : Marks (PointMap.ofProject p) k f id x) :
    x ∈ placements f := by
  obtain ⟨n, hx, _⟩ := (marks_iff hf).mp h
  exact List.mem_of_getElem? hx

/-- The probes of a file are the statements of its ids. -/
theorem mem_probes {probe : Probe} {i : Insertion} :
    i ∈ Instrumentation.probes probe (firstId p k) (placements f) ↔
      ∃ id x, Marks (PointMap.ofProject p) k f id x ∧ i = ⟨x.offset, probe.statement id, 0⟩ := by
  unfold Instrumentation.probes
  rw [List.mem_map]
  constructor
  · rintro ⟨⟨x, n⟩, hx, rfl⟩
    exact ⟨_, x, (marks_iff hf).mpr ⟨n, List.mk_mem_zipIdx_iff_getElem?.mp hx, rfl⟩, rfl⟩
  · rintro ⟨id, x, hmarks, rfl⟩
    obtain ⟨n, hx, rfl⟩ := (marks_iff hf).mp hmarks
    exact ⟨(x, n), List.mk_mem_zipIdx_iff_getElem?.mpr hx, rfl⟩

end Marks

theorem Probe.statement_inj {probe : Probe} {m n : Nat}
    (h : probe.statement m = probe.statement n) : m = n := by
  have hchars := congrArg String.toList h
  rw [toList_statement, toList_statement] at hchars
  have hdigits : Nat.toDigits 10 m = Nat.toDigits 10 n :=
    List.append_cancel_left (List.append_cancel_right (List.append_cancel_left hchars))
  rw [← Nat.ofDigitChars_ten_toDigits (n := m), hdigits, Nat.ofDigitChars_ten_toDigits]

/-- Different ids have different statements. -/
theorem nodup_probes (probe : Probe) (first : Nat) (xs : List Placement) :
    ((Instrumentation.probes probe first xs).map Insertion.text).Nodup := by
  have htexts : (Instrumentation.probes probe first xs).map Insertion.text =
      (List.range' 0 xs.length).map fun n => probe.statement (first + n) := by
    unfold Instrumentation.probes
    rw [List.map_map, ← List.zipIdx_map_snd 0 xs, List.map_map]
    rfl
  rw [htexts]
  refine List.Nodup.map (fun m n h => ?_) List.nodup_range'
  exact Nat.add_left_cancel (Probe.statement_inj h)

/-- What the ids of a file and its probes have to do with one another. -/
structure Probed (m : PointMap) (probe : Probe) (k : Nat) (f : File) (ps : List Piece) : Prop where
  total : ∀ {id point}, m.get? id = some point → point.ref.file = k → ∃ x, Marks m k f id x
  apart : ∀ {id id' x y}, Marks m k f id x → Marks m k f id' y → x.offset = y.offset → id = id'
  added : ∀ i, i ∈ Piece.insertions ps ↔
    ∃ id x, Marks m k f id x ∧ i = ⟨x.offset, probe.statement id, 0⟩
  once : ∀ {id x}, Marks m k f id x →
    ((Piece.insertions ps).map Insertion.text).count (probe.statement id) = 1
  block : ∀ b < f.nodes.size, f.form b = .block → inUntraced f b = false →
    ∃ id x, Marks m k f id x ∧ probeBlock? f x.node x.kind = some b ∧
      Holds f x.node x.kind b ∧ x.kind ≠ .constructor ∧ x.offset = (f.node b).start + 1 ∧
      (∃ front back, f.text.toList = front ++ '\x7b' :: back ∧ (f.node b).start = bytes front) ∧
      ∀ {id' y}, Marks m k f id' y → probeBlock? f y.node y.kind = some b → id' = id

/-- The probes of a file that has been parsed. -/
theorem probed_parse {p : Project} {k : Nat} {path text : String} {probe : Probe}
    {ps : List Piece} (hf : p.fileList[k]? = some (parse path text))
    (hps : Piece.insertions ps = Insertion.sort
      (Instrumentation.probes probe (firstId p k) (placements (parse path text)))) :
    Probed (PointMap.ofProject p) probe k (parse path text) ps := by
  have hl := parse_linked path text
  have hs := parse_shaped path text
  have hbraces := parse_inBraces path text
  have hperm := Insertion.sort_perm
    (Instrumentation.probes probe (firstId p k) (placements (parse path text)))
  rw [← hps] at hperm
  have hadded : ∀ i, i ∈ Piece.insertions ps ↔ ∃ id x,
      Marks (PointMap.ofProject p) k (parse path text) id x ∧
        i = ⟨x.offset, probe.statement id, 0⟩ :=
    fun i => hperm.mem_iff.trans (mem_probes hf)
  refine ⟨fun {id point} hpoint hfile => ?_, fun {id id' x y} hx hy hoffset => ?_, hadded,
    fun {id x} hx => ?_, fun b hb hform hreached => ?_⟩
  · obtain ⟨k', f', n, x, hf', hx, rfl, hid⟩ := PointMap.get?_ofProject.mp hpoint
    obtain rfl : k' = k := hfile
    cases hf.symm.trans hf'
    exact ⟨x, (marks_iff hf).mpr ⟨n, hx, hid⟩⟩
  · have hnode := placements_inj hl hs (parse_inText path text) hbraces (hx.mem hf) (hy.mem hf)
      hoffset
    exact PointMap.id_inj hx.point hy.point (congrArg (Ref.mk k) hnode)
  · refine List.count_eq_one_of_mem ((hperm.map _).nodup_iff.mpr (nodup_probes _ _ _)) ?_
    exact List.mem_map_of_mem (f := Insertion.text) ((hadded _).mpr ⟨id, x, hx, rfl⟩)
  · have hpos : 0 < b := by
      refine Nat.pos_of_ne_zero fun hzero => ?_
      rw [hzero, parse_form_root] at hform
      cases hform
    obtain ⟨x, hx, hblock, hholds, hne, hoffset⟩ :=
      exists_placement_of_block hl hs (parse_oneBody path text) hpos hb hform hreached
    obtain ⟨n, hn⟩ := List.mem_iff_getElem?.mp hx
    have hmarks := (marks_iff hf).mpr ⟨n, hn, rfl⟩
    refine ⟨_, x, hmarks, hblock, hholds, hne, hoffset, hbraces.opening (hholds.fenced hs), ?_⟩
    intro id' y hy hblock'
    obtain ⟨b', hother, hholds'⟩ := holds_of_kind? (mem_placements (hy.mem hf)).2.1
    cases hblock'.symm.trans hother
    have hnode := placement_of_block hl hs (hy.mem hf) hx hholds' hholds
    exact PointMap.id_inj hy.point hmarks.point (congrArg (Ref.mk k) hnode)

section Sources
variable {c : Config.Instrument} {sources : List (String × String)} {inst : Instrumentation}
  (h : Instrumentation.of c (Project.ofSources sources) = .ok inst)
include h

/-- The ids of an instrumented project are counted from one in the order of the files and nodes, and
each stands for one node. In the text of each file every id has its probe once, at an offset of its
own, and every block that is reached reports one id, right behind its brace. -/
theorem instrumentation_counts_probes :
    (∀ id, (inst.points.get? id).isSome = true ↔ 1 ≤ id ∧ id ≤ inst.points.size) ∧
    (∀ {m n a b}, inst.points.get? m = some a → inst.points.get? n = some b → m < n →
      a.ref.Before b.ref) ∧
    (∀ {m n a b}, inst.points.get? m = some a → inst.points.get? n = some b →
      a.ref = b.ref → m = n) ∧
    (∀ {id point}, inst.points.get? id = some point →
      ∃ f, inst.project.fileList[point.ref.file]? = some f ∧ point.ref.node < f.nodes.size) ∧
    ∃ probe, Probe.of c = .ok probe ∧ ∀ {k f}, inst.project.fileList[k]? = some f →
      (∀ {i j}, i < j → j < f.nodes.size → (f.node i).start ≤ (f.node j).start) ∧
      ∃ t ps, inst.files[k]? = some t ∧ Adds ps f.text t.text ∧ Piece.Aligned 0 ps ∧
        Probed inst.points probe k f ps := by
  obtain ⟨probe, hprobe, hproject, hpoints, hfiles⟩ := Instrumentation.of_eq_ok h
  rw [hpoints]
  refine ⟨PointMap.isSome_get? _, PointMap.before_of_lt, PointMap.id_inj,
    fun {id point} hpoint => ?_, probe, hprobe, fun {k f} hf => ?_⟩
  · obtain ⟨k, f, n, x, hf, hx, rfl, _⟩ := PointMap.get?_ofProject.mp hpoint
    exact ⟨f, hf, (mem_placements (List.mem_of_getElem? hx)).1⟩
  · obtain ⟨path, text, rfl⟩ : ∃ path text, f = parse path text := by
      rw [hproject, fileList_normalize, List.getElem?_map] at hf
      obtain ⟨g, _, rfl⟩ := Option.map_eq_some_iff.mp hf
      exact ⟨_, _, rfl⟩
    obtain ⟨ps, hps, haligned, hadds⟩ := adds_probes (parse_shaped path text)
      (parse_inText path text) (parse_inBraces path text) probe (firstId inst.project k)
    refine ⟨(parse_inText path text).start_le (parse_linked path text) (parse_counted path text),
      _, ps, ?_, hadds, haligned, probed_parse hf hps⟩
    rw [hfiles, Instrumentation.getElem?_instrumentFiles, hf]
    rfl

end Sources

/-- A static initializer, a method and a loop, with a block each. -/
theorem probes_of_bodies :
    let p := Project.ofSources [("A.java", "class A{static{}void m(){while(b){n();}}}")]
    ∃ inst, Instrumentation.of {} p = .ok inst ∧
      inst.points.points.toList.map TracePoint.kind = [.staticInitializer, .method, .whileLoop] ∧
      ∀ id, (inst.points.get? id).isSome = true ↔ 1 ≤ id ∧ id ≤ 3 := by
  intro p
  have hrun : ((Instrumentation.of {} p).toOption.map fun inst =>
      inst.points.points.toList.map TracePoint.kind) =
        some [.staticInitializer, .method, .whileLoop] := by
    decide +kernel
  cases h : Instrumentation.of {} p with
  | error _ =>
    rw [h] at hrun
    cases hrun
  | ok inst =>
    rw [h] at hrun
    have hkinds := Option.some.inj hrun
    have hsize : inst.points.size = 3 := by
      have hlength := congrArg List.length hkinds
      rw [List.length_map] at hlength
      exact hlength
    refine ⟨inst, rfl, hkinds, fun id => ?_⟩
    rw [← hsize]
    exact (instrumentation_counts_probes h).1 id

end Retrace.Instrument
