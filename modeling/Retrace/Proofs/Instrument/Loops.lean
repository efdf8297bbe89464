import Retrace.Proofs.Instrument.Ids
import Retrace.Proofs.Instrument.Normalized

/-! The rounds of loops.

A loop has one id, and its probe stands right behind the brace of its body, so that it runs first in
each round; only a loop over an empty statement has no id (`loops_are_traced`). An empty statement
is no node, so such a loop has no body (`emptyBody_iff`), while any other body is a block once the
text has its braces. -/
namespace Retrace.Instrument
open Java Source

/-- A semicolon stands directly behind the word and the parentheses with which the loop begins. -/
def EmptyBody (g : File) (i : Nat) : Prop :=
  ∃ pre k group mark post, Lexer.lex g.text.toList = pre ++ k :: (group ++ mark :: post) ∧
    k.start.offset = (g.node i).start ∧ Lead (k :: group) ∧ mark.isSymbol ";" = true

section Parsed
variable {path text : String} {i : Nat} (hloop : ((parse path text).form i).isLoop = true)
include hloop

/-- A loop of a text stands among its lexemes as the tree of the loop does. -/
theorem exists_loopOf : ∃ parent u, Shows (parse path text) parent i u ∧
    Grammar.LoopOf (Lexer.lex (parse path text).text.toList) u := by
  obtain ⟨ts, h⟩ := Braces.exists_made path text
  have hne : (parse path text).form i ≠ .program := fun heq => by
    rw [heq] at hloop
    cases hloop
  obtain ⟨parent, u, hu, hshows⟩ := exists_part h.table h.size (lt_size_of_form hne)
  rw [hshows.form] at hne hloop
  obtain ⟨x, hx, hpart⟩ : ∃ x ∈ ts, Part u x := by
    cases hu with
    | self => exact absurd rfl hne
    | child hc hu => exact ⟨_, hc, hu⟩
  rcases h.makes with rfl | hmakes
  · cases hx
  · exact ⟨parent, u, hshows, Grammar.loops_led hmakes x hx u hpart hloop⟩

/-- Only a loop over an empty statement has no body. -/
theorem emptyBody_iff :
    EmptyBody (parse path text) i ↔ (parse path text).child? i .body = none := by
  obtain ⟨parent, u, hshows, pre, k, group, body, rest, ys, hls, hlead, hstart, hbody, hunder⟩ :=
    exists_loopOf hloop
  replace hstart : k.start.offset = ((parse path text).node i).start := by
    rw [hshows.start, hstart]
  have hnone : (parse path text).child? i .body = none ↔ ys = [] := by
    rw [child?_eq_none_iff hshows, ← List.map_eq_nil_iff, ← hunder, List.eq_nil_iff_forall_not_mem]
    simp only [mem_allUnder, not_and]
  rw [hnone]
  constructor
  · rintro ⟨pre', k', group', mark, post, hls', hstart', hlead', hmark⟩
    -- The word of the loop and its parentheses are where the tree has them, so the semicolon is
    -- the first lexeme of the body.
    obtain ⟨rfl, rfl, hpost⟩ := (inLine_lex _).eq_of_start hls hls' (hstart.trans hstart'.symm)
    obtain rfl := hlead.eq hlead' hpost
    have hne := Rule.ne_nil_of_eats (fun c => (Grammar.solid_grammar c).2) hbody rfl
    obtain ⟨m, body, rfl⟩ := List.exists_cons_of_ne_nil hne
    obtain rfl : m = mark := (List.cons.inj (List.append_cancel_left hpost)).1
    exact Grammar.nil_of_semicolon hbody hmark
  · rintro rfl
    obtain ⟨mark, rfl, hmark⟩ := Grammar.semicolon_of_nil hbody
    exact ⟨pre, k, group, mark, rest, hls, hstart, hlead, hmark⟩

end Parsed

/-- The loop has one id, and its probe stands, once, right behind the brace of its body. -/
structure ReportsRounds (inst : Instrumentation) (probe : Probe) (k : Nat) (g : File)
    (i b id : Nat) : Prop where
  kind : ∃ kind, PointKind.ofLoop? (g.form i) = some kind ∧
    inst.points.get? id = some ⟨⟨k, i⟩, kind⟩
  unique : ∀ {id' point}, inst.points.get? id' = some point → point.ref = ⟨k, i⟩ → id' = id
  brace : ∃ front back, g.text.toList = front ++ '\x7b' :: back ∧ (g.node b).start = bytes front
  probe : ∃ t ps, inst.files[k]? = some t ∧ Adds ps g.text t.text ∧ Piece.Aligned 0 ps ∧
    ⟨(g.node b).start + 1, probe.statement id, 0⟩ ∈ Piece.insertions ps ∧
    ((Piece.insertions ps).map Insertion.text).count (probe.statement id) = 1

section Sources
variable {c : Config.Instrument} {sources : List (String × String)} {inst : Instrumentation}
  (h : Instrumentation.of c (Project.ofSources sources) = .ok inst)
include h

theorem exists_reportsRounds {probe : Probe} (hprobe : Probe.of c = .ok probe) {k : Nat} {g : File}
    (hg : inst.project.fileList[k]? = some g) {i b : Nat} (hloop : (g.form i).isLoop = true)
    (hreached : inUntraced g i = false) (hbody : g.child? i .body = some b)
    (hblock : g.form b = .block) : ∃ id, ReportsRounds inst probe k g i b id := by
  obtain ⟨probe', hprobe', hproject, hpoints, hfiles⟩ := Instrumentation.of_eq_ok h
  cases hprobe.symm.trans hprobe'
  obtain ⟨path, text, rfl⟩ : ∃ path text, g = parse path text := by
    rw [hproject, fileList_normalize, List.getElem?_map] at hg
    obtain ⟨f, _, rfl⟩ := Option.map_eq_some_iff.mp hg
    exact ⟨_, _, rfl⟩
  have hl := parse_linked path text
  have hi : i < (parse path text).nodes.size := by
    have hb := hl.bounds (hl.child_of_child? hbody)
    omega
  obtain ⟨kind, hkind, hne, _⟩ := ofLoop?_of_isLoop hloop
  have hknown : kind? (parse path text) i = some kind := by
    have hfilter : blockBody? (parse path text) i = some b :=
      Option.filter_eq_some_iff.mpr ⟨hbody, beq_iff_eq.mpr hblock⟩
    rw [kind?_of_ofLoop? hkind, hfilter]
    rfl
  have hplaced := mem_placements_of_kind hi hknown hreached
    ((probeBlock?_ofLoop? hkind).trans hbody) hne
  obtain ⟨n, hn⟩ := List.mem_iff_getElem?.mp hplaced
  have hmarks := (marks_iff hg).mpr ⟨n, hn, rfl⟩
  rw [← hpoints] at hmarks
  obtain ⟨ps, hps, haligned, hadds⟩ := adds_probes (parse_shaped path text)
    (parse_inText path text) (parse_inBraces path text) probe (firstId inst.project k)
  have hprobed := probed_parse hg hps
  rw [← hpoints] at hprobed
  refine ⟨_, ⟨kind, hkind, hmarks.point⟩, fun {id' point} hpoint hr => ?_, ?_, _, ps, ?_,
    hadds, haligned, (hprobed.added _).mpr ⟨_, _, hmarks, rfl⟩, hprobed.once hmarks⟩
  · rw [hpoints] at hpoint
    have hpoint' := hmarks.point
    rw [hpoints] at hpoint'
    exact PointMap.id_inj hpoint hpoint' hr
  · exact (parse_inBraces path text).opening (by rw [hblock]; rfl)
  · rw [hfiles, Instrumentation.getElem?_instrumentFiles, hg]
    rfl

/-- Every loop that is reached and has a body has one id. -/
theorem exists_reportsRounds_of_body {probe : Probe} (hprobe : Probe.of c = .ok probe) {k : Nat}
    {g : File} (hg : inst.project.fileList[k]? = some g) {i b : Nat}
    (hloop : (g.form i).isLoop = true) (hreached : inUntraced g i = false)
    (hbody : g.child? i .body = some b) :
    g.form b = .block ∧ ∃ id, ReportsRounds inst probe k g i b id := by
  have hblock : g.form b = .block := by
    obtain ⟨_, _, hproject, _⟩ := Instrumentation.of_eq_ok h
    rw [hproject] at hg
    refine Braces.block_of_normalize (List.mem_of_getElem? hg) (i := i) ?_
    have hif : g.form i ≠ .ifStatement := fun hif => by
      rw [hif] at hloop
      cases hloop
    unfold Braces.bodies
    rw [if_neg (by simpa using hif), if_pos hloop, hbody]
    exact List.mem_singleton_self b
  exact ⟨hblock, exists_reportsRounds h hprobe hg hloop hreached hbody hblock⟩

/-- A loop without a body has no id. -/
theorem not_point_of_no_body {k : Nat} {g : File} (hg : inst.project.fileList[k]? = some g)
    {i : Nat} (hloop : (g.form i).isLoop = true) (hbody : g.child? i .body = none) {id : Nat}
    {point : TracePoint} (hpoint : inst.points.get? id = some point) : point.ref ≠ ⟨k, i⟩ := by
  rintro href
  obtain ⟨_, _, _, hpoints, _⟩ := Instrumentation.of_eq_ok h
  rw [hpoints] at hpoint
  obtain ⟨k', g', n, x, hg', hx, rfl, _⟩ := PointMap.get?_ofProject.mp hpoint
  cases href
  cases hg.symm.trans hg'
  obtain ⟨_, hkind, _⟩ := mem_placements (List.mem_of_getElem? hx)
  obtain ⟨kind, hloop', _⟩ := ofLoop?_of_isLoop hloop
  have hnone : blockBody? g x.node = none := by
    unfold blockBody?
    rw [hbody]
    rfl
  rw [kind?_of_ofLoop? hloop', hnone] at hkind
  cases hkind

/-- Every loop that is reached has one id, and its probe runs first in each round, unless the body
is an empty statement. The loop over an empty statement has no id. -/
theorem loops_are_traced : ∃ probe, Probe.of c = .ok probe ∧
    ∀ {k g i}, inst.project.fileList[k]? = some g → (g.form i).isLoop = true →
      inUntraced g i = false →
      (¬EmptyBody g i → ∃ b id, g.child? i .body = some b ∧ g.form b = .block ∧
        ReportsRounds inst probe k g i b id) ∧
      (EmptyBody g i → ∀ {id point}, inst.points.get? id = some point → point.ref ≠ ⟨k, i⟩) := by
  obtain ⟨probe, hprobe, hproject, _⟩ := Instrumentation.of_eq_ok h
  refine ⟨probe, hprobe, fun {k g i} hg hloop hreached => ?_⟩
  have hempty : EmptyBody g i ↔ g.child? i .body = none := by
    rw [hproject] at hg
    obtain ⟨path, text, rfl⟩ := Braces.exists_source (List.mem_of_getElem? hg)
    exact emptyBody_iff hloop
  rw [hempty]
  refine ⟨fun hsome => ?_, fun hnone => not_point_of_no_body h hg hloop hnone⟩
  obtain ⟨b, hb⟩ := Option.ne_none_iff_exists'.mp hsome
  obtain ⟨hblock, id, hid⟩ := exists_reportsRounds_of_body h hprobe hg hloop hreached hb
  exact ⟨b, id, hb, hblock, hid⟩

end Sources

/-- A single statement gets braces, and so its loop an id. -/
theorem rounds_of_single_statement :
    let p := Project.ofSources [("A.java", "class A{void m(){while(b)m();}boolean b;}")]
    ∃ inst probe g i b id, Instrumentation.of {} p = .ok inst ∧ g.text =
      "class A{void m(){while(b){ m(); }}boolean b;}" ∧ g.form i = .whileStatement ∧
        ReportsRounds inst probe 0 g i b id := by
  intro p
  have hok : (Instrumentation.of {} p).isOk = true := by decide +kernel
  have htext : Braces.normalizedText (parse "A.java" "class A{void m(){while(b)m();}boolean b;}") =
      "class A{void m(){while(b){ m(); }}boolean b;}" :=
    (Braces.normalizedText_eq_write (parse_linked _ _) (parse_inText _ _)
      fun _ _ hb => Braces.filled_parse hb).trans (by decide +kernel)
  have hg : (Braces.normalize p).fileList[0]? =
      some (parse "A.java" "class A{void m(){while(b){ m(); }}boolean b;}") := by
    have hsource : p.fileList =
        [parse "A.java" "class A{void m(){while(b)m();}boolean b;}"] := by
      unfold p
      rw [Reconstruct.ofSources_of_sorted (by decide)]
      rfl
    rw [fileList_normalize, hsource, List.map_singleton, parse_path, htext]
    rfl
  have hfacts : let g := parse "A.java" "class A{void m(){while(b){ m(); }}boolean b;}"
      g.numbersOf.any fun i => g.form i = .whileStatement ∧ inUntraced g i = false ∧
        (g.child? i .body).any fun b => g.form b = .block := by
    decide +kernel
  obtain ⟨i, _, hfacts⟩ := List.any_eq_true.mp hfacts
  obtain ⟨hform, hreached, hfacts⟩ := of_decide_eq_true hfacts
  obtain ⟨b, hb, hblock⟩ := (Option.any_eq_true _ _).mp hfacts
  cases h : Instrumentation.of {} p with
  | error _ =>
    rw [h] at hok
    cases hok
  | ok inst =>
    obtain ⟨_, _, hproject, _⟩ := Instrumentation.of_eq_ok h
    rw [← hproject] at hg
    have hloop : ((parse "A.java" "class A{void m(){while(b){ m(); }}boolean b;}").form i).isLoop =
        true := by rw [hform]; rfl
    have hbody : ¬EmptyBody (parse "A.java" "class A{void m(){while(b){ m(); }}boolean b;}") i := by
      rw [emptyBody_iff hloop, hb]
      exact fun h => nomatch h
    obtain ⟨probe, _, htraced⟩ := loops_are_traced h
    obtain ⟨b, id, _, _, hid⟩ := (htraced hg hloop hreached).1 hbody
    exact ⟨inst, probe, _, i, b, id, rfl, parse_text _ _, hform, hid⟩

/-- An empty statement is no node and gets no braces, and its loop gets no id. -/
theorem empty_body_is_not_traced :
    let p := Project.ofSources
      [("A.java", "class A{void m(){while(f());}boolean f(){return p;}boolean p;}")]
    ∃ inst g i, Instrumentation.of {} p = .ok inst ∧ inst.project.fileList[0]? = some g ∧
      g.hasErrors = false ∧ g.form i = .whileStatement ∧ inUntraced g i = false ∧
      ¬∃ id point, inst.points.get? id = some point ∧ point.ref = ⟨0, i⟩ := by
  intro p
  have hfacts : (Instrumentation.of {} p).isOk = true ∧
      (Braces.normalize p).fileList[0]?.any (fun g => g.hasErrors = false ∧
        g.numbersOf.any fun i => g.form i = .whileStatement ∧ inUntraced g i = false ∧
          ∀ point ∈ (PointMap.ofProject (Braces.normalize p)).points.toList,
            point.ref ≠ ⟨0, i⟩) := by
    decide +kernel
  obtain ⟨hok, hfacts⟩ := hfacts
  obtain ⟨g, hg, hfacts⟩ := (Option.any_eq_true _ _).mp hfacts
  obtain ⟨herrors, hfacts⟩ := of_decide_eq_true hfacts
  obtain ⟨i, _, hfacts⟩ := List.any_eq_true.mp hfacts
  obtain ⟨hform, hreached, hnone⟩ := of_decide_eq_true hfacts
  cases h : Instrumentation.of {} p with
  | error _ =>
    rw [h] at hok
    cases hok
  | ok inst =>
    obtain ⟨_, _, hproject, hpoints, _⟩ := Instrumentation.of_eq_ok h
    rw [← hproject] at hg hnone
    refine ⟨inst, g, i, rfl, hg, herrors, hform, hreached, ?_⟩
    rintro ⟨id, point, hpoint, hr⟩
    rw [hpoints] at hpoint
    obtain ⟨n, hn, _⟩ := PointMap.get?_eq_some.mp hpoint
    exact hnone point (List.mem_of_getElem? hn) hr

end Retrace.Instrument
