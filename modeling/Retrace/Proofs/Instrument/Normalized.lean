import Retrace.Proofs.Instrument.Lines
import Retrace.Proofs.Instrument.Single
import Retrace.Proofs.Instrument.Weft

/-! Texts with braces.

Once they are put in braces, all branches and loop bodies of a text are blocks (`bare_normalized`),
so to put them in braces again changes nothing (`normalizedText_idem`). The lexemes of the new text
are those of the old one and the braces, since these stand where they end no lexeme and begin no
comment; and as the same words lead in branches and bodies in both texts, each of these begins with
a brace. -/
namespace Retrace.Instrument
open Java Source

namespace Braces
open Java.Lexer (Chunk Item chars woven width Solid Wraps Seam SingleAt Chunked width_cons
  width_append nil_of_width)

section Made
variable {f : File} {ts : List Tree} (h : Made f ts)
include h

/-- What lacks braces is a single statement among the lexemes of the text. -/
theorem singleAt_of_bare (hlinked : f.Linked) {i b : Nat} (hb : b ∈ bare f i) :
    SingleAt (Lexer.lex f.text.toList) (f.node b).start (f.node b).stop := by
  obtain ⟨x, hx, u, hu, t, ht, s, hslot, hhost, hform, hshows⟩ := exists_of_bare h hlinked hb
  rcases h.makes with rfl | hmakes
  · cases hx
  obtain ⟨pre, k, group, body, rest, t, s, hls, hlead, hbody, rfl⟩ :=
    Grammar.bodies_led hmakes x hx u hu t ht s hslot hhost
  refine ⟨pre, k :: group, body, rest, t, by rw [hls]; simp, hlead, hbody, ?_, ?_, ?_⟩
  · cases t
    exact hform
  · rw [hshows.start]
    cases t
    rfl
  · rw [hshows.stop]
    cases t
    rfl

end Made

section Chunked
variable {path text : String} {mark : List Char} {p : Point} {ks : List Chunk}
  (h : Chunked text.toList mark p ks)
include h

/-- Nodes begin and end where chunks of the text do. -/
theorem seams_parse {i : Nat} (hi : i < (parse path text).nodes.size) :
    Seam p ks ((parse path text).node i).start ∧ Seam p ks ((parse path text).node i).stop := by
  obtain ⟨root, hat, hsize, _, hspans, hstart, hstop⟩ := parse_spans path text
  obtain ⟨_, u, hu, hshows⟩ := exists_part hat hsize hi
  rw [hshows.start, hshows.stop]
  rcases part_spans hspans hu with rfl | ⟨own, hown, hu⟩
  · constructor
    · obtain ⟨front, rest, hks, hfirst⟩ := h.firstPoint
      exact ⟨front, rest, hks, by rw [hstart, hfirst, Lexer.offset_chars]⟩
    · refine ⟨ks, [], (List.append_nil ks).symm, ?_⟩
      rw [hstop, h.text, Point.advance_append, ← h.point, Lexer.offset_chars]
  · obtain ⟨l, hhead, hl⟩ := hu.start
    obtain ⟨l', hlast, hl'⟩ := hu.stop
    rw [← hl, ← hl']
    rw [h.lex] at hown
    exact ⟨(Lexer.seams_of_mem (hown.subset (List.mem_of_head? hhead))).1,
      (Lexer.seams_of_mem (hown.subset (List.mem_of_getLast? hlast))).2⟩

end Chunked

section Woven
variable {f : File} {p : Point} {is : List Item} {starts stops : Nat → Prop}
  (hplaced : Placed (IsStart f) (IsStop f) p.offset is)
  (hsingle : ∀ i, ∀ b ∈ bare f i,
    SingleAt (Lexer.locate p (Lexer.source is)) (f.node b).start (f.node b).stop)
  (hsolid : Solid (Lexer.source is))
include hplaced hsingle hsolid

/-- The braces stand in front of single statements and behind them. -/
theorem sewn_of_placed : Lexer.Sewn is where
  opening := by
    rintro a b rfl
    obtain ⟨_, ⟨i, c, hc, hstart⟩, _⟩ := placed_append.mp hplaced
    rw [Lexer.source_append, Lexer.source_opening] at hsingle hsolid
    exact Lexer.start_of_single hsolid (hsingle i c hc) hstart
  closing := by
    rintro a b rfl
    obtain ⟨_, ⟨i, c, hc, hstop⟩, _⟩ := placed_append.mp hplaced
    rw [Lexer.source_append, Lexer.source_closing] at hsingle hsolid
    obtain ⟨front, k, hfront, hk, _⟩ := Lexer.stop_of_single hsolid (hsingle i c hc) hstop
    exact ⟨front, k, hfront, hk⟩

omit hplaced hsingle in
/-- Every single statement has a brace in front of it. -/
theorem marked_of_bodies (hbodies : ∀ i, ∀ b ∈ bare f i, ∃ a c, is = a ++ .opening :: c ∧
    (f.node b).start = p.offset + width (Lexer.source a)) :
    Lexer.Marked (IsStart f) p is := by
  rintro a k b rfl hk ⟨i, c, hc, hstart⟩
  obtain ⟨a', b', heq, hstart'⟩ := hbodies i c hc
  have hwidth : width (Lexer.source a) = width (Lexer.source a') := by omega
  rw [Lexer.source_append, Lexer.source_kept] at hsolid
  have hpos := bytes_pos (hsolid k (by simp))
  rcases List.append_eq_append_iff.mp heq with ⟨x, rfl, hx⟩ | ⟨x, rfl, hx⟩ <;> cases x with
  | nil => cases hx
  | cons j x => ?_
  · cases hx
    rw [Lexer.source_append, Lexer.source_kept, width_append, width_cons] at hwidth
    omega
  · -- No chunk stands between the brace and the lexeme.
    cases hx
    have hnil : Lexer.source (.opening :: x) = [] := by
      refine nil_of_width (fun k hk => hsolid k ?_) ?_
      · rw [Lexer.source_append]
        exact List.mem_append_left _ (List.mem_append_right _ hk)
      · rw [Lexer.source_append, width_append] at hwidth
        omega
    obtain ⟨x', i, hx'⟩ : ∃ x' i, Item.opening :: x = x' ++ [i] :=
      ⟨_, _, (List.dropLast_append_getLast (List.cons_ne_nil _ _)).symm⟩
    refine ⟨a' ++ x', i, by rw [hx', List.append_assoc], ?_⟩
    exact List.filterMap_eq_nil_iff.mp hnil i (by rw [hx']; simp)

end Woven

section Parsed
variable {path text : String} {ts : List Tree} (h : Made (parse path text) ts)
include h

/-- The text with braces is chunks of the text and braces among them, which stand where they end no
lexeme and begin no comment, one in front of each single statement. -/
theorem exists_items {mark : List Char} {p : Point} {ks : List Chunk}
    (hchunked : Chunked text.toList mark p ks) : ∃ is, Lexer.source is = ks ∧
      (normalizedText (parse path text)).toList = mark ++ chars (woven is) ∧
      Lexer.Paired is ∧ Lexer.Sewn is ∧ Lexer.Marked (IsStart (parse path text)) p is := by
  have hlinked := parse_linked path text
  have hin := parse_inText path text
  have htext := parse_text path text
  have hsolid := hchunked.solid
  have hsingle : ∀ i, ∀ b ∈ bare (parse path text) i, SingleAt (Lexer.locate p ks)
      ((parse path text).node b).start ((parse path text).node b).stop := fun i b hb => by
    have hb := singleAt_of_bare h hlinked hb
    rwa [htext, hchunked.lex] at hb
  have hroot : 0 < (parse path text).nodes.size := by
    rw [h.size]
    exact Tree.size_pos _
  obtain ⟨is, rfl, hwrite, hpaired, hplaced, hbodies⟩ := weaves_walk
    (by rw [htext]; exact hchunked.text) hchunked.offset hsolid hlinked hin
    (fun i hi => seams_parse hchunked hi)
    (fun i b hb q is hweaves => by
      obtain ⟨front, back, hks, hstart⟩ := hweaves.spot
      have hat := hsingle i b hb
      rw [hks] at hat hsolid
      exact Lexer.wraps_of_single hsolid hat hstart hweaves.stop) hroot
  refine ⟨is, rfl, ?_, hpaired, sewn_of_placed hplaced hsingle hsolid,
    marked_of_bodies hsolid fun i b hb => hbodies b ?_⟩
  · rw [normalizedText_eq_write hlinked hin fun _ _ hb => filled_parse hb, hwrite,
      String.toList_ofList]
  · refine ((bodies_perm hlinked hin fun _ _ hb => filled_parse hb).mem_iff).mpr ?_
    have hi := lt_size_of_child (child_of_isSingle hlinked (mem_bare.mp hb))
    exact List.mem_flatMap.mpr ⟨i, List.mem_range.mpr hi, hb⟩

/-- The lexemes of the text with braces are those of the text and the braces. -/
theorem woven_normalized
    (hmakes : Rule.Makes Grammar.grammar Grammar.compilationUnit none (Lexer.lex text.toList) ts) :
    Woven (IsStart (parse path text)) false (Lexer.lex text.toList)
      (Lexer.lex (normalizedText (parse path text)).toList) := by
  obtain ⟨mark, p, ks, hchunked⟩ := Lexer.exists_chunked text.toList
  obtain ⟨is, rfl, htext, hpaired, hsewn, hmarked⟩ := exists_items h hchunked
  rw [hchunked.lex] at hmakes
  obtain ⟨m, hscans⟩ := hchunked.scans
  have hstray : ∀ k ∈ Lexer.source is, k.kind ≠ some .stray := fun k hk hkind => by
    obtain ⟨l, hl, hkind⟩ := Lexer.exists_lexeme (p := p) hk hkind
    exact Grammar.not_stray hmakes l hl hkind
  rw [hchunked.lex, htext, hchunked.lex_woven rfl, Lexer.lexFrom_woven hsewn hpaired hscans hstray
    (Rule.depth_of_makes Grammar.braces_grammar hmakes (Grammar.braces_compilationUnit 0)) p]
  exact Lexer.woven_locate (a := []) hmarked rfl (fun ⟨a, _, heq, _⟩ => by cases a <;> cases heq) p

end Parsed

/-- Nothing is put in braces where nothing lacks them. -/
theorem normalizedText_of_blocks {f : File} (h : ∀ i, bare f i = []) :
    normalizedText f = f.text := by
  have hnone : insertions f = [] := by
    refine List.flatMap_eq_nil_iff.mpr fun i _ => ?_
    rw [h i, List.flatMap_nil]
  unfold normalizedText text?
  rw [hnone]
  rfl

/-- In a text with braces, every branch and every loop body is a block. -/
theorem bare_normalized (path text : String) (i : Nat) :
    bare (parse path (normalizedText (parse path text))) i = [] := by
  obtain ⟨ts, h⟩ := exists_made path text
  obtain ⟨ts', h'⟩ := exists_made path (normalizedText (parse path text))
  refine List.eq_nil_iff_forall_not_mem.mpr fun b hb => ?_
  obtain ⟨x, hx, u, hu, t, ht, s, hslot, hhost, hform, _⟩ := exists_of_bare h' (parse_linked _ _) hb
  have hmakes' := h'.makes
  rw [parse_text] at hmakes'
  rcases hmakes' with rfl | hmakes'
  · cases hx
  have hmakes := h.makes
  rw [parse_text] at hmakes
  rcases hmakes with rfl | hmakes
  · -- Nothing is made of the text, so it is left as it is.
    have hnone : ∀ i, bare (parse path text) i = [] := fun i =>
      List.eq_nil_iff_forall_not_mem.mpr fun b hb => by
        obtain ⟨_, hx, _⟩ := exists_of_bare h (parse_linked path text) hb
        cases hx
    rw [normalizedText_of_blocks hnone, parse_text, hnone] at hb
    cases hb
  · exact hform (Grammar.blocks_of_woven hmakes (fun t ht hform => bare_of_hosted h ht hform)
      (woven_normalized h hmakes) hmakes' x hx u hu t ht s hslot hhost)

/-- A text with braces is left as it is. -/
theorem normalizedText_idem (path text : String) :
    normalizedText (parse path (normalizedText (parse path text))) =
      normalizedText (parse path text) := by
  rw [normalizedText_of_blocks (bare_normalized path text), parse_text]

/-! ### Projects -/

section Sources
variable {sources : List (String × String)} {f : File}

theorem exists_source (hf : f ∈ (normalize (.ofSources sources)).fileList) :
    ∃ path text, f = parse path (normalizedText (parse path text)) := by
  rw [fileList_normalize] at hf
  obtain ⟨g, hg, rfl⟩ := List.mem_map.mp hf
  obtain ⟨x, _, rfl⟩ := Reconstruct.mem_ofSources hg
  exact ⟨x.1, x.2, by rw [parse_path]⟩

/-- Every branch and every loop body of a project with braces is a block. -/
theorem block_of_normalize (hf : f ∈ (normalize (.ofSources sources)).fileList) {i b : Nat}
    (hb : b ∈ bodies f i) : f.form b = .block := by
  obtain ⟨path, text, rfl⟩ := exists_source hf
  by_contra hform
  have hbare : b ∈ bare _ i := List.mem_filter.mpr ⟨hb, by simpa using hform⟩
  rw [bare_normalized] at hbare
  cases hbare

variable (sources) in
/-- A project with braces is left as it is. -/
theorem normalize_idem :
    normalize (normalize (.ofSources sources)) = normalize (.ofSources sources) := by
  refine congrArg Project.mk (Array.toList_inj.mp ?_)
  show (normalize (normalize (.ofSources sources))).fileList =
    (normalize (.ofSources sources)).fileList
  refine (Project.fileList_map _ fun _ => parse_path _ _).trans ?_
  refine (List.map_congr_left fun f hf => ?_).trans (List.map_id _)
  obtain ⟨path, text, rfl⟩ := exists_source hf
  rw [parse_path, normalizedText_idem]
  rfl

end Sources

end Braces

end Retrace.Instrument
