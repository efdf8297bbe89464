import Retrace.Java.Parse
import Retrace.Limit
import Retrace.Proofs.Source.Offsets

/-! Files as the parser delivers them.

A file that has been parsed has the shapes of Java (`parse_shaped`), parents and children that agree
(`parse_linked`), and nodes that stand in its text by their offsets (`parse_inText`,
`parse_inBraces`). If the lines and columns of the text can be counted in words, its nodes stand in
order by these as well (`parse_inOrder`, `parse_braced`), and it is laid out as a tree
(`parse_laid`). -/
namespace Retrace.Java
open Source

theorem utf8ByteSize_ofList (cs : List Char) : (String.ofList cs).utf8ByteSize = bytes cs := by
  induction cs with
  | nil => rfl
  | cons c cs ih =>
    rw [← List.singleton_append, String.ofList_append, String.utf8ByteSize_append, ih]
    simp

theorem bytes_toList (text : String) : bytes text.toList = text.utf8ByteSize := by
  rw [← utf8ByteSize_ofList, String.ofList_toList]

theorem parse_path (path text : String) : (parse path text).path = path := by
  unfold parse
  dsimp only
  split <;> rfl

theorem parse_text (path text : String) : (parse path text).text = text := by
  unfold parse
  dsimp only
  split <;> rfl

/-- A parsed file is the table of a tree below one root. -/
theorem parse_eq (path text : String) :
    ∃ ts, (parse path text).nodes = ofTree (rootOf text.toList ts) ∧
      (ts = [] ∨ Rule.readAll Grammar.grammar Grammar.compilationUnit (Lexer.lex text.toList) =
        some ts) := by
  unfold parse
  dsimp only
  cases htree : parseTree? text.toList with
  | none => exact ⟨[], rfl, .inl rfl⟩
  | some t =>
    obtain ⟨ts, hread, rfl⟩ := Option.map_eq_some_iff.mp htree
    exact ⟨ts, rfl, .inr hread⟩

/-- What the grammar obeys holds of every part of a parsed text. -/
theorem parse_parts_of {P : Form → List Tree → Prop}
    (hgrammar : ∀ c, (Grammar.grammar c).Obeys Grammar.grammar P)
    (hunit : Grammar.compilationUnit.Obeys Grammar.grammar P)
    (hprogram : ∀ ts, P .program ts) (path text : String) :
    ∃ root, At (parse path text).nodes none 0 root ∧ (parse path text).nodes.size = root.size ∧
      ∀ u, Part u root → Rule.Sound P u := by
  obtain ⟨ts, hnodes, hts⟩ := parse_eq path text
  rw [hnodes]
  refine ⟨_, at_ofTree _, size_ofTree _, fun u hu => ?_⟩
  cases hu with
  | self => exact ⟨hprogram ts, fun h => absurd rfl h⟩
  | child hc hu =>
    rcases hts with rfl | hread
    · cases hc
    · exact Rule.parts_of_gives hgrammar (Rule.gives_readAll hread) hunit
        (fun _ ht => nomatch ht) _ hc u hu

theorem parse_parts (path text : String) :
    ∃ root, At (parse path text).nodes none 0 root ∧ (parse path text).nodes.size = root.size ∧
      ∀ u, Part u root → Rule.Sound Shape u :=
  parse_parts_of Grammar.obeys_grammar Grammar.obeys_compilationUnit (fun _ => trivial) path text

theorem parse_shaped (path text : String) : (parse path text).Shaped := by
  obtain ⟨_, hat, hsize, hsound⟩ := parse_parts path text
  exact shaped_of_parts hat hsize fun u hu => (hsound u hu).shape

theorem parse_sequenced (path text : String) : (parse path text).Sequenced := by
  obtain ⟨_, hat, hsize, hsound⟩ := parse_parts path text
  exact sequenced_of_parts hat hsize fun u hu => (hsound u hu).shape

theorem parse_oneBody (path text : String) : (parse path text).OneBody := by
  obtain ⟨_, hat, hsize, hsound⟩ := parse_parts path text
  exact oneBody_of_parts hat hsize fun u hu => (hsound u hu).shape

theorem parse_linked (path text : String) : (parse path text).Linked := by
  obtain ⟨_, hat, hsize, hsound⟩ := parse_parts path text
  exact linked_of_words hat hsize fun u hu => (hsound u hu).word

theorem parse_counted (path text : String) : (parse path text).Counted := by
  obtain ⟨_, hat, hsize, _⟩ := parse_parts path text
  exact counted_of_at hat hsize

theorem parse_laid {path text : String} (h : (parse path text).InOrder) :
    (parse path text).Laid :=
  ⟨h, parse_linked path text⟩

/-- The tree of a text spans its lexemes. -/
theorem parse_spans (path text : String) :
    ∃ root, At (parse path text).nodes none 0 root ∧ (parse path text).nodes.size = root.size ∧
      root.form = .program ∧ AllSpan root.children (Lexer.lex text.toList) ∧
      root.start = Lexer.firstPoint text.toList ∧
      root.stop = Point.origin.advance text.toList := by
  obtain ⟨ts, hnodes, hts⟩ := parse_eq path text
  rw [hnodes]
  refine ⟨_, at_ofTree _, size_ofTree _, rfl, ?_, rfl, rfl⟩
  rcases hts with rfl | hread
  · exact allSpan_nil _
  · exact Grammar.allSpan_of_readAll hread

theorem parse_form_root (path text : String) : (parse path text).form 0 = .program := by
  obtain ⟨_, hat, _, hform, _⟩ := parse_spans path text
  rw [(shows_of_at hat).form, hform]

theorem parse_inText (path text : String) : (parse path text).InText := by
  obtain ⟨_, hat, hsize, _, hspans, hstart, hstop⟩ := parse_spans path text
  rw [← parse_text path text] at hspans hstart hstop
  exact inText_of_allSpan hat hsize hspans hstart hstop

theorem parse_lt {path text : String} {i : Nat} (hpos : 0 < i)
    (hi : i < (parse path text).nodes.size) :
    ((parse path text).node i).start < ((parse path text).node i).stop := by
  obtain ⟨_, hat, hsize, _, hspans, hstart, hstop⟩ := parse_spans path text
  rw [← parse_text path text] at hspans hstart hstop
  exact lt_of_allSpan hat hsize hspans hstart hstop hpos hi

theorem parse_inBraces (path text : String) : (parse path text).InBraces := by
  obtain ⟨_, hat, hsize, hform, hspans, _⟩ := parse_spans path text
  rw [← parse_text path text] at hspans
  exact inBraces_of_allSpan hat hsize hspans (by rw [hform]; rfl)

/-- The tree of a text that words can count stands in order. -/
theorem parse_row {path text : String} (h : text.utf8ByteSize + 1 < Limit.word) :
    ∃ root, At (parse path text).nodes none 0 root ∧ (parse path text).nodes.size = root.size ∧
      root.form = .program ∧ root.start.Roomy ∧ Row root.start root.stop root.children := by
  obtain ⟨root, hat, hsize, hform, hspans, hstart, hstop⟩ := parse_spans path text
  rw [← bytes_toList] at h
  obtain ⟨hroomy, hchained⟩ := Lexer.chained_lex h
  rw [← hstart] at hroomy hchained
  rw [← hstop] at hchained
  exact ⟨root, hat, hsize, hform, hroomy, row_of_allSpan hspans hchained⟩

theorem parse_inOrder {path text : String} (h : text.utf8ByteSize + 1 < Limit.word) :
    (parse path text).InOrder := by
  obtain ⟨_, hat, hsize, _, hroomy, hrow⟩ := parse_row h
  exact inOrder_of_row hat hsize hroomy hrow

theorem parse_braced {path text : String} (h : text.utf8ByteSize + 1 < Limit.word) :
    (parse path text).Braced := by
  obtain ⟨_, hat, hsize, hform, hroomy, hrow⟩ := parse_row h
  exact braced_of_row hat hsize hroomy hrow (by rw [hform]; decide)

end Retrace.Java
