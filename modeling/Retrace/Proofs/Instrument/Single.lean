import Retrace.Proofs.Instrument.Braces
import Retrace.Proofs.Java.Hosts
import Retrace.Proofs.Source.Fields

/-! The single statements of a parsed text.

The branches and loop bodies that lack braces, which a file has by their numbers, are trees of the
text that some words lead in (`exists_of_bare`, `bare_of_hosted`). -/
namespace Retrace.Instrument.Braces
open Java Source

theorem isSingle_iff {f : File} {i b : Nat} : isSingle f i b = true ↔
    f.form b ≠ .block ∧ ∃ s, hosts (f.form i) s = true ∧ f.child? i s = some b := by
  unfold isSingle hosts
  rw [Bool.and_eq_true, bne_iff_ne]
  refine and_congr_right fun _ => ?_
  split
  · simp
  · simp

/-- The tree of a text, what it is made of, and where its nodes are in the table. -/
structure Made (f : File) (ts : List Tree) : Prop where
  table : At f.nodes none 0 (rootOf f.text.toList ts)
  size : f.nodes.size = (rootOf f.text.toList ts).size
  makes : ts = [] ∨
    Rule.Makes Grammar.grammar Grammar.compilationUnit none (Lexer.lex f.text.toList) ts
  sole : ∀ u, Part u (rootOf f.text.toList ts) → SoleBodies u.form u.children

theorem exists_made (path text : String) : ∃ ts, Made (parse path text) ts := by
  obtain ⟨ts, hnodes, hts⟩ := parse_eq path text
  have htext := parse_text path text
  refine ⟨ts, ?_, ?_, ?_, fun u hu => ?_⟩
  · rw [hnodes, htext]
    exact at_ofTree _
  · rw [hnodes, htext]
    exact size_ofTree _
  · rw [htext]
    exact hts.imp_right Rule.makes_readAll
  · cases hu with
    | self => exact fun s hs => nomatch hs
    | child hc hu =>
      rcases hts with rfl | hread
      · cases hc
      · exact (Rule.parts_of_gives Grammar.soleBodies_grammar (Rule.gives_readAll hread)
          (Grammar.sole_of_avoids rfl) (fun _ ht => nomatch ht) _ hc u hu).shape

theorem exists_number {nodes : Array Node} {parent : Option Nat} {n : Nat} {t u : Tree}
    (hu : Part u t) (h : At nodes parent n t) : ∃ q i, At nodes q i u := by
  have hmem : ∀ {parent n : Nat} {ts : List Tree} {c : Tree}, AllAt nodes parent n ts → c ∈ ts →
      ∃ i, At nodes (some parent) i c := by
    intro parent n ts c h hc
    induction ts generalizing n with
    | nil => cases hc
    | cons t ts ih =>
      rw [AllAt] at h
      rcases List.mem_cons.mp hc with rfl | hc
      · exact ⟨n, h.1⟩
      · exact ih h.2 hc
  induction hu generalizing parent n with
  | self => exact ⟨parent, n, h⟩
  | @child t c hc _ ih =>
    obtain ⟨form, slot, start, stop, word, children⟩ := t
    rw [At] at h
    obtain ⟨i, hi⟩ := hmem h.2 hc
    exact ih hi

section Made
variable {f : File} {ts : List Tree} (h : Made f ts)
include h

/-- A branch or a body without braces is the tree of one. -/
theorem exists_of_bare (hlinked : f.Linked) {i b : Nat} (hb : b ∈ bare f i) :
    ∃ x ∈ ts, ∃ u, Part u x ∧ ∃ t ∈ u.children, ∃ s, t.slot = some s ∧ hosts u.form s = true ∧
      t.form ≠ .block ∧ Shows f (some i) b t := by
  have hsingle := mem_bare.mp hb
  obtain ⟨hform, s, hhost, hchild⟩ := isSingle_iff.mp hsingle
  obtain ⟨parent, u, hu, hshows⟩ := exists_part h.table h.size
    (lt_size_of_child (child_of_isSingle hlinked hsingle))
  have hfields := mem_fields_of_child? hchild
  rw [hshows.fields] at hfields
  obtain ⟨t, ht, hslot, hat⟩ := exists_of_field hshows.inner hfields
  rw [hshows.form] at hhost
  have hshows' := shows_of_at hat
  rw [hshows'.form] at hform
  cases hu with
  | self => cases hhost
  | child hc hu => exact ⟨_, hc, u, hu, t, ht, s, hslot, hhost, hform, hshows'⟩

/-- A tree that is led in is a branch or a body, and lacks braces unless it is a block. -/
theorem bare_of_hosted {t : Tree} (ht : Hosted settled ts t) (hform : t.form ≠ .block) :
    ∃ i, ∃ b ∈ bare f i, (f.node b).start = t.start.offset := by
  rcases ht with ⟨_, hs, _⟩ | ⟨x, hx, u, hu, s, hhost, hmem⟩
  · cases hs
  obtain ⟨q, i, hat⟩ := exists_number (.child hx hu) h.table
  have hshows := shows_of_at hat
  have hslot : (t.under (some s)).slot = some s := by cases t; rfl
  obtain ⟨b, hb⟩ := exists_child? hshows ⟨_, hmem, hslot⟩
  have hfields := mem_fields_of_child? hb
  rw [hshows.fields] at hfields
  obtain ⟨t', ht', hslot', hat'⟩ := exists_of_field hshows.inner hfields
  obtain rfl := (h.sole u (.child hx hu)).eq hhost ht' hmem hslot' hslot
  have hshows' := shows_of_at hat'
  refine ⟨i, b, mem_bare.mpr (isSingle_iff.mpr ⟨?_, s, ?_, hb⟩), ?_⟩
  · rw [hshows'.form]
    cases t
    exact hform
  · rw [hshows.form]
    exact hhost
  · rw [hshows'.start]
    cases t
    rfl

end Made

end Retrace.Instrument.Braces
