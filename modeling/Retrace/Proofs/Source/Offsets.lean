import Retrace.Proofs.Source.Edits
import Retrace.Proofs.Source.Numbering

/-! Where the nodes of a file stand by their offsets.

Offsets count the bytes of a text of any size. `File.InText` says that nodes begin and end at
boundaries of the text, inside of their parents and one after the other, and `File.InBraces` that
the forms with braces have them around their children. The table of a tree that spans the lexemes
of its text has both (`inText_of_allSpan`, `inBraces_of_allSpan`). -/
namespace Retrace.Source
open Java

/-! ### The text between two offsets -/

theorem slice_within {o upper : Nat} {mid back : List Char} (h : upper = o + bytes mid)
    (lower : Nat) (hlower : lower ≤ o) : File.slice lower upper o (mid ++ back) = mid := by
  induction mid generalizing o with
  | nil =>
    have hupper : ¬o < upper := by
      rw [h]
      exact Nat.lt_irrefl _
    cases back with
    | nil => rfl
    | cons c back =>
      rw [List.nil_append, File.slice, if_neg (Nat.not_lt.mpr hlower), if_neg hupper]
  | cons c mid ih =>
    have hpos := c.utf8Size_pos
    rw [bytes_cons] at h
    rw [List.cons_append, File.slice, if_neg (Nat.not_lt.mpr hlower), if_pos (by omega),
      ih (by omega) (by omega)]

theorem slice_split {o lower upper : Nat} {front mid back : List Char}
    (hlower : lower = o + bytes front) (hupper : upper = lower + bytes mid) :
    File.slice lower upper o (front ++ (mid ++ back)) = mid := by
  induction front generalizing o with
  | nil =>
    obtain rfl : lower = o := hlower
    exact slice_within hupper lower (Nat.le_refl _)
  | cons c front ih =>
    have hpos := c.utf8Size_pos
    rw [bytes_cons] at hlower
    rw [List.cons_append, File.slice, if_pos (by omega)]
    exact ih (by omega)

/-- Two boundaries split a text in three. -/
theorem exists_split {cs : List Char} {a b : Nat} (ha : Boundary 0 cs a) (hb : Boundary 0 cs b)
    (hab : a ≤ b) : ∃ front mid back, cs = front ++ (mid ++ back) ∧ a = bytes front ∧
      b = bytes front + bytes mid ∧ File.slice a b 0 cs = mid := by
  obtain ⟨front, rest, hsplit, hfront⟩ := ha
  obtain ⟨front', back, hsplit', hfront'⟩ := hb
  rw [Nat.zero_add] at hfront hfront'
  obtain ⟨mid, hmid⟩ : ∃ mid, front' = front ++ mid ∧ rest = mid ++ back := by
    rw [hsplit] at hsplit'
    rcases List.append_eq_append_iff.mp hsplit' with h | ⟨mid, h, hback⟩
    · exact h
    · -- The later boundary has no text less in front of it.
      have hnil : mid = [] := by
        by_contra hne
        have hpos := bytes_pos hne
        rw [h, bytes_append] at hfront
        omega
      subst hnil
      exact ⟨[], by simpa using h.symm, by simpa using hback.symm⟩
  obtain ⟨rfl, rfl⟩ := hmid
  rw [bytes_append] at hfront'
  refine ⟨front, mid, back, hsplit, hfront, hfront', ?_⟩
  rw [hsplit]
  exact slice_split (by omega) (by omega)

/-- A text is split at an offset in one way. -/
theorem split_unique {xs ys front back : List Char} (h : xs ++ ys = front ++ back)
    (hbytes : bytes xs = bytes front) : xs = front ∧ ys = back := by
  have hnil : ∀ as : List Char, bytes as = 0 → as = [] := by
    intro as has
    by_contra hne
    exact absurd has (Nat.ne_of_gt (bytes_pos hne))
  rcases List.append_eq_append_iff.mp h with ⟨as, rfl, rfl⟩ | ⟨as, rfl, rfl⟩
  all_goals
    rw [bytes_append] at hbytes
    obtain rfl := hnil as (by omega)
    simp

theorem slice_append {cs : List Char} {a b c : Nat} (ha : Boundary 0 cs a) (hb : Boundary 0 cs b)
    (hc : Boundary 0 cs c) (hab : a ≤ b) (hbc : b ≤ c) :
    File.slice a b 0 cs ++ File.slice b c 0 cs = File.slice a c 0 cs := by
  obtain ⟨front, mid, back, hsplit, hfront, hmid, hslice⟩ := exists_split ha hb hab
  obtain ⟨front', mid', back', hsplit', hfront', hmid', hslice'⟩ := exists_split hb hc hbc
  have hsame : front ++ mid = front' ∧ back = mid' ++ back' := by
    refine split_unique ?_ (by rw [bytes_append]; omega)
    rw [List.append_assoc, ← hsplit, ← hsplit']
  rw [hslice, hslice', hsplit, hsame.2, ← List.append_assoc mid]
  refine (slice_split (by omega) ?_).symm
  rw [bytes_append]
  omega

theorem bytes_slice {cs : List Char} {a b : Nat} (ha : Boundary 0 cs a) (hb : Boundary 0 cs b)
    (hab : a ≤ b) : a + bytes (File.slice a b 0 cs) = b := by
  obtain ⟨front, mid, back, _, hfront, hmid, hslice⟩ := exists_split ha hb hab
  rw [hslice, hfront, hmid]

theorem boundary_zero (cs : List Char) : Boundary 0 cs 0 := ⟨[], cs, rfl, rfl⟩

theorem boundary_bytes (cs : List Char) : Boundary 0 cs (bytes cs) :=
  ⟨cs, [], (List.append_nil cs).symm, (Nat.zero_add _).symm⟩

theorem slice_all (cs : List Char) : File.slice 0 (bytes cs) 0 cs = cs := by
  have h : File.slice 0 (bytes cs) 0 (cs ++ []) = cs :=
    slice_within (Nat.zero_add (bytes cs)).symm 0 (Nat.le_refl 0)
  rwa [List.append_nil] at h

namespace File

/-- Nodes stand between boundaries of the text, children inside of their parent, one after the
other. -/
structure InText (f : File) : Prop where
  start : ∀ i, Boundary 0 f.text.toList (f.node i).start
  stop : ∀ i, Boundary 0 f.text.toList (f.node i).stop
  le : ∀ i, (f.node i).start ≤ (f.node i).stop
  within : ∀ {i c}, c ∈ f.children i →
    (f.node i).start ≤ (f.node c).start ∧ (f.node c).stop ≤ (f.node i).stop
  apart : ∀ i, (f.children i).Pairwise fun a b => (f.node a).stop ≤ (f.node b).start

/-- Where a form has braces, the node begins with one, and its children stand between them. -/
structure InBraces (f : File) : Prop where
  opening : ∀ {i}, fenced (f.form i) = true → ∃ front back,
    f.text.toList = front ++ '\x7b' :: back ∧ (f.node i).start = bytes front
  lt : ∀ {i}, fenced (f.form i) = true → (f.node i).start + 1 < (f.node i).stop
  around : ∀ {i c}, fenced (f.form i) = true → c ∈ f.children i →
    (f.node i).start + 1 ≤ (f.node c).start ∧ (f.node c).stop < (f.node i).stop

section InText
variable {f : File} (h : f.InText)
include h

theorem InText.below {i j : Nat} (hij : f.Below i j) :
    (f.node i).start ≤ (f.node j).start ∧ (f.node j).stop ≤ (f.node i).stop := by
  induction hij with
  | refl => exact ⟨Nat.le_refl _, Nat.le_refl _⟩
  | tail _ hc ih =>
    obtain ⟨hstart, hstop⟩ := h.within hc
    exact ⟨Nat.le_trans ih.1 hstart, Nat.le_trans hstop ih.2⟩

theorem InText.siblings {i c d : Nat} (hc : c ∈ f.children i) (hd : d ∈ f.children i)
    (hne : c ≠ d) :
    (f.node c).stop ≤ (f.node d).start ∨ (f.node d).stop ≤ (f.node c).start :=
  either_of_pairwise (h.apart i) hc hd hne

theorem InText.below_or_apart_within {r i j : Nat} (hi : f.Below r i) (hj : f.Below r j) :
    f.Below i j ∨ f.Below j i ∨
      (f.node i).stop ≤ (f.node j).start ∨ (f.node j).stop ≤ (f.node i).start := by
  induction hi using Relation.ReflTransGen.head_induction_on with
  | refl => exact .inl hj
  | @head r c hc hi ih =>
    rcases hj.cases with rfl | ⟨d, hd, hj⟩
    · exact .inr (.inl ((below_child hc).trans hi))
    · by_cases hcd : c = d
      · subst hcd
        exact ih hj
      · have hleft := h.below hi
        have hright := h.below hj
        rcases h.siblings hc hd hcd with hapart | hapart
        · exact .inr (.inr (.inl (Nat.le_trans hleft.2 (Nat.le_trans hapart hright.1))))
        · exact .inr (.inr (.inr (Nat.le_trans hright.2 (Nat.le_trans hapart hleft.1))))

variable (hlinked : f.Linked)
include hlinked

/-- Two nodes are one below the other, or one in front of the other. -/
theorem InText.below_or_apart {i j : Nat} (hi : i < f.nodes.size) (hj : j < f.nodes.size) :
    f.Below i j ∨ f.Below j i ∨
      (f.node i).stop ≤ (f.node j).start ∨ (f.node j).stop ≤ (f.node i).start :=
  h.below_or_apart_within (hlinked.below_root hi) (hlinked.below_root hj)

theorem InText.start_le_within (hcounted : f.Counted) {r i j : Nat} (hi : f.Below r i)
    (hj : f.Below r j) (hij : i < j) : (f.node i).start ≤ (f.node j).start := by
  induction hi using Relation.ReflTransGen.head_induction_on with
  | refl => exact (h.below hj).1
  | @head r c hc hi ih =>
    rcases hj.cases with rfl | ⟨d, hd, hj⟩
    · exact absurd (hlinked.le_of_below ((below_child hc).trans hi)) (Nat.not_le.mpr hij)
    · by_cases hcd : c = d
      · subst hcd
        exact ih hj
      · have hordered := (h.apart r).and (hcounted r)
        rcases either_of_pairwise hordered hc hd hcd with ⟨hapart, _⟩ | ⟨_, hbefore⟩
        · have hleft := h.below hi
          have hright := h.below hj
          have hle := h.le i
          omega
        · have hle := hlinked.le_of_below hi
          have hlt := hbefore j hj
          omega

/-- Nodes begin in the order of their numbers. -/
theorem InText.start_le (hcounted : f.Counted) {i j : Nat} (hij : i < j)
    (hj : j < f.nodes.size) : (f.node i).start ≤ (f.node j).start :=
  h.start_le_within hlinked hcounted (hlinked.below_root (Nat.lt_trans hij hj))
    (hlinked.below_root hj) hij

end InText

end File

/-! ### Lexemes by their offsets -/

/-- The lexemes take up text, one after the other. -/
structure InLine (ls : List Lexeme) : Prop where
  apart : ls.Pairwise fun a b => a.stop.offset ≤ b.start.offset
  lt : ∀ l ∈ ls, l.start.offset < l.stop.offset

theorem InLine.part {ls own : List Lexeme} (h : InLine ls) (hown : own <:+: ls) : InLine own :=
  ⟨h.apart.sublist hown.sublist, fun l hl => h.lt l (hown.subset hl)⟩

section InLine
variable {ls : List Lexeme} {l k : Lexeme} (h : InLine ls)
include h

theorem InLine.head_le (hl : ls.head? = some l) (hk : k ∈ ls) :
    l.start.offset ≤ k.start.offset := by
  obtain ⟨rest, rfl⟩ := List.head?_eq_some_iff.mp hl
  rcases List.mem_cons.mp hk with rfl | hk
  · exact Nat.le_refl _
  · exact Nat.le_trans (Nat.le_of_lt (h.lt l List.mem_cons_self))
      ((List.pairwise_cons.mp h.apart).1 k hk)

theorem InLine.le_last (hl : ls.getLast? = some l) (hk : k ∈ ls) :
    k.stop.offset ≤ l.stop.offset := by
  obtain ⟨front, rfl⟩ := List.getLast?_eq_some_iff.mp hl
  rcases List.mem_append.mp hk with hk | hk
  · have hlt := h.lt l (List.mem_append_right front List.mem_cons_self)
    have hle := (List.pairwise_append.mp h.apart).2.2 k hk l List.mem_cons_self
    omega
  · exact Nat.le_of_eq (by rw [List.mem_singleton.mp hk])

/-- No two of the lexemes begin at one offset. -/
theorem InLine.eq_of_start {pre pre' post post' : List Lexeme} (hl : ls = pre ++ l :: post)
    (hk : ls = pre' ++ k :: post') (hstart : l.start.offset = k.start.offset) :
    pre = pre' ∧ l = k ∧ post = post' := by
  have hbehind : ∀ {a b : Lexeme} {front mid back : List Lexeme},
      ls = front ++ a :: (mid ++ b :: back) → a.start.offset ≠ b.start.offset := by
    rintro a b front mid back rfl heq
    have hlt := h.lt a (by simp)
    have hle := (List.pairwise_cons.mp (List.pairwise_append.mp h.apart).2.1).1 b (by simp)
    omega
  rcases List.append_eq_append_iff.mp (hl.symm.trans hk) with ⟨x, rfl, hx⟩ | ⟨x, rfl, hx⟩ <;>
    cases x with
  | nil =>
    cases hx
    exact ⟨by rw [List.append_nil], rfl, rfl⟩
  | cons m x =>
    cases hx
    first
    | exact absurd hstart (hbehind hl)
    | exact absurd hstart.symm (hbehind hk)

end InLine

theorem inLine_lex (cs : List Char) : InLine (Lexer.lex cs) := by
  obtain ⟨_, _, _, _, hcut⟩ := Lexer.cut_lex cs
  exact ⟨hcut.apart, fun l hl => (Lexer.partOf_lex cs l hl).lt⟩

theorem boundary_start {cs : List Char} {l : Lexeme} (h : l.PartOf cs) :
    Boundary 0 cs l.start.offset := by
  obtain ⟨_, front, back, hsplit, hstart, _⟩ := h
  exact ⟨front, _, hsplit, by rw [hstart, Nat.zero_add]⟩

theorem boundary_stop {cs : List Char} {l : Lexeme} (h : l.PartOf cs) :
    Boundary 0 cs l.stop.offset := by
  obtain ⟨_, front, back, hsplit, _, hstop⟩ := h
  exact ⟨front ++ l.text.toList, back, by rw [hsplit, List.append_assoc],
    by rw [hstop, bytes_append, Nat.zero_add]⟩

/-! ### Trees that span lexemes -/

theorem within_of_spans {t : Tree} {own : List Lexeme} (h : t.Spans own) (hown : InLine own) :
    t.start.offset < t.stop.offset ∧
      ∀ l ∈ own, t.start.offset ≤ l.start.offset ∧ l.stop.offset ≤ t.stop.offset := by
  obtain ⟨o, hhead, hstart⟩ := h.start
  obtain ⟨c, hlast, hstop⟩ := h.stop
  have hall : ∀ l ∈ own, t.start.offset ≤ l.start.offset ∧ l.stop.offset ≤ t.stop.offset := by
    intro l hl
    rw [← hstart, ← hstop]
    exact ⟨hown.head_le hhead hl, hown.le_last hlast hl⟩
  obtain ⟨hle, hle'⟩ := hall o (List.mem_of_head? hhead)
  have hlt := hown.lt o (List.mem_of_head? hhead)
  exact ⟨by omega, hall⟩

/-- Every part of a tree but the tree itself spans some of the lexemes that its children span. -/
theorem part_spans {t u : Tree} {ls : List Lexeme} (h : AllSpan t.children ls) (hu : Part u t) :
    u = t ∨ ∃ own, own <:+: ls ∧ u.Spans own := by
  induction hu generalizing ls with
  | self => exact .inl rfl
  | child hc _ ih =>
    obtain ⟨own, hown, hspans⟩ := spans_of_mem h hc
    obtain ⟨inner, hcontent, hinner⟩ := hspans.children
    rcases ih hinner with rfl | ⟨own', hown', hspans'⟩
    · exact .inr ⟨own, hown, hspans⟩
    · exact .inr ⟨own', hown'.trans (hcontent.part.trans hown), hspans'⟩

theorem apart_numbers {f : File} {parent n : Nat} {ts : List Tree} {ls : List Lexeme}
    (hat : AllAt f.nodes parent n ts) (h : AllSpan ts ls) (hls : InLine ls) :
    (numbers n ts).Pairwise fun a b => (f.node a).stop ≤ (f.node b).start := by
  induction ts generalizing n ls with
  | nil => exact List.Pairwise.nil
  | cons t ts ih =>
    rw [AllAt] at hat
    rw [AllSpan] at h
    obtain ⟨gap, own, rest, rfl, ht, hts⟩ := h
    have hown := hls.part (List.suffix_append gap (own ++ rest)).isInfix
    refine List.pairwise_cons.mpr ⟨fun c hc => ?_,
      ih hat.2 hts (hown.part (List.suffix_append own rest).isInfix)⟩
    obtain ⟨u, hu, hchild, _⟩ := exists_of_number hat.2 hc
    obtain ⟨own', hown', hspans⟩ := spans_of_mem hts hu
    obtain ⟨l, hlast, hstop⟩ := ht.stop
    obtain ⟨k, hhead, hstart⟩ := hspans.start
    rw [(shows_of_at hat.1).stop, (shows_of_at hchild).start, ← hstop, ← hstart]
    exact (List.pairwise_append.mp hown.apart).2.2 l (List.mem_of_getLast? hlast) k
      (hown'.subset (List.mem_of_head? hhead))

section Table
variable {f : File} {root : Tree} (hat : At f.nodes none 0 root)
  (hsize : f.nodes.size = root.size) (hspans : AllSpan root.children (Lexer.lex f.text.toList))
  (hstart : root.start = Lexer.firstPoint f.text.toList)
  (hstop : root.stop = Point.origin.advance f.text.toList)
include hspans hstart hstop

/-- Where a part of the tree stands in the text, and which lexemes are inside of it. -/
theorem part_in_text {u : Tree} (hu : Part u root) :
    Boundary 0 f.text.toList u.start.offset ∧ Boundary 0 f.text.toList u.stop.offset ∧
      u.start.offset ≤ u.stop.offset ∧
      ∃ inner, inner <:+: Lexer.lex f.text.toList ∧ AllSpan u.children inner ∧
        ∀ l ∈ inner, u.start.offset ≤ l.start.offset ∧ l.stop.offset ≤ u.stop.offset := by
  have hline := inLine_lex f.text.toList
  have hparts := Lexer.partOf_lex f.text.toList
  rcases part_spans hspans hu with rfl | ⟨own, hown, hu⟩
  · obtain ⟨front, rest, hsplit, hfirst, hcut⟩ := Lexer.cut_lex f.text.toList
    have hfront : u.start.offset = 0 + bytes front := by
      rw [hstart, hfirst, Point.offset_advance]
      rfl
    have hback : u.stop.offset = 0 + bytes f.text.toList := by
      rw [hstop, Point.offset_advance]
      rfl
    have hbytes : bytes f.text.toList = bytes front + bytes rest := by
      rw [← bytes_append, ← hsplit]
    refine ⟨⟨front, rest, hsplit, hfront⟩, ⟨_, [], (List.append_nil _).symm, hback⟩, by omega,
      _, List.infix_rfl, hspans, fun l hl => ⟨?_, ?_⟩⟩
    · rw [hstart]
      exact hcut.le_start l hl
    · obtain ⟨_, before, behind, heq, _, hend⟩ := hparts l hl
      rw [hback, heq, bytes_append, bytes_append, hend]
      omega
  · obtain ⟨hlt, hall⟩ := within_of_spans hu (hline.part hown)
    obtain ⟨o, hhead, hfirst⟩ := hu.start
    obtain ⟨c, hlast, hend⟩ := hu.stop
    obtain ⟨inner, hcontent, hinner⟩ := hu.children
    refine ⟨?_, ?_, Nat.le_of_lt hlt, inner, hcontent.part.trans hown, hinner,
      fun l hl => hall l (hcontent.part.subset hl)⟩
    · rw [← hfirst]
      exact boundary_start (hparts o (hown.subset (List.mem_of_head? hhead)))
    · rw [← hend]
      exact boundary_stop (hparts c (hown.subset (List.mem_of_getLast? hlast)))

include hat hsize

theorem ends_of_allSpan (i : Nat) : Boundary 0 f.text.toList (f.node i).start ∧
    Boundary 0 f.text.toList (f.node i).stop ∧ (f.node i).start ≤ (f.node i).stop := by
  by_cases hi : i < f.nodes.size
  · obtain ⟨_, u, hu, hshows⟩ := exists_part hat hsize hi
    obtain ⟨hfirst, hlast, hle, _⟩ := part_in_text hspans hstart hstop hu
    rw [hshows.start, hshows.stop]
    exact ⟨hfirst, hlast, hle⟩
  · rw [eq_default_of_le (Nat.le_of_not_lt hi)]
    exact ⟨boundary_zero _, boundary_zero _, Nat.le_refl 0⟩

/-- The table of a tree that spans the lexemes of its text stands in the text. -/
theorem inText_of_allSpan : f.InText where
  start i := (ends_of_allSpan hat hsize hspans hstart hstop i).1
  stop i := (ends_of_allSpan hat hsize hspans hstart hstop i).2.1
  le i := (ends_of_allSpan hat hsize hspans hstart hstop i).2.2
  within {i c} hc := by
    obtain ⟨_, v, u, hv, hshows, hu, hchild⟩ := shows_child hat hsize hc
    obtain ⟨_, _, _, inner, _, hinner, hall⟩ := part_in_text hspans hstart hstop hv
    obtain ⟨own, hown, hspan⟩ := spans_of_mem hinner hu
    obtain ⟨o, hhead, hfirst⟩ := hspan.start
    obtain ⟨l, hlast, hend⟩ := hspan.stop
    rw [hshows.start, hshows.stop, hchild.start, hchild.stop, ← hfirst, ← hend]
    exact ⟨(hall o (hown.subset (List.mem_of_head? hhead))).1,
      (hall l (hown.subset (List.mem_of_getLast? hlast))).2⟩
  apart i := by
    by_cases hi : i < f.nodes.size
    · obtain ⟨_, v, hv, hshows⟩ := exists_part hat hsize hi
      obtain ⟨_, _, _, inner, hin, hinner, _⟩ := part_in_text hspans hstart hstop hv
      rw [hshows.children]
      exact apart_numbers hshows.inner hinner ((inLine_lex _).part hin)
    · unfold File.children
      rw [eq_default_of_le (Nat.le_of_not_lt hi)]
      exact List.Pairwise.nil

/-- All nodes but the root take up text. -/
theorem lt_of_allSpan {i : Nat} (hpos : 0 < i) (hi : i < f.nodes.size) :
    (f.node i).start < (f.node i).stop := by
  rcases spot hat hsize hi with rfl | ⟨_, _, v, u, hv, _, hu, hshows, _⟩
  · exact absurd hpos (Nat.lt_irrefl 0)
  · obtain ⟨_, _, _, inner, hin, hinner, _⟩ := part_in_text hspans hstart hstop hv
    obtain ⟨own, hown, hspan⟩ := spans_of_mem hinner hu
    rw [hshows.start, hshows.stop]
    exact (within_of_spans hspan ((inLine_lex _).part (hown.trans hin))).1

omit hstart hstop in
/-- The lexemes of a part that has braces. -/
theorem braces_of_fenced (hroot : fenced root.form = false) {i : Nat}
    (hform : fenced (f.form i) = true) : ∃ parent v o inner c, Shows f parent i v ∧
      o :: (inner ++ [c]) <:+: Lexer.lex f.text.toList ∧ o.isSymbol "\x7b" = true ∧
      AllSpan v.children inner ∧ (f.node i).start = o.start.offset ∧
      (f.node i).stop = c.stop.offset := by
  have hi : i < f.nodes.size := by
    refine Nat.lt_of_not_le fun hle => ?_
    unfold File.form at hform
    rw [eq_default_of_le hle] at hform
    cases hform
  obtain ⟨parent, v, hv, hshows⟩ := exists_part hat hsize hi
  rw [hshows.form] at hform
  rcases part_spans hspans hv with rfl | ⟨own, hown, hspan⟩
  · rw [hform] at hroot
    cases hroot
  obtain ⟨k, hhead, hfirst⟩ := hspan.start
  obtain ⟨l, hlast, hend⟩ := hspan.stop
  obtain ⟨inner, hcontent, hinner⟩ := hspan.children
  unfold Content at hcontent
  rw [hform] at hcontent
  obtain ⟨o, c, rfl, hopen, _⟩ := hcontent
  obtain rfl : o = k := by simpa using hhead
  rw [show o :: (inner ++ [c]) = (o :: inner) ++ [c] from rfl, List.getLast?_concat] at hlast
  obtain rfl : c = l := by simpa using hlast
  exact ⟨parent, v, o, inner, c, hshows, hown, hopen, hinner, by rw [hshows.start, hfirst],
    by rw [hshows.stop, hend]⟩

omit hat hsize hspans hstart hstop in
theorem opening_of_isSymbol {o : Lexeme} (ho : o ∈ Lexer.lex f.text.toList)
    (hopen : o.isSymbol "\x7b" = true) : o.stop.offset = o.start.offset + 1 ∧
      ∃ front back, f.text.toList = front ++ '\x7b' :: back ∧ o.start.offset = bytes front := by
  obtain ⟨_, front, back, hsplit, hfirst, hend⟩ := Lexer.partOf_lex _ o ho
  unfold Lexeme.isSymbol at hopen
  obtain ⟨_, htext⟩ := Bool.and_eq_true_iff.mp hopen
  rw [show o.text = "\x7b" by simpa using htext] at hsplit hend
  exact ⟨by rw [hend, hfirst]; rfl, front, back, hsplit, hfirst⟩

omit hstart hstop in
theorem inBraces_of_allSpan (hroot : fenced root.form = false) : f.InBraces := by
  refine ⟨fun {i} hform => ?_, fun {i} hform => ?_, fun {i c} hform hc => ?_⟩
  · obtain ⟨_, _, o, inner, c, _, hown, hopen, _, hfirst, _⟩ :=
      braces_of_fenced hat hsize hspans hroot hform
    rw [hfirst]
    exact (opening_of_isSymbol (hown.subset List.mem_cons_self) hopen).2
  · obtain ⟨_, _, o, inner, c, _, hown, hopen, _, hfirst, hend⟩ :=
      braces_of_fenced hat hsize hspans hroot hform
    have hline := (inLine_lex f.text.toList).part hown
    have hwidth := (opening_of_isSymbol (hown.subset List.mem_cons_self) hopen).1
    have hapart := (List.pairwise_cons.mp hline.apart).1 c (by simp)
    have hlt := hline.lt c (by simp)
    omega
  · obtain ⟨_, v, o, inner, k, hshows, hown, hopen, hinner, hfirst, hend⟩ :=
      braces_of_fenced hat hsize hspans hroot hform
    have hline := (inLine_lex f.text.toList).part hown
    have hwidth := (opening_of_isSymbol (hown.subset List.mem_cons_self) hopen).1
    rw [hshows.children] at hc
    obtain ⟨u, hu, hchild, _⟩ := exists_of_number hshows.inner hc
    obtain ⟨own, hin, hspan⟩ := spans_of_mem hinner hu
    obtain ⟨l, hhead, hstart⟩ := hspan.start
    obtain ⟨m, hlast, hstop⟩ := hspan.stop
    have hl := hin.subset (List.mem_of_head? hhead)
    have hm := hin.subset (List.mem_of_getLast? hlast)
    obtain ⟨hfront, hrest⟩ := List.pairwise_cons.mp hline.apart
    have hopened := hfront l (List.mem_append_left [k] hl)
    have hclosed := (List.pairwise_append.mp hrest).2.2 m hm k List.mem_cons_self
    have hlt := hline.lt k (by simp)
    rw [(shows_of_at hchild).start, (shows_of_at hchild).stop, ← hstart, ← hstop]
    omega

end Table

end Retrace.Source
