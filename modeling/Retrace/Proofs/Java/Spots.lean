import Retrace.Proofs.Java.Statements
import Retrace.Proofs.Source.Offsets

/-! Where the chunks of a text stand.

Lexemes that begin or end where a chunk does split the chunks of their text (`locate_of_start`,
`locate_of_stop`). So what stands in front of a single statement ends with a cut, as does the
statement, and the statement may be put in braces (`start_of_single`, `stop_of_single`,
`wraps_of_single`). -/
namespace Retrace.Java

theorem Cut.within {p : Point} {cs : List Char} {ls : List Lexeme} (h : Cut p cs ls) :
    ∀ l ∈ ls, l.start.offset < l.stop.offset ∧ l.stop.offset ≤ p.offset + bytes cs := by
  induction ls generalizing p cs with
  | nil => exact fun l hl => nomatch hl
  | cons l ls ih =>
    obtain ⟨gap, back, rfl, hne, hstart, hstop, hrest⟩ := h
    have hpos := bytes_pos hne
    have hstop' := congrArg Point.offset hstop
    have hstart' := congrArg Point.offset hstart
    rw [Point.offset_advance] at hstop' hstart'
    rw [bytes_append, bytes_append]
    refine List.forall_mem_cons.mpr ⟨by omega, fun k hk => ?_⟩
    obtain ⟨hlt, hle⟩ := ih hrest k hk
    omega

namespace Lexer

/-- The chunks take up text. -/
def Solid (ks : List Chunk) : Prop := ∀ k ∈ ks, k.text ≠ []

/-- How many bytes the chunks take up. -/
def width (ks : List Chunk) : Nat := bytes (chars ks)

section Width
variable {k : Chunk} {ks front back : List Chunk}

@[simp] theorem width_nil : width [] = 0 := rfl

@[simp] theorem width_cons : width (k :: ks) = bytes k.text + width ks := by
  unfold width
  rw [chars_cons, bytes_append]

@[simp] theorem width_append : width (front ++ back) = width front + width back := by
  unfold width
  rw [chars_append, bytes_append]

theorem offset_chars (p : Point) (ks : List Chunk) :
    (p.advance (chars ks)).offset = p.offset + width ks := Point.offset_advance p (chars ks)

theorem nil_of_width (h : Solid ks) (hks : width ks = 0) : ks = [] := by
  cases ks with
  | nil => rfl
  | cons k ks =>
    have hpos := bytes_pos (h k List.mem_cons_self)
    rw [width_cons] at hks
    omega

end Width

section Locate
variable {p : Point} {ks js front back : List Chunk} {k : Chunk} {l : Lexeme}
  {ls ms : List Lexeme}

theorem solid_of_scans {back : List Char} {m m' : List Mode} (h : Scans back m ks m') :
    Solid ks := by
  induction h with
  | done => exact fun _ hk => nomatch hk
  | step _ _ _ ih => exact List.forall_mem_cons.mpr ⟨List.cons_ne_nil _ _, ih⟩

theorem cut_locate (h : Solid ks) : Cut p (chars ks) (locate p ks) := by
  induction ks generalizing p with
  | nil => trivial
  | cons k ks ih =>
    obtain ⟨hk, hks⟩ := List.forall_mem_cons.mp h
    rw [locate, chars_cons]
    unfold Chunk.lexeme?
    cases k.kind with
    | none => exact (ih hks).skip
    | some kind =>
      refine ⟨[], chars ks, ?_, ?_, rfl, ?_, ?_⟩
      all_goals simp only [String.toList_ofList, List.nil_append]
      · exact hk
      · exact ih hks

theorem inLine_locate (h : Solid ks) : Source.InLine (locate p ks) :=
  ⟨(cut_locate h).apart, fun l hl => ((cut_locate h).within l hl).1⟩

theorem sides (h : Solid (front ++ back)) :
    (∀ l ∈ locate p front, l.stop.offset ≤ p.offset + width front) ∧
      ∀ l ∈ locate (p.advance (chars front)) back,
        p.offset + width front ≤ l.start.offset := by
  obtain ⟨hfront, hback⟩ := List.forall_mem_append.mp h
  refine ⟨fun l hl => ((cut_locate hfront).within l hl).2, fun l hl => ?_⟩
  rw [← offset_chars]
  exact (cut_locate hback).le_start l hl

/-- Lexemes that begin where a chunk does. -/
theorem locate_of_start (hsolid : Solid (front ++ back)) (h : locate p (front ++ back) = ls ++ ms)
    (hhead : ms.head? = some l) (hl : l.start.offset = p.offset + width front) :
    locate p front = ls ∧ locate (p.advance (chars front)) back = ms := by
  have hline := inLine_locate (p := p) hsolid
  obtain ⟨hbefore, hbehind⟩ := sides (p := p) hsolid
  rw [h] at hline
  rw [locate_append] at h
  obtain ⟨ms, rfl⟩ := List.head?_eq_some_iff.mp hhead
  rcases List.append_eq_append_iff.mp h with ⟨x, rfl, hx⟩ | ⟨x, hx, hms⟩ <;> cases x with
  | nil => simp_all
  | cons m x => ?_
  · have hm := hbehind m (by rw [hx]; exact List.mem_cons_self)
    have hlt := hline.lt m (by simp)
    have hapart := (List.pairwise_append.mp hline.apart).2.2 m (by simp) l List.mem_cons_self
    omega
  · obtain rfl : l = m := (List.cons.inj hms).1
    have hmem : l ∈ locate p front := by rw [hx]; simp
    have hle := hbefore l hmem
    have hlt := hline.lt l (by simp)
    omega

/-- Lexemes that end where a chunk does. -/
theorem locate_of_stop (hsolid : Solid (front ++ back)) (h : locate p (front ++ back) = ls ++ ms)
    (hlast : ls.getLast? = some l) (hl : l.stop.offset = p.offset + width front) :
    locate p front = ls ∧ locate (p.advance (chars front)) back = ms := by
  have hline := inLine_locate (p := p) hsolid
  obtain ⟨hbefore, hbehind⟩ := sides (p := p) hsolid
  rw [h] at hline
  rw [locate_append] at h
  rcases List.append_eq_append_iff.mp h with ⟨x, rfl, hx⟩ | ⟨x, hx, rfl⟩ <;> cases x with
  | nil => simp_all
  | cons m x => ?_
  · have hmem : l ∈ m :: x := by
      rw [List.getLast?_append_of_ne_nil _ (List.cons_ne_nil _ _)] at hlast
      exact List.mem_of_getLast? hlast
    have hle := hbehind l (by rw [hx]; exact List.mem_append_left _ hmem)
    have hlt := hline.lt l (List.mem_append_left _ (List.mem_append_right _ hmem))
    omega
  · have hle := hbefore m (by rw [hx]; simp)
    have hlt := hline.lt m (by simp)
    have hapart := (List.pairwise_append.mp hline.apart).2.2 l (List.mem_of_getLast? hlast) m
      List.mem_cons_self
    omega

/-! Lexemes and their chunks -/

/-- The chunk is that of the lexeme. -/
def Chunk.Makes (k : Chunk) (l : Lexeme) : Prop :=
  k.kind = some l.kind ∧ String.ofList k.text = l.text

theorem locate_kept {kind : LexemeKind} (hk : k.kind = some kind) : locate p (k :: ks) =
    ⟨kind, String.ofList k.text, p, p.advance k.text⟩ :: locate (p.advance k.text) ks := by
  rw [locate]
  unfold Chunk.lexeme?
  rw [hk]
  rfl

theorem locate_gap (hk : k.kind = none) : locate p (k :: ks) = locate (p.advance k.text) ks := by
  rw [locate]
  unfold Chunk.lexeme?
  rw [hk]
  rfl

theorem gaps_of_nil (h : locate p ks = []) : ∀ k ∈ ks, k.kind = none := by
  induction ks generalizing p with
  | nil => exact fun _ hk => nomatch hk
  | cons k ks ih =>
    cases hk : k.kind with
    | none =>
      rw [locate_gap hk] at h
      exact List.forall_mem_cons.mpr ⟨hk, ih h⟩
    | some kind =>
      rw [locate_kept hk] at h
      cases h

/-- A lexeme that begins where the chunks do is the first of them. -/
theorem head_of_locate (hsolid : Solid ks) (hhead : (locate p ks).head? = some l)
    (hl : l.start.offset = p.offset) : ∃ k, ks.head? = some k ∧ k.Makes l := by
  cases ks with
  | nil => cases hhead
  | cons k ks =>
    refine ⟨k, rfl, ?_⟩
    obtain ⟨hne, hks⟩ := List.forall_mem_cons.mp hsolid
    cases hk : k.kind with
    | none =>
      rw [locate_gap hk] at hhead
      have hle := (cut_locate (p := p.advance k.text) hks).le_start l (List.mem_of_head? hhead)
      have hpos := bytes_pos hne
      rw [Point.offset_advance] at hle
      omega
    | some kind =>
      rw [locate_kept hk] at hhead
      cases hhead
      exact ⟨hk, rfl⟩

/-- Behind the last lexeme there is but white space and comments. -/
theorem last_of_locate (hlast : (locate p ks).getLast? = some l) :
    ∃ front k gap, ks = front ++ k :: gap ∧ (∀ g ∈ gap, g.kind = none) ∧ k.Makes l ∧
      l.stop = p.advance (chars (front ++ [k])) := by
  induction ks generalizing p with
  | nil => cases hlast
  | cons k ks ih =>
    cases hrest : (locate (p.advance k.text) ks).getLast? with
    | some l' =>
      have hl : l' = l := by
        rw [locate, List.getLast?_append, hrest] at hlast
        exact Option.some.inj hlast
      subst hl
      obtain ⟨front, j, gap, rfl, hgap, hmakes, hstop⟩ := ih hrest
      refine ⟨k :: front, j, gap, rfl, hgap, hmakes, ?_⟩
      rw [hstop, ← Point.advance_append]
      rfl
    | none =>
      have hnil := List.getLast?_eq_none_iff.mp hrest
      cases hk : k.kind with
      | none =>
        rw [locate_gap hk, hnil] at hlast
        cases hlast
      | some kind =>
        rw [locate_kept hk, hnil] at hlast
        cases hlast
        refine ⟨[], k, ks, rfl, gaps_of_nil hnil, ⟨hk, rfl⟩, ?_⟩
        rw [List.nil_append, chars_cons, chars_nil, List.append_nil]
        rfl

theorem Chunk.Makes.eq (h : k.Makes l) {kind : LexemeKind} {cs : List Char}
    (hkind : l.kind = kind) (htext : l.text = String.ofList cs) : k = ⟨cs, some kind⟩ := by
  obtain ⟨text, kind'⟩ := k
  obtain ⟨hkind', htext'⟩ := h
  dsimp only at hkind' htext'
  rw [hkind', hkind, String.ofList_injective (htext'.trans htext)]

theorem Chunk.Makes.symbol (h : k.Makes l) (cs : List Char)
    (hl : l.isSymbol (String.ofList cs) = true) : k = ⟨cs, some .symbol⟩ := by
  obtain ⟨hkind, htext⟩ := Bool.and_eq_true_iff.mp hl
  exact h.eq (beq_iff_eq.mp hkind) (beq_iff_eq.mp htext)

theorem Chunk.Makes.word (h : k.Makes l) (cs : List Char)
    (hl : l.isWord (String.ofList cs) = true) : k = ⟨cs, some .word⟩ := by
  obtain ⟨hkind, htext⟩ := Bool.and_eq_true_iff.mp hl
  exact h.eq (beq_iff_eq.mp hkind) (beq_iff_eq.mp htext)

end Locate

/-! ### Seams -/

/-- A chunk begins or ends at the offset. -/
def Seam (p : Point) (ks : List Chunk) (o : Nat) : Prop :=
  ∃ front back, ks = front ++ back ∧ o = p.offset + width front

section Seam
variable {p : Point} {ks : List Chunk}

theorem Seam.cons {k : Chunk} {o : Nat} (h : Seam (p.advance k.text) ks o) :
    Seam p (k :: ks) o := by
  obtain ⟨front, back, rfl, rfl⟩ := h
  refine ⟨k :: front, back, rfl, ?_⟩
  rw [Point.offset_advance, width_cons, Nat.add_assoc]

theorem seams_of_mem {l : Lexeme} (hl : l ∈ locate p ks) :
    Seam p ks l.start.offset ∧ Seam p ks l.stop.offset := by
  induction ks generalizing p with
  | nil => cases hl
  | cons k ks ih =>
    have hrest : l ∈ locate (p.advance k.text) ks →
        Seam p (k :: ks) l.start.offset ∧ Seam p (k :: ks) l.stop.offset := fun hl =>
      ⟨(ih hl).1.cons, (ih hl).2.cons⟩
    cases hk : k.kind with
    | none =>
      rw [locate_gap hk] at hl
      exact hrest hl
    | some kind =>
      rw [locate_kept hk] at hl
      rcases List.mem_cons.mp hl with rfl | hl
      · refine ⟨⟨[], k :: ks, rfl, rfl⟩, [k], ks, rfl, ?_⟩
        rw [Point.offset_advance, width_cons, width_nil, Nat.add_zero]
      · exact hrest hl

/-- White space in front of a text is made of chunks. -/
theorem exists_leading {back : List Char} {m : List Mode} (h : Scans back [] ks m) :
    ∃ front rest, ks = front ++ rest ∧ chars front = (chars ks).takeWhile isSpace := by
  generalize hm : [] = start at h
  induction h with
  | done => exact ⟨[], [], rfl, rfl⟩
  | @step _ _ c t ks s hstep htake _ ih =>
    subst hm
    cases hc : isSpace c with
    | false =>
      refine ⟨[], _, rfl, ?_⟩
      rw [chars_cons, List.cons_append, List.takeWhile_cons_of_neg (by simp [hc])]
      rfl
    | true =>
      rw [step_code (m := []) trivial, readCode, if_pos hc] at hstep
      subst hstep
      obtain rfl : [] = t := htake
      obtain ⟨front, rest, rfl, hfront⟩ := ih rfl
      refine ⟨⟨[c], none⟩ :: front, rest, rfl, ?_⟩
      rw [chars_cons, chars_cons, List.singleton_append, List.singleton_append, hfront,
        List.takeWhile_cons_of_pos hc]

end Seam

/-! ### Whole texts -/

/-- The text is a mark, or none, and the chunks behind it, which begin at the point. -/
structure Chunked (cs mark : List Char) (p : Point) (ks : List Chunk) : Prop where
  text : cs = mark ++ chars ks
  point : p = Point.origin.advance mark
  skip : skipMark cs = (p, chars ks)
  scans : ∃ m, Scans [] [] ks m

theorem exists_chunked (cs : List Char) : ∃ mark p ks, Chunked cs mark p ks := by
  obtain ⟨mark, hcs, hp⟩ := skipMark_eq cs
  obtain ⟨ks, m, hks, hscans⟩ := exists_scans [] (skipMark cs).2
  refine ⟨mark, _, ks, ?_, rfl, by rw [hks, ← hp], m, hscans⟩
  rw [hks]
  exact hcs

section Chunked
variable {cs mark : List Char} {p : Point} {ks : List Chunk} (h : Chunked cs mark p ks)
include h

theorem Chunked.lex : lex cs = locate p ks := by
  obtain ⟨m, hscans⟩ := h.scans
  rw [← lexFrom_chars hscans]
  unfold Lexer.lex
  rw [h.skip]

theorem Chunked.solid : Solid ks := by
  obtain ⟨_, hscans⟩ := h.scans
  exact solid_of_scans hscans

theorem Chunked.offset : p.offset = bytes mark := by
  rw [h.point, Point.offset_advance]
  exact Nat.zero_add _

/-- The first lexeme or comment is a chunk. -/
theorem Chunked.firstPoint : ∃ front back, ks = front ++ back ∧
    firstPoint cs = p.advance (chars front) := by
  obtain ⟨_, hscans⟩ := h.scans
  obtain ⟨front, rest, hks, hfront⟩ := exists_leading hscans
  refine ⟨front, rest, hks, ?_⟩
  unfold Lexer.firstPoint
  rw [h.skip, hfront]

/-- Braces put into a text leave its mark alone. -/
theorem Chunked.skip_woven {is : List Item} (his : source is = ks) :
    skipMark (mark ++ chars (woven is)) = (p, chars (woven is)) := by
  have hskip := h.skip
  have hsolid := h.solid
  rw [h.text] at hskip
  by_cases hmark : ∃ rest, mark ++ chars ks = '\uFEFF' :: rest
  · obtain ⟨rest, hrest⟩ := hmark
    rw [hrest] at hskip
    cases hskip
    obtain rfl : mark = ['\uFEFF'] := List.append_cancel_right (hrest : _ = ['\uFEFF'] ++ _)
    rfl
  · have hplain : ∀ {cs : List Char}, (¬∃ rest, cs = '\uFEFF' :: rest) →
        skipMark cs = (Point.origin, cs) := fun {cs} hcs => by
      unfold skipMark
      split
      · exact absurd ⟨_, rfl⟩ hcs
      · rfl
    rw [hplain hmark] at hskip
    obtain ⟨rfl, hchars⟩ := Prod.mk.inj hskip
    obtain rfl : mark = [] := List.append_cancel_right (hchars : _ = [] ++ _)
    refine hplain fun ⟨rest, hrest⟩ => hmark ?_
    subst his
    cases is with
    | nil => cases hrest
    | cons i is =>
      cases i with
      | kept k =>
        obtain ⟨c, t, hk⟩ := List.exists_cons_of_ne_nil (hsolid k List.mem_cons_self)
        rw [woven_kept, List.nil_append, chars_cons, hk] at hrest
        cases hrest
        exact ⟨_, by rw [source_kept, chars_cons, hk]; rfl⟩
      | opening => cases hrest
      | closing => cases hrest

theorem Chunked.lex_woven {is : List Item} (his : source is = ks) :
    Lexer.lex (mark ++ chars (woven is)) = lexFrom [] p [] (chars (woven is)) := by
  unfold Lexer.lex
  rw [h.skip_woven his]

end Chunked

theorem exists_lexeme {p : Point} {ks : List Chunk} {k : Chunk} {kind : LexemeKind} (hk : k ∈ ks)
    (hkind : k.kind = some kind) : ∃ l ∈ locate p ks, l.kind = kind := by
  obtain ⟨front, back, rfl⟩ := List.append_of_mem hk
  rw [locate_append, locate_kept hkind]
  exact ⟨_, List.mem_append_right _ List.mem_cons_self, rfl⟩

/-! ### Single statements -/

/-- A statement that is neither a block nor empty stands between the offsets, behind what leads it
in. -/
def SingleAt (ls : List Lexeme) (start stop : Nat) : Prop :=
  ∃ pre lead body rest t, ls = (pre ++ lead) ++ (body ++ rest) ∧ Lead lead ∧
    Rule.Makes Grammar.grammar Grammar.statement none body [t] ∧ t.form ≠ .block ∧
    t.start.offset = start ∧ t.stop.offset = stop

section Single
variable {p : Point} {front mid back : List Chunk} {start stop : Nat}

/-- The first and the last lexeme of a single statement. -/
theorem ends_of_body {body : List Lexeme} {t : Tree}
    (h : Rule.Makes Grammar.grammar Grammar.statement none body [t]) (hform : t.form ≠ .block) :
    (∃ l, body.head? = some l ∧ l.start = t.start ∧ ofCode l.kind = true) ∧
      ∃ l, body.getLast? = some l ∧ l.stop = t.stop ∧ Grammar.Closing l := by
  obtain ⟨hstart, hstop⟩ := Grammar.ends_of_single h hform
  obtain ⟨l, hlast, hclosing⟩ := Grammar.last_of_statement h
  refine ⟨?_, l, hlast, (hstop l hlast).symm, hclosing⟩
  cases body with
  | nil => cases hlast
  | cons k body => exact ⟨k, rfl, (hstart k rfl).symm, Grammar.ofCode_of_statement h⟩

/-- Where a single statement begins, a cut stands in front and code behind. -/
theorem start_of_single (hsolid : Solid (front ++ back))
    (h : SingleAt (locate p (front ++ back)) start stop)
    (hstart : start = p.offset + width front) :
    (∃ front' k gap, front = front' ++ k :: gap ∧ k ∈ cuts ∧ ∀ g ∈ gap, g.kind = none) ∧
      ∃ k kind, back.head? = some k ∧ k.kind = some kind ∧ ofCode kind = true := by
  obtain ⟨pre, lead, body, rest, t, hls, hlead, hmakes, hform, rfl, _⟩ := h
  obtain ⟨⟨l, hhead, hl, hcode⟩, _⟩ := ends_of_body hmakes hform
  obtain ⟨hfront, hback⟩ := locate_of_start hsolid hls (l := l)
    (by rw [List.head?_append, hhead]; rfl) (by rw [hl]; exact hstart)
  constructor
  · obtain ⟨m, hlast, hmark⟩ := hlead.last
    have hlast' : (locate p front).getLast? = some m := by
      rw [hfront, List.getLast?_append, hlast]
      rfl
    obtain ⟨front', k, gap, rfl, hgap, hk, _⟩ := last_of_locate hlast'
    refine ⟨front', k, gap, rfl, ?_, hgap⟩
    rcases hmark with hmark | hmark | hmark
    · rw [hk.symbol [')'] hmark]
      simp [cuts]
    · rw [hk.word ['e', 'l', 's', 'e'] hmark]
      simp [cuts]
    · rw [hk.word ['d', 'o'] hmark]
      simp [cuts]
  · obtain ⟨k, hk, hmakes⟩ := head_of_locate (List.forall_mem_append.mp hsolid).2 (l := l)
      (p := p.advance (chars front))
      (by rw [hback, List.head?_append, hhead]; rfl)
      (by rw [hl, offset_chars]; exact hstart)
    exact ⟨k, l.kind, hk, hmakes.1, hcode⟩

/-- A single statement ends with a cut. -/
theorem stop_of_single (hsolid : Solid (front ++ back))
    (h : SingleAt (locate p (front ++ back)) start stop)
    (hstop : stop = p.offset + width front) :
    ∃ front' k, front = front' ++ [k] ∧ k ∈ cuts ∧ k.kind = some .symbol := by
  obtain ⟨pre, lead, body, rest, t, hls, _, hmakes, hform, _, rfl⟩ := h
  obtain ⟨_, l, hlast, hl, hclosing⟩ := ends_of_body hmakes hform
  have hlast' : (pre ++ lead ++ body).getLast? = some l := by
    rw [List.getLast?_append, hlast]
    rfl
  rw [← List.append_assoc] at hls
  obtain ⟨hfront, _⟩ := locate_of_stop hsolid hls hlast' (by rw [hl]; exact hstop)
  rw [← hfront] at hlast'
  obtain ⟨front', k, gap, rfl, _, hk, hend⟩ := last_of_locate hlast'
  -- Nothing of the text stands behind the chunk of the lexeme, so no other chunk does.
  have hnil : gap = [] := by
    cases gap with
    | nil => rfl
    | cons g gap =>
      have hpos := bytes_pos (hsolid g (by simp))
      have hoffset := congrArg Point.offset hend
      simp only [hl, offset_chars, width_append, width_cons, width_nil] at hoffset hstop
      omega
  subst hnil
  refine ⟨front', k, rfl, ?_⟩
  rcases hclosing with h | h
  · rw [hk.symbol [';'] h]
    simp [cuts]
  · rw [hk.symbol ['\x7d'] h]
    simp [cuts]

/-- A single statement may be put in braces. -/
theorem wraps_of_single (hsolid : Solid (front ++ (mid ++ back)))
    (h : SingleAt (locate p (front ++ (mid ++ back))) start stop)
    (hstart : start = p.offset + width front)
    (hstop : stop = start + width mid) : Wraps mid := by
  have hend := h
  obtain ⟨pre, lead, body, rest, t, hls, _, hmakes, hform, rfl, rfl⟩ := h
  obtain ⟨⟨l, hhead, hl, hcode⟩, l', hlast, hl', _⟩ := ends_of_body hmakes hform
  obtain ⟨_, hbehind⟩ := locate_of_start hsolid hls (l := l)
    (by rw [List.head?_append, hhead]; rfl) (by rw [hl]; exact hstart)
  have hrest := (List.forall_mem_append.mp hsolid).2
  obtain ⟨hmid, _⟩ := locate_of_stop hrest hbehind hlast
    (by rw [hl', hstop, hstart, offset_chars])
  obtain ⟨k, hk, hkind⟩ := head_of_locate (List.forall_mem_append.mp hrest).1
    (p := p.advance (chars front)) (by rw [hmid]; exact hhead)
    (by rw [hl, offset_chars]; exact hstart)
  refine ⟨fun q => ?_, ⟨k, l.kind, hk, hkind.1, hcode⟩, ?_⟩
  · rw [depth?_locate q (p.advance (chars front)), hmid]
    exact Grammar.level_of_makes .curly hmakes 0
  · rw [← List.append_assoc] at hsolid hend
    obtain ⟨front', j, heq, _, hj⟩ := stop_of_single hsolid hend
      (by rw [hstop, hstart, width_append, Nat.add_assoc])
    have hne : mid ≠ [] := fun h => by
      rw [h] at hk
      cases hk
    refine ⟨j, ?_, hj⟩
    rw [← List.getLast?_append_of_ne_nil front hne, heq]
    exact List.getLast?_concat

end Single

end Lexer

end Retrace.Java
