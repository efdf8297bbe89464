import Retrace.Java.Lexer
import Retrace.Proofs.Java.Points

/-! Where the lexemes of a text stand.

The lexemes of a text are cut out of it one after the other (`cut_lex`). What a lexeme is does not
matter for that: each step of the lexer takes at least one character. So each lexeme has its own
part of the text between its offsets (`Cut.partOf`), and the lexemes lie apart (`Cut.apart`). As
long as words can count the bytes of the text, they also stand one after the other by their lines
and columns (`chained_lex`). -/
namespace Retrace.Java

/-- The lexemes are parts of the text, one after the other; the text begins at the point. -/
def Cut : Point → List Char → List Lexeme → Prop
  | _, _, [] => True
  | p, cs, l :: ls => ∃ gap back, cs = gap ++ (l.text.toList ++ back) ∧ l.text.toList ≠ [] ∧
    l.start = p.advance gap ∧ l.stop = l.start.advance l.text.toList ∧ Cut l.stop back ls

theorem Cut.skip {p : Point} {gap cs : List Char} {ls : List Lexeme}
    (h : Cut (p.advance gap) cs ls) : Cut p (gap ++ cs) ls := by
  cases ls with
  | nil => trivial
  | cons l ls =>
    obtain ⟨gap', back, rfl, hne, hstart, hrest⟩ := h
    exact ⟨gap ++ gap', back, by rw [List.append_assoc], hne,
      hstart.trans (Point.advance_append _ _ _).symm, hrest⟩

/-- The lexeme is what the text has between its offsets. -/
def Lexeme.PartOf (cs : List Char) (l : Lexeme) : Prop :=
  l.text.toList ≠ [] ∧ ∃ front back, cs = front ++ (l.text.toList ++ back) ∧
    l.start.offset = bytes front ∧ l.stop.offset = bytes front + bytes l.text.toList

theorem Cut.partOf {p : Point} {front cs : List Char} {ls : List Lexeme} (h : Cut p cs ls)
    (hp : p.offset = bytes front) : ∀ l ∈ ls, l.PartOf (front ++ cs) := by
  induction ls generalizing p front cs with
  | nil => exact fun l hl => nomatch hl
  | cons l ls ih =>
    obtain ⟨gap, back, rfl, hne, hstart, hstop, hrest⟩ := h
    have hfront : l.start.offset = bytes (front ++ gap) := by
      rw [hstart, Point.offset_advance, hp, bytes_append]
    have hback : l.stop.offset = bytes (front ++ gap) + bytes l.text.toList := by
      rw [hstop, Point.offset_advance, hfront]
    refine List.forall_mem_cons.mpr ⟨⟨hne, front ++ gap, back, by simp, hfront, hback⟩, ?_⟩
    have hparts := ih hrest (hback.trans (bytes_append _ _).symm)
    simpa using hparts

theorem Lexeme.PartOf.lt {cs : List Char} {l : Lexeme} (h : l.PartOf cs) :
    l.start.offset < l.stop.offset := by
  obtain ⟨hne, front, back, _, hstart, hstop⟩ := h
  have hpos := bytes_pos hne
  omega

theorem Cut.le_start {p : Point} {cs : List Char} {ls : List Lexeme} (h : Cut p cs ls) :
    ∀ l ∈ ls, p.offset ≤ l.start.offset := by
  induction ls generalizing p cs with
  | nil => exact fun l hl => nomatch hl
  | cons l ls ih =>
    obtain ⟨gap, back, rfl, _, hstart, hstop, hrest⟩ := h
    have hle : p.offset ≤ l.start.offset := by
      rw [hstart, Point.offset_advance]
      omega
    refine List.forall_mem_cons.mpr ⟨hle, fun k hk => Nat.le_trans ?_ (ih hrest k hk)⟩
    rw [hstop, Point.offset_advance]
    omega

theorem Cut.apart {p : Point} {cs : List Char} {ls : List Lexeme} (h : Cut p cs ls) :
    ls.Pairwise fun a b => a.stop.offset ≤ b.start.offset := by
  induction ls generalizing p cs with
  | nil => exact List.Pairwise.nil
  | cons l ls ih =>
    obtain ⟨gap, back, rfl, _, _, _, hrest⟩ := h
    exact List.pairwise_cons.mpr ⟨hrest.le_start, ih hrest⟩

/-- The lexemes stand between two points, one after the other. -/
def Chained (p q : Point) : List Lexeme → Prop
  | [] => p.Le q
  | l :: ls => p.Le l.start ∧ l.start.Roomy ∧ l.start.Lt l.stop ∧ Chained l.stop q ls

theorem Chained.le {p q : Point} {ls : List Lexeme} (h : Chained p q ls) : p.Le q := by
  induction ls generalizing p with
  | nil => exact h
  | cons l ls ih =>
    obtain ⟨hstart, _, hlt, hrest⟩ := h
    exact (hstart.trans (Point.le_of_lt hlt)).trans (ih hrest)

theorem Chained.weaken {p p' q : Point} {ls : List Lexeme} (h : Chained p q ls) (hp : p'.Le p) :
    Chained p' q ls := by
  cases ls with
  | nil => exact hp.trans h
  | cons l ls => exact ⟨hp.trans h.1, h.2⟩

theorem Cut.chained {limit : Nat} (hlimit : limit + 1 < 4294967296) {p : Point} {cs : List Char}
    {ls : List Lexeme} (h : Cut p cs ls) (hp : p.Sound limit) (hcs : p.offset + bytes cs ≤ limit) :
    Chained p (p.advance cs) ls := by
  induction ls generalizing p cs with
  | nil => exact (Point.advance_sound hlimit hp hcs).2
  | cons l ls ih =>
    obtain ⟨gap, back, rfl, hne, hstart, hstop, hrest⟩ := h
    rw [bytes_append, bytes_append] at hcs
    obtain ⟨hsound, hle⟩ := Point.advance_sound hlimit hp (by omega : p.offset + bytes gap ≤ limit)
    have hoffset : l.start.offset = p.offset + bytes gap := by rw [hstart, Point.offset_advance]
    have hend : l.start.offset + bytes l.text.toList ≤ limit := by omega
    rw [← hstart] at hsound hle
    have hlt := Point.lt_advance hlimit hne hsound hend
    obtain ⟨hsound', _⟩ := Point.advance_sound hlimit hsound hend
    rw [← hstop] at hlt hsound'
    have hoffset' : l.stop.offset = l.start.offset + bytes l.text.toList := by
      rw [hstop, Point.offset_advance]
    refine ⟨hle, hsound.roomy hlimit, hlt, ?_⟩
    rw [Point.advance_append, Point.advance_append, ← hstart, ← hstop]
    exact ih hrest hsound' (by omega)

namespace Lexer

/-- The lexemes found so far stay in front. -/
theorem lexFrom_found (modes : List Mode) (p : Point) (found : List Lexeme) (cs : List Char) :
    lexFrom modes p found cs = found.reverse ++ lexFrom modes p [] cs := by
  induction hn : cs.length using Nat.strongRecOn generalizing modes p found cs with
  | ind n ih =>
    cases cs with
    | nil => simp [lexFrom]
    | cons c cs =>
      rw [lexFrom, lexFrom]
      generalize step c cs modes = s
      have hrest : ∀ q ls, lexFrom s.modes q ls (cs.drop s.more) =
          ls.reverse ++ lexFrom s.modes q [] (cs.drop s.more) := fun q ls =>
        ih (cs.drop s.more).length (by simp at hn ⊢; omega) s.modes q ls (cs.drop s.more) rfl
      cases s.kind with
      | none => exact hrest _ found
      | some kind =>
        refine (hrest _ (_ :: found)).trans ?_
        rw [List.reverse_cons, List.append_assoc]
        exact congrArg (found.reverse ++ ·) (hrest _ [_]).symm

theorem cut_lexFrom (modes : List Mode) (p : Point) (cs : List Char) :
    Cut p cs (lexFrom modes p [] cs) := by
  induction hn : cs.length using Nat.strongRecOn generalizing modes p cs with
  | ind n ih =>
    cases cs with
    | nil =>
      rw [lexFrom]
      trivial
    | cons c cs =>
      rw [lexFrom]
      generalize step c cs modes = s
      have hsplit : c :: cs = (c :: cs.take s.more) ++ cs.drop s.more := by
        rw [List.cons_append, List.take_append_drop]
      have hrest := ih (cs.drop s.more).length (by simp at hn ⊢; omega) s.modes
        (p.advance (c :: cs.take s.more)) (cs.drop s.more) rfl
      rw [lexFrom_found, hsplit]
      cases s.kind with
      | none => exact hrest.skip
      | some kind =>
        refine ⟨[], cs.drop s.more, ?_, ?_, rfl, ?_, hrest⟩ <;> simp

/-- White space in front of a text is passed over. -/
theorem lexFrom_space (p : Point) (cs : List Char) :
    lexFrom [] p [] cs =
      lexFrom [] (p.advance (cs.takeWhile isSpace)) [] (cs.dropWhile isSpace) := by
  induction cs generalizing p with
  | nil => rfl
  | cons c cs ih =>
    cases hc : isSpace c with
    | false =>
      rw [List.takeWhile_cons_of_neg (by simp [hc]), List.dropWhile_cons_of_neg (by simp [hc])]
      rfl
    | true =>
      rw [List.takeWhile_cons_of_pos hc, List.dropWhile_cons_of_pos hc]
      have hstep : step c cs [] = ⟨none, 0, []⟩ := by
        unfold step codeStep
        simp [hc]
      rw [lexFrom, hstep]
      exact ih _

theorem skipMark_eq (cs : List Char) :
    ∃ mark, cs = mark ++ (skipMark cs).2 ∧ (skipMark cs).1 = Point.origin.advance mark := by
  unfold skipMark
  split
  · exact ⟨['\uFEFF'], rfl, rfl⟩
  · exact ⟨[], rfl, rfl⟩

/-- The lexemes of a text are cut out of what stands behind its first point. -/
theorem cut_lex (cs : List Char) : ∃ front rest, cs = front ++ rest ∧
    firstPoint cs = Point.origin.advance front ∧ Cut (firstPoint cs) rest (lex cs) := by
  obtain ⟨mark, hmark, hpoint⟩ := skipMark_eq cs
  unfold firstPoint lex
  generalize skipMark cs = skipped at *
  obtain ⟨p, rest⟩ := skipped
  dsimp only at hmark hpoint ⊢
  refine ⟨mark ++ rest.takeWhile isSpace, rest.dropWhile isSpace, ?_, ?_, ?_⟩
  · rw [List.append_assoc, List.takeWhile_append_dropWhile, hmark]
  · rw [hpoint, Point.advance_append]
  · rw [lexFrom_space]
    exact cut_lexFrom _ _ _

theorem partOf_lex (cs : List Char) : ∀ l ∈ lex cs, l.PartOf cs := by
  obtain ⟨front, rest, rfl, hfirst, hcut⟩ := cut_lex cs
  refine hcut.partOf ?_
  rw [hfirst, Point.offset_advance]
  exact Nat.zero_add _

/-- The lexemes of a text stand between its first point and its end. -/
theorem chained_lex {cs : List Char} (hcs : bytes cs + 1 < 4294967296) :
    (firstPoint cs).Roomy ∧ Chained (firstPoint cs) (Point.origin.advance cs) (lex cs) := by
  obtain ⟨front, rest, hsplit, hfirst, hcut⟩ := cut_lex cs
  have hbytes : bytes cs = bytes front + bytes rest := by rw [hsplit, bytes_append]
  obtain ⟨hsound, _⟩ := Point.advance_sound hcs (Point.sound_origin (bytes cs))
    (by show 0 + bytes front ≤ bytes cs; omega)
  rw [← hfirst] at hsound
  have hoffset : (firstPoint cs).offset = bytes front := by
    rw [hfirst, Point.offset_advance]
    exact Nat.zero_add _
  refine ⟨hsound.roomy hcs, ?_⟩
  have hchained := hcut.chained hcs hsound (by omega)
  rwa [hfirst, ← Point.advance_append, ← hsplit, ← hfirst] at hchained

end Lexer

end Retrace.Java
