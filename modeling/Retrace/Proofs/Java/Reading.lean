import Retrace.Proofs.Java.Spans

/-! Where the nodes stand that a rule gives.

`Tree.Stands` says that a node takes up text and that its children stand inside of it, one after
the other. What spans lexemes that stand in order stands that way (`row_of_allSpan`). -/
namespace Retrace.Java

/-- A block begins in front of its children and ends behind them. -/
def Braced (form : Form) (start stop : Point) (children : List Tree) : Prop :=
  form = .block → ∀ t ∈ children, start.Lt t.start ∧ t.stop.Lt stop

mutual

/-- The node takes up text and has its children inside of it. -/
def Tree.Stands : Tree → Prop
  | .node form _ start stop _ children =>
    start.Roomy ∧ start.Lt stop ∧ Row start stop children ∧ Braced form start stop children

/-- Trees that stand between two points, one after the other. -/
def Row (p q : Point) : List Tree → Prop
  | [] => True
  | t :: ts => p.Le t.start ∧ t.stop.Le q ∧ t.Stands ∧ Row t.stop q ts

end

theorem Tree.Stands.lt {t : Tree} (h : t.Stands) : t.start.Lt t.stop := by
  cases t
  rw [Tree.Stands] at h
  exact h.2.1

theorem Tree.Stands.roomy {t : Tree} (h : t.Stands) : t.start.Roomy := by
  cases t
  rw [Tree.Stands] at h
  exact h.1

theorem Row.weaken {p p' q : Point} {ts : List Tree} (h : Row p q ts) (hp : p'.Le p) :
    Row p' q ts := by
  cases ts with
  | nil => rw [Row]; trivial
  | cons t ts =>
    rw [Row] at h ⊢
    exact ⟨hp.trans h.1, h.2⟩

theorem Row.extend {p q r : Point} {ts : List Tree} (h : Row p r ts) (hr : r.Le q) :
    Row p q ts := by
  induction ts generalizing p with
  | nil => rw [Row]; trivial
  | cons t ts ih =>
    rw [Row] at h ⊢
    exact ⟨h.1, h.2.1.trans hr, h.2.2.1, ih h.2.2.2⟩

theorem stands_of_mem {p q : Point} {ts : List Tree} (h : Row p q ts) {t : Tree} (ht : t ∈ ts) :
    t.Stands ∧ p.Le t.start ∧ t.stop.Le q := by
  induction ts generalizing p with
  | nil => cases ht
  | cons u us ih =>
    rw [Row] at h
    obtain ⟨hstart, hstop, hstands, hrest⟩ := h
    rcases List.mem_cons.mp ht with rfl | ht
    · exact ⟨hstands, hstart, hstop⟩
    · obtain ⟨hstands', hle, hstop'⟩ := ih hrest ht
      exact ⟨hstands', (hstart.trans (Point.le_of_lt hstands.lt)).trans hle, hstop'⟩

/-! ### Where the lexemes stand -/

theorem Chained.front {p q : Point} {ls : List Lexeme} {l : Lexeme} (h : Chained p q ls)
    (hl : ls.head? = some l) : p.Le l.start ∧ l.start.Roomy ∧ Chained l.start q ls := by
  cases ls with
  | nil => cases hl
  | cons k ls =>
    cases hl
    exact ⟨h.1, h.2.1, Point.le_refl _, h.2⟩

/-- Lexemes in order stand in front of the end of the last one, and what follows behind it. -/
theorem Chained.split {p q : Point} {ls rest : List Lexeme} {l : Lexeme}
    (h : Chained p q (ls ++ rest)) (hl : ls.getLast? = some l) :
    Chained p l.stop ls ∧ Chained l.stop q rest := by
  induction ls generalizing p with
  | nil => cases hl
  | cons k ls ih =>
    obtain ⟨hstart, hroomy, hlt, hrest⟩ := h
    cases ls with
    | nil =>
      cases hl
      exact ⟨⟨hstart, hroomy, hlt, Point.le_refl _⟩, hrest⟩
    | cons k' ls =>
      rw [List.getLast?_cons_cons] at hl
      obtain ⟨hfront, hback⟩ := ih hrest hl
      exact ⟨⟨hstart, hroomy, hlt, hfront⟩, hback⟩

theorem Chained.drop {p q : Point} {gap ls : List Lexeme} (h : Chained p q (gap ++ ls)) :
    Chained p q ls := by
  induction gap generalizing p with
  | nil => exact h
  | cons k gap ih =>
    obtain ⟨hstart, _, hlt, hrest⟩ := h
    exact (ih hrest).weaken (hstart.trans (Point.le_of_lt hlt))

theorem Chained.front_of_concat {p q : Point} {c : Lexeme} {ls : List Lexeme}
    (h : Chained p q (ls ++ [c])) : Chained p c.start ls ∧ c.start.Lt c.stop := by
  induction ls generalizing p with
  | nil => exact ⟨h.1, h.2.2.1⟩
  | cons k ls ih =>
    obtain ⟨hstart, hroomy, hlt, hrest⟩ := h
    obtain ⟨hfront, hlast⟩ := ih hrest
    exact ⟨⟨hstart, hroomy, hlt, hfront⟩, hlast⟩

mutual

theorem stands_of_spans {p q : Point} {t : Tree} {ls : List Lexeme} (h : t.Spans ls)
    (hls : Chained p q ls) : t.Stands := by
  obtain ⟨form, slot, start, stop, word, children⟩ := t
  rw [Tree.Spans] at h
  obtain ⟨⟨l, hhead, rfl⟩, ⟨k, hlast, rfl⟩, inner, hcontent, hspans⟩ := h
  obtain ⟨_, hroomy, hstart⟩ := hls.front hhead
  obtain ⟨hchained, _⟩ := (show Chained l.start q (ls ++ []) by rwa [List.append_nil]).split hlast
  have hlt : l.start.Lt k.stop := by
    obtain ⟨rest, rfl⟩ := List.head?_eq_some_iff.mp hhead
    exact hchained.2.2.1.trans_le hchained.2.2.2.le
  rw [Tree.Stands]
  unfold Content at hcontent
  cases hform : fenced form with
  | false =>
    rw [hform] at hcontent
    obtain rfl : inner = ls := hcontent
    refine ⟨hroomy, hlt, row_of_allSpan hspans hchained, fun heq => ?_⟩
    rw [heq] at hform
    cases hform
  | true =>
    rw [hform] at hcontent
    obtain ⟨o, c, rfl, _⟩ := hcontent
    obtain rfl : o = l := by simpa using hhead
    rw [show o :: (inner ++ [c]) = (o :: inner) ++ [c] from rfl, List.getLast?_concat] at hlast
    obtain rfl : c = k := by simpa using hlast
    obtain ⟨_, _, hopen, hrest⟩ := hchained
    obtain ⟨hinner, hclose⟩ := hrest.front_of_concat
    have hrow := row_of_allSpan hspans hinner
    refine ⟨hroomy, hlt, (hrow.weaken (Point.le_of_lt hopen)).extend (Point.le_of_lt hclose),
      fun _ t ht => ?_⟩
    obtain ⟨_, hfirst, hstop⟩ := stands_of_mem hrow ht
    exact ⟨hopen.trans_le hfirst, hstop.trans_lt hclose⟩

/-- Trees that span lexemes in order stand as the lexemes do. -/
theorem row_of_allSpan {p q : Point} {ts : List Tree} {ls : List Lexeme} (h : AllSpan ts ls)
    (hls : Chained p q ls) : Row p q ts := by
  cases ts with
  | nil => rw [Row]; trivial
  | cons t ts =>
    rw [AllSpan] at h
    obtain ⟨gap, own, rest, rfl, ht, hts⟩ := h
    obtain ⟨l, hhead, hstart⟩ := ht.start
    obtain ⟨k, hlast, hstop⟩ := ht.stop
    obtain ⟨hown, hrest⟩ := hls.drop.split hlast
    rw [Row, ← hstart, ← hstop]
    exact ⟨(hown.front hhead).1, hrest.le, stands_of_spans ht hown, row_of_allSpan hts hrest⟩

end

end Retrace.Java
