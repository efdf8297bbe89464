import Retrace.Source.Range

/-! How ranges lie to one another.

A range is proper when it ends no earlier than it begins, as the range of every node does that
takes up text. Of two proper ranges at most one stands before the other, and neither stands before
a range that it has a position in common with. -/
namespace Retrace.Source

namespace Position

theorem le_iff {a b : Position} :
    a.le b = true ↔ a.line < b.line ∨ a.line = b.line ∧ a.column ≤ b.column := by
  simp [le]

theorem lt_iff {a b : Position} :
    a.lt b = true ↔ a.line < b.line ∨ a.line = b.line ∧ a.column < b.column := by
  simp [lt]

theorem lt_irrefl (a : Position) : a.lt a = false := by
  simp [lt]

theorem le_of_lt {a b : Position} (h : a.lt b = true) : a.le b = true := by
  simp only [lt, le, Bool.or_eq_true, Bool.and_eq_true, decide_eq_true_eq, beq_iff_eq] at *
  grind

theorem lt_of_le_of_lt {a b c : Position} (hab : a.le b = true) (hbc : b.lt c = true) :
    a.lt c = true := by
  simp only [lt, le, Bool.or_eq_true, Bool.and_eq_true, decide_eq_true_eq, beq_iff_eq] at *
  grind

theorem lt_of_lt_of_le {a b c : Position} (hab : a.lt b = true) (hbc : b.le c = true) :
    a.lt c = true := by
  simp only [lt, le, Bool.or_eq_true, Bool.and_eq_true, decide_eq_true_eq, beq_iff_eq] at *
  grind

end Position

namespace Range

/-- All of `a` stands in front of `b`. -/
def Before (a b : Range) : Prop := a.last.lt b.first = true

/-- The two have no position in common. -/
def Apart (a b : Range) : Prop := a.Before b ∨ b.Before a

def Proper (r : Range) : Prop := r.first.le r.last = true

theorem Apart.symm {a b : Range} (h : a.Apart b) : b.Apart a := Or.symm h

theorem contains_iff {a b : Range} :
    a.contains b = true ↔ a.first.le b.first = true ∧ b.last.le a.last = true := by
  simp [contains]

theorem contains_antisymm {a b : Range} (hab : a.contains b = true) (hba : b.contains a = true) :
    a = b := by
  obtain ⟨hfirst, hlast⟩ := contains_iff.mp hab
  obtain ⟨hfirst', hlast'⟩ := contains_iff.mp hba
  have hf := Position.le_antisymm hfirst hfirst'
  have hl := Position.le_antisymm hlast hlast'
  cases a
  cases b
  simp only [first, last, Position.mk.injEq] at hf hl
  simp [hf, hl]

theorem contains_of_strictlyContains {a b : Range} (h : a.strictlyContains b = true) :
    a.contains b = true := by
  simp only [strictlyContains, Bool.and_eq_true] at h
  exact contains_iff.mpr ⟨Position.le_of_lt h.1, Position.le_of_lt h.2⟩

theorem strictlyContains_iff {a b : Range} :
    a.strictlyContains b = true ↔ a.first.lt b.first = true ∧ b.last.lt a.last = true := by
  simp [strictlyContains]

theorem strictlyContains_mono {a a' b b' : Range} (ha : a'.contains a = true)
    (h : a.strictlyContains b = true) (hb : b.contains b' = true) :
    a'.strictlyContains b' = true := by
  obtain ⟨hfirst, hlast⟩ := strictlyContains_iff.mp h
  obtain ⟨hfirst', hlast'⟩ := contains_iff.mp ha
  obtain ⟨hfirst'', hlast''⟩ := contains_iff.mp hb
  exact strictlyContains_iff.mpr
    ⟨Position.lt_of_le_of_lt hfirst' (Position.lt_of_lt_of_le hfirst hfirst''),
      Position.lt_of_le_of_lt hlast'' (Position.lt_of_lt_of_le hlast hlast')⟩

theorem strictlyContains_irrefl (a : Range) : a.strictlyContains a = false := by
  simp [strictlyContains, Position.lt_irrefl]

theorem Before.mono {a b a' b' : Range} (h : a.Before b) (ha : a.contains a' = true)
    (hb : b.contains b' = true) : a'.Before b' :=
  Position.lt_of_le_of_lt (contains_iff.mp ha).2
    (Position.lt_of_lt_of_le h (contains_iff.mp hb).1)

theorem Before.trans {a b c : Range} (hab : a.Before b) (hb : b.Proper) (hbc : b.Before c) :
    a.Before c :=
  Position.lt_of_lt_of_le hab (Position.le_of_lt (Position.lt_of_le_of_lt hb hbc))

theorem Before.asymm {a b : Range} (ha : a.Proper) (hb : b.Proper) (h : a.Before b) :
    ¬b.Before a := by
  intro hback
  have hloop : a.first.lt a.first = true :=
    Position.lt_of_le_of_lt ha (Position.lt_of_lt_of_le h
      (Position.le_of_lt (Position.lt_of_le_of_lt hb hback)))
  rw [Position.lt_irrefl] at hloop
  cases hloop

theorem Apart.mono {a b a' b' : Range} (h : a.Apart b) (ha : a.contains a' = true)
    (hb : b.contains b' = true) : a'.Apart b' :=
  h.imp (fun h => h.mono ha hb) (fun h => h.mono hb ha)

theorem Proper.of_contains {a b : Range} (hb : b.Proper) (h : a.contains b = true) : a.Proper :=
  Position.le_trans (Position.le_trans (contains_iff.mp h).1 hb) (contains_iff.mp h).2

theorem overlaps_eq_false_iff {a b : Range} : a.overlaps b = false ↔ a.Apart b := by
  unfold overlaps Apart Before
  rw [Bool.and_eq_false_iff, Position.not_le, Position.not_le]
  exact Or.comm

theorem not_contains_of_apart {a b : Range} (hb : b.Proper) (h : a.Apart b) :
    a.contains b = false := by
  cases hc : a.contains b with
  | false => rfl
  | true =>
    obtain ⟨hfirst, hlast⟩ := contains_iff.mp hc
    rcases h with h | h
    · have := Position.lt_of_lt_of_le (Position.lt_of_lt_of_le h hb) hlast
      rw [Position.lt_irrefl] at this
      exact absurd this (by decide)
    · have := Position.lt_of_lt_of_le (Position.lt_of_lt_of_le h hfirst) hb
      rw [Position.lt_irrefl] at this
      exact absurd this (by decide)

/-- Ranges that lie apart are not nested in each other, so no part of one is a part of the other. -/
theorem not_apart_of_contains {a b : Range} (hb : b.Proper) (h : a.contains b = true) :
    ¬a.Apart b := by
  intro hapart
  rw [not_contains_of_apart hb hapart] at h
  cases h

/-- A range that goes from one range to a later one contains the two. -/
theorem contains_of_spanning {a b : Range} (ha : a.Proper) (hb : b.Proper) (h : a.Before b) :
    (spanning a b).contains a = true ∧ (spanning a b).contains b = true :=
  ⟨contains_iff.mpr ⟨Position.le_refl _, Position.le_trans (Position.le_of_lt h) hb⟩,
    contains_iff.mpr ⟨Position.le_trans ha (Position.le_of_lt h), Position.le_refl _⟩⟩

end Range

end Retrace.Source
