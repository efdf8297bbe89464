/-! Positions and ranges of source text.

Lines and columns count from one, columns in bytes, and a range includes its end. A range's
positions are ordered by line, then by column. -/
namespace Retrace.Source

structure Position where
  line : UInt32
  column : UInt32
  deriving DecidableEq, Repr, Inhabited

namespace Position

def lt (a b : Position) : Bool :=
  a.line < b.line || (a.line == b.line && a.column < b.column)

def le (a b : Position) : Bool :=
  a.line < b.line || (a.line == b.line && a.column ≤ b.column)

def compare (a b : Position) : Ordering :=
  if a.lt b then .lt else if a == b then .eq else .gt

theorem le_refl (a : Position) : a.le a = true := by
  simp [le]

theorem le_trans {a b c : Position} (hab : a.le b = true) (hbc : b.le c = true) :
    a.le c = true := by
  simp only [le, Bool.or_eq_true, Bool.and_eq_true, decide_eq_true_eq, beq_iff_eq] at *
  grind

theorem le_antisymm {a b : Position} (hab : a.le b = true) (hba : b.le a = true) : a = b := by
  cases a
  cases b
  simp only [le, Bool.or_eq_true, Bool.and_eq_true, decide_eq_true_eq, beq_iff_eq,
    Position.mk.injEq] at *
  grind

theorem not_le {a b : Position} : a.le b = false ↔ b.lt a = true := by
  simp only [le, lt, Bool.or_eq_true, Bool.and_eq_true, decide_eq_true_eq, beq_iff_eq,
    Bool.or_eq_false_iff, Bool.and_eq_false_iff, decide_eq_false_iff_not]
  grind

end Position

structure Range where
  beginLine : UInt32
  beginCol : UInt32
  endLine : UInt32
  endCol : UInt32
  deriving DecidableEq, Repr, Inhabited

namespace Range

def first (r : Range) : Position := ⟨r.beginLine, r.beginCol⟩

def last (r : Range) : Position := ⟨r.endLine, r.endCol⟩

def ofPositions (first last : Position) : Range :=
  ⟨first.line, first.column, last.line, last.column⟩

/-- From where `a` begins to where `b` ends. -/
def spanning (a b : Range) : Range :=
  ofPositions a.first b.last

/-- `b` lies inside `a`; the two may share a bound. -/
def contains (a b : Range) : Bool :=
  a.first.le b.first && b.last.le a.last

/-- `b` lies inside `a` and shares neither bound with it. -/
def strictlyContains (a b : Range) : Bool :=
  a.first.lt b.first && b.last.lt a.last

/-- The two ranges have a position in common. -/
def overlaps (a b : Range) : Bool :=
  a.first.le b.last && b.first.le a.last

def coversLine (r : Range) (line : UInt32) : Bool :=
  r.beginLine ≤ line && line ≤ r.endLine

def text (r : Range) : String :=
  s!"({r.beginLine},{r.beginCol})-({r.endLine},{r.endCol})"

theorem contains_refl (r : Range) : r.contains r = true := by
  simp [contains, Position.le_refl]

theorem contains_trans {a b c : Range} (hab : a.contains b = true) (hbc : b.contains c = true) :
    a.contains c = true := by
  simp only [contains, Bool.and_eq_true] at *
  exact ⟨Position.le_trans hab.1 hbc.1, Position.le_trans hbc.2 hab.2⟩

theorem overlaps_comm (a b : Range) : a.overlaps b = b.overlaps a := by
  simp [overlaps, Bool.and_comm]

end Range

end Retrace.Source
