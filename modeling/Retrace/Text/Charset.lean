/-! Sets of characters.

A set of code points is kept as the ascending list of the points at which membership turns
over: before the first turn nothing belongs, from the first up to the second everything
does, and so on. `Charset.contains` walks the turns that lie at or below a character. -/
namespace Retrace.Text

structure Charset where
  turns : List Nat

namespace Charset

/-- The state after all turns up to `n`, when `inside` holds before the first of them. -/
def crossed (n : Nat) : List Nat → Bool → Bool
  | [], inside => inside
  | t :: ts, inside => if t ≤ n then crossed n ts (!inside) else inside

def contains (s : Charset) (c : Char) : Bool :=
  crossed c.toNat s.turns false

theorem crossed_not (n : Nat) (ts : List Nat) (inside : Bool) :
    crossed n ts (!inside) = !crossed n ts inside := by
  induction ts generalizing inside with
  | nil => rfl
  | cons t ts ih =>
    unfold crossed
    split
    · exact ih _
    · rfl

/-- A character below every turn is outside. -/
theorem contains_of_lt {s : Charset} {c : Char} (h : ∀ t ∈ s.turns, c.toNat < t) :
    s.contains c = false := by
  cases s with
  | mk turns =>
    cases turns with
    | nil => rfl
    | cons t ts =>
      have ht := h t (List.mem_cons_self ..)
      simp [contains, crossed, Nat.not_le.mpr ht]

end Charset

end Retrace.Text
