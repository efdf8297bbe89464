import Retrace.Text.Blank

/-! Words and natural numbers in a text.

`words` gives the maximal runs of characters that are not blank. `natural?` reads a number that
has to fill the whole text and to stay below a limit. -/
namespace Retrace.Text

def words (cs : List Char) : List (List Char) :=
  (cs.splitBy fun a b => isBlank a == isBlank b).filter fun run => !run.all isBlank

theorem not_blank_of_mem_words {cs w : List Char} (h : w ∈ words cs) : w.all isBlank = false := by
  simpa [words] using (List.mem_filter.mp h).2

def digitsValue (cs : List Char) : Nat :=
  cs.foldl (fun n c => 10 * n + (c.toNat - '0'.toNat)) 0

/-- One plus sign may stand before the digits. -/
def dropPlus : List Char → List Char
  | '+' :: cs => cs
  | cs => cs

/-- One or more decimal digits, after an optional plus sign, of a value below `limit`. -/
def natural? (limit : Nat) (cs : List Char) : Option Nat :=
  let digits := dropPlus cs
  if digits ≠ [] ∧ digits.all Char.isDigit ∧ digitsValue digits < limit then
    some (digitsValue digits)
  else
    none

theorem natural?_lt {limit n : Nat} {cs : List Char} (h : natural? limit cs = some n) :
    n < limit := by
  unfold natural? at h
  grind

end Retrace.Text
