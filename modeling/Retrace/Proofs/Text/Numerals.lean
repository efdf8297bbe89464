import Mathlib.Data.Nat.Digits.Defs
import Retrace.Proofs.Text.Words

/-! What a numeral stands for.

A numeral is one or more decimal digits, in front of which one plus sign may stand (`Denotes`).
`natural?` reads those that stand for a number below its limit, and nothing else
(`natural?_eq_some_iff`). -/
namespace Retrace.Text

/-- The text is a numeral that stands for `n`. -/
def Denotes (cs : List Char) (n : Nat) : Prop :=
  ∃ digits, (cs = digits ∨ cs = '+' :: digits) ∧ digits ≠ [] ∧
    (∀ c ∈ digits, '0' ≤ c ∧ c ≤ '9') ∧
    n = Nat.ofDigits 10 (digits.reverse.map fun c => c.toNat - '0'.toNat)

theorem digitsValue_eq_ofDigits (cs : List Char) :
    digitsValue cs = Nat.ofDigits 10 (cs.reverse.map fun c => c.toNat - '0'.toNat) := by
  rw [Nat.ofDigits_eq_foldr, List.foldr_map, List.foldr_reverse, digitsValue]
  congr 1
  funext n c
  exact Nat.add_comm _ _

theorem isDigit_iff {c : Char} : c.isDigit = true ↔ '0' ≤ c ∧ c ≤ '9' := by
  simp [Char.isDigit, Char.le_def]

theorem dropPlus_eq_or (cs : List Char) : cs = dropPlus cs ∨ cs = '+' :: dropPlus cs := by
  unfold dropPlus
  split
  · exact .inr rfl
  · exact .inl rfl

/-- Digits are what is left of a numeral without its sign. -/
theorem dropPlus_of_digits {cs digits : List Char} (h : cs = digits ∨ cs = '+' :: digits)
    (hdigits : ∀ c ∈ digits, c.isDigit = true) : dropPlus cs = digits := by
  rcases h with rfl | rfl
  · exact dropPlus_eq_self hdigits
  · rfl

theorem natural?_eq_some_iff {limit n : Nat} {cs : List Char} :
    natural? limit cs = some n ↔ Denotes cs n ∧ n < limit := by
  unfold natural? Denotes
  simp only [← digitsValue_eq_ofDigits, ← isDigit_iff]
  constructor
  · intro h
    split at h
    · rename_i hdigits
      obtain ⟨hne, hall, hlt⟩ := hdigits
      cases h
      exact ⟨⟨_, dropPlus_eq_or cs, hne, List.all_eq_true.mp hall, rfl⟩, hlt⟩
    · cases h
  · rintro ⟨⟨digits, hcs, hne, hall, rfl⟩, hlt⟩
    rw [dropPlus_of_digits hcs hall]
    exact if_pos ⟨hne, List.all_eq_true.mpr hall, hlt⟩

/-- A numeral stands for one number. -/
theorem Denotes.unique {cs : List Char} {m n : Nat} (hm : Denotes cs m) (hn : Denotes cs n) :
    m = n := by
  have hm' := natural?_eq_some_iff.mpr ⟨hm, Nat.lt_succ_of_le (Nat.le_max_left m n)⟩
  have hn' := natural?_eq_some_iff.mpr ⟨hn, Nat.lt_succ_of_le (Nat.le_max_right m n)⟩
  exact Option.some.inj (hm'.symm.trans hn')

theorem denotes_toString (n : Nat) : Denotes (toString n).toList n :=
  (natural?_eq_some_iff.mp (natural?_toString (Nat.lt_succ_self n))).1

end Retrace.Text
