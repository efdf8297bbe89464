import Retrace.Text.Words

/-! Numbers are read back from their decimal texts (`natural?_toString`), also where more text that
does not go on with a digit stands behind them (`toString_append_inj`). -/
namespace Retrace.Text

theorem dropPlus_eq_self {cs : List Char} (h : ∀ c ∈ cs, c.isDigit = true) : dropPlus cs = cs := by
  unfold dropPlus
  split
  · rename_i rest
    have := h '+' List.mem_cons_self
    cases this
  · rfl

theorem natural?_toString {limit n : Nat} (h : n < limit) :
    natural? limit (toString n).toList = some n := by
  have htext : (toString n).toList = Nat.toDigits 10 n := Nat.toList_repr
  have hdigits : ∀ c ∈ Nat.toDigits 10 n, c.isDigit = true :=
    fun c hc => Nat.isDigit_of_mem_toDigits (by decide) (by decide) hc
  have hvalue : digitsValue (Nat.toDigits 10 n) = n := by
    have hread := Nat.ofDigitChars_ten_toDigits (n := n)
    rw [Nat.ofDigitChars_eq_foldl] at hread
    exact hread
  unfold natural?
  rw [htext, dropPlus_eq_self hdigits]
  dsimp only
  rw [hvalue]
  exact if_pos ⟨Nat.toDigits_ne_nil, List.all_eq_true.mpr hdigits, h⟩

theorem toString_injective {m n : Nat} (h : toString m = toString n) : m = n := by
  have hm := natural?_toString (Nat.lt_succ_of_le (Nat.le_max_left m n))
  have hn := natural?_toString (Nat.lt_succ_of_le (Nat.le_max_right m n))
  rw [h, hn] at hm
  exact (Option.some.inj hm).symm

theorem toString_append_inj {m n : Nat} {a b : Char} {xs ys : List Char}
    (ha : a.isDigit = false) (hb : b.isDigit = false)
    (h : (toString m).toList ++ a :: xs = (toString n).toList ++ b :: ys) :
    m = n ∧ a :: xs = b :: ys := by
  have hdigits : ∀ {k : Nat}, ∀ c ∈ (toString k).toList, c.isDigit = true := fun {k} c hc =>
    Nat.isDigit_of_mem_toDigits (by decide) (by decide) (Nat.toList_repr (n := k) ▸ hc)
  have htexts := congrArg (List.takeWhile Char.isDigit) h
  rw [List.takeWhile_append_of_pos hdigits, List.takeWhile_append_of_pos hdigits,
    List.takeWhile_cons_of_neg (Bool.eq_false_iff.mp ha),
    List.takeWhile_cons_of_neg (Bool.eq_false_iff.mp hb), List.append_nil,
    List.append_nil] at htexts
  obtain rfl := toString_injective (String.toList_inj.mp htexts)
  exact ⟨rfl, List.append_cancel_left h⟩

end Retrace.Text
